/-
# Acceptance: what is grammatical is read

No step of the reader fails on a value that obeys the rules, but for the limit of the nesting.
A reading therefore either succeeds or reports the limit (`Settles`), and so does each row of
readings in it: the values that are still to be read are grammatical where the names of those before
them are known (`Ready`).

* `Recognizes.settles`: a level of the reader is complete if the levels below recognize what they
  read.
* `recognizes_readerAt`: all levels recognize what they read, by induction from the inside.
* `fits_of_readerAt`: what is read has no more schemas inside one another than there are levels.
* `reader_eq_ok_iff_grammatical`: a value is read exactly if it is grammatical, where the limit is
  not reached; that is, if it has few enough schemas inside one another.
-/
import Avro.Proofs.Recognition

namespace Avro

/-! ## 1. Readings that settle -/

section Settles

variable {limit : Nat} {fits : Prop} {α β : Type} {R R' : Registry}

theorem settles_of_ok {x : Except SchemaError α} {a : α} (h : x = .ok a) : Settles limit fits x :=
  .inl ⟨a, h⟩

/-- What fits whenever the whole does settles with the whole. -/
theorem Settles.mono {fits' : Prop} {x : Except SchemaError α} (h : Settles limit fits' x)
    (hfits : fits → fits') : Settles limit fits x :=
  h.imp_right fun hx => ⟨hx.1, fun hfit => hx.2 (hfits hfit)⟩

theorem settles_bind {x : ReadM α} {f : α → ReadM β} (hx : Settles limit fits (x R))
    (hf : ∀ a R', x R = .ok (a, R') → Settles limit fits (f a R')) :
    Settles limit fits ((x >>= f) R) := by
  simp only [bind, StateT.bind, Except.bind]
  rcases hx with ⟨⟨a, R'⟩, hx⟩ | ⟨hx, hdeep⟩
  · rw [hx]
    exact hf a R' hx
  · rw [hx]
    exact .inr ⟨rfl, hdeep⟩

/-- A step that succeeds leaves the rest. -/
theorem settles_bind_of_ok {x : ReadM α} {f : α → ReadM β} {a : α} (hx : x R = .ok (a, R'))
    (hf : Settles limit fits (f a R')) : Settles limit fits ((x >>= f) R) := by
  refine settles_bind (settles_of_ok hx) fun a' S hx' => ?_
  rw [hx] at hx'
  cases hx'
  exact hf

theorem settles_bind_of_lift {x : Except SchemaError α} {f : α → ReadM β} {a : α}
    (hx : x = .ok a) (hf : Settles limit fits (f a R)) :
    Settles limit fits (((liftM x : ReadM α) >>= f) R) :=
  settles_bind_of_ok (ReadM.lift_eq_ok_iff.mpr ⟨hx, rfl⟩) hf

/-- The nesting is reported from inside as it is. -/
theorem settles_readNested {read : SchemaReader} {scope : Option String} {v : Json}
    (h : Settles limit fits (read scope v R)) :
    Settles limit fits (Schema.readNested read scope v R) := by
  rw [Schema.readNested]
  rcases h with ⟨r, h⟩ | ⟨h, hdeep⟩
  · rw [h]
    exact .inl ⟨r, rfl⟩
  · rw [h]
    exact .inr ⟨rfl, hdeep⟩

/-- A row of readings settles if each does after those before it. -/
theorem settles_mapM {read : α → ReadM β} (inv : List α → Registry → Prop)
    (step : ∀ a as R, inv (a :: as) R → Settles limit fits (read a R) ∧
      ∀ b R', read a R = .ok (b, R') → inv as R') {as : List α} (h : inv as R) :
    Settles limit fits (as.mapM read R) := by
  induction as generalizing R with
  | nil => exact settles_of_ok rfl
  | cons a as ih =>
    obtain ⟨ha, hrest⟩ := step a as R h
    rw [List.mapM_cons]
    refine settles_bind ha fun b R' hb => settles_bind (ih (hrest b R' hb)) fun bs S _ => ?_
    exact settles_of_ok rfl

end Settles

/-! ## 2. One level -/

section Complete

variable {limit levels : Nat} {fits : Prop} {read : SchemaReader} {known : List String}
  {scope : Option String} {R R' : Registry}

/-- A row of values that are grammatical one after the other, and fit if the whole does. -/
def Ready (levels : Nat) (fits : Prop) (scope : Option String) (vs : List Json) (R : Registry) :
    Prop :=
  ∃ known, R.Lists known ∧ InOrder known (vs.flatMap (positions scope)) ∧
    ∀ v ∈ vs, fits → v.Fits levels

/-- The first of a row of values settles, and leaves the row ready for the others. -/
theorem Recognizes.advance (h : Recognizes limit levels read) {v : Json} {vs : List Json}
    (hready : Ready levels fits scope (v :: vs) R) :
    Settles limit fits (read scope v R) ∧
      ∀ s R', read scope v R = .ok (s, R') → Ready levels fits scope vs R' := by
  obtain ⟨known, hR, hvs, hfits⟩ := hready
  rw [List.flatMap_cons, inOrder_append] at hvs
  obtain ⟨hfit, hothers⟩ := List.forall_mem_cons.mp hfits
  refine ⟨(h.complete hR hvs.1).mono hfit, fun s R' hread => ⟨_, ?_, hvs.2, hothers⟩⟩
  rw [(h.sound hR hread).names]
  exact hR.adds (h.adds hread)

theorem Recognizes.settles_union (h : Recognizes limit levels read) (hR : R.Lists known)
    {items : List Json} (hitems : InOrder known (items.flatMap (positions scope)))
    (hfits : ∀ v ∈ items, fits → v.Fits levels) (hunions : ∀ b ∈ items, b.isUnion = false)
    (hkeys : (keys known scope items).Nodup) :
    Settles limit fits (Schema.readWith read scope (.arr items) R) := by
  have hmapM : Settles limit fits (items.mapM (Schema.readNested read scope) R) := by
    refine settles_mapM (Ready levels fits scope) (fun v vs R hready => ?_)
      ⟨known, hR, hitems, hfits⟩
    obtain ⟨hv, hrest⟩ := h.advance hready
    exact ⟨settles_readNested hv, fun s R' hread =>
      hrest s R' (Schema.readNested_eq_ok_iff.mp hread)⟩
  refine settles_bind hmapM fun branches R' hbranches => ?_
  have hchain : Chain (read scope) items R branches R' :=
    (mapM_eq_ok_iff.mp hbranches).mono fun v R r hr => Schema.readNested_eq_ok_iff.mp hr
  have hfault : firstFault? Schema.branchFault [] branches = none :=
    (h.row hR hchain).firstFault?_eq_none_iff.mpr ⟨hunions, hkeys⟩
  exact settles_of_ok (ReadM.lift_eq_ok_iff.mpr ⟨Schema.unionOf_eq_ok_iff.mpr ⟨hfault, rfl⟩, rfl⟩)

/-- A field of the right shape settles with its type. -/
theorem settles_readField {members : List (String × Json)} {v : Json} (hshape : FieldShape members)
    (hv : Attribute.type.find? members = some v) (h : Settles limit fits (read scope v R)) :
    Settles limit fits (Schema.readField read scope (.obj members) R) := by
  obtain ⟨text, htext, hidentifier⟩ := hshape.name
  obtain ⟨doc, hdoc⟩ := Attribute.isText_iff.mp hshape.doc
  have horder : ∃ order : Option FieldOrder,
      Attribute.order.find? members = order.map (fun o => .str o.name) := by
    cases horder : Attribute.order.find? members with
    | none => exact ⟨none, rfl⟩
    | some w =>
      obtain ⟨o, rfl⟩ := hshape.order w horder
      exact ⟨some o, rfl⟩
  obtain ⟨order, horder⟩ := horder
  rw [Schema.readField]
  refine settles_bind_of_lift (Attribute.requireString_eq_ok_iff.mpr htext) ?_
  refine settles_bind_of_lift (Attribute.require_eq_ok_iff.mpr hv) ?_
  refine settles_bind (settles_readNested h) fun type R' _ => ?_
  refine settles_bind_of_lift (a := ⟨text, type, none, none, none⟩) ?_ ?_
  · rw [Field.of, if_pos hidentifier]
  · refine settles_bind_of_lift (Attribute.fieldOrder?_eq_ok_iff.mpr horder) ?_
    exact settles_bind_of_lift (Attribute.string?_eq_ok_iff.mpr hdoc) (settles_of_ok rfl)

theorem Recognizes.settles_readFields (h : Recognizes limit levels read) {items : List Json}
    (hready : Ready levels fits scope (items.filterMap Json.fieldType?) R)
    (hshapes : ∀ item ∈ items, ∃ members, item = .obj members ∧ FieldShape members) :
    Settles limit fits (Schema.readFields read scope (.arr items) R) := by
  refine settles_mapM (fun items R => Ready levels fits scope (items.filterMap Json.fieldType?) R ∧
    ∀ item ∈ items, ∃ members, item = .obj members ∧ FieldShape members) ?_ ⟨hready, hshapes⟩
  rintro item items R ⟨hready, hshapes⟩
  obtain ⟨⟨members, rfl, hshape⟩, hothers⟩ := List.forall_mem_cons.mp hshapes
  obtain ⟨v, hv⟩ := Option.isSome_iff_exists.mp hshape.type
  have htype : Json.fieldType? (.obj members) = some v := hv
  rw [List.filterMap_cons_some htype] at hready
  obtain ⟨hread, hrest⟩ := h.advance hready
  refine ⟨settles_readField hshape hv hread, fun f R' hf => ?_⟩
  obtain ⟨_, heq, hfield⟩ := Schema.readField_eq_ok_iff.mp hf
  obtain rfl := Json.obj.inj heq
  obtain ⟨w, hw, hread⟩ := hfield.type
  rw [hv] at hw
  cases hw
  exact ⟨hrest f.type R' hread, hothers⟩

/-- The heading of a definition at a proper place, whose name is new. -/
theorem Position.Proper.exists_headingRead {v : Json} {form : Form} {members : List (String × Json)}
    (hp : (Position.mk scope v).Proper known) (hform : v.form? = some form)
    (hheading : form.heading? = some members) (hshape : HeadingShape members) :
    ∃ name doc, Schema.HeadingRead scope members name doc ∧ name.full ∉ known ∧
      (Position.mk scope v).names = [name.full] := by
  obtain ⟨name, hname⟩ := Option.isSome_iff_exists.mp (hp.named form members hform hheading)
  obtain ⟨doc, hread⟩ := exists_headingRead_iff.mpr ⟨hshape, hname⟩
  have hnames : (Position.mk scope v).names = [name.full] :=
    names_of_heading hform hheading hname
  refine ⟨name, doc, hread, hp.fresh name.full ?_, hnames⟩
  rw [hnames]
  exact List.mem_cons_self

theorem Recognizes.settles_readRecord (h : Recognizes limit levels read) (hR : R.Lists known)
    {members : List (String × Json)} {kind : RecordKind}
    (hform : (Json.obj members).form? = some (.record kind members))
    (hv : InOrder known (positions scope (.obj members)))
    (hfits : ∀ w ∈ (Json.obj members).inner, fits → w.Fits levels) :
    Settles limit fits (Schema.readRecord read kind scope members R) := by
  rw [positions_of_form? hform, InOrder] at hv
  obtain ⟨hproper, htypes⟩ := hv
  obtain ⟨hshape, items, hitems, hshapes, hnodup⟩ := hproper.wellShaped hform
  obtain ⟨name, doc, hheading, hfresh, hnames⟩ := hproper.exists_headingRead hform rfl hshape
  have hfree : R.find? name.full = none := hR.find?_eq_none_iff.mpr hfresh
  have hname : statedName? scope members = some name := statedName?_eq_some_iff.mpr hheading.name
  rw [hnames, Form.scope_record hname, Form.inner_record hitems] at htypes
  rw [Json.inner_of_form? hform, Form.inner_record hitems] at hfits
  have hR₁ : (R.put name.full (.declared kind.tag)).Lists (known ++ [name.full]) :=
    hR.put name.full (.declared kind.tag)
  have hdeclare : Schema.declare name kind.tag R =
      .ok ((), R.put name.full (.declared kind.tag)) :=
    Schema.declare_eq_ok_iff.mpr (Registry.declare_eq_ok_iff.mpr ⟨hfree, rfl⟩)
  rw [Schema.readRecord]
  refine settles_bind_of_lift hheading.name ?_
  refine settles_bind_of_lift (Attribute.string?_eq_ok_iff.mpr hheading.doc) ?_
  refine settles_bind_of_ok hdeclare ?_
  refine settles_bind_of_lift (Attribute.require_eq_ok_iff.mpr hitems) ?_
  refine settles_bind (h.settles_readFields ⟨_, hR₁, htypes, hfits⟩ hshapes)
    fun fields R' hfields => ?_
  obtain ⟨_, heq, hchain⟩ := Schema.readFields_eq_ok_iff.mp hfields
  obtain rfl := Json.arr.inj heq
  obtain ⟨-, -, hfieldNames⟩ := chain_types hchain
  have hfault : firstFault? (Field.fault name.full) [] fields = none := by
    rw [Field.firstFault?_eq_none_iff, ← hfieldNames]
    exact hnodup
  refine settles_bind_of_lift (orFault_eq_ok_iff.mpr ⟨hfault, rfl⟩) ?_
  exact settles_of_ok rfl

/-- A definition that has no schemas in it is read. -/
theorem settles_leaf (hR : R.Lists known) {members : List (String × Json)} {form : Form}
    (body : Body) (hform : (Json.obj members).form? = some form)
    (hheading : form.heading? = some members) (hshape : HeadingShape members)
    (hproper : (Position.mk scope (.obj members)).Proper known)
    (htag : Attribute.type.find? members = some (.str body.tag.name))
    (hleaf : ∀ full, Schema.LeafRead members full body) :
    Settles limit fits (Schema.readWith read scope (.obj members) R) := by
  obtain ⟨name, doc, hread, hfresh, -⟩ := hproper.exists_headingRead hform hheading hshape
  exact settles_of_ok (Schema.readWith_eq_ok_iff.mpr
    (.leaf htag hread (hR.find?_eq_none_iff.mpr hfresh) (hleaf name.full)))

/-- **One level of a reader is complete** if the levels below recognize what they read. -/
theorem Recognizes.settles (h : Recognizes limit levels read) (hR : R.Lists known) {v : Json}
    (hv : InOrder known (positions scope v)) :
    Settles limit (v.Fits (levels + 1)) (Schema.readWith read scope v R) := by
  have hproper : (Position.mk scope v).Proper known := by
    rw [positions_eq] at hv
    exact hv.1
  obtain ⟨form, hform, hshape⟩ := hproper.shape
  have hfits : ∀ w ∈ v.inner, v.Fits (levels + 1) → w.Fits levels := fun w hw hfits => hfits w hw
  -- what stands inside a value around one other
  have hinside : ∀ {w}, form.heading? = none → form.inner = [w] →
      Settles limit (v.Fits (levels + 1)) (read scope w R) := by
    intro w hheading hinner
    have hrest := ((inOrder_unnamed hform hheading).mp hv).2
    have hmem : w ∈ v.inner := by
      rw [Json.inner_of_form? hform, hinner]
      exact List.mem_cons_self
    refine (h.complete hR ?_).mono (hfits w hmem)
    simpa [hinner] using hrest
  cases Json.hasForm_of_form? hform with
  | bare hp => exact settles_of_ok (Schema.readWith_eq_ok_iff.mpr (.bare hp))
  | bareReference hp =>
    obtain ⟨s, hs⟩ := hR.exists_reference? (hproper.reference _ hform)
    exact settles_of_ok (Schema.readWith_eq_ok_iff.mpr (.bareReference hp hs))
  | union branches =>
    obtain ⟨hunions, hkeys⟩ := hproper.union branches hform
    exact h.settles_union hR ((inOrder_unnamed hform rfl).mp hv).2 hfits hunions hkeys
  | wrapped hw hcompound =>
    rw [Schema.readWith_wrapped hw hcompound]
    exact hinside rfl rfl
  | reference htext htag =>
    obtain ⟨s, hs⟩ := hR.exists_reference? (hproper.reference _ hform)
    exact settles_of_ok (Schema.readWith_eq_ok_iff.mpr (.reference htext htag hs))
  | @tagged members tag _ htag hofTag =>
    cases tag with
    | primitive p => exact settles_of_ok (Schema.readWith_eq_ok_iff.mpr (.primitive htag))
    | array =>
      obtain ⟨w, hw, rfl⟩ := Option.map_eq_some_iff.mp hofTag
      rw [Schema.readWith_obj .array htag, Schema.readTagged]
      refine settles_bind_of_lift (Attribute.require_eq_ok_iff.mpr hw) ?_
      refine settles_bind (settles_readNested (hinside rfl rfl)) fun s R' _ => ?_
      exact settles_of_ok rfl
    | map =>
      obtain ⟨w, hw, rfl⟩ := Option.map_eq_some_iff.mp hofTag
      rw [Schema.readWith_obj .map htag, Schema.readTagged]
      refine settles_bind_of_lift (Attribute.require_eq_ok_iff.mpr hw) ?_
      refine settles_bind (settles_readNested (hinside rfl rfl)) fun s R' _ => ?_
      exact settles_of_ok rfl
    | record =>
      cases hofTag
      rw [Schema.readWith_obj .record htag]
      exact h.settles_readRecord hR hform hv hfits
    | error =>
      cases hofTag
      rw [Schema.readWith_obj .error htag]
      exact h.settles_readRecord hR hform hv hfits
    | enum =>
      cases hofTag
      obtain ⟨hheading, symbols, hsymbols, hidentifier, hnodup⟩ := hshape
      refine settles_leaf hR (.enum symbols) hform rfl hheading hproper htag fun full => ?_
      exact .enum hsymbols
        (Definition.firstFault?_symbolFault_eq_none_iff.mpr ⟨hidentifier, hnodup⟩)
    | fixed =>
      cases hofTag
      obtain ⟨hheading, i, hsize, hmin, hmax⟩ := hshape
      refine settles_leaf hR (.fixed (.ofNat i.toNat)) hform rfl hheading hproper htag
        fun full => ?_
      exact .fixed hsize (Json.toUnsigned?_eq_some_iff.mpr ⟨i, rfl, hmin, hmax, rfl⟩)
    | union => cases hofTag
    | errorUnion => cases hofTag
    | request => cases hofTag

end Complete

/-! ## 3. All levels -/

/-- What stands in a row that is read has been read. -/
theorem Chain.exists_of_mem {α β : Type} {read : α → ReadM β} {as : List α} {bs : List β}
    {R R' : Registry} (h : Chain read as R bs R') {a : α} (ha : a ∈ as) :
    ∃ R b R', read a R = .ok (b, R') := by
  induction h with
  | nil => cases ha
  | cons hb _ ih =>
    rcases List.mem_cons.mp ha with rfl | ha
    · exact ⟨_, _, _, hb⟩
    · exact ih ha

namespace Schema

/-- Where a value is read, the values that stand directly inside are read in a row. -/
theorem Reads.exists_chain {read : SchemaReader} {scope : Option String} {v : Json}
    {R R' : Registry} {s : Schema} (h : Reads read scope v R s R') :
    ∃ inside R₁ ss R₂, Chain (read inside) v.inner R₁ ss R₂ := by
  cases h with
  | bare hp =>
    rw [Json.inner_of_form? (Json.HasForm.bare hp).form?_eq]
    exact ⟨scope, R, [], R, .nil R⟩
  | bareReference hp =>
    rw [Json.inner_of_form? (Json.HasForm.bareReference hp).form?_eq]
    exact ⟨scope, R, [], R, .nil R⟩
  | union hchain => exact ⟨scope, R, _, _, hchain⟩
  | wrapped hw hcompound hr =>
    rw [Json.inner_of_form? (Json.HasForm.wrapped hw hcompound).form?_eq]
    exact ⟨scope, R, _, _, .cons hr (.nil _)⟩
  | reference htext htag =>
    rw [Json.inner_of_form? (Json.HasForm.reference htext htag).form?_eq]
    exact ⟨scope, R, [], R, .nil R⟩
  | @primitive members p _ htag =>
    rw [Json.inner_of_form? (@Json.form?_of_tag _ (.primitive p) htag)]
    exact ⟨scope, R, [], R, .nil R⟩
  | @array members w items _ _ htag hw hr =>
    have hform : (Json.obj members).form? = some (.array w) := by
      rw [Json.form?_of_tag htag, Form.ofTag?, hw]
      rfl
    rw [Json.inner_of_form? hform]
    exact ⟨scope, R, _, _, .cons hr (.nil _)⟩
  | @map members w values _ _ htag hw hr =>
    have hform : (Json.obj members).form? = some (.map w) := by
      rw [Json.form?_of_tag htag, Form.ofTag?, hw]
      rfl
    rw [Json.inner_of_form? hform]
    exact ⟨scope, R, _, _, .cons hr (.nil _)⟩
  | leaf htag _ _ hleaf =>
    refine ⟨scope, R, [], R, ?_⟩
    rw [Json.inner, Json.form?_of_tag htag]
    cases hleaf <;> exact .nil R
  | @record members kind name doc items fields _ R₁ htag _ _ hitems hchain _ =>
    have hform : (Json.obj members).form? = some (.record kind members) := by
      rw [Json.form?_of_tag htag]
      cases kind <;> rfl
    rw [Json.inner_of_form? hform, Form.inner_record hitems]
    exact ⟨name.space?, _, _, _, (chain_types hchain).1⟩

/-- A reading with so many levels succeeds only if the value fits. -/
theorem fits_of_readerAt {limit levels : Nat} {scope : Option String} {v : Json} {R R' : Registry}
    {s : Schema} (h : readerAt limit levels scope v R = .ok (s, R')) : v.Fits levels := by
  refine readerAt_induction (P := fun levels _ v _ _ _ => v.Fits levels) ?_ h
  intro levels scope v R s R' ih hreads w hw
  obtain ⟨inside, R₁, ss, R₂, hchain⟩ := hreads.exists_chain
  obtain ⟨R, s, R', hr⟩ := hchain.exists_of_mem hw
  exact ih _ _ _ _ _ hr

end Schema

/-- **Each level of a reader recognizes what it reads**, since the level below does. -/
theorem recognizes_readerAt (limit levels : Nat) :
    Recognizes limit levels (Schema.readerAt limit levels) := by
  induction levels with
  | zero =>
    exact ⟨Schema.readerAt_adds, fun _ h => (Schema.readerAt_zero.mp h).elim,
      fun _ _ => .inr ⟨rfl, id⟩⟩
  | succ levels ih =>
    refine ⟨Schema.readerAt_adds, fun hR h => ?_, fun hR hv => ih.settles hR hv⟩
    exact ih.recognized hR (Schema.readerAt_succ_eq_ok_iff.mp h)

section Reader

variable {limit : Nat} {scope : Option String} {v : Json} {R R' : Registry} {s : Schema}

theorem grammatical_of_reader (h : Schema.reader limit scope v R = .ok (s, R')) :
    Grammatical R scope v := by
  have hread : Recognizes limit limit (Schema.readerAt limit limit) :=
    recognizes_readerAt limit limit
  exact grammatical_iff_inOrder.mpr (hread.sound R.lists_names h).inOrder

theorem settles_reader (h : Grammatical R scope v) :
    Settles limit (v.Fits limit) (Schema.reader limit scope v R) := by
  have hread : Recognizes limit limit (Schema.readerAt limit limit) :=
    recognizes_readerAt limit limit
  exact hread.complete R.lists_names (grammatical_iff_inOrder.mp h)

/-- **A value is read exactly if it is grammatical**, where the limit of the nesting is not reached.
Whether it is can be read off the value: what is read is grammatical and has no more schemas inside
one another than the limit allows, and all such values are read. -/
theorem reader_eq_ok_iff_grammatical (limit : Nat) (scope : Option String) (v : Json)
    (R : Registry) :
    (Schema.reader limit scope v R ≠ .error (.nestingTooDeep limit) →
      ((∃ s R', Schema.reader limit scope v R = .ok (s, R')) ↔ Grammatical R scope v)) ∧
    ((∃ s R', Schema.reader limit scope v R = .ok (s, R')) ↔
      Grammatical R scope v ∧ v.Fits limit) := by
  constructor
  · intro hlimit
    refine ⟨fun ⟨s, R', h⟩ => grammatical_of_reader h, fun h => ?_⟩
    rcases settles_reader h with ⟨⟨s, R'⟩, hok⟩ | ⟨hdeep, -⟩
    · exact ⟨s, R', hok⟩
    · exact absurd hdeep hlimit
  · constructor
    · rintro ⟨s, R', h⟩
      exact ⟨grammatical_of_reader h, Schema.fits_of_readerAt h⟩
    · rintro ⟨h, hfits⟩
      rcases settles_reader h with ⟨⟨s, R'⟩, hok⟩ | ⟨-, hdeep⟩
      · exact ⟨s, R', hok⟩
      · exact absurd hfits hdeep

end Reader

namespace Example

def digest : Definition :=
  ⟨⟨"Digest", by decide⟩, none, .fixed 16⟩

def digestJson : Json :=
  .obj [("name", .str "Digest"), ("size", .num (.int 16)), ("type", .str "fixed")]

def digestsJson : Json :=
  .obj [("items", .str "Digest"), ("type", .str "array")]

end Example

/-- A branch of a union may use the name that a branch before it defines, and not the other way
round. -/
theorem reader_eq_ok_iff_grammatical_order :
    Schema.reader 64 none (.arr [Example.digestJson, Example.digestsJson]) .empty =
        .ok (.union [.named Example.digest, .array (.reference "Digest" .fixed)],
          Registry.empty.define Example.digest) ∧
      Grammatical .empty none (.arr [Example.digestJson, Example.digestsJson]) ∧
      (Json.arr [Example.digestJson, Example.digestsJson]).Fits 64 ∧
      Schema.reader 64 none (.arr [Example.digestsJson, Example.digestJson]) .empty =
        .error (.invalidSubSchema "\"Digest\"" (.unknownSchema "\"Digest\"")) ∧
      ¬ Grammatical .empty none (.arr [Example.digestsJson, Example.digestJson]) := by
  have hread : Schema.reader 64 none (.arr [Example.digestJson, Example.digestsJson]) .empty =
      .ok (.union [.named Example.digest, .array (.reference "Digest" .fixed)],
        Registry.empty.define Example.digest) := by
    rfl
  have hfail : Schema.reader 64 none (.arr [Example.digestsJson, Example.digestJson]) .empty =
      .error (.invalidSubSchema "\"Digest\"" (.unknownSchema "\"Digest\"")) := by
    rfl
  obtain ⟨hgrammatical, hfits⟩ := (reader_eq_ok_iff_grammatical 64 none _ _).2.mp ⟨_, _, hread⟩
  refine ⟨hread, hgrammatical, hfits, hfail, fun h => ?_⟩
  have hlimit : Schema.reader 64 none (.arr [Example.digestsJson, Example.digestJson]) .empty ≠
      .error (.nestingTooDeep 64) := by
    rw [hfail]
    nofun
  obtain ⟨s, R', hok⟩ := ((reader_eq_ok_iff_grammatical 64 none _ _).1 hlimit).mpr h
  rw [hfail] at hok
  cases hok

end Avro
