/-
# Recognition: what is read is grammatical

A reader goes through a value once, with a registry that grows on the way; the rules of
`Avro.Proofs.Grammar` go through the places of the value, with a list of the names known so far.
The two meet in `Registry.Lists`: the registry has the names of the list and no others.

What a reading shows of its value is not only that the rules hold there (`Recognized`).  The union
around a value needs to know what the value is told apart by, and the values after it which names it
has brought in; both are said of the schema that was read and of the value alike.

* `Recognizes`: what one level of the reader has to do, both that it is sound and that it is
  complete.  Either half uses the other one for the levels below.
* `Recognizes.recognized`: a level is sound if the levels below recognize what they read.
-/
import Mathlib.Data.List.Nodup
import Avro.Proofs.Grammar
import Avro.Proofs.Rules

namespace Avro

open Registry (Adds)

/-! ## 1. Names that are known -/

namespace Registry

/-- The names of a registry, listed in whatever order. -/
def Lists (R : Registry) (known : List String) : Prop :=
  ∀ full, R.contains full = true ↔ full ∈ known

theorem lists_names (R : Registry) : R.Lists R.names :=
  fun _ => mem_names_iff.symm

variable {R R' : Registry} {known : List String}

theorem Lists.find?_eq_none_iff (h : R.Lists known) {full : String} :
    R.find? full = none ↔ full ∉ known := by
  rw [← contains_eq_false_iff, ← h full, Bool.not_eq_true]

theorem Lists.put (h : R.Lists known) (full : String) (e : Entry) :
    (R.put full e).Lists (known ++ [full]) := by
  intro full'
  rw [contains, find?_put, List.mem_append, List.mem_singleton, ← h full', contains]
  split
  · next heq => simp [heq]
  · next hne => simp [hne]

theorem Lists.adds (h : R.Lists known) {ds : List Definition} (hadds : Adds R ds R') :
    R'.Lists (known ++ ds.map Definition.full) := by
  intro full
  rw [List.mem_append, ← h full, contains_eq_true_iff, contains_eq_true_iff]
  constructor
  · rintro ⟨e, he⟩
    by_cases hmem : full ∈ ds.map Definition.full
    · exact .inr hmem
    · exact .inl ⟨e, hadds.kept full hmem ▸ he⟩
  · rintro (⟨e, he⟩ | hmem)
    · exact ⟨e, hadds.find?_of_some he⟩
    · obtain ⟨d, hd, rfl⟩ := List.mem_map.mp hmem
      exact ⟨_, hadds.defined d hd⟩

theorem Lists.resolve?_eq (h : R.Lists known) (text : String) (scope : Option String) :
    R.resolve? text scope = denoted? known scope text := by
  have hcontains : ∀ full, R.contains full = true ↔ full ∈ known := h
  simp only [resolve?, denoted?, hcontains]

/-- The references that a text makes are those to the name it stands for. -/
theorem Lists.reference?_eq_some_iff (h : R.Lists known) {text : String} {scope : Option String}
    {s : Schema} :
    R.reference? text scope = some s ↔
      ∃ full tag, denoted? known scope text = some full ∧ R.tag? full = some tag ∧
        s = .reference full tag := by
  rw [Registry.reference?_eq_some_iff, h.resolve?_eq]

end Registry

/-- Where a text stands for a known name it makes a reference. -/
theorem Registry.Lists.exists_reference? {R : Registry} {known : List String} (h : R.Lists known)
    {text : String} {scope : Option String}
    (hmem : Name.qualify text scope ∈ known ∨ text ∈ known) :
    ∃ s, R.reference? text scope = some s := by
  obtain ⟨full, hfull⟩ := Option.isSome_iff_exists.mp (isSome_denoted?_iff.mpr hmem)
  obtain ⟨e, he⟩ := contains_eq_true_iff.mp ((h full).mpr (mem_of_denoted? hfull))
  exact ⟨_, h.reference?_eq_some_iff.mpr ⟨full, e.tag, hfull, by rw [tag?, he]; rfl, rfl⟩⟩

/-! ## 2. What is read is grammatical -/

/-- What a value says of the schema that it is read as, where these names are known. -/
structure Recognized (known : List String) (scope : Option String) (v : Json) (s : Schema) :
    Prop where
  inOrder : InOrder known (positions scope v)
  names : (positions scope v).flatMap Position.names = s.definitions.map Definition.full
  isUnion : v.isUnion = s.isUnion
  key : key? known scope v = some s.key

/-- A reading succeeds, or it comes to the limit of the nesting, which it does not if `fits`. -/
def Settles (limit : Nat) (fits : Prop) {α : Type} (x : Except SchemaError α) : Prop :=
  (∃ a, x = .ok a) ∨ x = .error (.nestingTooDeep limit) ∧ ¬ fits

/-- A reader of so many levels reads exactly what is grammatical, unless it comes to the limit of
the nesting. -/
structure Recognizes (limit levels : Nat) (read : SchemaReader) : Prop where
  adds : ∀ {scope v R s R'}, read scope v R = .ok (s, R') → Adds R s.definitions R'
  sound : ∀ {known scope v R s R'}, R.Lists known → read scope v R = .ok (s, R') →
    Recognized known scope v s
  complete : ∀ {known scope v R}, R.Lists known → InOrder known (positions scope v) →
    Settles limit (v.Fits levels) (read scope v R)

section Sound

variable {limit levels : Nat} {read : SchemaReader} {known : List String} {scope : Option String}
  {R R' : Registry}

theorem recognized_primitive {v : Json} {p : Primitive} (h : v.form? = some (.primitive p)) :
    Recognized known scope v (.primitive p) where
  inOrder := (inOrder_unnamed h rfl).mpr ⟨proper_of_form? h trivial nofun nofun nofun, trivial⟩
  names := names_unnamed h rfl
  isUnion := isUnion_of_form? h nofun
  key := key?_of_form? h nofun

theorem recognized_reference (hR : R.Lists known) {v : Json} {text : String} {s : Schema}
    (h : v.form? = some (.reference text)) (href : R.reference? text scope = some s) :
    Recognized known scope v s := by
  obtain ⟨full, tag, hfull, -, rfl⟩ := hR.reference?_eq_some_iff.mp href
  have hmem := isSome_denoted?_iff.mp (Option.isSome_iff_exists.mpr ⟨full, hfull⟩)
  refine ⟨(inOrder_unnamed h rfl).mpr ⟨?_, trivial⟩, names_unnamed h rfl,
    isUnion_of_form? h nofun, ?_⟩
  · refine proper_of_form? h trivial nofun (fun text' heq => ?_) nofun
    cases heq
    exact hmem
  · rw [key?_of_form? h nofun, Form.key?, hfull]
    rfl

/-- A value around one other, that names nothing itself. -/
theorem recognized_around {v w : Json} {form : Form} {s t : Schema} (h : v.form? = some form)
    (hheading : form.heading? = none) (hinner : form.inner = [w])
    (hproper : (Position.mk scope v).Proper known) (hw : Recognized known scope w s)
    (hdefinitions : t.definitions = s.definitions) (hunion : v.isUnion = t.isUnion)
    (hkey : key? known scope v = some t.key) : Recognized known scope v t where
  inOrder := by
    refine (inOrder_unnamed h hheading).mpr ⟨hproper, ?_⟩
    simpa [hinner] using hw.inOrder
  names := by
    rw [names_unnamed h hheading, hdefinitions]
    simpa [hinner] using hw.names
  isUnion := hunion
  key := hkey

/-- An object that only wraps a schema says what that says. -/
theorem recognized_wrapped {v w : Json} {s : Schema} (h : v.form? = some (.wrapped w))
    (hw : Recognized known scope w s) : Recognized known scope v s := by
  refine recognized_around h rfl rfl (proper_of_form? h trivial nofun nofun nofun) hw rfl ?_ ?_
  · rw [← hw.isUnion, Json.isUnion, Json.isUnion, Json.core_of_wrapped h]
  · rw [← hw.key, key?, key?, Json.core_of_wrapped h]

theorem recognized_array {v w : Json} {items : Schema} (h : v.form? = some (.array w))
    (hw : Recognized known scope w items) : Recognized known scope v (.array items) :=
  recognized_around h rfl rfl (proper_of_form? h trivial nofun nofun nofun) hw
    (Schema.definitions_array items) (isUnion_of_form? h nofun) (key?_of_form? h nofun)

theorem recognized_map {v w : Json} {values : Schema} (h : v.form? = some (.map w))
    (hw : Recognized known scope w values) : Recognized known scope v (.map values) :=
  recognized_around h rfl rfl (proper_of_form? h trivial nofun nofun nofun) hw
    (Schema.definitions_map values) (isUnion_of_form? h nofun) (key?_of_form? h nofun)

/-- The same of a row of values. -/
structure RecognizedRow (known : List String) (scope : Option String) (vs : List Json)
    (ss : List Schema) : Prop where
  inOrder : InOrder known (vs.flatMap (positions scope))
  names : (vs.flatMap (positions scope)).flatMap Position.names =
    (ss.flatMap Schema.definitions).map Definition.full
  isUnion : vs.map Json.isUnion = ss.map Schema.isUnion
  keys : keys known scope vs = ss.map (fun s => some s.key)

theorem Recognizes.row (h : Recognizes limit levels read) {vs : List Json} {ss : List Schema}
    (hR : R.Lists known) (hchain : Chain (read scope) vs R ss R') :
    RecognizedRow known scope vs ss := by
  induction hchain generalizing known with
  | nil R => exact ⟨trivial, rfl, rfl, rfl⟩
  | @cons v vs s ss R R₁ R' hread _ ih =>
    have hv : Recognized known scope v s := h.sound hR hread
    have hR₁ : R₁.Lists (known ++ (positions scope v).flatMap Position.names) := by
      rw [hv.names]
      exact hR.adds (h.adds hread)
    have hvs := ih hR₁
    refine ⟨?_, ?_, ?_, ?_⟩
    · rw [List.flatMap_cons, inOrder_append]
      exact ⟨hv.inOrder, hvs.inOrder⟩
    · rw [List.flatMap_cons, List.flatMap_append, hv.names, hvs.names, List.flatMap_cons,
        List.map_append]
    · rw [List.map_cons, List.map_cons, hv.isUnion, hvs.isUnion]
    · rw [keys, hv.key, hvs.keys, List.map_cons]

/-- The branches of a union obey the rules if the values do. -/
theorem RecognizedRow.firstFault?_eq_none_iff {vs : List Json} {ss : List Schema}
    (h : RecognizedRow known scope vs ss) :
    firstFault? Schema.branchFault [] ss = none ↔
      (∀ v ∈ vs, v.isUnion = false) ∧ (Avro.keys known scope vs).Nodup := by
  have hunions : (∀ v ∈ vs, v.isUnion = false) ↔ ∀ s ∈ ss, s.isUnion = false := by
    have hall : (∀ u ∈ vs.map Json.isUnion, u = false) ↔
        ∀ u ∈ ss.map Schema.isUnion, u = false := by
      rw [h.isUnion]
    rwa [List.forall_mem_map, List.forall_mem_map] at hall
  have hkeys : (Avro.keys known scope vs).Nodup ↔ (ss.map Schema.key).Nodup := by
    have hsome : ss.map (fun s => some s.key) = (ss.map Schema.key).map some := by
      rw [List.map_map]
      rfl
    rw [h.keys, hsome, List.nodup_map_iff fun _ _ => Option.some.inj]
  rw [Schema.firstFault?_branchFault_eq_none_iff, hunions, hkeys]

theorem Recognizes.union (h : Recognizes limit levels read) (hR : R.Lists known) {items : List Json}
    {branches : List Schema} (hchain : Chain (read scope) items R branches R')
    (hfault : firstFault? Schema.branchFault [] branches = none) :
    Recognized known scope (.arr items) (.union branches) := by
  have hform : (Json.arr items).form? = some (.union items) := rfl
  have hrow : RecognizedRow known scope items branches := h.row hR hchain
  refine ⟨(inOrder_unnamed hform rfl).mpr ⟨?_, hrow.inOrder⟩, ?_, isUnion_of_form? hform nofun,
    key?_of_form? hform nofun⟩
  · refine proper_of_form? hform trivial nofun nofun fun items' heq => ?_
    obtain rfl := Form.union.inj heq
    exact hrow.firstFault?_eq_none_iff.mp hfault
  · rw [names_unnamed hform rfl, Schema.definitions_union]
    exact hrow.names

/-- A definition, around the types in it, which are read with its name taken. -/
theorem recognized_named {v : Json} {form : Form} {members : List (String × Json)}
    {d : Definition} (h : v.form? = some form) (hheading : form.heading? = some members)
    (hshape : form.WellShaped) (hname : statedName? scope members = some d.name)
    (hfree : d.full ∉ known)
    (hrow : RecognizedRow (known ++ [d.full]) (form.scope scope) form.inner
      (d.fields.map Field.type)) :
    Recognized known scope v (.named d) := by
  have hnot : (∀ w, form ≠ .wrapped w) ∧ (∀ text, form ≠ .reference text) ∧
      (∀ branches, form ≠ .union branches) ∧ form.isUnion = false := by
    cases form <;> cases hheading <;> exact ⟨nofun, nofun, nofun, rfl⟩
  obtain ⟨hwrapped, hreference, hunion, hisUnion⟩ := hnot
  have hnames : (Position.mk scope v).names = [d.full] := names_of_heading h hheading hname
  refine ⟨?_, ?_, ?_, ?_⟩
  · rw [positions_of_form? h, InOrder, hnames]
    refine ⟨proper_of_form? h hshape (fun members' hmembers => ?_)
      (fun text heq => absurd heq (hreference text))
      (fun branches heq => absurd heq (hunion branches)), hrow.inOrder⟩
    rw [hheading] at hmembers
    cases hmembers
    exact ⟨d.name, hname, hfree⟩
  · rw [positions_of_form? h, List.flatMap_cons, hnames, hrow.names, Schema.definitions_named,
      List.map_cons, List.flatMap_map]
    rfl
  · rw [isUnion_of_form? h hwrapped, hisUnion]
    rfl
  · rw [key?_of_form? h hwrapped, Form.key?_of_heading hheading, hname]
    rfl

/-- A heading is read if it has the right shape and its name is a full name. -/
theorem exists_headingRead_iff {members : List (String × Json)} {name : Name} :
    (∃ doc, Schema.HeadingRead scope members name doc) ↔
      HeadingShape members ∧ statedName? scope members = some name := by
  rw [statedName?_eq_some_iff]
  constructor
  · rintro ⟨doc, hname, hdoc⟩
    obtain ⟨text, space, htext, hspace, -⟩ := Attribute.definedName_eq_ok_iff.mp hname
    exact ⟨⟨⟨text, htext⟩, Attribute.isText_iff.mpr ⟨space, hspace⟩,
      Attribute.isText_iff.mpr ⟨doc, hdoc⟩⟩, hname⟩
  · rintro ⟨hshape, hname⟩
    obtain ⟨doc, hdoc⟩ := Attribute.isText_iff.mp hshape.doc
    exact ⟨doc, hname, hdoc⟩

theorem Json.toUnsigned?_eq_some_iff {v : Json} {n : Nat} :
    v.toUnsigned? = some n ↔
      ∃ i : Int, v = .num (.int i) ∧ 0 ≤ i ∧ i < 18446744073709551616 ∧ n = i.toNat := by
  match v with
  | .num (.int i) =>
    by_cases h : 0 ≤ i ∧ i < 18446744073709551616
    · have hunsigned : isUnsigned i = true := decide_eq_true h
      rw [toUnsigned?, hunsigned, if_pos rfl, Option.some.injEq]
      constructor
      · rintro rfl
        exact ⟨i, rfl, h.1, h.2, rfl⟩
      · rintro ⟨_, heq, -, -, rfl⟩
        cases heq
        rfl
    · have hunsigned : isUnsigned i = false := decide_eq_false h
      simp only [toUnsigned?, hunsigned, Bool.false_eq_true, if_false]
      refine ⟨nofun, ?_⟩
      rintro ⟨_, heq, hmin, hmax, -⟩
      cases heq
      exact absurd ⟨hmin, hmax⟩ h
  | .num (.double _) | .null | .bool _ | .str _ | .arr _ | .obj _ => simp [toUnsigned?]

theorem recognized_leaf {members : List (String × Json)} {name : Name} {doc : Option String}
    {body : Body} (hR : R.Lists known)
    (htag : Attribute.type.find? members = some (.str body.tag.name))
    (hheading : Schema.HeadingRead scope members name doc) (hfree : R.find? name.full = none)
    (hleaf : Schema.LeafRead members name.full body) :
    Recognized known scope (.obj members) (.named ⟨name, doc, body⟩) := by
  obtain ⟨hshape, hname⟩ := exists_headingRead_iff.mp ⟨doc, hheading⟩
  have hfree : name.full ∉ known := hR.find?_eq_none_iff.mp hfree
  have hform := Json.form?_of_tag htag
  cases hleaf with
  | enum hsymbols hfault =>
    obtain ⟨hidentifier, hnodup⟩ := Definition.firstFault?_symbolFault_eq_none_iff.mp hfault
    exact recognized_named hform rfl ⟨hshape, _, hsymbols, hidentifier, hnodup⟩ hname hfree
      ⟨trivial, rfl, rfl, rfl⟩
  | fixed hv hn =>
    obtain ⟨i, rfl, hmin, hmax, -⟩ := Json.toUnsigned?_eq_some_iff.mp hn
    exact recognized_named hform rfl ⟨hshape, i, hv, hmin, hmax⟩ hname hfree
      ⟨trivial, rfl, rfl, rfl⟩

theorem fieldShape_of_fieldRead {members : List (String × Json)} {f : Field}
    (h : Schema.FieldRead read scope members R f R') : FieldShape members where
  name := ⟨f.name, h.name, h.identifier⟩
  type := by
    obtain ⟨v, hv, -⟩ := h.type
    rw [hv]
    rfl
  order := by
    intro v hv
    obtain ⟨o, -, rfl⟩ := Option.map_eq_some_iff.mp (h.order.symm.trans hv)
    exact ⟨o, rfl⟩
  doc := Attribute.isText_iff.mpr ⟨f.doc, h.doc⟩

/-- Where the fields of a record are read their types are read in a row. -/
theorem chain_types {items : List Json} {fields : List Field}
    (h : Chain (Schema.readField read scope) items R fields R') :
    Chain (read scope) (items.filterMap Json.fieldType?) R (fields.map Field.type) R' ∧
      (∀ item ∈ items, ∃ members, item = .obj members ∧ FieldShape members) ∧
      items.filterMap Json.fieldName? = fields.map Field.name := by
  induction h with
  | nil R => exact ⟨.nil R, by simp, rfl⟩
  | @cons item items f fields R R₁ R' hf _ ih =>
    obtain ⟨members, rfl, hread⟩ := Schema.readField_eq_ok_iff.mp hf
    obtain ⟨htypes, hshapes, hnames⟩ := ih
    obtain ⟨v, hv, hv'⟩ := hread.type
    refine ⟨?_, ?_, ?_⟩
    · have htype : Json.fieldType? (.obj members) = some v := hv
      rw [List.filterMap_cons_some htype]
      exact .cons hv' htypes
    · exact List.forall_mem_cons.mpr ⟨⟨members, rfl, fieldShape_of_fieldRead hread⟩, hshapes⟩
    · have hname : Json.fieldName? (.obj members) = some f.name := by
        rw [Json.fieldName?, hread.name]
        rfl
      rw [List.filterMap_cons_some hname, hnames, List.map_cons]

theorem Recognizes.record (h : Recognizes limit levels read) (hR : R.Lists known)
    {members : List (String × Json)} {kind : RecordKind} {name : Name} {doc : Option String}
    {items : List Json} {fields : List Field}
    (htag : Attribute.type.find? members = some (.str kind.tag.name))
    (hheading : Schema.HeadingRead scope members name doc) (hfree : R.find? name.full = none)
    (hitems : Attribute.fields.find? members = some (.arr items))
    (hchain : Chain (Schema.readField read name.space?) items
      (R.put name.full (.declared kind.tag)) fields R')
    (hfault : firstFault? (Field.fault name.full) [] fields = none) :
    Recognized known scope (.obj members) (.named ⟨name, doc, .record kind fields⟩) := by
  obtain ⟨hshape, hname⟩ := exists_headingRead_iff.mp ⟨doc, hheading⟩
  obtain ⟨htypes, hshapes, hnames⟩ := chain_types hchain
  have hform : (Json.obj members).form? = some (.record kind members) := by
    rw [Json.form?_of_tag htag]
    cases kind <;> rfl
  have hnodup : (items.filterMap Json.fieldName?).Nodup := by
    rw [hnames]
    exact Field.firstFault?_eq_none_iff.mp hfault
  refine recognized_named hform rfl ⟨hshape, items, hitems, hshapes, hnodup⟩ hname
    (hR.find?_eq_none_iff.mp hfree) ?_
  rw [Form.scope_record hname, Form.inner_record hitems]
  exact h.row (hR.put name.full (.declared kind.tag)) htypes

/-- One level of a reader is sound if the levels below recognize what they read. -/
theorem Recognizes.recognized (h : Recognizes limit levels read) (hR : R.Lists known) {v : Json}
    {s : Schema} (hreads : Schema.Reads read scope v R s R') : Recognized known scope v s := by
  cases hreads with
  | bare hp => exact recognized_primitive (by simp only [Json.form?, hp])
  | bareReference hp href => exact recognized_reference hR (by simp only [Json.form?, hp]) href
  | union hchain hfault => exact h.union hR hchain hfault
  | wrapped hw hcompound hread =>
    exact recognized_wrapped (Json.HasForm.wrapped hw hcompound).form?_eq (h.sound hR hread)
  | reference htext htag href =>
    exact recognized_reference hR (by simp only [Json.form?, htext, htag]) href
  | @primitive members p _ htag =>
    exact recognized_primitive (@Json.form?_of_tag _ (.primitive p) htag)
  | array htag hv hread =>
    exact recognized_array (by rw [Json.form?_of_tag htag, Form.ofTag?, hv]; rfl) (h.sound hR hread)
  | map htag hv hread =>
    exact recognized_map (by rw [Json.form?_of_tag htag, Form.ofTag?, hv]; rfl) (h.sound hR hread)
  | leaf htag hheading hfree hleaf => exact recognized_leaf hR htag hheading hfree hleaf
  | record htag hheading hfree hitems hchain hfault =>
    exact h.record hR htag hheading hfree hitems hchain hfault

end Sound

end Avro
