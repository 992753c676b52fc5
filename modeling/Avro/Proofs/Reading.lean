/-
# Reading: what a successful reading consists of

`Schema.readWith` is a program in a monad.  Here each of its parts is inverted once: what a reading
that succeeds has found in the document, which readings it is made of, and what it has done to the
registry.  Later modules go by cases on these statements and never open the program again.

* `Chain`: readings in a row, each with the registry that the one before left.
* `FieldRead`, `Reads`: one case for every way in which a field, or a schema, can be read.
* `readField_eq_ok_iff`, `readWith_eq_ok_iff`: the program succeeds exactly in these ways.
* `readerAt_induction`: from each level to the next, what holds of every reading that succeeds; for
  one, that it does so with more levels as well (`readerAt_succ`).
-/
import Avro.Schema.OfJson

namespace Avro

/-! ## 1. Readings in a row -/

theorem bind_eq_ok_iff {ε α β : Type} {x : Except ε α} {f : α → Except ε β} {b : β} :
    (x >>= f) = .ok b ↔ ∃ a, x = .ok a ∧ f a = .ok b := by
  cases x <;> simp [bind, Except.bind]

theorem toOption_eq_some_iff {ε α : Type} {x : Except ε α} {a : α} :
    x.toOption = some a ↔ x = .ok a := by
  cases x <;> simp [Except.toOption]

/-- A row of checks that each undo `g` undoes `g` on the whole list. -/
theorem mapM_eq_ok_iff_eq_map {ε α β : Type} {f : α → Except ε β} {g : β → α}
    (hf : ∀ a b, f a = .ok b ↔ a = g b) {as : List α} {bs : List β} :
    as.mapM f = .ok bs ↔ as = bs.map g := by
  induction as generalizing bs with
  | nil => cases bs <;> simp [pure, Except.pure]
  | cons a as ih =>
    simp only [List.mapM_cons, bind_eq_ok_iff, hf, ih]
    constructor
    · rintro ⟨b, rfl, bs', rfl, h⟩
      cases h
      rfl
    · intro h
      cases bs with
      | nil => cases h
      | cons b bs =>
        obtain ⟨rfl, rfl⟩ := List.cons.inj h
        exact ⟨b, rfl, bs, rfl, rfl⟩

theorem ReadM.throw_eq_ok_iff {α : Type} {e : SchemaError} {R : Registry} {r : α × Registry} :
    (throw e : ReadM α) R = .ok r ↔ False :=
  ⟨nofun, False.elim⟩

/-- The items of a list, read in turn. -/
inductive Chain {α β : Type} (read : α → ReadM β) :
    List α → Registry → List β → Registry → Prop
  | nil (R : Registry) : Chain read [] R [] R
  | cons {a : α} {as : List α} {b : β} {bs : List β} {R R₁ R' : Registry} :
    read a R = .ok (b, R₁) → Chain read as R₁ bs R' → Chain read (a :: as) R (b :: bs) R'

theorem mapM_eq_ok_iff {α β : Type} {read : α → ReadM β} {as : List α} {bs : List β}
    {R R' : Registry} : as.mapM read R = .ok (bs, R') ↔ Chain read as R bs R' := by
  induction as generalizing bs R with
  | nil =>
    rw [List.mapM_nil, ReadM.pure_eq_ok_iff]
    constructor
    · rintro ⟨rfl, rfl⟩
      exact .nil R
    · intro h
      cases h
      exact ⟨rfl, rfl⟩
  | cons a as ih =>
    rw [List.mapM_cons, ReadM.bind_eq_ok_iff]
    constructor
    · rintro ⟨b, R₁, hb, h⟩
      obtain ⟨bs', R₂, hbs, h⟩ := ReadM.bind_eq_ok_iff.mp h
      obtain ⟨rfl, rfl⟩ := ReadM.pure_eq_ok_iff.mp h
      exact .cons hb (ih.mp hbs)
    · intro h
      cases h with
      | @cons _ _ b bs _ R₁ _ hb hbs =>
        have hrest : as.mapM read R₁ = .ok (bs, R') := ih.mpr hbs
        refine ⟨b, R₁, hb, ReadM.bind_eq_ok_iff.mpr ⟨bs, R', hrest, ?_⟩⟩
        exact ReadM.pure_eq_ok_iff.mpr ⟨rfl, rfl⟩

theorem Chain.mono {α β : Type} {read read' : α → ReadM β} {as : List α} {bs : List β}
    {R R' : Registry} (hread : ∀ a R r, read a R = .ok r → read' a R = .ok r)
    (h : Chain read as R bs R') : Chain read' as R bs R' := by
  induction h with
  | nil R => exact .nil R
  | cons hb _ ih => exact .cons (hread _ _ _ hb) ih

/-! ## 2. Attributes -/

namespace Attribute

variable {a : Attribute} {members : List (String × Json)}

theorem require_eq_ok_iff {v : Json} : a.require members = .ok v ↔ a.find? members = some v := by
  rw [require]
  cases a.find? members <;> simp

theorem string?_eq_ok_iff {s : Option String} :
    a.string? members = .ok s ↔ a.find? members = s.map .str := by
  rw [string?]
  split
  · next h => cases s <;> simp [h]
  · next h => cases s <;> simp [h]
  · next v hv h => cases s <;> simp_all

theorem requireString_eq_ok_iff {s : String} :
    a.requireString members = .ok s ↔ a.find? members = some (.str s) := by
  rw [requireString, bind_eq_ok_iff]
  constructor
  · rintro ⟨s', hs', h⟩
    cases s' with
    | none => cases h
    | some s' =>
      cases h
      exact string?_eq_ok_iff.mp hs'
  · intro h
    exact ⟨some s, string?_eq_ok_iff.mpr h, rfl⟩

theorem requireArray_eq_ok_iff {items : List Json} :
    a.requireArray members = .ok items ↔ a.find? members = some (.arr items) := by
  rw [requireArray, bind_eq_ok_iff]
  constructor
  · rintro ⟨v, hv, h⟩
    split at h
    · cases h
      exact require_eq_ok_iff.mp hv
    · cases h
  · intro h
    exact ⟨.arr items, require_eq_ok_iff.mpr h, rfl⟩

theorem requireStrings_eq_ok_iff {texts : List String} :
    a.requireStrings members = .ok texts ↔ a.find? members = some (.arr (texts.map .str)) := by
  rw [requireStrings, bind_eq_ok_iff]
  simp only [requireArray_eq_ok_iff]
  constructor
  · rintro ⟨items, hitems, h⟩
    rw [hitems, (mapM_eq_ok_iff_eq_map (g := Json.str) (fun v s => ?_)).mp h]
    split <;> simp_all
  · intro h
    refine ⟨texts.map .str, h, (mapM_eq_ok_iff_eq_map (fun v s => ?_)).mpr rfl⟩
    split <;> simp_all

theorem requireSize_eq_ok_iff {size : UInt64} :
    a.requireSize members = .ok size ↔
      ∃ v n, a.find? members = some v ∧ v.toUnsigned? = some n ∧ size = .ofNat n := by
  rw [requireSize, bind_eq_ok_iff]
  constructor
  · rintro ⟨v, hv, h⟩
    split at h
    · next n hn =>
      cases h
      exact ⟨v, n, require_eq_ok_iff.mp hv, hn, rfl⟩
    · cases h
  · rintro ⟨v, n, hv, hn, rfl⟩
    refine ⟨v, require_eq_ok_iff.mpr hv, ?_⟩
    rw [hn]

theorem definedName_eq_ok_iff {scope : Option String} {name : Name} :
    definedName members scope = .ok name ↔
      ∃ text space, Attribute.name.find? members = some (.str text) ∧
        Attribute.space.find? members = Option.map .str space ∧
        Name.resolve text space scope = .ok name := by
  simp only [definedName, bind_eq_ok_iff, requireString_eq_ok_iff, string?_eq_ok_iff]
  constructor
  · rintro ⟨text, htext, space, hspace, h⟩
    refine ⟨text, space, htext, hspace, ?_⟩
    cases hname : Name.resolve text space scope with
    | error e => rw [hname] at h; cases h
    | ok n => rw [hname] at h; cases h; rfl
  · rintro ⟨text, space, htext, hspace, h⟩
    refine ⟨text, htext, space, hspace, ?_⟩
    rw [h]
    rfl

theorem fieldOrder?_eq_ok_iff {order : Option FieldOrder} :
    fieldOrder? members = .ok order ↔
      Attribute.order.find? members = order.map (fun o => .str o.name) := by
  simp only [fieldOrder?, bind_eq_ok_iff, string?_eq_ok_iff]
  constructor
  · rintro ⟨text?, htext, h⟩
    cases text? with
    | none => cases h; exact htext
    | some text =>
      simp only at h
      split at h
      · next o ho =>
        cases h
        have hname : o.name = text := by simpa using List.find?_some ho
        simpa [hname] using htext
      · cases h
  · intro h
    cases order with
    | none => exact ⟨none, h, rfl⟩
    | some o =>
      refine ⟨some o.name, h, ?_⟩
      simp only [FieldOrder.ofName?_name]

end Attribute

theorem orFault_eq_ok_iff {α : Type} {value a : α} {fault : Option SchemaError} :
    orFault value fault = .ok a ↔ fault = none ∧ a = value := by
  cases fault <;> simp [orFault, eq_comm]

theorem orFault_eq_error_iff {α : Type} {value : α} {fault : Option SchemaError} {e : SchemaError} :
    orFault value fault = .error e ↔ fault = some e := by
  cases fault <;> simp [orFault]

namespace Schema

variable {read : SchemaReader} {scope : Option String} {R R' : Registry}

/-! ## 3. Fields -/

/-- A field that is read off the members of an object. -/
structure FieldRead (read : SchemaReader) (scope : Option String) (members : List (String × Json))
    (R : Registry) (f : Field) (R' : Registry) : Prop where
  name : Attribute.name.find? members = some (.str f.name)
  identifier : isIdentifier f.name = true
  type : ∃ v, Attribute.type.find? members = some v ∧ read scope v R = .ok (f.type, R')
  default : Attribute.default.find? members = f.default
  order : Attribute.order.find? members = f.order.map (fun o => .str o.name)
  doc : Attribute.doc.find? members = f.doc.map .str

theorem readField_eq_ok_iff {v : Json} {f : Field} :
    readField read scope v R = .ok (f, R') ↔
      ∃ members, v = .obj members ∧ FieldRead read scope members R f R' := by
  constructor
  · intro h
    cases v with
    | obj members =>
      refine ⟨members, rfl, ?_⟩
      simp only [readField, ReadM.bind_eq_ok_iff, ReadM.lift_eq_ok_iff, readNested_eq_ok_iff,
        ReadM.pure_eq_ok_iff, Attribute.requireString_eq_ok_iff, Attribute.require_eq_ok_iff,
        Attribute.fieldOrder?_eq_ok_iff, Attribute.string?_eq_ok_iff] at h
      obtain ⟨name, _, ⟨hname, rfl⟩, t, _, ⟨ht, rfl⟩, type, _, htype, field, _, ⟨hfield, rfl⟩,
        order, _, ⟨horder, rfl⟩, doc, _, ⟨hdoc, rfl⟩, rfl, rfl⟩ := h
      rw [Field.of] at hfield
      split at hfield
      · next hid =>
        cases hfield
        exact ⟨hname, hid, ⟨t, ht, htype⟩, rfl, horder, hdoc⟩
      · cases hfield
    | _ => exact absurd h (by simp [readField, ReadM.throw_eq_ok_iff])
  · rintro ⟨members, rfl, h⟩
    obtain ⟨t, ht, htype⟩ := h.type
    simp only [readField, ReadM.bind_eq_ok_iff, ReadM.lift_eq_ok_iff, readNested_eq_ok_iff,
      ReadM.pure_eq_ok_iff, Attribute.requireString_eq_ok_iff, Attribute.require_eq_ok_iff,
      Attribute.fieldOrder?_eq_ok_iff, Attribute.string?_eq_ok_iff]
    refine ⟨f.name, R, ⟨h.name, rfl⟩, t, R, ⟨ht, rfl⟩, f.type, R', htype,
      ⟨f.name, f.type, none, none, none⟩, R', ⟨?_, rfl⟩, f.order, R', ⟨h.order, rfl⟩,
      f.doc, R', ⟨h.doc, rfl⟩, ?_, rfl⟩
    · rw [Field.of, if_pos h.identifier]
    · rw [h.default]
      cases f
      rfl

theorem readFields_eq_ok_iff {v : Json} {fields : List Field} :
    readFields read scope v R = .ok (fields, R') ↔
      ∃ items, v = .arr items ∧ Chain (readField read scope) items R fields R' := by
  constructor
  · intro h
    cases v with
    | arr items => exact ⟨items, rfl, mapM_eq_ok_iff.mp h⟩
    | _ => exact absurd h (by simp [readFields, ReadM.throw_eq_ok_iff])
  · rintro ⟨items, rfl, h⟩
    exact mapM_eq_ok_iff.mpr h

/-! ## 4. Schemas -/

/-- Whether a value under `type` is a schema in its own right. -/
def isCompound : Json → Bool
  | .arr _ | .obj _ => true
  | _ => false

/-- The name and the documentation that a definition is read to have. -/
structure HeadingRead (scope : Option String) (members : List (String × Json)) (name : Name)
    (doc : Option String) : Prop where
  name : Attribute.definedName members scope = .ok name
  doc : Attribute.doc.find? members = doc.map .str

/-- The body of a definition that has no schemas in it, read off the members of its object. -/
inductive LeafRead (members : List (String × Json)) (full : String) : Body → Prop
  | enum {symbols : List String} :
    Attribute.symbols.find? members = some (.arr (symbols.map .str)) →
    firstFault? (Definition.symbolFault full) [] symbols = none →
    LeafRead members full (.enum symbols)
  | fixed {v : Json} {n : Nat} :
    Attribute.size.find? members = some v → v.toUnsigned? = some n →
    LeafRead members full (.fixed (.ofNat n))

/-- The ways in which a schema is read, where the schemas directly below are read by `read`. -/
inductive Reads (read : SchemaReader) (scope : Option String) :
    Json → Registry → Schema → Registry → Prop
  | bare {text : String} {p : Primitive} {R : Registry} :
    Primitive.ofName? text = some p →
    Reads read scope (.str text) R (.primitive p) R
  | bareReference {text : String} {s : Schema} {R : Registry} :
    Primitive.ofName? text = none → R.reference? text scope = some s →
    Reads read scope (.str text) R s R
  | union {items : List Json} {branches : List Schema} {R R' : Registry} :
    Chain (read scope) items R branches R' → firstFault? branchFault [] branches = none →
    Reads read scope (.arr items) R (.union branches) R'
  | wrapped {members : List (String × Json)} {v : Json} {s : Schema} {R R' : Registry} :
    Attribute.type.find? members = some v → isCompound v = true → read scope v R = .ok (s, R') →
    Reads read scope (.obj members) R s R'
  | reference {members : List (String × Json)} {text : String} {s : Schema} {R : Registry} :
    Attribute.type.find? members = some (.str text) → Tag.ofName? text = none →
    R.reference? text scope = some s →
    Reads read scope (.obj members) R s R
  | primitive {members : List (String × Json)} {p : Primitive} {R : Registry} :
    Attribute.type.find? members = some (.str (Tag.primitive p).name) →
    Reads read scope (.obj members) R (.primitive p) R
  | array {members : List (String × Json)} {v : Json} {items : Schema} {R R' : Registry} :
    Attribute.type.find? members = some (.str Tag.array.name) →
    Attribute.items.find? members = some v → read scope v R = .ok (items, R') →
    Reads read scope (.obj members) R (.array items) R'
  | map {members : List (String × Json)} {v : Json} {values : Schema} {R R' : Registry} :
    Attribute.type.find? members = some (.str Tag.map.name) →
    Attribute.values.find? members = some v → read scope v R = .ok (values, R') →
    Reads read scope (.obj members) R (.map values) R'
  | leaf {members : List (String × Json)} {name : Name} {doc : Option String} {body : Body}
      {R : Registry} :
    Attribute.type.find? members = some (.str body.tag.name) →
    HeadingRead scope members name doc → R.find? name.full = none →
    LeafRead members name.full body →
    Reads read scope (.obj members) R (.named ⟨name, doc, body⟩)
      ((R.put name.full (.declared body.tag)).define ⟨name, doc, body⟩)
  | record {members : List (String × Json)} {kind : RecordKind} {name : Name}
      {doc : Option String} {items : List Json} {fields : List Field} {R R₁ : Registry} :
    Attribute.type.find? members = some (.str kind.tag.name) →
    HeadingRead scope members name doc → R.find? name.full = none →
    Attribute.fields.find? members = some (.arr items) →
    Chain (readField read name.space?) items (R.put name.full (.declared kind.tag)) fields R₁ →
    firstFault? (Field.fault name.full) [] fields = none →
    Reads read scope (.obj members) R (.named ⟨name, doc, .record kind fields⟩)
      (R₁.define ⟨name, doc, .record kind fields⟩)

theorem readReference_eq_ok_iff {text : String} {unknown : SchemaError} {s : Schema} :
    readReference text scope unknown R = .ok (s, R') ↔
      R.reference? text scope = some s ∧ R' = R := by
  simp only [readReference, ReadM.bind_eq_ok_iff, ReadM.get_eq_ok_iff]
  constructor
  · rintro ⟨_, _, ⟨rfl, rfl⟩, h⟩
    cases href : Registry.reference? _ text scope with
    | none =>
      rw [href] at h
      exact (ReadM.throw_eq_ok_iff.mp h).elim
    | some s' =>
      rw [href] at h
      obtain ⟨rfl, rfl⟩ := ReadM.pure_eq_ok_iff.mp h
      exact ⟨rfl, rfl⟩
  · rintro ⟨href, rfl⟩
    refine ⟨R', R', ⟨rfl, rfl⟩, ?_⟩
    rw [href]
    exact ReadM.pure_eq_ok_iff.mpr ⟨rfl, rfl⟩

theorem unionOf_eq_ok_iff {branches : List Schema} {s : Schema} :
    unionOf branches = .ok s ↔
      firstFault? branchFault [] branches = none ∧ s = .union branches := by
  rw [unionOf, orFault_eq_ok_iff]

theorem readRecord_eq_ok_iff {kind : RecordKind} {members : List (String × Json)} {s : Schema} :
    readRecord read kind scope members R = .ok (s, R') ↔
      ∃ name doc items fields R₁, HeadingRead scope members name doc ∧ R.find? name.full = none ∧
        Attribute.fields.find? members = some (.arr items) ∧
        Chain (readField read name.space?) items (R.put name.full (.declared kind.tag)) fields R₁ ∧
        firstFault? (Field.fault name.full) [] fields = none ∧
        s = .named ⟨name, doc, .record kind fields⟩ ∧
        R' = R₁.define ⟨name, doc, .record kind fields⟩ := by
  simp only [readRecord, ReadM.bind_eq_ok_iff, ReadM.lift_eq_ok_iff, declare_eq_ok_iff, define_eq,
    Registry.declare_eq_ok_iff, readFields_eq_ok_iff, Attribute.require_eq_ok_iff,
    Attribute.string?_eq_ok_iff, Definition.recordOf, orFault_eq_ok_iff, Except.ok.injEq,
    Prod.mk.injEq]
  constructor
  · rintro ⟨name, _, ⟨hname, rfl⟩, doc, _, ⟨hdoc, rfl⟩, _, _, ⟨hfree, rfl⟩, v, _, ⟨hv, rfl⟩,
      fields, R₁, ⟨items, rfl, hchain⟩, d, _, ⟨⟨hfault, rfl⟩, rfl⟩, rfl, rfl⟩
    exact ⟨name, doc, items, fields, _, ⟨hname, hdoc⟩, hfree, hv, hchain, hfault, rfl, rfl⟩
  · rintro ⟨name, doc, items, fields, R₁, ⟨hname, hdoc⟩, hfree, hv, hchain, hfault, rfl, rfl⟩
    exact ⟨name, R, ⟨hname, rfl⟩, doc, R, ⟨hdoc, rfl⟩, (), _, ⟨hfree, rfl⟩, .arr items, _,
      ⟨hv, rfl⟩, fields, R₁, ⟨items, rfl, hchain⟩, _, R₁, ⟨⟨hfault, rfl⟩, rfl⟩, rfl, rfl⟩

theorem readTagged_record (kind : RecordKind) :
    readTagged read kind.tag = readRecord read kind := by
  cases kind <;> rfl

/-- The definitions that have no schemas in them are all read alike. -/
theorem readEnum_eq_ok_iff {members : List (String × Json)} {s : Schema} :
    readEnum scope members R = .ok (s, R') ↔
      ∃ name doc symbols, HeadingRead scope members name doc ∧ R.find? name.full = none ∧
        LeafRead members name.full (.enum symbols) ∧ s = .named ⟨name, doc, .enum symbols⟩ ∧
        R' = (R.put name.full (.declared .enum)).define ⟨name, doc, .enum symbols⟩ := by
  simp only [readEnum, ReadM.bind_eq_ok_iff, ReadM.lift_eq_ok_iff, declare_eq_ok_iff,
    Registry.declare_eq_ok_iff, Attribute.string?_eq_ok_iff, Attribute.requireStrings_eq_ok_iff,
    Definition.enumOf, orFault_eq_ok_iff, define_eq, Except.ok.injEq, Prod.mk.injEq]
  constructor
  · rintro ⟨name, _, ⟨hname, rfl⟩, doc, _, ⟨hdoc, rfl⟩, _, _, ⟨hfree, rfl⟩, symbols, _,
      ⟨hsymbols, rfl⟩, d, _, ⟨⟨hfault, rfl⟩, rfl⟩, rfl, rfl⟩
    exact ⟨name, doc, symbols, ⟨hname, hdoc⟩, hfree, .enum hsymbols hfault, rfl, rfl⟩
  · rintro ⟨name, doc, symbols, ⟨hname, hdoc⟩, hfree, ⟨hsymbols, hfault⟩, rfl, rfl⟩
    exact ⟨name, R, ⟨hname, rfl⟩, doc, R, ⟨hdoc, rfl⟩, (), _, ⟨hfree, rfl⟩, symbols, _,
      ⟨hsymbols, rfl⟩, _, _, ⟨⟨hfault, rfl⟩, rfl⟩, rfl, rfl⟩

theorem readFixed_eq_ok_iff {members : List (String × Json)} {s : Schema} :
    readFixed scope members R = .ok (s, R') ↔
      ∃ name doc size, HeadingRead scope members name doc ∧ R.find? name.full = none ∧
        LeafRead members name.full (.fixed size) ∧ s = .named ⟨name, doc, .fixed size⟩ ∧
        R' = (R.put name.full (.declared .fixed)).define ⟨name, doc, .fixed size⟩ := by
  simp only [readFixed, ReadM.bind_eq_ok_iff, ReadM.lift_eq_ok_iff, declare_eq_ok_iff,
    Registry.declare_eq_ok_iff, Attribute.string?_eq_ok_iff, Attribute.requireSize_eq_ok_iff,
    Definition.fixedOf, define_eq, Except.ok.injEq, Prod.mk.injEq]
  constructor
  · rintro ⟨name, _, ⟨hname, rfl⟩, doc, _, ⟨hdoc, rfl⟩, _, _, ⟨hfree, rfl⟩, size, _,
      ⟨⟨v, n, hv, hn, rfl⟩, rfl⟩, rfl, rfl⟩
    exact ⟨name, doc, .ofNat n, ⟨hname, hdoc⟩, hfree, .fixed hv hn, rfl, rfl⟩
  · rintro ⟨name, doc, size, ⟨hname, hdoc⟩, hfree, hleaf, rfl, rfl⟩
    cases hleaf with
    | @fixed v n hv hn =>
      exact ⟨name, R, ⟨hname, rfl⟩, doc, R, ⟨hdoc, rfl⟩, (), _, ⟨hfree, rfl⟩, .ofNat n, _,
        ⟨⟨v, n, hv, hn, rfl⟩, rfl⟩, rfl, rfl⟩

theorem readTagged_array_eq_ok_iff {members : List (String × Json)} {s : Schema} :
    readTagged read .array scope members R = .ok (s, R') ↔
      ∃ v items, Attribute.items.find? members = some v ∧ read scope v R = .ok (items, R') ∧
        s = .array items := by
  simp only [readTagged, ReadM.bind_eq_ok_iff, ReadM.lift_eq_ok_iff, readNested_eq_ok_iff,
    ReadM.pure_eq_ok_iff, Attribute.require_eq_ok_iff]
  constructor
  · rintro ⟨v, _, ⟨hv, rfl⟩, items, R₁, hitems, rfl, rfl⟩
    exact ⟨v, items, hv, hitems, rfl⟩
  · rintro ⟨v, items, hv, hitems, rfl⟩
    exact ⟨v, R, ⟨hv, rfl⟩, items, R', hitems, rfl, rfl⟩

theorem readTagged_map_eq_ok_iff {members : List (String × Json)} {s : Schema} :
    readTagged read .map scope members R = .ok (s, R') ↔
      ∃ v values, Attribute.values.find? members = some v ∧ read scope v R = .ok (values, R') ∧
        s = .map values := by
  simp only [readTagged, ReadM.bind_eq_ok_iff, ReadM.lift_eq_ok_iff, readNested_eq_ok_iff,
    ReadM.pure_eq_ok_iff, Attribute.require_eq_ok_iff]
  constructor
  · rintro ⟨v, _, ⟨hv, rfl⟩, values, R₁, hvalues, rfl, rfl⟩
    exact ⟨v, values, hv, hvalues, rfl⟩
  · rintro ⟨v, values, hv, hvalues, rfl⟩
    exact ⟨v, R, ⟨hv, rfl⟩, values, R', hvalues, rfl, rfl⟩

theorem reads_of_readTagged {tag : Tag} {members : List (String × Json)} {s : Schema}
    (htag : Attribute.type.find? members = some (.str tag.name))
    (h : readTagged read tag scope members R = .ok (s, R')) :
    Reads read scope (.obj members) R s R' := by
  cases tag with
  | primitive p =>
    obtain ⟨rfl, rfl⟩ := ReadM.pure_eq_ok_iff.mp h
    exact .primitive htag
  | record =>
    obtain ⟨name, doc, items, fields, R₁, hhead, hfree, hitems, hchain, hfault, rfl, rfl⟩ :=
      readRecord_eq_ok_iff.mp h
    exact .record htag hhead hfree hitems hchain hfault
  | error =>
    obtain ⟨name, doc, items, fields, R₁, hhead, hfree, hitems, hchain, hfault, rfl, rfl⟩ :=
      readRecord_eq_ok_iff.mp h
    exact .record htag hhead hfree hitems hchain hfault
  | enum =>
    obtain ⟨name, doc, symbols, hhead, hfree, hleaf, rfl, rfl⟩ := readEnum_eq_ok_iff.mp h
    exact .leaf htag hhead hfree hleaf
  | fixed =>
    obtain ⟨name, doc, size, hhead, hfree, hleaf, rfl, rfl⟩ := readFixed_eq_ok_iff.mp h
    exact .leaf htag hhead hfree hleaf
  | array =>
    obtain ⟨v, items, hv, hitems, rfl⟩ := readTagged_array_eq_ok_iff.mp h
    exact .array htag hv hitems
  | map =>
    obtain ⟨v, values, hv, hvalues, rfl⟩ := readTagged_map_eq_ok_iff.mp h
    exact .map htag hv hvalues
  | union => exact absurd h (by simp [readTagged, ReadM.throw_eq_ok_iff])
  | errorUnion => exact absurd h (by simp [readTagged, ReadM.throw_eq_ok_iff])
  | request => exact absurd h (by simp [readTagged, ReadM.throw_eq_ok_iff])

theorem reads_of_readWith {v : Json} {s : Schema} (h : readWith read scope v R = .ok (s, R')) :
    Reads read scope v R s R' := by
  cases v with
  | str text =>
    simp only [readWith] at h
    cases hp : Primitive.ofName? text with
    | some p =>
      simp only [hp] at h
      obtain ⟨rfl, rfl⟩ := ReadM.pure_eq_ok_iff.mp h
      exact .bare hp
    | none =>
      simp only [hp] at h
      obtain ⟨href, rfl⟩ := readReference_eq_ok_iff.mp h
      exact .bareReference hp href
  | arr items =>
    simp only [readWith, ReadM.bind_eq_ok_iff, mapM_eq_ok_iff, ReadM.lift_eq_ok_iff,
      unionOf_eq_ok_iff] at h
    obtain ⟨branches, _, hchain, ⟨hfault, rfl⟩, rfl⟩ := h
    exact .union (hchain.mono fun v R r hr => readNested_eq_ok_iff.mp hr) hfault
  | obj members =>
    simp only [readWith] at h
    cases hv : Attribute.type.find? members with
    | none => exact absurd h (by simp [hv, ReadM.throw_eq_ok_iff])
    | some v =>
      simp only [hv] at h
      cases v with
      | str text =>
        cases htag : Tag.ofName? text with
        | some tag =>
          simp only [htag] at h
          obtain rfl := Tag.ofName?_eq_some_iff.mp htag
          exact reads_of_readTagged hv h
        | none =>
          simp only [htag] at h
          obtain ⟨href, rfl⟩ := readReference_eq_ok_iff.mp h
          exact .reference hv htag href
      | obj _ => exact .wrapped hv rfl h
      | arr _ => exact .wrapped hv rfl h
      | _ => exact absurd h (by simp [ReadM.throw_eq_ok_iff])
  | _ => exact absurd h (by simp [readWith, ReadM.throw_eq_ok_iff])

/-- An object whose `type` is a tag is read by the tag. -/
theorem readWith_obj (tag : Tag) {members : List (String × Json)}
    (htag : Attribute.type.find? members = some (.str tag.name)) :
    readWith read scope (.obj members) = readTagged read tag scope members := by
  simp only [readWith, htag, Tag.ofName?_name]

/-- An object whose `type` is an object or an array is read as that. -/
theorem readWith_wrapped {members : List (String × Json)} {v : Json}
    (hv : Attribute.type.find? members = some v) (hcompound : isCompound v = true) :
    readWith read scope (.obj members) = read scope v := by
  cases v with
  | arr items => simp only [readWith, hv]
  | obj members => simp only [readWith, hv]
  | _ => cases hcompound

theorem readWith_of_reads {v : Json} {s : Schema} (h : Reads read scope v R s R') :
    readWith read scope v R = .ok (s, R') := by
  cases h with
  | bare hp =>
    simp only [readWith, hp]
    exact ReadM.pure_eq_ok_iff.mpr ⟨rfl, rfl⟩
  | bareReference hp href =>
    simp only [readWith, hp]
    exact readReference_eq_ok_iff.mpr ⟨href, rfl⟩
  | @union items branches _ _ hchain hfault =>
    simp only [readWith, ReadM.bind_eq_ok_iff, mapM_eq_ok_iff, ReadM.lift_eq_ok_iff,
      unionOf_eq_ok_iff]
    exact ⟨branches, R', hchain.mono fun v R r hr => readNested_eq_ok_iff.mpr hr,
      ⟨hfault, rfl⟩, rfl⟩
  | wrapped hv hcompound hread => rwa [readWith_wrapped hv hcompound]
  | reference htext htag href =>
    simp only [readWith, htext, htag]
    exact readReference_eq_ok_iff.mpr ⟨href, rfl⟩
  | primitive htag =>
    rw [readWith_obj (.primitive _) htag]
    exact ReadM.pure_eq_ok_iff.mpr ⟨rfl, rfl⟩
  | @array members v items _ _ htag hv hread =>
    rw [readWith_obj .array htag]
    exact readTagged_array_eq_ok_iff.mpr ⟨v, items, hv, hread, rfl⟩
  | @map members v values _ _ htag hv hread =>
    rw [readWith_obj .map htag]
    exact readTagged_map_eq_ok_iff.mpr ⟨v, values, hv, hread, rfl⟩
  | @leaf members name doc body _ htag hhead hfree hleaf =>
    cases body with
    | enum symbols =>
      rw [readWith_obj .enum htag]
      exact readEnum_eq_ok_iff.mpr ⟨name, doc, symbols, hhead, hfree, hleaf, rfl, rfl⟩
    | fixed size =>
      rw [readWith_obj .fixed htag]
      exact readFixed_eq_ok_iff.mpr ⟨name, doc, size, hhead, hfree, hleaf, rfl, rfl⟩
    | record kind fields => cases hleaf
  | @record members kind name doc items fields _ R₁ htag hhead hfree hitems hchain hfault =>
    have hread : readRecord read kind scope members R =
        .ok (.named ⟨name, doc, .record kind fields⟩,
          R₁.define ⟨name, doc, .record kind fields⟩) :=
      readRecord_eq_ok_iff.mpr
        ⟨name, doc, items, fields, R₁, hhead, hfree, hitems, hchain, hfault, rfl, rfl⟩
    rw [readWith_obj kind.tag htag, readTagged_record]
    exact hread

/-- **A reading succeeds exactly in the ways of `Reads`.** -/
theorem readWith_eq_ok_iff {v : Json} {s : Schema} :
    readWith read scope v R = .ok (s, R') ↔ Reads read scope v R s R' :=
  ⟨reads_of_readWith, readWith_of_reads⟩

/-! ## 5. Levels -/

theorem FieldRead.mono {read read' : SchemaReader} {members : List (String × Json)} {f : Field}
    (hread : ∀ scope v R r, read scope v R = .ok r → read' scope v R = .ok r)
    (h : FieldRead read scope members R f R') : FieldRead read' scope members R f R' where
  name := h.name
  identifier := h.identifier
  type := by
    obtain ⟨v, hv, ht⟩ := h.type
    exact ⟨v, hv, hread _ _ _ _ ht⟩
  default := h.default
  order := h.order
  doc := h.doc

theorem Reads.mono {read read' : SchemaReader} {v : Json} {s : Schema}
    (hread : ∀ scope v R r, read scope v R = .ok r → read' scope v R = .ok r)
    (h : Reads read scope v R s R') : Reads read' scope v R s R' := by
  cases h with
  | bare hp => exact .bare hp
  | bareReference hp href => exact .bareReference hp href
  | union hchain hfault => exact .union (hchain.mono (hread scope)) hfault
  | wrapped hv hcompound hs => exact .wrapped hv hcompound (hread _ _ _ _ hs)
  | reference htext htag href => exact .reference htext htag href
  | primitive htag => exact .primitive htag
  | array htag hv hs => exact .array htag hv (hread _ _ _ _ hs)
  | map htag hv hs => exact .map htag hv (hread _ _ _ _ hs)
  | leaf htag hhead hfree hleaf => exact .leaf htag hhead hfree hleaf
  | @record members kind name doc items fields _ R₁ htag hhead hfree hitems hchain hfault =>
    refine .record htag hhead hfree hitems (hchain.mono fun v R r hr => ?_) hfault
    obtain ⟨f, S⟩ := r
    obtain ⟨members, rfl, hf⟩ := readField_eq_ok_iff.mp hr
    exact readField_eq_ok_iff.mpr ⟨members, rfl, hf.mono hread⟩

theorem readerAt_zero {limit : Nat} {v : Json} {r : Schema × Registry} :
    readerAt limit 0 scope v R = .ok r ↔ False :=
  ReadM.throw_eq_ok_iff

theorem readerAt_succ_eq_ok_iff {limit levels : Nat} {v : Json} {s : Schema} :
    readerAt limit (levels + 1) scope v R = .ok (s, R') ↔
      Reads (readerAt limit levels) scope v R s R' :=
  readWith_eq_ok_iff

/-- **Induction along a reading.**  What one level establishes, if the level below has established
it of the schemas directly below, holds of every reading that succeeds. -/
theorem readerAt_induction {limit : Nat}
    {P : Nat → Option String → Json → Registry → Schema → Registry → Prop}
    (step : ∀ levels scope v R s R',
      (∀ scope v R s R', readerAt limit levels scope v R = .ok (s, R') → P levels scope v R s R') →
      Reads (readerAt limit levels) scope v R s R' → P (levels + 1) scope v R s R')
    {levels : Nat} {v : Json} {s : Schema} (h : readerAt limit levels scope v R = .ok (s, R')) :
    P levels scope v R s R' := by
  induction levels generalizing scope v R s R' with
  | zero => exact (readerAt_zero.mp h).elim
  | succ levels ih =>
    exact step levels scope v R s R' (fun _ _ _ _ _ hr => ih hr) (readerAt_succ_eq_ok_iff.mp h)

/-- **More levels do no harm.** -/
theorem readerAt_succ {limit levels : Nat} {v : Json} {s : Schema}
    (h : readerAt limit levels scope v R = .ok (s, R')) :
    readerAt limit (levels + 1) scope v R = .ok (s, R') := by
  refine readerAt_induction (P := fun levels scope v R s R' =>
    readerAt limit (levels + 1) scope v R = .ok (s, R')) ?_ h
  intro levels scope v R s R' ih hreads
  refine readerAt_succ_eq_ok_iff.mpr (hreads.mono fun scope v R r hr => ?_)
  obtain ⟨s, R'⟩ := r
  exact ih scope v R s R' hr

end Schema
end Avro
