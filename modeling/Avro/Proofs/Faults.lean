/-
# Faults: how one level of a reading fails

A reading that fails has no result to go by, only the error and the steps before it.  Here each part
of `Schema.readWith` is inverted once for the case that it fails, as `Proofs.Reading` does for the
case that it succeeds: either the error is about the value itself, or it is that of a schema inside,
which is read with what the steps before have left.

* `SchemaError.isOwn`: the errors that a schema has by itself.
* `ReadM.mapM_eq_error_iff`: a row of readings fails where one does, after those before it.
* `Inside`: the nested schemas that a level comes to, each with the namespace that is in scope and
  the registry that is there by then.
* `readWith_eq_error_cases`, `readWith_eq_error_of_inside`: a level fails by a fault of its own, or
  by that of a schema inside, put inside an excerpt.
* `Inside.failing_unique`: of the schemas inside, only one can fail.
-/
import Avro.Proofs.Reading

namespace Avro

/-! ## 1. Steps that fail -/

namespace SchemaError

/-- Whether an error is about an attribute alone: it is missing, or its value is not one for it. -/
def isOfAttribute : SchemaError → Bool
  | missingAttribute _ _ | invalidAttribute _ _ | invalidName _ => true
  | _ => false

/-- Whether a schema can have the error by itself.  The others are about a nested schema, about the
limit of the nesting, or about a text that holds no value. -/
def isOwn : SchemaError → Bool
  | invalidJson _ | nestingTooDeep _ | invalidSubSchema _ _ => false
  | _ => true

theorem isOwn_of_isOfAttribute {e : SchemaError} (h : e.isOfAttribute = true) :
    e.isOwn = true := by
  cases e with
  | missingAttribute | invalidAttribute | invalidName => rfl
  | _ => cases h

theorem within_of_isOwn {e : SchemaError} (h : e.isOwn = true) (v : Json) :
    e.within v = .invalidSubSchema v.excerpt e := by
  cases e with
  | invalidJson | nestingTooDeep | invalidSubSchema => cases h
  | _ => rfl

theorem isOwn_within (e : SchemaError) (v : Json) : (e.within v).isOwn = false := by
  cases e <;> rfl

theorem rootCause_of_isOwn {e : SchemaError} (h : e.isOwn = true) : e.rootCause = e := by
  cases e with
  | invalidSubSchema => cases h
  | _ => rfl

end SchemaError

/-- Every fault that a step comes to is of this kind. -/
def Raises {α : Type} (kind : SchemaError → Bool) (x : Except SchemaError α) : Prop :=
  ∀ e, x = .error e → kind e = true

namespace Raises

variable {kind : SchemaError → Bool} {α β : Type}

theorem ok (a : α) : Raises kind (.ok a : Except SchemaError α) :=
  nofun

theorem error {e : SchemaError} (h : kind e = true) :
    Raises kind (.error e : Except SchemaError α) := by
  rintro _ ⟨⟩
  exact h

theorem bind {x : Except SchemaError α} {f : α → Except SchemaError β} (hx : Raises kind x)
    (hf : ∀ a, Raises kind (f a)) : Raises kind (x >>= f) := by
  intro e he
  cases x with
  | error e' =>
    cases he
    exact hx e rfl
  | ok a => exact hf a e he

theorem mapM {f : α → Except SchemaError β} (h : ∀ a, Raises kind (f a)) (as : List α) :
    Raises kind (as.mapM f) := by
  induction as with
  | nil => exact .ok []
  | cons a as ih =>
    rw [List.mapM_cons]
    exact (h a).bind fun b => ih.bind fun bs => .ok (b :: bs)

/-- The fault of a list is that of one of its items. -/
theorem orFault {a : α} {items : List β} {fault : List β → β → Option SchemaError}
    (h : ∀ before item e, fault before item = some e → kind e = true) :
    Raises kind (orFault a (firstFault? fault [] items)) := by
  intro e he
  obtain ⟨before, item, -, -, hitem, -⟩ := firstFault?_eq_some_iff.mp (orFault_eq_error_iff.mp he)
  exact h _ _ _ hitem

end Raises

namespace ReadM

variable {α β : Type} {R : Registry} {e : SchemaError}

theorem bind_eq_error_iff {x : ReadM α} {f : α → ReadM β} :
    (x >>= f) R = .error e ↔ x R = .error e ∨ ∃ a R₁, x R = .ok (a, R₁) ∧ f a R₁ = .error e := by
  simp only [bind, StateT.bind, Except.bind]
  match x R with
  | .error e' => simp
  | .ok (a, R₁) =>
    constructor
    · exact fun h => .inr ⟨a, R₁, rfl, h⟩
    · rintro (h | ⟨_, _, ⟨⟩, h⟩)
      · cases h
      · exact h

theorem lift_eq_error_iff {x : Except SchemaError α} :
    (liftM x : ReadM α) R = .error e ↔ x = .error e := by
  constructor
  · intro h
    cases x with
    | error e' =>
      cases h
      rfl
    | ok a => cases h
  · rintro rfl
    rfl

/-- A step that does not look at the registry comes first: it fails, or the rest does. -/
theorem lift_bind_eq_error_iff {x : Except SchemaError α} {f : α → ReadM β} :
    ((liftM x : ReadM α) >>= f) R = .error e ↔
      x = .error e ∨ ∃ a, x = .ok a ∧ f a R = .error e := by
  simp only [bind_eq_error_iff, lift_eq_error_iff, lift_eq_ok_iff]
  refine or_congr_right ⟨?_, ?_⟩
  · rintro ⟨a, _, ⟨ha, rfl⟩, h⟩
    exact ⟨a, ha, h⟩
  · rintro ⟨a, ha, h⟩
    exact ⟨a, R, ⟨ha, rfl⟩, h⟩

theorem pure_eq_error_iff {a : α} : (pure a : ReadM α) R = .error e ↔ False :=
  ⟨nofun, False.elim⟩

theorem throw_eq_error_iff {e' : SchemaError} : (throw e' : ReadM α) R = .error e ↔ e' = e := by
  constructor
  · rintro ⟨⟩
    rfl
  · rintro rfl
    rfl

/-- **A row of readings fails** where one of them does, after those before it. -/
theorem mapM_eq_error_iff {read : α → ReadM β} {as : List α} :
    as.mapM read R = .error e ↔
      ∃ before a after bs R₁, as = before ++ a :: after ∧ Chain read before R bs R₁ ∧
        read a R₁ = .error e := by
  induction as generalizing R with
  | nil =>
    rw [List.mapM_nil, pure_eq_error_iff, false_iff]
    rintro ⟨before, a, after, bs, R₁, has, -, -⟩
    exact List.append_ne_nil_of_right_ne_nil before (List.cons_ne_nil a after) has.symm
  | cons a as ih =>
    simp only [List.mapM_cons, bind_eq_error_iff, pure_eq_error_iff, ih]
    constructor
    · rintro (h | ⟨b, R₁, hb, ⟨before, a', after, bs, R₂, rfl, hchain, h⟩ | ⟨_, _, -, ⟨⟩⟩⟩)
      · exact ⟨[], a, as, [], R, rfl, .nil R, h⟩
      · exact ⟨a :: before, a', after, b :: bs, R₂, rfl, .cons hb hchain, h⟩
    · rintro ⟨before, a', after, bs, R₂, has, hchain, h⟩
      cases hchain with
      | nil =>
        obtain ⟨rfl, rfl⟩ := List.cons.inj has
        exact .inl h
      | cons hb hchain =>
        obtain ⟨rfl, rfl⟩ := List.cons.inj has
        exact .inr ⟨_, _, hb, .inl ⟨_, a', after, _, R₂, rfl, hchain, h⟩⟩

end ReadM

open SchemaError (isOfAttribute isOwn)

/-- **Only one item of a row fails**, since it is the last one that is read. -/
theorem Chain.failing_unique {α β : Type} {read : α → ReadM β}
    {before before' after after' : List α} {a a' : α} {bs bs' : List β} {R R₁ R₁' : Registry}
    {e e' : SchemaError}
    (h : Chain read before R bs R₁) (h' : Chain read before' R bs' R₁')
    (hrow : before ++ a :: after = before' ++ a' :: after') (ha : read a R₁ = .error e)
    (ha' : read a' R₁' = .error e') : a = a' ∧ R₁ = R₁' := by
  induction h generalizing before' bs' with
  | nil R =>
    cases h' with
    | nil => exact ⟨(List.cons.inj hrow).1, rfl⟩
    | cons hb _ =>
      obtain ⟨rfl, -⟩ := List.cons.inj hrow
      rw [ha] at hb
      cases hb
  | cons hb _ ih =>
    cases h' with
    | nil =>
      obtain ⟨rfl, -⟩ := List.cons.inj hrow
      rw [ha'] at hb
      cases hb
    | cons hb' hrest' =>
      obtain ⟨rfl, htail⟩ := List.cons.inj hrow
      rw [hb] at hb'
      cases hb'
      exact ih hrest' htail ha

/-! ## 2. Faults of attributes and of finished parts -/

section Attributes

open Attribute

variable {a : Attribute} {members : List (String × Json)}

theorem Attribute.raises_require : Raises isOfAttribute (a.require members) := by
  rw [require]
  split
  · exact .ok _
  · exact .error rfl

theorem Attribute.raises_string? : Raises isOfAttribute (a.string? members) := by
  rw [string?]
  split
  · exact .ok _
  · exact .ok _
  · exact .error rfl

theorem Attribute.raises_requireString : Raises isOfAttribute (a.requireString members) := by
  refine raises_string?.bind fun s => ?_
  cases s with
  | some s => exact .ok s
  | none => exact .error rfl

theorem Attribute.raises_requireStrings : Raises isOfAttribute (a.requireStrings members) := by
  refine .bind (.bind raises_require fun v => ?_) fun items => .mapM (fun v => ?_) items
  · split
    · exact .ok _
    · exact .error rfl
  · split
    · exact .ok _
    · exact .error rfl

theorem Attribute.raises_requireSize : Raises isOfAttribute (a.requireSize members) := by
  refine raises_require.bind fun v => ?_
  split
  · exact .ok _
  · exact .error rfl

theorem Attribute.raises_definedName {scope : Option String} :
    Raises isOfAttribute (definedName members scope) := by
  refine raises_requireString.bind fun name => raises_string?.bind fun space => ?_
  cases Name.resolve name space scope with
  | error e => exact .error rfl
  | ok n => exact .ok n

theorem Attribute.raises_fieldOrder? : Raises isOfAttribute (fieldOrder? members) := by
  refine raises_string?.bind fun text => ?_
  split
  · exact .ok _
  · split
    · exact .ok _
    · exact .error rfl

end Attributes

theorem Field.raises_of (name : String) (type : Schema) :
    Raises isOfAttribute (Field.of name type) := by
  rw [Field.of]
  split
  · exact .ok _
  · exact .error rfl

theorem Definition.raises_recordOf (name : Name) (doc : Option String) (kind : RecordKind)
    (fields : List Field) : Raises isOwn (recordOf name doc kind fields) := by
  refine .orFault fun before f e he => ?_
  rw [Field.fault] at he
  split at he <;> cases he
  rfl

theorem Definition.raises_enumOf (name : Name) (doc : Option String) (symbols : List String) :
    Raises isOwn (enumOf name doc symbols) := by
  refine .orFault fun before symbol e he => ?_
  rw [symbolFault] at he
  split at he
  · cases he
    rfl
  · split at he <;> cases he
    rfl

theorem Schema.raises_unionOf (branches : List Schema) : Raises isOwn (unionOf branches) := by
  refine .orFault fun before branch e he => ?_
  rw [branchFault] at he
  split at he
  · cases he
    rfl
  · split at he <;> cases he
    rfl

namespace Schema

variable {scope : Option String} {R : Registry} {e : SchemaError}

/-! ## 3. Schemas inside -/

section Level

variable {read : SchemaReader}

theorem readNested_eq_error_iff {v : Json} :
    readNested read scope v R = .error e ↔
      ∃ source, read scope v R = .error source ∧ e = source.within v := by
  rw [readNested]
  cases read scope v R with
  | ok r =>
    constructor
    · intro h
      cases h
    · rintro ⟨source, h, -⟩
      cases h
  | error source =>
    constructor
    · intro h
      cases h
      exact ⟨source, rfl, rfl⟩
    · rintro ⟨_, h, rfl⟩
      cases h
      rfl

/-- In a list of fields that is read with the registry `R`, the type `w` of a field is come to, with
the registry `R₁` that the fields before it leave. -/
inductive InFields (read : SchemaReader) (scope : Option String) :
    Json → Registry → Json → Registry → Prop
  | type {before after : List Json} {members : List (String × Json)} {fs : List Field}
      {text : String} {w : Json} {R R₁ : Registry} :
    Chain (readField read scope) before R fs R₁ →
    Attribute.name.find? members = some (.str text) → Attribute.type.find? members = some w →
    InFields read scope (.arr (before ++ .obj members :: after)) R w R₁

/-- The attribute that holds the nested schema of an array or of a map. -/
def elementAttribute? : Tag → Option Attribute
  | .array => some .items
  | .map => some .values
  | _ => none

/-- In a value that is read with the registry `R`, a nested schema is come to: the value `w`, where
the namespace `inside` is in scope and with the registry `R₁`.  It is a branch of a union, the items
of an array, the values of a map, or the type of a field. -/
inductive Inside (read : SchemaReader) (scope : Option String) :
    Json → Registry → Option String → Json → Registry → Prop
  | branch {before after : List Json} {bs : List Schema} {w : Json} {R R₁ : Registry} :
    Chain (read scope) before R bs R₁ →
    Inside read scope (.arr (before ++ w :: after)) R scope w R₁
  | element {members : List (String × Json)} {tag : Tag} {a : Attribute} {w : Json}
      {R : Registry} :
    elementAttribute? tag = some a → Attribute.type.find? members = some (.str tag.name) →
    a.find? members = some w →
    Inside read scope (.obj members) R scope w R
  | field {members : List (String × Json)} {kind : RecordKind} {name : Name}
      {doc : Option String} {fields w : Json} {R R₁ : Registry} :
    Attribute.type.find? members = some (.str kind.tag.name) →
    HeadingRead scope members name doc → R.find? name.full = none →
    Attribute.fields.find? members = some fields →
    InFields read name.space? fields (R.put name.full (.declared kind.tag)) w R₁ →
    Inside read scope (.obj members) R name.space? w R₁

/-! ## 4. Fields and definitions that fail -/

/-- A field fails by an attribute of its own, or with its type. -/
theorem readField_eq_error_cases {v : Json} (h : readField read scope v R = .error e) :
    e.isOfAttribute = true ∨
      ∃ members text w source, v = .obj members ∧
        Attribute.name.find? members = some (.str text) ∧
        Attribute.type.find? members = some w ∧ read scope w R = .error source ∧
        e = source.within w := by
  cases v with
  | obj members =>
    simp only [readField, ReadM.lift_bind_eq_error_iff, readNested_eq_error_iff,
      ReadM.bind_eq_error_iff (x := readNested _ _ _), Attribute.requireString_eq_ok_iff,
      Attribute.require_eq_ok_iff, ReadM.pure_eq_error_iff] at h
    rcases h with h | ⟨text, htext, h | ⟨w, hw, ⟨source, hsource, rfl⟩ | ⟨type, R₁, -, h⟩⟩⟩
    · exact .inl (Attribute.raises_requireString e h)
    · exact .inl (Attribute.raises_require e h)
    · exact .inr ⟨members, text, w, source, rfl, htext, hw, hsource, rfl⟩
    · rcases h with h | ⟨field, -, h | ⟨order, -, h | ⟨doc, -, ⟨⟩⟩⟩⟩
      · exact .inl (Field.raises_of _ _ e h)
      · exact .inl (Attribute.raises_fieldOrder? e h)
      · exact .inl (Attribute.raises_string? e h)
  | _ =>
    obtain rfl := ReadM.throw_eq_error_iff.mp h
    exact .inl rfl

/-- So does a list of fields: by an attribute, or with the type of one of them. -/
theorem readFields_eq_error_cases {v : Json} (h : readFields read scope v R = .error e) :
    e.isOfAttribute = true ∨
      ∃ w R₁ source, InFields read scope v R w R₁ ∧ read scope w R₁ = .error source ∧
        e = source.within w := by
  cases v with
  | arr items =>
    obtain ⟨before, field, after, fs, R₁, rfl, hbefore, hfield⟩ := ReadM.mapM_eq_error_iff.mp h
    rcases readField_eq_error_cases hfield with
      hown | ⟨members, text, w, source, rfl, htext, hw, hsource, rfl⟩
    · exact .inl hown
    · exact .inr ⟨w, R₁, source, .type hbefore htext hw, hsource, rfl⟩
  | _ =>
    obtain rfl := ReadM.throw_eq_error_iff.mp h
    exact .inl rfl

/-- The fault of a field's type is that of the field, put inside an excerpt. -/
theorem readField_eq_error_of_type {members : List (String × Json)} {text : String} {w : Json}
    {source : SchemaError} (htext : Attribute.name.find? members = some (.str text))
    (hw : Attribute.type.find? members = some w) (hsource : read scope w R = .error source) :
    readField read scope (.obj members) R = .error (source.within w) := by
  simp only [readField, ReadM.lift_bind_eq_error_iff, Attribute.requireString_eq_ok_iff,
    Attribute.require_eq_ok_iff]
  refine .inr ⟨text, htext, .inr ⟨w, hw, ReadM.bind_eq_error_iff.mpr (.inl ?_)⟩⟩
  exact readNested_eq_error_iff.mpr ⟨source, hsource, rfl⟩

/-- And it is that of the list. -/
theorem readFields_eq_error_of_inFields {v w : Json} {R₁ : Registry} {source : SchemaError}
    (h : InFields read scope v R w R₁) (hsource : read scope w R₁ = .error source) :
    readFields read scope v R = .error (source.within w) := by
  cases h with
  | @type before after members fs text _ _ _ hbefore htext hw =>
    exact ReadM.mapM_eq_error_iff.mpr ⟨before, .obj members, after, fs, R₁, rfl, hbefore,
      readField_eq_error_of_type htext hw hsource⟩

theorem readReference_eq_error {text : String} {unknown : SchemaError}
    (h : readReference text scope unknown R = .error e) : e = unknown := by
  rcases ReadM.bind_eq_error_iff.mp h with h | ⟨S, _, -, h⟩
  · cases h
  · cases href : S.reference? text scope with
    | some s =>
      rw [href] at h
      cases h
    | none =>
      rw [href] at h
      exact (ReadM.throw_eq_error_iff.mp h).symm

theorem declare_eq_error {name : Name} {tag : Tag} (h : declare name tag R = .error e) :
    e = .duplicateName name.full := by
  rcases ReadM.bind_eq_error_iff.mp h with h | ⟨_, _, _, h⟩
  · cases h
  · rcases ReadM.lift_bind_eq_error_iff.mp h with h | ⟨_, _, h⟩
    · rw [Registry.declare] at h
      split at h <;> cases h
      rfl
    · cases h

/-- The part of a definition before its body fails by a fault of its own. -/
theorem heading_eq_error_cases {members : List (String × Json)} {tag : Tag}
    {body : Name → Option String → ReadM Schema}
    (h : (do
      let name ← Attribute.definedName members scope
      let doc ← Attribute.doc.string? members
      declare name tag
      body name doc : ReadM Schema) R = .error e) :
    e.isOwn = true ∨
      ∃ name doc, HeadingRead scope members name doc ∧ R.find? name.full = none ∧
        body name doc (R.put name.full (.declared tag)) = .error e := by
  simp only [ReadM.lift_bind_eq_error_iff, Attribute.string?_eq_ok_iff] at h
  rcases h with h | ⟨name, hname, h | ⟨doc, hdoc, h⟩⟩
  · exact .inl (SchemaError.isOwn_of_isOfAttribute (Attribute.raises_definedName e h))
  · exact .inl (SchemaError.isOwn_of_isOfAttribute (Attribute.raises_string? e h))
  · rcases ReadM.bind_eq_error_iff.mp h with h | ⟨u, R₁, hdeclare, h⟩
    · obtain rfl := declare_eq_error h
      exact .inl rfl
    · obtain ⟨hfree, rfl⟩ := Registry.declare_eq_ok_iff.mp (declare_eq_ok_iff.mp hdeclare)
      exact .inr ⟨name, doc, ⟨hname, hdoc⟩, hfree, h⟩

/-- A definition that has no schemas in it fails by a fault of its own. -/
theorem isOwn_of_readEnum {members : List (String × Json)}
    (h : readEnum scope members R = .error e) : e.isOwn = true := by
  rcases heading_eq_error_cases h with hown | ⟨name, doc, -, -, h⟩
  · exact hown
  · simp only [ReadM.lift_bind_eq_error_iff, define_eq] at h
    rcases h with h | ⟨symbols, -, h | ⟨d, -, ⟨⟩⟩⟩
    · exact SchemaError.isOwn_of_isOfAttribute (Attribute.raises_requireStrings e h)
    · exact Definition.raises_enumOf name doc symbols e h

theorem isOwn_of_readFixed {members : List (String × Json)}
    (h : readFixed scope members R = .error e) : e.isOwn = true := by
  rcases heading_eq_error_cases h with hown | ⟨name, doc, -, -, h⟩
  · exact hown
  · simp only [ReadM.lift_bind_eq_error_iff, define_eq] at h
    rcases h with h | ⟨size, -, ⟨⟩⟩
    exact SchemaError.isOwn_of_isOfAttribute (Attribute.raises_requireSize e h)

/-! ## 5. Levels that fail -/

/-- A level fails by a fault of its own, or by that of a schema that it comes to. -/
def FailsHere (read : SchemaReader) (scope : Option String) (v : Json) (R : Registry)
    (e : SchemaError) : Prop :=
  e.isOwn = true ∨
    ∃ inside w R₁ source, Inside read scope v R inside w R₁ ∧
      read inside w R₁ = .error source ∧ e = source.within w

theorem FailsHere.of_attribute {v : Json} (h : e.isOfAttribute = true) :
    FailsHere read scope v R e :=
  .inl (SchemaError.isOwn_of_isOfAttribute h)

theorem readRecord_eq_error_cases (kind : RecordKind) {members : List (String × Json)}
    (htag : Attribute.type.find? members = some (.str kind.tag.name))
    (h : readRecord read kind scope members R = .error e) :
    FailsHere read scope (.obj members) R e := by
  rcases heading_eq_error_cases h with hown | ⟨name, doc, hhead, hfree, h⟩
  · exact .inl hown
  · simp only [ReadM.lift_bind_eq_error_iff, Attribute.require_eq_ok_iff] at h
    rcases h with h | ⟨fields, hfields, h⟩
    · exact .of_attribute (Attribute.raises_require e h)
    · rcases ReadM.bind_eq_error_iff.mp h with h | ⟨fs, R₁, -, h⟩
      · rcases readFields_eq_error_cases h with hown | ⟨w, R₁, source, hw, hsource, rfl⟩
        · exact .of_attribute hown
        · exact .inr ⟨name.space?, w, R₁, source, .field htag hhead hfree hfields hw, hsource, rfl⟩
      · rcases ReadM.lift_bind_eq_error_iff.mp h with h | ⟨d, -, ⟨⟩⟩
        exact .inl (Definition.raises_recordOf name doc kind fs e h)

/-- Arrays and maps are read alike. -/
theorem readTagged_element (read : SchemaReader) (scope : Option String) {tag : Tag}
    {a : Attribute} (ha : elementAttribute? tag = some a) (members : List (String × Json)) :
    ∃ make : Schema → Schema, readTagged read tag scope members =
      do return make (← readNested read scope (← a.require members)) := by
  cases tag <;> cases ha
  · exact ⟨.array, rfl⟩
  · exact ⟨.map, rfl⟩

theorem readElement_eq_error_cases {tag : Tag} {a : Attribute} {members : List (String × Json)}
    (ha : elementAttribute? tag = some a)
    (htag : Attribute.type.find? members = some (.str tag.name))
    (h : readTagged read tag scope members R = .error e) :
    FailsHere read scope (.obj members) R e := by
  obtain ⟨make, hread⟩ := readTagged_element read scope ha members
  rw [hread] at h
  rcases ReadM.lift_bind_eq_error_iff.mp h with h | ⟨w, hw, h⟩
  · exact .of_attribute (Attribute.raises_require e h)
  · rcases ReadM.bind_eq_error_iff.mp h with h | ⟨_, _, -, ⟨⟩⟩
    obtain ⟨source, hsource, rfl⟩ := readNested_eq_error_iff.mp h
    exact .inr ⟨scope, w, R, source, .element ha htag (Attribute.require_eq_ok_iff.mp hw), hsource,
      rfl⟩

theorem readTagged_eq_error_cases {tag : Tag} {members : List (String × Json)}
    (htag : Attribute.type.find? members = some (.str tag.name))
    (h : readTagged read tag scope members R = .error e) :
    FailsHere read scope (.obj members) R e := by
  cases tag with
  | primitive p => cases h
  | record => exact readRecord_eq_error_cases .record htag h
  | error => exact readRecord_eq_error_cases .error htag h
  | enum => exact .inl (isOwn_of_readEnum h)
  | fixed => exact .inl (isOwn_of_readFixed h)
  | array => exact readElement_eq_error_cases rfl htag h
  | map => exact readElement_eq_error_cases rfl htag h
  | _ =>
    obtain rfl := ReadM.throw_eq_error_iff.mp h
    exact .inl rfl

/-- **A level fails** by a fault of its own, or by that of a schema inside, or as the object or
array that it stands for. -/
theorem readWith_eq_error_cases {v : Json} (h : readWith read scope v R = .error e) :
    FailsHere read scope v R e ∨
      ∃ members w, v = .obj members ∧ Attribute.type.find? members = some w ∧
        isCompound w = true ∧ read scope w R = .error e := by
  cases v with
  | str text =>
    simp only [readWith] at h
    cases hp : Primitive.ofName? text with
    | some p =>
      rw [hp] at h
      cases h
    | none =>
      rw [hp] at h
      obtain rfl := readReference_eq_error h
      exact .inl (.inl rfl)
  | arr items =>
    refine .inl ?_
    rcases ReadM.bind_eq_error_iff.mp h with h | ⟨branches, _, -, h⟩
    · obtain ⟨before, w, after, bs, R₁, rfl, hbefore, hw⟩ := ReadM.mapM_eq_error_iff.mp h
      obtain ⟨source, hsource, rfl⟩ := readNested_eq_error_iff.mp hw
      have hchain : Chain (read scope) before R bs R₁ :=
        hbefore.mono fun v R r hr => readNested_eq_ok_iff.mp hr
      exact .inr ⟨scope, w, R₁, source, .branch hchain, hsource, rfl⟩
    · exact .inl (raises_unionOf branches e (ReadM.lift_eq_error_iff.mp h))
  | obj members =>
    cases hw : Attribute.type.find? members with
    | none =>
      simp only [readWith, hw] at h
      obtain rfl := ReadM.throw_eq_error_iff.mp h
      exact .inl (.inl rfl)
    | some w =>
      cases w with
      | str text =>
        cases htag : Tag.ofName? text with
        | some tag =>
          obtain rfl := Tag.ofName?_eq_some_iff.mp htag
          rw [readWith_obj tag hw] at h
          exact .inl (readTagged_eq_error_cases hw h)
        | none =>
          simp only [readWith, hw, htag] at h
          obtain rfl := readReference_eq_error h
          exact .inl (.inl rfl)
      | arr items =>
        rw [readWith_wrapped hw rfl] at h
        exact .inr ⟨members, .arr items, rfl, hw, rfl, h⟩
      | obj inner =>
        rw [readWith_wrapped hw rfl] at h
        exact .inr ⟨members, .obj inner, rfl, hw, rfl, h⟩
      | _ =>
        simp only [readWith, hw] at h
        obtain rfl := ReadM.throw_eq_error_iff.mp h
        exact .inl (.inl rfl)
  | _ =>
    obtain rfl := ReadM.throw_eq_error_iff.mp h
    exact .inl (.inl rfl)

/-- A record whose name is free is read as its fields are, and then completed. -/
theorem readRecord_eq (kind : RecordKind) {members : List (String × Json)}
    {name : Name} {doc : Option String} {fields : Json} (hhead : HeadingRead scope members name doc)
    (hfree : R.find? name.full = none) (hfields : Attribute.fields.find? members = some fields) :
    readRecord read kind scope members R =
      (do
        let fs ← readFields read name.space? fields
        define (← Definition.recordOf name doc kind fs) : ReadM Schema)
        (R.put name.full (.declared kind.tag)) := by
  have hdoc : Attribute.doc.string? members = .ok doc := Attribute.string?_eq_ok_iff.mpr hhead.doc
  have hrequire : Attribute.fields.require members = .ok fields :=
    Attribute.require_eq_ok_iff.mpr hfields
  have hdeclare : declare name kind.tag R = .ok ((), R.put name.full (.declared kind.tag)) :=
    declare_eq_ok_iff.mpr (Registry.declare_eq_ok_iff.mpr ⟨hfree, rfl⟩)
  have hstart : readRecord read kind scope members R = (do
      declare name kind.tag
      let fs ← readFields read name.space? fields
      define (← Definition.recordOf name doc kind fs) : ReadM Schema) R := by
    rw [readRecord, hhead.name, hdoc, hrequire]
    rfl
  rw [hstart]
  simp only [bind, StateT.bind, Except.bind, hdeclare]

/-- **The fault of a schema inside is that of the level**, put inside an excerpt. -/
theorem readWith_eq_error_of_inside {inside : Option String} {v w : Json} {R₁ : Registry}
    {source : SchemaError} (h : Inside read scope v R inside w R₁)
    (hsource : read inside w R₁ = .error source) :
    readWith read scope v R = .error (source.within w) := by
  have hnested : readNested read inside w R₁ = .error (source.within w) :=
    readNested_eq_error_iff.mpr ⟨source, hsource, rfl⟩
  cases h with
  | @branch before after bs _ _ _ hbefore =>
    refine ReadM.bind_eq_error_iff.mpr (.inl (ReadM.mapM_eq_error_iff.mpr ?_))
    exact ⟨before, w, after, bs, R₁, rfl,
      hbefore.mono fun v R r hr => readNested_eq_ok_iff.mpr hr, hnested⟩
  | @element members tag a _ _ ha htag hw =>
    obtain ⟨make, hread⟩ := readTagged_element read scope ha members
    rw [readWith_obj tag htag, hread]
    refine ReadM.lift_bind_eq_error_iff.mpr (.inr ⟨w, Attribute.require_eq_ok_iff.mpr hw, ?_⟩)
    exact ReadM.bind_eq_error_iff.mpr (.inl hnested)
  | @field members kind name doc fields _ _ _ htag hhead hfree hfields hw =>
    rw [readWith_obj kind.tag htag, readTagged_record, readRecord_eq kind hhead hfree hfields]
    exact ReadM.bind_eq_error_iff.mpr (.inl (readFields_eq_error_of_inFields hw hsource))

/-! ## 6. The one schema that fails -/

/-- Of the types of fields that are come to, only one fails. -/
theorem InFields.failing_unique {v w w' : Json} {R₁ R₁' : Registry} {e' : SchemaError}
    (h : InFields read scope v R w R₁) (h' : InFields read scope v R w' R₁')
    (hw : read scope w R₁ = .error e) (hw' : read scope w' R₁' = .error e') :
    w = w' ∧ R₁ = R₁' := by
  generalize hv : v = v' at h'
  cases h with
  | type hbefore htext htype =>
    cases h' with
    | type hbefore' htext' htype' =>
      obtain ⟨hfield, rfl⟩ := hbefore.failing_unique hbefore' (Json.arr.inj hv)
        (readField_eq_error_of_type htext htype hw) (readField_eq_error_of_type htext' htype' hw')
      obtain rfl := Json.obj.inj hfield
      exact ⟨Option.some.inj (htype.symm.trans htype'), rfl⟩

/-- **Of the schemas inside that are come to, only one fails.** -/
theorem Inside.failing_unique {inside inside' : Option String} {v w w' : Json}
    {R₁ R₁' : Registry} {e' : SchemaError} (h : Inside read scope v R inside w R₁)
    (h' : Inside read scope v R inside' w' R₁') (hw : read inside w R₁ = .error e)
    (hw' : read inside' w' R₁' = .error e') : inside = inside' ∧ w = w' ∧ R₁ = R₁' := by
  have htags : ∀ {members : List (String × Json)} {tag tag' : Tag},
      Attribute.type.find? members = some (.str tag.name) →
      Attribute.type.find? members = some (.str tag'.name) → tag = tag' := by
    intro members tag tag' h h'
    exact Tag.name_injective (Json.str.inj (Option.some.inj (h.symm.trans h')))
  have hrecord : ∀ (kind : RecordKind) (a : Attribute), elementAttribute? kind.tag ≠ some a := by
    intro kind a
    cases kind <;> exact nofun
  generalize hv : v = v' at h'
  cases h with
  | branch hbefore =>
    cases h' with
    | branch hbefore' =>
      obtain ⟨rfl, rfl⟩ := hbefore.failing_unique hbefore' (Json.arr.inj hv) hw hw'
      exact ⟨rfl, rfl, rfl⟩
    | _ => cases hv
  | element ha htag helement =>
    cases h' with
    | branch => cases hv
    | element ha' htag' helement' =>
      obtain rfl := Json.obj.inj hv
      obtain rfl := htags htag htag'
      obtain rfl := Option.some.inj (ha.symm.trans ha')
      exact ⟨rfl, Option.some.inj (helement.symm.trans helement'), rfl⟩
    | field htag' =>
      obtain rfl := Json.obj.inj hv
      rw [htags htag htag'] at ha
      exact absurd ha (hrecord _ _)
  | @field _ kind _ _ _ _ _ _ htag hhead _ hfields hfield =>
    cases h' with
    | branch => cases hv
    | element ha' htag' =>
      obtain rfl := Json.obj.inj hv
      rw [htags htag' htag] at ha'
      exact absurd ha' (hrecord _ _)
    | @field _ kind' _ _ _ _ _ _ htag' hhead' _ hfields' hfield' =>
      obtain rfl := Json.obj.inj hv
      obtain rfl := Except.ok.inj (hhead.name.symm.trans hhead'.name)
      obtain rfl := Option.some.inj (hfields.symm.trans hfields')
      rw [htags htag htag'] at hfield
      obtain ⟨rfl, rfl⟩ := hfield.failing_unique hfield' hw hw'
      exact ⟨rfl, rfl, rfl⟩

/-- An object that stands for its `type` has no place for a schema of its own. -/
theorem Inside.not_isCompound {inside : Option String} {members : List (String × Json)}
    {t w : Json} {R₁ : Registry} (h : Inside read scope (.obj members) R inside w R₁)
    (ht : Attribute.type.find? members = some t) : isCompound t = false := by
  cases h with
  | element _ htag => cases ht.symm.trans htag; rfl
  | field htag => cases ht.symm.trans htag; rfl

end Level
end Schema

end Avro
