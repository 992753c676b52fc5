/-
# Schema.OfJson: schemas from documents

A document is a JSON value.  A string is a primitive type or stands for a type that is known, an
array is a union, and an object says by its `type` what it is.  The reading carries the registry
along: a definition takes its name before its body is read and is completed afterwards, and what
follows may refer to it.

`Schema.reader limit` reads at most `limit` schemas inside one another.  Each level is made from the
one below: `Schema.readWith read` reads a schema whose nested schemas are read by `read`, so that
what holds of one level can be shown from what holds of the level below.
-/
import Avro.Registry
import Avro.Attribute.Reader

namespace Avro

/-- A reading that may add to the registry.  It works on a copy, which takes the place of the
registry when the reading has succeeded.  A reading that fails leaves no copy behind, so that the
registry stays as it was by construction; `DraftM` keeps the copy of a reading that has failed
half-way. -/
abbrev ReadM (α : Type) := StateT Registry (Except SchemaError) α

namespace ReadM

variable {α β : Type} {R R' : Registry}

/-- One reading after another succeeds if both do, the second with what the first left. -/
theorem bind_eq_ok_iff {x : ReadM α} {f : α → ReadM β} {b : β} :
    (x >>= f) R = .ok (b, R') ↔ ∃ a R₁, x R = .ok (a, R₁) ∧ f a R₁ = .ok (b, R') := by
  simp only [bind, StateT.bind, Except.bind]
  match x R with
  | .error e => simp
  | .ok (a, R₁) =>
    constructor
    · exact fun h => ⟨a, R₁, rfl, h⟩
    · rintro ⟨_, _, ⟨⟩, h⟩
      exact h

/-- A reading that does not look at the registry leaves it as it is. -/
theorem lift_eq_ok_iff {x : Except SchemaError α} {a : α} :
    (liftM x : ReadM α) R = .ok (a, R') ↔ x = .ok a ∧ R' = R := by
  cases x <;>
    simp [liftM, monadLift, MonadLift.monadLift, StateT.lift, bind, Except.bind, pure, Except.pure,
      eq_comm]

theorem pure_eq_ok_iff {a b : α} : (pure a : ReadM α) R = .ok (b, R') ↔ a = b ∧ R = R' := by
  constructor
  · intro h
    cases h
    exact ⟨rfl, rfl⟩
  · rintro ⟨rfl, rfl⟩
    rfl

theorem get_eq_ok_iff {S T : Registry} :
    (get : ReadM Registry) R = .ok (S, T) ↔ S = R ∧ T = R := by
  constructor
  · intro h
    cases h
    exact ⟨rfl, rfl⟩
  · rintro ⟨rfl, rfl⟩
    rfl

theorem set_eq_ok_iff {S T : Registry} {u : PUnit} :
    (set S : ReadM PUnit) R = .ok (u, T) ↔ S = T := by
  constructor
  · intro h
    cases h
    rfl
  · rintro rfl
    rfl

end ReadM

/-- Reads a schema where the given namespace is in scope. -/
abbrev SchemaReader := Option String → Json → ReadM Schema

/-- The fault of the schema `v`, seen from the schema around it.  It is put inside an excerpt of
`v`, unless it has one already or is about the nesting. -/
def SchemaError.within (v : Json) : SchemaError → SchemaError
  | e@(invalidSubSchema _ _) => e
  | e@(nestingTooDeep _) => e
  | e => invalidSubSchema v.excerpt e

namespace Schema

/-! ## 1. Parts -/

/-- Reads a schema that stands inside another one. -/
def readNested (read : SchemaReader) : SchemaReader := fun scope v R =>
  (read scope v R).mapError (SchemaError.within v)

theorem readNested_eq_ok_iff {read : SchemaReader} {scope : Option String} {v : Json}
    {R : Registry} {r : Schema × Registry} :
    readNested read scope v R = .ok r ↔ read scope v R = .ok r := by
  rw [readNested]
  cases read scope v R with
  | ok => exact Iff.rfl
  | error => exact ⟨nofun, nofun⟩

/-- The type that a name stands for. -/
def readReference (name : String) (scope : Option String) (unknown : SchemaError) :
    ReadM Schema := do
  match (← get).reference? name scope with
  | some s => return s
  | none => throw unknown

/-- Takes the name of a definition. -/
def declare (name : Name) (tag : Tag) : ReadM Unit := do
  set (← (← get).declare name tag)

/-- Completes the name of a definition. -/
def define (d : Definition) : ReadM Schema := do
  modify (·.define d)
  return .named d

theorem declare_eq_ok_iff {name : Name} {tag : Tag} {u : Unit} {R R' : Registry} :
    declare name tag R = .ok (u, R') ↔ R.declare name tag = .ok R' := by
  simp only [declare, ReadM.bind_eq_ok_iff, ReadM.lift_eq_ok_iff, ReadM.get_eq_ok_iff,
    ReadM.set_eq_ok_iff]
  constructor
  · rintro ⟨_, _, ⟨rfl, rfl⟩, _, _, ⟨h, rfl⟩, rfl⟩
    exact h
  · exact fun h => ⟨R, R, ⟨rfl, rfl⟩, R', R, ⟨h, rfl⟩, rfl⟩

theorem define_eq (d : Definition) (R : Registry) :
    define d R = .ok (.named d, R.define d) := rfl

/-! ## 2. Fields -/

def readField (read : SchemaReader) (scope : Option String) : Json → ReadM Field
  | .obj members => do
    let name ← Attribute.name.requireString members
    let type ← readNested read scope (← Attribute.type.require members)
    let field ← Field.of name type
    let default := Attribute.default.find? members
    let order ← Attribute.fieldOrder? members
    let doc ← Attribute.doc.string? members
    return { field with default, order, doc }
  | v => throw (.invalidAttribute .fields (.notField v.excerpt))

def readFields (read : SchemaReader) (scope : Option String) : Json → ReadM (List Field)
  | .arr items => items.mapM (readField read scope)
  | v => throw (.invalidAttribute .fields (.notArray v.excerpt))

/-! ## 3. Definitions -/

/-- The namespace of a record is in scope in its fields. -/
def readRecord (read : SchemaReader) (kind : RecordKind) (scope : Option String)
    (members : List (String × Json)) : ReadM Schema := do
  let name ← Attribute.definedName members scope
  let doc ← Attribute.doc.string? members
  declare name kind.tag
  let fields ← readFields read name.space? (← Attribute.fields.require members)
  define (← Definition.recordOf name doc kind fields)

def readEnum (scope : Option String) (members : List (String × Json)) : ReadM Schema := do
  let name ← Attribute.definedName members scope
  let doc ← Attribute.doc.string? members
  declare name .enum
  let symbols ← Attribute.symbols.requireStrings members
  define (← Definition.enumOf name doc symbols)

def readFixed (scope : Option String) (members : List (String × Json)) : ReadM Schema := do
  let name ← Attribute.definedName members scope
  let doc ← Attribute.doc.string? members
  declare name .fixed
  let size ← Attribute.size.requireSize members
  define (Definition.fixedOf name doc size)

/-! ## 4. Schemas -/

/-- An object whose `type` is a tag. -/
def readTagged (read : SchemaReader) (tag : Tag) (scope : Option String)
    (members : List (String × Json)) : ReadM Schema := do
  match tag with
  | .primitive p => return .primitive p
  | .record => readRecord read .record scope members
  | .error => readRecord read .error scope members
  | .enum => readEnum scope members
  | .fixed => readFixed scope members
  | .array => return .array (← readNested read scope (← Attribute.items.require members))
  | .map => return .map (← readNested read scope (← Attribute.values.require members))
  | .union => throw (.notAnObject tag)
  | .errorUnion | .request => throw (.notStandalone tag)

/-- Reads a schema, and the schemas directly below it by `read`.  An object whose `type` is an
object or an array stands for that. -/
def readWith (read : SchemaReader) : SchemaReader := fun scope v =>
  match v with
  | .str name =>
    match Primitive.ofName? name with
    | some p => return .primitive p
    | none => readReference name scope (.unknownSchema ("\"" ++ name ++ "\""))
  | .arr branches => do unionOf (← branches.mapM (readNested read scope))
  | .obj members =>
    match Attribute.type.find? members with
    | some (.str name) =>
      match Tag.ofName? name with
      | some tag => readTagged read tag scope members
      | none => readReference name scope (.undefinedType name)
    | some v@(.obj _) | some v@(.arr _) => read scope v
    | some v => throw (.undefinedType v.excerpt)
    | none => throw (.undefinedType v.excerpt)
  | v => throw (.unknownSchema v.excerpt)

/-- Reads a schema with at most `levels` schemas inside one another; `limit` is the number to
report if there are more. -/
def readerAt (limit : Nat) : Nat → SchemaReader
  | 0 => fun _ _ => throw (.nestingTooDeep limit)
  | levels + 1 => readWith (readerAt limit levels)

/-- Reads a schema with at most `limit` schemas inside one another. -/
def reader (limit : Nat) : SchemaReader :=
  readerAt limit limit

/-- The document that a text holds. -/
def documentOfText (text : String) : Except SchemaError Json :=
  (Json.read text).mapError .invalidJson

/-- Reads a schema from its text. -/
def ofText (limit : Nat) (text : String) : ReadM Schema := do
  reader limit none (← documentOfText text)

/-- Reads the parameter list of a message, which is written like the fields of a record. -/
def readRequest (limit : Nat) (scope : Option String) (v : Json) : ReadM Schema := do
  requestOf (← readFields (reader limit) scope v)

end Schema
end Avro
