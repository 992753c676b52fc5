/-
# Attribute.Reader: reading the attributes of an object

Each function here takes one attribute out of the members of an object, or tells what is wrong
with it.  A fault quotes an excerpt of the value, and an attribute that is missing an excerpt of
the whole object.
-/
import Avro.Schema.Error
import Avro.Json.Excerpt

namespace Avro

namespace Attribute

/-- The value of an attribute that has to be there. -/
def require (a : Attribute) (members : List (String × Json)) : Except SchemaError Json :=
  match a.find? members with
  | some v => .ok v
  | none => .error (.missingAttribute a (Json.excerpt (.obj members)))

/-- An attribute that is a string, if it is there. -/
def string? (a : Attribute) (members : List (String × Json)) :
    Except SchemaError (Option String) :=
  match a.find? members with
  | none => .ok none
  | some (.str s) => .ok (some s)
  | some v => .error (.invalidAttribute a (.notString v.excerpt))

/-- An attribute that has to be there and is a string. -/
def requireString (a : Attribute) (members : List (String × Json)) :
    Except SchemaError String := do
  match ← a.string? members with
  | some s => .ok s
  | none => .error (.missingAttribute a (Json.excerpt (.obj members)))

def requireArray (a : Attribute) (members : List (String × Json)) :
    Except SchemaError (List Json) := do
  match ← a.require members with
  | .arr xs => .ok xs
  | v => .error (.invalidAttribute a (.notArray v.excerpt))

def requireStrings (a : Attribute) (members : List (String × Json)) :
    Except SchemaError (List String) := do
  (← a.requireArray members).mapM fun
    | .str s => .ok s
    | v => .error (.invalidAttribute a (.notStrings v.excerpt))

/-- An attribute that has to be there and is an integer of 64 bits without sign. -/
def requireSize (a : Attribute) (members : List (String × Json)) :
    Except SchemaError UInt64 := do
  let v ← a.require members
  match v.toUnsigned? with
  | some n => .ok (.ofNat n)
  | none => .error (.invalidAttribute a (.notSize v.excerpt))

/-- The name that a definition gives itself. -/
def definedName (members : List (String × Json)) (scope : Option String) :
    Except SchemaError Name := do
  let name ← Attribute.name.requireString members
  let space ← Attribute.space.string? members
  (Name.resolve name space scope).mapError .invalidName

def fieldOrder? (members : List (String × Json)) : Except SchemaError (Option FieldOrder) := do
  match ← Attribute.order.string? members with
  | none => .ok none
  | some text =>
    match FieldOrder.ofName? text with
    | some o => .ok (some o)
    | none => .error (.invalidAttribute .order (.notOrder text))

end Attribute
end Avro
