/-
# Datum: the values that schemas describe

A datum is a value at run time.  Records are maps from field names.  JSON values are read as data
by `Datum.ofJson`: JSON has no byte strings, so a string stands for one too, and an integer of 64
bits with sign is an integer while every other number is a double.
-/
import Avro.Json.Basic

namespace Avro

/-- A value at run time. -/
inductive Datum
  | null
  | bool (value : Bool)
  | int (value : Int)
  | float (value : Binary64)
  | bytes (value : List UInt8)
  | string (value : String)
  | array (items : List Datum)
  /-- A map or a record, sorted by key. -/
  | map (entries : List (String × Datum))

namespace Datum

/-- What messages call a value of this shape. -/
def typeName : Datum → String
  | null => "null"
  | bool _ => "boolean"
  | int _ => "integer"
  | float _ => "float"
  | bytes _ => "bytes"
  | string _ => "string"
  | array _ => "array"
  | map _ => "map"

def isNull : Datum → Bool
  | null => true
  | _ => false

/-- The value of a map under a key. -/
def get? (d : Datum) (key : String) : Option Datum :=
  match d with
  | map entries => entries.lookup key
  | _ => none

/-- The map with these entries; of a repeated key the last one counts. -/
def ofPairs (pairs : List (String × Datum)) : Datum :=
  map (Entries.ofList pairs)

/-- An absent value is null. -/
def ofOption : Option Datum → Datum
  | none => null
  | some d => d

def ofNumber : Number → Datum
  | .int n => if isSigned n then int n else float (.ofInt n)
  | .double x => float x

mutual

/-- The datum that a JSON value stands for. -/
def ofJson : Json → Datum
  | .null => null
  | .bool b => bool b
  | .num n => ofNumber n
  | .str s => string s
  | .arr items => array (ofItems items)
  | .obj members => map (ofMembers members)

def ofItems : List Json → List Datum
  | [] => []
  | item :: items => ofJson item :: ofItems items

def ofMembers : List (String × Json) → List (String × Datum)
  | [] => []
  | (key, value) :: members => (key, ofJson value) :: ofMembers members

end

/-- An entry of a map is smaller than its entries. -/
theorem sizeOf_lt_of_lookup {key : String} {d : Datum} {entries : List (String × Datum)}
    (h : entries.lookup key = some d) : sizeOf d < sizeOf entries := by
  have := List.sizeOf_lt_of_mem (Entries.mem_of_lookup_eq_some h)
  simp only [Prod.mk.sizeOf_spec] at this
  omega

end Datum
end Avro
