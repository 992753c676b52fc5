/-
# Violation: why a datum does not conform to a schema

A `Violation` is the cause, with a short code and a message.  A `Rejection` says also where it is:
a path into the datum, and a path into the schema.  Both paths are written from the root, so that a
rejection found in a part is made one of the whole by putting a segment in front.
-/
import Avro.Options

namespace Avro

/-! ## 1. Causes -/

/-- Why a datum does not conform to a schema. -/
inductive Violation
  /-- The datum has another shape. -/
  | typeMismatch (expected got : String)
  | integerOutOfRange (value minimum maximum : Int)
  /-- A field is absent and has no default. -/
  | missingField (field : String)
  /-- A field is absent and its default does not conform. -/
  | invalidDefault (field : String)
  | invalidSymbol (value : String) (symbols : List String)
  | fixedSizeMismatch (expected got : Nat)
  | noMatchingBranch (branches : List String)
  | unresolvedReference (name : String)
deriving DecidableEq, Repr

namespace Violation

/-- A short code that stays the same. -/
def code : Violation → String
  | typeMismatch .. => "avro-type-mismatch"
  | integerOutOfRange .. => "avro-integer-range"
  | missingField .. => "avro-missing-field"
  | invalidDefault .. => "avro-invalid-default"
  | invalidSymbol .. => "avro-invalid-symbol"
  | fixedSizeMismatch .. => "avro-fixed-size"
  | noMatchingBranch .. => "avro-union-branch"
  | unresolvedReference .. => "avro-unresolved-reference"

def commaSeparated (texts : List String) : String :=
  ", ".intercalate texts

def message : Violation → String
  | typeMismatch expected got => s!"Expected {expected}, got {got}"
  | integerOutOfRange value minimum maximum =>
    s!"Integer {value} is outside the range [{minimum}, {maximum}]"
  | missingField field => s!"Missing field '{field}' which has no default"
  | invalidDefault field => s!"Default value of field '{field}' does not match its type"
  | invalidSymbol value symbols =>
    s!"Value must be one of: {commaSeparated symbols}, got '{value}'"
  | fixedSizeMismatch expected got => s!"Expected exactly {expected} bytes, got {got}"
  | noMatchingBranch branches =>
    s!"Value matches none of the union branches [{commaSeparated branches}]"
  | unresolvedReference name => s!"Unresolved named type: {name}"

/-! ## 2. As JSON -/

/-- The name of the case, and what it holds, by name. -/
def parts : Violation → String × List (String × Json)
  | typeMismatch expected got => ("TypeMismatch", [("expected", .str expected), ("got", .str got)])
  | integerOutOfRange value minimum maximum =>
    ("IntegerOutOfRange", [("value", .num (.int value)), ("minimum", .num (.int minimum)),
      ("maximum", .num (.int maximum))])
  | missingField field => ("MissingField", [("field", .str field)])
  | invalidDefault field => ("InvalidDefault", [("field", .str field)])
  | invalidSymbol value symbols =>
    ("InvalidSymbol", [("value", .str value), ("symbols", .arr (symbols.map .str))])
  | fixedSizeMismatch expected got =>
    ("FixedSizeMismatch", [("expected", .num (.int expected)), ("got", .num (.int got))])
  | noMatchingBranch branches => ("NoMatchingBranch", [("branches", .arr (branches.map .str))])
  | unresolvedReference name => ("UnresolvedReference", [("name", .str name)])

/-- An object of the case and its data, in this order. -/
def toJson (v : Violation) : Json :=
  .obj [("type", .str v.parts.1), ("data", .obj v.parts.2)]

/-- A violation from the name of its case and the members of its data, each of which has to be
there once. -/
def ofParts? (case : String) (data : List (String × Json)) : Option Violation :=
  let string := fun key => (Json.only? key data).bind Json.toString?
  let strings := fun key => (Json.only? key data).bind Json.toStrings?
  let signed := fun key => (Json.only? key data).bind Json.toSigned?
  let unsigned := fun key => (Json.only? key data).bind Json.toUnsigned?
  match case with
  | "TypeMismatch" => return .typeMismatch (← string "expected") (← string "got")
  | "IntegerOutOfRange" =>
    return .integerOutOfRange (← signed "value") (← signed "minimum") (← signed "maximum")
  | "MissingField" => return .missingField (← string "field")
  | "InvalidDefault" => return .invalidDefault (← string "field")
  | "InvalidSymbol" => return .invalidSymbol (← string "value") (← strings "symbols")
  | "FixedSizeMismatch" => return .fixedSizeMismatch (← unsigned "expected") (← unsigned "got")
  | "NoMatchingBranch" => return .noMatchingBranch (← strings "branches")
  | "UnresolvedReference" => return .unresolvedReference (← string "name")
  | _ => none

/-- A violation from an object as it was written, or from the list of case and data.  Members that
are not known are passed over. -/
def ofJson? : Json → Option Violation
  | .obj members => do
    match ← Json.only? "type" members, ← Json.only? "data" members with
    | .str case, .obj data => ofParts? case data
    | _, _ => none
  | .arr [.str case, .obj data] => ofParts? case data
  | _ => none

def ofText? (text : String) : Option Violation :=
  match Json.readAsWritten text with
  | .ok v => ofJson? v
  | .error _ => none

end Violation

/-! ## 3. Paths -/

/-- A step into a datum. -/
inductive Segment
  | key (name : String)
  | index (position : Nat)
deriving DecidableEq, Repr

def Segment.text : Segment → String
  | key name => name
  | index position => s!"[{position}]"

/-- A way into a datum, from the root. -/
abbrev InstancePath := List Segment

/-- A way into a schema, from the root. -/
abbrev SchemaPath := List String

namespace Path

/-- One segment further. -/
def push {α : Type} (path : List α) (segment : α) : List α :=
  path ++ [segment]

/-- The last segment, and the path without it. -/
def pop? {α : Type} (path : List α) : Option (α × List α) :=
  path.getLast?.map (fun segment => (segment, path.dropLast))

theorem pop?_push {α : Type} (path : List α) (segment : α) :
    pop? (push path segment) = some (segment, path) := by
  simp [pop?, push]

/-- The text of the segments, joined; of the root itself `(root)`. -/
def text (separator : String) (segments : List String) : String :=
  if segments.isEmpty then "(root)" else separator.intercalate segments

end Path

def InstancePath.text (path : InstancePath) : String :=
  Path.text "." (path.map Segment.text)

def SchemaPath.text (path : SchemaPath) : String :=
  Path.text " > " path

/-! ## 4. Rejections -/

/-- A violation and where it is. -/
structure Rejection where
  violation : Violation
  instancePath : InstancePath
  schemaPath : SchemaPath
deriving DecidableEq, Repr

namespace Rejection

/-- A violation at the root. -/
def here (v : Violation) : Rejection :=
  ⟨v, [], []⟩

/-- The rejection of a part, seen from the datum that has the part under `segment`. -/
def inInstance (segment : Segment) (r : Rejection) : Rejection :=
  { r with instancePath := segment :: r.instancePath }

/-- The rejection by a part, seen from the schema that has the part under `segment`. -/
def inSchema (segment : String) (r : Rejection) : Rejection :=
  { r with schemaPath := segment :: r.schemaPath }

def message (r : Rejection) : String :=
  s!"Validation error at {r.instancePath.text}: {r.violation.message}"

end Rejection
end Avro
