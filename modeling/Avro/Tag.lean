/-
# Tag: the keywords of schema documents

`Primitive` lists the eight types that need no further attributes, `Tag` every value that the
attribute `type` may take, `FieldOrder` the sort orders of a field.  Each has a `name`, and
`ofName?` is its inverse (`Primitive.ofName?_eq_some_iff` and its fellows).
-/

namespace Avro

/-! ## 1. Primitive types -/

/-- The eight primitive types. -/
inductive Primitive
  | null | boolean | int | long | float | double | bytes | string
deriving DecidableEq, Repr

namespace Primitive

/-- Every primitive type, in the order of its position. -/
def all : List Primitive :=
  [null, boolean, int, long, float, double, bytes, string]

def name : Primitive → String
  | null => "null"
  | boolean => "boolean"
  | int => "int"
  | long => "long"
  | float => "float"
  | double => "double"
  | bytes => "bytes"
  | string => "string"

def ofName? (s : String) : Option Primitive :=
  all.find? (fun p => p.name = s)

theorem ofName?_name (p : Primitive) : ofName? p.name = some p := by
  cases p <;> decide

theorem ofName?_eq_some_iff {s : String} {p : Primitive} : ofName? s = some p ↔ p.name = s := by
  constructor
  · intro h
    simpa using List.find?_some h
  · rintro rfl
    exact ofName?_name p

end Primitive

/-! ## 2. Type tags -/

/-- Every value of the attribute `type`. -/
inductive Tag
  | primitive (type : Primitive)
  | record | enum | array | map | union | fixed
  /-- A record that reports a failure of a protocol. -/
  | error
  /-- The union of a protocol's failures; no schema stands for it on its own. -/
  | errorUnion
  /-- The parameter list of a protocol's message. -/
  | request
deriving DecidableEq, Repr

namespace Tag

def all : List Tag :=
  Primitive.all.map primitive
    ++ [record, enum, array, map, union, fixed, error, errorUnion, request]

def name : Tag → String
  | primitive p => p.name
  | record => "record"
  | enum => "enum"
  | array => "array"
  | map => "map"
  | union => "union"
  | fixed => "fixed"
  | error => "error"
  | errorUnion => "error_union"
  | request => "request"

def ofName? (s : String) : Option Tag :=
  all.find? (fun t => t.name = s)

theorem ofName?_name (t : Tag) : ofName? t.name = some t := by
  cases t with
  | primitive p => cases p <;> decide
  | _ => decide

theorem ofName?_eq_some_iff {s : String} {t : Tag} : ofName? s = some t ↔ t.name = s := by
  constructor
  · intro h
    simpa using List.find?_some h
  · rintro rfl
    exact ofName?_name t

theorem name_injective {t u : Tag} (h : t.name = u.name) : t = u :=
  Option.some.inj ((ofName?_name t).symm.trans (h ▸ ofName?_name u))

def isPrimitive : Tag → Bool
  | primitive _ => true
  | _ => false

/-- Whether a schema of this tag is made up of further parts. -/
def isComplex : Tag → Bool
  | record | enum | array | map | union | fixed => true
  | _ => false

/-- Whether a schema of this tag carries a name. -/
def isNamed : Tag → Bool
  | record | enum | fixed | error => true
  | _ => false

/-- Whether a schema of this tag is made up of further parts and carries no name. -/
def isUnnamed : Tag → Bool
  | array | map | union => true
  | _ => false

end Tag

/-! ## 3. Field orders -/

/-- How values are sorted by a field. -/
inductive FieldOrder
  | ascending | descending | ignore
deriving DecidableEq, Repr

namespace FieldOrder

def all : List FieldOrder :=
  [ascending, descending, ignore]

def name : FieldOrder → String
  | ascending => "ascending"
  | descending => "descending"
  | ignore => "ignore"

def ofName? (s : String) : Option FieldOrder :=
  all.find? (fun o => o.name = s)

theorem ofName?_name (o : FieldOrder) : ofName? o.name = some o := by
  cases o <;> decide

end FieldOrder
end Avro
