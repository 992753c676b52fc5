/-
# Validation: checking data against schemas

`check` walks down a datum and a schema together and gives the first violation.  A reference is
followed through the registry, without leaving a trace in the path.  The datum gets smaller wherever
the schema does not, so the walk ends, whatever the registry holds: a reference leads to a
definition, a definition to the parts of the datum, and a union to its branches.

A field that is absent is a matter of its default, and `check` takes as a parameter, `stands`,
which defaults stand in for their fields.  `defaultStands` answers that by checking the default in
turn.  A default may lead back to the field that it stands in for; that does not count as
conforming, so each default is used once along the way.

* `validate`: the first violation, with its place in the datum and in the schema.
* `isValid`: whether there is none.
* `acceptingBranch?`: the first branch of a union that accepts a datum.
-/
import Avro.Registry
import Avro.Datum
import Avro.Violation

namespace Avro

/-- The result of a check. -/
abbrev Verdict := Except Rejection Unit

namespace Verdict

/-- The verdict on a part, seen from the datum that has the part under `segment`. -/
def inInstance (segment : Segment) (v : Verdict) : Verdict :=
  v.mapError (Rejection.inInstance segment)

/-- The verdict by a part, seen from the schema that has the part under `segment`. -/
def inSchema (segment : String) (v : Verdict) : Verdict :=
  v.mapError (Rejection.inSchema segment)

def reject (v : Violation) : Verdict :=
  .error (.here v)

def accepts (v : Verdict) : Bool :=
  v.isOk

theorem accepts_iff {v : Verdict} : v.accepts = true ↔ v = .ok () := by
  cases v <;> simp [accepts, Except.isOk, Except.toBool]

theorem inInstance_eq_ok_iff {segment : Segment} {v : Verdict} :
    v.inInstance segment = .ok () ↔ v = .ok () := by
  cases v with
  | ok => exact Iff.rfl
  | error => exact ⟨nofun, nofun⟩

theorem inSchema_eq_ok_iff {segment : String} {v : Verdict} :
    v.inSchema segment = .ok () ↔ v = .ok () := by
  cases v with
  | ok => exact Iff.rfl
  | error => exact ⟨nofun, nofun⟩

/-- Two checks in turn find nothing exactly if neither does. -/
theorem andThen_eq_ok_iff {v w : Verdict} :
    (do v; w) = .ok () ↔ v = .ok () ∧ w = .ok () := by
  cases v <;> simp [bind, Except.bind]

end Verdict

/-! ## 1. Data without parts -/

open Verdict (reject)

def mismatch (expected : String) (d : Datum) : Verdict :=
  reject (.typeMismatch expected d.typeName)

def checkRange (minimum maximum value : Int) : Verdict :=
  if minimum ≤ value ∧ value ≤ maximum then .ok ()
  else reject (.integerOutOfRange value minimum maximum)

/-- An `int` has 32 bits and a `long` has 63.  A string may stand for bytes and bytes for a string,
and an integer for a number with a fraction. -/
def checkPrimitive (p : Primitive) (d : Datum) : Verdict :=
  match p, d with
  | .null, .null => .ok ()
  | .boolean, .bool _ => .ok ()
  | .int, .int n => checkRange (-2147483648) 2147483647 n
  | .long, .int n => checkRange (-4611686018427387904) 4611686018427387903 n
  | .float, .float _ | .float, .int _ => .ok ()
  | .double, .float _ | .double, .int _ => .ok ()
  | .bytes, .bytes _ | .bytes, .string _ => .ok ()
  | .string, .bytes _ | .string, .string _ => .ok ()
  | p, d => mismatch p.name d

def checkSymbol (symbols : List String) (d : Datum) : Verdict :=
  match d with
  | .string s => if s ∈ symbols then .ok () else reject (.invalidSymbol s symbols)
  | d => mismatch "enum symbol" d

/-- How many bytes a datum has, if it is made up of bytes. -/
def byteLength? : Datum → Option Nat
  | .bytes b => some b.length
  | .string s => some s.utf8ByteSize
  | _ => none

def checkSize (size : Nat) (d : Datum) : Verdict :=
  match byteLength? d with
  | some n => if n = size then .ok () else reject (.fixedSizeMismatch size n)
  | none => mismatch "bytes" d

/-- A field that is absent; `stands` tells whether its default conforms. -/
def checkAbsent (f : Field) (stands : Bool) : Verdict :=
  match f.default with
  | none => reject (.missingField f.name)
  | some _ => if stands then .ok () else reject (.invalidDefault f.name)

/-! ## 2. The walk -/

/-- What a branch of a union is listed as. -/
def Schema.label (s : Schema) : String :=
  s.key.text

/-- The segment of a definition in a schema path. -/
def Definition.segment (d : Definition) : String :=
  d.tag.name ++ ":" ++ d.full

def Field.segment (f : Field) : String :=
  "field:" ++ f.name

section Walk

variable (R : Registry) (stands : String → Field → Bool)

mutual

/-- The first violation of a schema by a datum. -/
def check (d : Datum) (s : Schema) : Verdict :=
  match s with
  | .primitive p => (checkPrimitive p d).inSchema p.name
  | .named t => checkDefinition d t
  | .array items =>
    Verdict.inSchema "array" <| match d with
      | .array ds => checkItems 0 ds items
      | d => mismatch "array" d
  | .map values =>
    Verdict.inSchema "map" <| match d with
      | .map entries => checkEntries entries values
      | d => mismatch "map" d
  | .union branches =>
    Verdict.inSchema "union" <|
      if (firstAccepting? d branches).isSome then .ok ()
      else reject (.noMatchingBranch (branches.map Schema.label))
  | .request fields =>
    Verdict.inSchema "request" <| match d with
      | .map entries => checkFields entries Schema.requestOwner fields
      | d => mismatch "record" d
  | .reference full _ =>
    match R.get? full with
    | some t => checkDefinition d t
    | none => reject (.unresolvedReference full)
termination_by (sizeOf d, 1, sizeOf s)

/-- The first violation of a definition by a datum. -/
def checkDefinition (d : Datum) (t : Definition) : Verdict :=
  Verdict.inSchema t.segment <| match t.body with
    | .enum symbols => checkSymbol symbols d
    | .fixed size => checkSize size.toNat d
    | .record _ fields =>
      match d with
      | .map entries => checkFields entries t.full fields
      | d => mismatch "record" d
termination_by (sizeOf d, 0, 0)

/-- The first violation by the items of an array, the first of which has this index. -/
def checkItems (index : Nat) (ds : List Datum) (items : Schema) : Verdict :=
  match ds with
  | [] => .ok ()
  | d :: ds => do
    (check d items).inInstance (.index index)
    checkItems (index + 1) ds items
termination_by (sizeOf ds, 1, 0)

/-- The first violation by the values of a map. -/
def checkEntries (entries : List (String × Datum)) (values : Schema) : Verdict :=
  match entries with
  | [] => .ok ()
  | (key, d) :: entries => do
    (check d values).inInstance (.key key)
    checkEntries entries values
termination_by (sizeOf entries, 1, 0)

/-- The first violation by the fields of a record, in the order of the schema. -/
def checkFields (entries : List (String × Datum)) (owner : String) (fields : List Field) :
    Verdict :=
  match fields with
  | [] => .ok ()
  | f :: fields => do
    let verdict := match _h : entries.lookup f.name with
      | some d => check d f.type
      | none => checkAbsent f (stands owner f)
    (verdict.inInstance (.key f.name)).inSchema f.segment
    checkFields entries owner fields
termination_by (sizeOf entries, 1, sizeOf fields)
decreasing_by
  · exact Prod.Lex.left _ _ (Datum.sizeOf_lt_of_lookup _h)
  · decreasing_tactic

/-- The position of the first branch that accepts a datum. -/
def firstAccepting? (d : Datum) (branches : List Schema) : Option Nat :=
  match branches with
  | [] => none
  | b :: branches =>
    if (check d b).accepts then some 0 else (firstAccepting? d branches).map (· + 1)
termination_by (sizeOf d, 1, sizeOf branches)

end

theorem checkItems_eq_ok_iff {index : Nat} {ds : List Datum} {items : Schema} :
    checkItems R stands index ds items = .ok () ↔ ∀ d ∈ ds, check R stands d items = .ok () := by
  induction ds generalizing index with
  | nil => simp [checkItems]
  | cons d ds ih =>
    rw [checkItems, Verdict.andThen_eq_ok_iff, Verdict.inInstance_eq_ok_iff, ih]
    simp

theorem checkEntries_eq_ok_iff {entries : List (String × Datum)} {values : Schema} :
    checkEntries R stands entries values = .ok () ↔
      ∀ e ∈ entries, check R stands e.2 values = .ok () := by
  induction entries with
  | nil => simp [checkEntries]
  | cons e entries ih =>
    rw [checkEntries, Verdict.andThen_eq_ok_iff, Verdict.inInstance_eq_ok_iff, ih]
    simp

theorem isSome_firstAccepting?_iff {d : Datum} {branches : List Schema} :
    (firstAccepting? R stands d branches).isSome = true ↔
      ∃ b ∈ branches, check R stands d b = .ok () := by
  induction branches with
  | nil => simp [firstAccepting?]
  | cons b branches ih =>
    rw [firstAccepting?]
    split
    · next h => simp [Verdict.accepts_iff.mp h]
    · next h => simp [ih, mt Verdict.accepts_iff.mpr h]

end Walk

/-! ## 3. Defaults -/

/-- A field, by the full name of its owner and its own name. -/
abbrev Slot := String × String

/-- The fields with a default among these. -/
def Field.slots (owner : String) (fields : List Field) : List Slot :=
  (fields.filter (fun f => f.default.isSome)).map (fun f => (owner, f.name))

namespace Schema

/-- The fields with a default of this very schema. -/
def ownSlots : Schema → List Slot
  | named t => Field.slots t.full t.fields
  | request fields => Field.slots requestOwner fields
  | _ => []

/-- The fields with a default anywhere in a schema. -/
def slots (s : Schema) : List Slot :=
  s.nodes.flatMap ownSlots

end Schema

/-- The fields with a default anywhere in the definitions of a registry. -/
def Registry.slots (R : Registry) : List Slot :=
  R.entries.flatMap fun (_, entry) =>
    match entry with
    | .defined t => (Schema.named t).slots
    | .declared _ => []

/-- The slots but for one. -/
def Slot.without (slot : Slot) (slots : List Slot) : List Slot :=
  slots.filter (fun s => s ≠ slot)

theorem Slot.length_without_lt {slot : Slot} {slots : List Slot} (h : slot ∈ slots) :
    (slot.without slots).length < slots.length :=
  List.length_filter_lt_length_iff_exists.mpr ⟨slot, h, by simp⟩

/-- Whether the default of a field conforms to its type, where the defaults of the fields
`available` may be used on the way.  The field itself has to be one of them, and is not available
while its default is checked. -/
def defaultStands (R : Registry) (available : List Slot) (owner : String) (f : Field) : Bool :=
  match f.default with
  | none => false
  | some v =>
    if _h : (owner, f.name) ∈ available then
      let rest := Slot.without (owner, f.name) available
      (check R (fun owner f => defaultStands R rest owner f) (.ofJson v) f.type).accepts
    else false
termination_by available.length
decreasing_by exact Slot.length_without_lt _h

/-! ## 4. Whole data -/

/-- The first violation of a schema by a datum, where every default may be used. -/
def validate (R : Registry) (s : Schema) (d : Datum) : Verdict :=
  check R (defaultStands R (s.slots ++ R.slots)) d s

/-- Whether a datum conforms to a schema. -/
def isValid (R : Registry) (s : Schema) (d : Datum) : Bool :=
  (validate R s d).accepts

/-- The first branch of a union that accepts a datum. -/
def acceptingBranch? (R : Registry) (branches : List Schema) (d : Datum) : Option Nat :=
  firstAccepting? R (defaultStands R ((Schema.union branches).slots ++ R.slots)) d branches

/-- Whether the default of a field conforms to its type; a field without one has nothing that does
not. -/
def Field.defaultIsValid (R : Registry) (f : Field) : Bool :=
  match f.default with
  | none => true
  | some v => isValid R f.type (.ofJson v)

end Avro
