/-
# Registry: the types with a name that are known

A registry holds, under its full name, every type that has been met.  A name is *declared*, with
its tag, before the body of its type is read, so that the body may refer back to it; once the body
is complete the name is *defined*.  A name is taken once and for all: declaring it again fails.

Registries with the same entries are equal (`Registry.ext_find?`).
-/
import Avro.Schema.Build

namespace Avro

/-- What is known of a name. -/
inductive Entry
  /-- The name is taken by a type with this tag, whose body is not complete. -/
  | declared (tag : Tag)
  | defined (definition : Definition)
deriving DecidableEq

namespace Entry

def tag : Entry → Tag
  | declared tag => tag
  | defined d => d.tag

def definition? : Entry → Option Definition
  | declared _ => none
  | defined d => some d

end Entry

/-- The types with a name that are known, by full name. -/
structure Registry where
  entries : List (String × Entry)
  sorted : Entries.Sorted entries

namespace Registry

instance : DecidableEq Registry := fun R S =>
  if h : R.entries = S.entries then .isTrue (by cases R; cases S; cases h; rfl)
  else .isFalse (fun e => h (e ▸ rfl))

/-! ## 1. Looking up -/

def empty : Registry :=
  ⟨[], Entries.sorted_nil⟩

def find? (R : Registry) (full : String) : Option Entry :=
  R.entries.lookup full

def contains (R : Registry) (full : String) : Bool :=
  (R.find? full).isSome

/-- The definition of a name, if it is complete. -/
def get? (R : Registry) (full : String) : Option Definition :=
  (R.find? full).bind Entry.definition?

def tag? (R : Registry) (full : String) : Option Tag :=
  (R.find? full).map Entry.tag

/-- The full names, sorted. -/
def names (R : Registry) : List String :=
  R.entries.map Prod.fst

def size (R : Registry) : Nat :=
  R.entries.length

def isEmpty (R : Registry) : Bool :=
  R.entries.isEmpty

/-- The full name that a reference stands for where `scope` is the namespace in scope: the name
completed by the namespace if it is known, or else the name as it is written. -/
def resolve? (R : Registry) (name : String) (scope : Option String) : Option String :=
  let full := Name.qualify name scope
  if R.contains full then some full
  else if R.contains name then some name
  else none

/-- The reference that a name stands for. -/
def reference? (R : Registry) (name : String) (scope : Option String) : Option Schema := do
  let full ← R.resolve? name scope
  let tag ← R.tag? full
  return .reference full tag

/-! ## 2. Adding -/

/-- Puts an entry under a name. -/
def put (R : Registry) (full : String) (entry : Entry) : Registry :=
  ⟨Entries.insert full entry R.entries, Entries.sorted_insert full entry R.sorted⟩

/-- Takes a name for a type whose body is still to come. -/
def declare (R : Registry) (name : Name) (tag : Tag) : Except SchemaError Registry :=
  if R.contains name.full then .error (.duplicateName name.full)
  else .ok (R.put name.full (.declared tag))

/-- Completes a name by its definition. -/
def define (R : Registry) (d : Definition) : Registry :=
  R.put d.full (.defined d)

/-- Takes a name and completes it at once. -/
def register (R : Registry) (s : Schema) : Except SchemaError Registry :=
  match s with
  | .named d => do return (← R.declare d.name d.tag).define d
  | s => .error (.invalidAttribute .name (.notNamed s.tag))

/-! ## 3. Entries -/

theorem find?_empty (full : String) : empty.find? full = none := rfl

theorem find?_put (R : Registry) (full full' : String) (entry : Entry) :
    (R.put full entry).find? full' = if full' = full then some entry else R.find? full' :=
  Entries.lookup_insert full full' entry R.entries

theorem find?_define (R : Registry) (d : Definition) (full : String) :
    (R.define d).find? full = if full = d.full then some (.defined d) else R.find? full :=
  find?_put R d.full full (.defined d)

theorem declare_eq_ok_iff {R S : Registry} {name : Name} {tag : Tag} :
    R.declare name tag = .ok S ↔
      R.find? name.full = none ∧ S = R.put name.full (.declared tag) := by
  rw [declare, contains]
  cases h : R.find? name.full <;> simp [eq_comm]

/-- Registries that have the same entry under every name are equal. -/
theorem ext_find? {R S : Registry} (h : ∀ full, R.find? full = S.find? full) : R = S := by
  obtain ⟨xs, hx⟩ := R
  obtain ⟨ys, hy⟩ := S
  obtain rfl : xs = ys := hx.ext hy h
  rfl

end Registry
end Avro
