/-
# Name: the full names of definitions

A definition is known by its full name: identifiers, joined by dots.  The last of them is the
simple name and what stands before the last dot is the namespace.  A name that is written without
a dot is completed by a namespace: its own, or else the one in scope.

`Name` holds a full name together with the proof that it is well formed, so that two names are
equal as soon as their texts are.  `Name.resolve` makes a name from what a document says.
-/
import Avro.Tag

namespace Avro

/-! ## 1. Identifiers -/

def isIdentifierStart (c : Char) : Bool :=
  c.isAlpha || c = '_'

def isIdentifierPart (c : Char) : Bool :=
  c.isAlphanum || c = '_'

/-- Whether the characters are a letter or an underscore and then letters, digits or underscores,
all of them ASCII. -/
def isIdentifierChars : List Char → Bool
  | [] => false
  | c :: cs => isIdentifierStart c && cs.all isIdentifierPart

def isIdentifier (s : String) : Bool :=
  isIdentifierChars s.toList

/-! ## 2. Dots -/

/-- What stands between the dots. -/
def splitAtDots : List Char → List (List Char)
  | [] => [[]]
  | c :: cs =>
    if c = '.' then [] :: splitAtDots cs
    else match splitAtDots cs with
      | [] => [[c]]
      | first :: rest => (c :: first) :: rest

/-- What stands before and after the last dot, if there is one. -/
def splitAtLastDot? : List Char → Option (List Char × List Char)
  | [] => none
  | c :: cs =>
    match splitAtLastDot? cs with
    | some (before, after) => some (c :: before, after)
    | none => if c = '.' then some ([], cs) else none

theorem splitAtDots_ne_nil (cs : List Char) : splitAtDots cs ≠ [] := by
  cases cs with
  | nil => simp [splitAtDots]
  | cons c cs => grind [splitAtDots]

theorem splitAtDots_of_not_mem {cs : List Char} (h : '.' ∉ cs) : splitAtDots cs = [cs] := by
  induction cs with
  | nil => rfl
  | cons c cs ih =>
    simp only [List.mem_cons, not_or] at h
    rw [splitAtDots, if_neg (Ne.symm h.1), ih h.2]

theorem splitAtDots_append_dot (as bs : List Char) :
    splitAtDots (as ++ '.' :: bs) = splitAtDots as ++ splitAtDots bs := by
  induction as with
  | nil => simp [splitAtDots]
  | cons a as ih =>
    rw [List.cons_append, splitAtDots, splitAtDots, ih]
    split
    · rfl
    · match h : splitAtDots as with
      | [] => exact absurd h (splitAtDots_ne_nil as)
      | first :: rest => rfl

theorem splitAtLastDot?_eq_none_iff {cs : List Char} : splitAtLastDot? cs = none ↔ '.' ∉ cs := by
  induction cs with
  | nil => simp [splitAtLastDot?]
  | cons c cs ih => grind [splitAtLastDot?]

theorem splitAtLastDot?_append_dot {before after : List Char} (h : '.' ∉ after) :
    splitAtLastDot? (before ++ '.' :: after) = some (before, after) := by
  induction before with
  | nil => simp [splitAtLastDot?, splitAtLastDot?_eq_none_iff.mpr h]
  | cons c before ih => simp [splitAtLastDot?, ih]

theorem eq_of_splitAtLastDot? {cs before after : List Char}
    (h : splitAtLastDot? cs = some (before, after)) :
    cs = before ++ '.' :: after ∧ '.' ∉ after := by
  induction cs generalizing before with
  | nil => simp [splitAtLastDot?] at h
  | cons c cs ih => grind [splitAtLastDot?, splitAtLastDot?_eq_none_iff]

/-! ## 3. Resolution -/

/-- What is wrong with a name. -/
inductive NameFault
  | empty
  /-- What stands between two dots is not an identifier. -/
  | component (text : String)
  /-- The full name is the name of a primitive type. -/
  | primitive
  /-- The name of a field is not an identifier. -/
  | field
deriving DecidableEq, Repr

def NameFault.message : NameFault → String
  | empty => "name must be a non-empty string"
  | component text => s!"'{text}' is not a valid identifier"
  | primitive => "primitive type names cannot be redefined"
  | field => "field names must be identifiers"

/-- A text that is no name, and why. -/
structure NameError where
  text : String
  fault : NameFault
deriving DecidableEq, Repr

/-- The first component of a full name that is not an identifier. -/
def badComponent? (full : String) : Option (List Char) :=
  (splitAtDots full.toList).find? (fun cs => !isIdentifierChars cs)

/-- What is wrong with a full name, if anything is. -/
def nameFault? (full : String) : Option NameFault :=
  match badComponent? full with
  | some cs => some (.component (.ofList cs))
  | none => if (Primitive.ofName? full).isSome then some .primitive else none

/-- A well formed full name. -/
structure Name where
  full : String
  wellFormed : nameFault? full = none

namespace Name

theorem ext {m n : Name} (h : m.full = n.full) : m = n := by
  cases m; cases n; cases h; rfl

instance : DecidableEq Name := fun m n =>
  if h : m.full = n.full then .isTrue (ext h) else .isFalse (fun e => h (e ▸ rfl))

/-- The part after the last dot, or all of it. -/
def simple (n : Name) : String :=
  match splitAtLastDot? n.full.toList with
  | some (_, after) => .ofList after
  | none => n.full

/-- The part before the last dot. -/
def space? (n : Name) : Option String :=
  (splitAtLastDot? n.full.toList).map (fun p => .ofList p.1)

/-- A namespace that says something: an empty one counts as none. -/
def present (space : Option String) : Option String :=
  space.filter (fun s => s ≠ "")

/-- The full name that `name` stands for where `scope` is the namespace in scope.  A name with a
dot is full already. -/
def qualify (name : String) (scope : Option String) : String :=
  if '.' ∈ name.toList then name
  else match present scope with
    | some space => space ++ "." ++ name
    | none => name

/-- The name that a definition gives itself: `space` is its own namespace, and `scope` the one in
scope. -/
def resolve (name : String) (space scope : Option String) : Except NameError Name :=
  if name = "" then .error ⟨name, .empty⟩
  else
    let full := qualify name ((present space).or scope)
    match h : nameFault? full with
    | some fault => .error ⟨full, fault⟩
    | none => .ok ⟨full, h⟩

end Name
end Avro
