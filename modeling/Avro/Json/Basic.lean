/-
# Json: decoded JSON values

The members of an object are a list of keys and values.  A value straight from a text holds them
as they were written; `canonical` sorts them by key and keeps the last of a repeated key, and
that is the form every other module works on.  A look-up takes the first member with the key.

Equality is decided by a Boolean test, `Json.beq`, which is exactly equality (`beq_iff_eq`).
-/
import Avro.Entries
import Avro.Binary64.Basic

namespace Avro

/-- Whether 64 bits without sign hold an integer: it is less than `2 ^ 64`. -/
def isUnsigned (n : Int) : Bool :=
  0 ≤ n ∧ n < 18446744073709551616

/-- Whether 64 bits with sign hold an integer: it is less than `2 ^ 63`, and no less than the
opposite of that. -/
def isSigned (n : Int) : Bool :=
  -9223372036854775808 ≤ n ∧ n < 9223372036854775808

/-- A JSON number: an integer of 64 bits, with or without sign, or a double. -/
inductive Number
  | int (value : Int)
  | double (value : Binary64)
deriving DecidableEq, Repr

/-- A JSON value. -/
inductive Json
  | null
  | bool (value : Bool)
  | num (value : Number)
  | str (value : String)
  | arr (items : List Json)
  | obj (members : List (String × Json))
deriving Repr

namespace Json

/-! ## 1. Equality -/

mutual

/-- Whether two values are equal. -/
def beq : Json → Json → Bool
  | null, null => true
  | bool a, bool b => a == b
  | num a, num b => a == b
  | str a, str b => a == b
  | arr a, arr b => beqItems a b
  | obj a, obj b => beqMembers a b
  | _, _ => false

def beqItems : List Json → List Json → Bool
  | [], [] => true
  | a :: as, b :: bs => beq a b && beqItems as bs
  | _, _ => false

def beqMembers : List (String × Json) → List (String × Json) → Bool
  | [], [] => true
  | (k, a) :: as, (l, b) :: bs => k == l && beq a b && beqMembers as bs
  | _, _ => false

end

mutual

theorem beq_iff_eq : ∀ {a b : Json}, beq a b = true ↔ a = b
  | null, b => by cases b <;> simp [beq]
  | bool _, b => by cases b <;> simp [beq]
  | num _, b => by cases b <;> simp [beq]
  | str _, b => by cases b <;> simp [beq]
  | arr as, b => by cases b <;> simp [beq, beqItems_iff_eq]
  | obj as, b => by cases b <;> simp [beq, beqMembers_iff_eq]

theorem beqItems_iff_eq : ∀ {as bs : List Json}, beqItems as bs = true ↔ as = bs
  | [], bs => by cases bs <;> simp [beqItems]
  | a :: as, bs => by cases bs <;> simp [beqItems, @beq_iff_eq a, @beqItems_iff_eq as]

theorem beqMembers_iff_eq : ∀ {as bs : List (String × Json)}, beqMembers as bs = true ↔ as = bs
  | [], bs => by cases bs <;> simp [beqMembers]
  | (k, a) :: as, bs => by
    rcases bs with _ | ⟨⟨l, b⟩, bs⟩ <;>
      simp [beqMembers, @beq_iff_eq a, @beqMembers_iff_eq as, and_assoc]

end

instance : DecidableEq Json := fun _ _ => decidable_of_iff _ beq_iff_eq

/-! ## 2. Canonical form -/

mutual

/-- The value with the members of every object sorted by key; of a repeated key the last member
counts. -/
def canonical : Json → Json
  | null => null
  | bool b => bool b
  | num n => num n
  | str s => str s
  | arr items => arr (canonicalItems items)
  | obj members => obj (Entries.ofList (canonicalMembers members))

def canonicalItems : List Json → List Json
  | [] => []
  | item :: items => canonical item :: canonicalItems items

def canonicalMembers : List (String × Json) → List (String × Json)
  | [] => []
  | (key, value) :: members => (key, canonical value) :: canonicalMembers members

end

/-! ## 3. Taking values apart -/

/-- An integer of 64 bits without sign. -/
def toUnsigned? : Json → Option Nat
  | .num (.int n) => if isUnsigned n then some n.toNat else none
  | _ => none

/-- An integer of 64 bits with sign. -/
def toSigned? : Json → Option Int
  | .num (.int n) => if isSigned n then some n else none
  | _ => none

def toString? : Json → Option String
  | .str s => some s
  | _ => none

def toStrings? : Json → Option (List String)
  | .arr items => items.mapM toString?
  | _ => none

/-- The value of every member with this key. -/
def valuesOf (key : String) (members : List (String × Json)) : List Json :=
  (members.filter (fun m => m.1 = key)).map Prod.snd

/-- The value of the only member with this key. -/
def only? (key : String) (members : List (String × Json)) : Option Json :=
  match valuesOf key members with
  | [v] => some v
  | _ => none

end Json
end Avro
