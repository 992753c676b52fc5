/-
# Schema.Build: putting schemas together by the rules

The fields of a record have distinct names that are identifiers, the symbols of an enum are
distinct identifiers, and a union has neither unions nor two branches of one key among its
branches.  The functions here check these rules, for schemas made by hand and for documents
alike; the first item that breaks a rule is the one reported.
-/
import Avro.Schema.Error

namespace Avro

/-- The fault of the first item that has one, where `fault before item` is the fault of an item
that comes after the items `before`. -/
def firstFault? {α ε : Type} (fault : List α → α → Option ε) (before : List α) :
    List α → Option ε
  | [] => none
  | item :: items =>
    match fault before item with
    | some e => some e
    | none => firstFault? fault (before ++ [item]) items

/-- The items have no fault exactly if each of them has none after those before it. -/
theorem firstFault?_eq_none_iff {α ε : Type} {fault : List α → α → Option ε}
    {before items : List α} :
    firstFault? fault before items = none ↔
      ∀ xs x ys, items = xs ++ x :: ys → fault (before ++ xs) x = none := by
  induction items generalizing before with
  | nil => simp [firstFault?]
  | cons item items ih =>
    rw [firstFault?]
    split
    · next e h =>
      refine ⟨nofun, fun hall => ?_⟩
      have hitem := hall [] item items rfl
      simp [h] at hitem
    · next h =>
      rw [ih]
      constructor
      · intro hall xs x ys heq
        match xs with
        | [] =>
          obtain ⟨rfl, rfl⟩ := List.cons.inj heq
          simpa using h
        | x' :: xs =>
          obtain ⟨rfl, rfl⟩ := List.cons.inj heq
          simpa using hall xs x ys rfl
      · intro hall xs x ys heq
        have := hall (item :: xs) x ys (by simp [heq])
        simpa using this

/-- A reported fault is that of an item that comes after items without one. -/
theorem firstFault?_eq_some_iff {α ε : Type} {fault : List α → α → Option ε}
    {before items : List α} {e : ε} :
    firstFault? fault before items = some e ↔
      ∃ xs x ys, items = xs ++ x :: ys ∧ fault (before ++ xs) x = some e ∧
        firstFault? fault before xs = none := by
  induction items generalizing before with
  | nil => simp [firstFault?]
  | cons item items ih =>
    rw [firstFault?]
    split
    · next e' h =>
      constructor
      · rintro ⟨⟩
        exact ⟨[], item, items, rfl, by simpa using h, rfl⟩
      · rintro ⟨xs, x, ys, heq, hx, hxs⟩
        match xs with
        | [] =>
          obtain ⟨rfl, rfl⟩ := List.cons.inj heq
          rw [List.append_nil, h] at hx
          exact hx
        | x' :: xs =>
          obtain ⟨rfl, heq⟩ := List.cons.inj heq
          simp [firstFault?, h] at hxs
    · next h =>
      rw [ih]
      constructor
      · rintro ⟨xs, x, ys, rfl, hx, hxs⟩
        exact ⟨item :: xs, x, ys, rfl, by simpa using hx, by simp [firstFault?, h, hxs]⟩
      · rintro ⟨xs, x, ys, heq, hx, hxs⟩
        match xs with
        | [] =>
          obtain ⟨rfl, rfl⟩ := List.cons.inj heq
          simp [h] at hx
        | x' :: xs =>
          obtain ⟨rfl, rfl⟩ := List.cons.inj heq
          exact ⟨xs, x, ys, rfl, by simpa using hx, by simpa [firstFault?, h] using hxs⟩

/-- Takes a value that has no fault. -/
def orFault {α : Type} (value : α) : Option SchemaError → Except SchemaError α
  | some e => .error e
  | none => .ok value

/-! ## 1. Fields -/

/-- A field of this name and type, with nothing else said about it. -/
def Field.of (name : String) (type : Schema) : Except SchemaError Field :=
  if isIdentifier name then .ok ⟨name, type, none, none, none⟩
  else .error (.invalidName ⟨name, .field⟩)

/-- A field may not have the name of one before it. -/
def Field.fault (owner : String) (before : List Field) (f : Field) : Option SchemaError :=
  if f.name ∈ before.map Field.name then some (.duplicateField owner f.name) else none

/-- The field of a list that has this name. -/
def Field.find? (fields : List Field) (name : String) : Option Field :=
  fields.find? (fun f => f.name = name)

/-! ## 2. Definitions -/

namespace Definition

/-- A record or an error. -/
def recordOf (name : Name) (doc : Option String) (kind : RecordKind) (fields : List Field) :
    Except SchemaError Definition :=
  orFault ⟨name, doc, .record kind fields⟩ (firstFault? (Field.fault name.full) [] fields)

/-- A symbol is an identifier, and none before it. -/
def symbolFault (enum : String) (before : List String) (symbol : String) : Option SchemaError :=
  if !isIdentifier symbol then some (.invalidAttribute .symbols (.notSymbol symbol))
  else if symbol ∈ before then some (.duplicateSymbol enum symbol)
  else none

def enumOf (name : Name) (doc : Option String) (symbols : List String) :
    Except SchemaError Definition :=
  orFault ⟨name, doc, .enum symbols⟩ (firstFault? (symbolFault name.full) [] symbols)

def fixedOf (name : Name) (doc : Option String) (size : UInt64) : Definition :=
  ⟨name, doc, .fixed size⟩

end Definition

/-! ## 3. Requests and unions -/

namespace Schema

/-- What stands for the owner of a request's fields, which has no name. -/
def requestOwner : String := "request"

def requestOf (fields : List Field) : Except SchemaError Schema :=
  orFault (.request fields) (firstFault? (Field.fault requestOwner) [] fields)

/-- A branch is not a union, and its key is that of none before it. -/
def branchFault (before : List Schema) (branch : Schema) : Option SchemaError :=
  if branch.isUnion then some (.invalidUnion .nested)
  else if branch.key ∈ before.map Schema.key then some (.invalidUnion (.repeated branch.key))
  else none

def unionOf (branches : List Schema) : Except SchemaError Schema :=
  orFault (.union branches) (firstFault? branchFault [] branches)

end Schema
end Avro
