/-
# Construction: what the constructors make, and what they report

The constructors go through a list once and remember what they have met.  Symbols, fields and
branches differ in what makes an item wrong by itself, in the key by which an item is told apart,
and in the report; the rule is one.  An item breaks it that is wrong by itself, or has the key of an
item before it.

* `BreaksRule`: the item at a place of a list breaks the rule.
* `MadeByRule`: a constructor makes its value if no item breaks the rule, and reports the first that
  does.
* `madeByRule_orFault`: so does every constructor that looks for the first fault.
* `constructors_madeByRule`: the constructors of unions, enums, records and requests, and the
  look-ups in what they have made.
-/
import Avro.Proofs.Resolution
import Avro.Proofs.Rules

namespace Avro

/-! ## 1. Rules for lists -/

section Rule

variable {α κ β : Type}

/-- The item at this place is wrong by itself, or its key is that of an item before it. -/
def BreaksRule (wrong : α → Prop) (key : α → κ) (items : List α) (i : Nat) : Prop :=
  ∃ x, items[i]? = some x ∧ (wrong x ∨ key x ∈ (items.take i).map key)

/-- The value is made if no item is wrong by itself and all have keys of their own, and else the
first item that breaks this rule is reported. -/
structure MadeByRule (wrong : α → Prop) (key : α → κ) (report : α → SchemaError) (items : List α)
    (value : β) (made : Except SchemaError β) : Prop where
  ok_iff : ∀ b, made = .ok b ↔ b = value ∧ (∀ x ∈ items, ¬ wrong x) ∧ (items.map key).Nodup
  error_iff : ∀ e, made = .error e ↔
    ∃ i x, items[i]? = some x ∧ IsLeast {j | BreaksRule wrong key items j} i ∧ e = report x

/-- A reported fault is that of the item at the first place that has one. -/
theorem firstFault?_eq_some_iff_getElem? {ε : Type} {fault : List α → α → Option ε}
    {items : List α} {e : ε} :
    firstFault? fault [] items = some e ↔
      ∃ i x, items[i]? = some x ∧ fault (items.take i) x = some e ∧
        ∀ j y, j < i → items[j]? = some y → fault (items.take j) y = none := by
  rw [firstFault?_eq_some_iff]
  constructor
  · rintro ⟨xs, x, ys, rfl, hx, hxs⟩
    refine ⟨xs.length, x, by simp, by simpa using hx, fun j y hj hy => ?_⟩
    rw [List.getElem?_append_left hj] at hy
    obtain ⟨hj, rfl⟩ := List.getElem?_eq_some_iff.mp hy
    rw [List.take_append_of_le_length (Nat.le_of_lt hj)]
    refine firstFault?_eq_none_iff.mp hxs (xs.take j) xs[j] (xs.drop (j + 1)) ?_
    rw [← List.drop_eq_getElem_cons, List.take_append_drop]
  · rintro ⟨i, x, hx, hfault, hbefore⟩
    obtain ⟨hi, rfl⟩ := List.getElem?_eq_some_iff.mp hx
    refine ⟨items.take i, items[i], items.drop (i + 1), ?_, hfault, ?_⟩
    · rw [← List.drop_eq_getElem_cons, List.take_append_drop]
    · refine firstFault?_eq_none_iff.mpr fun xs y ys heq => ?_
      have hlength : xs.length < i := by
        have := congrArg List.length heq
        simp at this
        omega
      have htake : items = xs ++ y :: (ys ++ items.drop i) :=
        calc
          items = items.take i ++ items.drop i := (List.take_append_drop i items).symm
          _ = xs ++ y :: (ys ++ items.drop i) := by rw [heq, List.append_assoc, List.cons_append]
      have hy := hbefore xs.length y hlength (by rw [htake]; simp)
      rw [htake] at hy
      simpa using hy

/-- **Looking for the first fault is going by the rule**, if an item is at fault where it breaks the
rule. -/
theorem madeByRule_orFault {wrong : α → Prop} {key : α → κ} {report : α → SchemaError}
    {fault : List α → α → Option SchemaError}
    (hfault : ∀ before x e, fault before x = some e ↔
      (wrong x ∨ key x ∈ before.map key) ∧ e = report x) (items : List α) (value : β) :
    MadeByRule wrong key report items value (orFault value (firstFault? fault [] items)) := by
  have hnone : ∀ before x, fault before x = none ↔ ¬ (wrong x ∨ key x ∈ before.map key) := by
    intro before x
    rw [Option.eq_none_iff_forall_ne_some]
    simp [hfault]
  constructor
  case ok_iff =>
    intro b
    have hsound : ∀ before x, fault before x = none ↔ ¬ wrong x ∧ key x ∉ before.map key := by
      intro before x
      rw [hnone, not_or]
    rw [orFault_eq_ok_iff, firstFault?_eq_none_iff_nodup hsound, and_comm]
  case error_iff =>
    intro e
    rw [orFault_eq_error_iff, firstFault?_eq_some_iff_getElem?]
    refine exists₂_congr fun i x => and_congr_right fun hx => ?_
    rw [hfault]
    constructor
    · rintro ⟨⟨hbreaks, rfl⟩, hbefore⟩
      refine ⟨⟨⟨x, hx, hbreaks⟩, ?_⟩, rfl⟩
      rintro j ⟨y, hy, hj⟩
      refine Nat.le_of_not_lt fun hlt => ?_
      exact (hnone _ y).mp (hbefore j y hlt hy) hj
    · rintro ⟨⟨⟨x', hx', hbreaks⟩, hleast⟩, rfl⟩
      obtain rfl : x = x' := Option.some.inj (hx.symm.trans hx')
      refine ⟨⟨hbreaks, rfl⟩, fun j y hj hy => (hnone _ y).mpr fun hbreak => ?_⟩
      exact absurd (hleast ⟨y, hy, hbreak⟩) (Nat.not_le_of_lt hj)

end Rule

/-! ## 2. The constructors -/

/-- Fields have names of their own. -/
theorem Field.madeByRule {β : Type} (owner : String) (fields : List Field) (value : β) :
    MadeByRule (fun _ => False) Field.name (fun f => .duplicateField owner f.name) fields value
      (orFault value (firstFault? (Field.fault owner) [] fields)) := by
  refine madeByRule_orFault (fun before f e => ?_) fields value
  rw [Field.fault]
  split
  · next h => simp [h, eq_comm]
  · next h => simp [h]

namespace Definition

/-- What is reported of a symbol: that it is no identifier, or else that it is there already. -/
def symbolReport (full symbol : String) : SchemaError :=
  if isIdentifier symbol then .duplicateSymbol full symbol
  else .invalidAttribute .symbols (.notSymbol symbol)

theorem enumOf_madeByRule (name : Name) (doc : Option String) (symbols : List String) :
    MadeByRule (fun symbol => ¬ IsWord symbol.toList) id (symbolReport name.full) symbols
      ⟨name, doc, .enum symbols⟩ (enumOf name doc symbols) := by
  refine madeByRule_orFault (fun before symbol e => ?_) symbols _
  rw [symbolFault, symbolReport, ← isIdentifierChars_iff, ← isIdentifier]
  cases isIdentifier symbol with
  | false => simp [eq_comm]
  | true =>
    simp only [Bool.not_true, Bool.false_eq_true, if_false, not_true_eq_false, false_or, if_true,
      List.map_id, id_eq]
    split
    · next h => simp [h, eq_comm]
    · next h => simp [h]

/-- The position of a symbol is the place where it stands, as symbols are distinct. -/
theorem symbolIndex?_eq_some_iff {name : Name} {doc : Option String} {symbols : List String}
    (hnodup : symbols.Nodup) {symbol : String} {i : Nat} :
    (Definition.mk name doc (.enum symbols)).symbolIndex? symbol = some i ↔
      symbols[i]? = some symbol := by
  rw [symbolIndex?, List.idxOf?, List.findIdx?_eq_some_iff_getElem, List.getElem?_eq_some_iff]
  refine exists_congr fun hi => ?_
  rw [beq_iff_eq]
  refine ⟨And.left, fun heq => ⟨heq, fun j hj hsame => ?_⟩⟩
  rw [beq_iff_eq, ← heq, hnodup.getElem_inj_iff] at hsame
  exact absurd hj (hsame ▸ Nat.lt_irrefl i)

end Definition

/-- The field of this name is found, as names are distinct. -/
theorem Field.find?_eq_some_iff {fields : List Field} (hnodup : (fields.map Field.name).Nodup)
    {name : String} {f : Field} :
    Field.find? fields name = some f ↔ f ∈ fields ∧ f.name = name := by
  constructor
  · intro h
    exact ⟨List.mem_of_find?_eq_some h, by simpa using List.find?_some h⟩
  · rintro ⟨hmem, rfl⟩
    cases hfind : Field.find? fields f.name with
    | none =>
      have hnone := List.find?_eq_none.mp hfind f hmem
      simp at hnone
    | some g =>
      have hg : g ∈ fields := List.mem_of_find?_eq_some hfind
      have hname : g.name = f.name := by simpa using List.find?_some hfind
      rw [List.inj_on_of_nodup_map hnodup hg hmem hname]

namespace Schema

/-- What is reported of a branch: that it is a union, or else that its key is there already. -/
def branchReport (branch : Schema) : SchemaError :=
  .invalidUnion (if branch.isUnion then .nested else .repeated branch.key)

theorem unionOf_madeByRule (branches : List Schema) :
    MadeByRule (fun b => b.isUnion = true) key branchReport branches (.union branches)
      (unionOf branches) := by
  refine madeByRule_orFault (fun before b e => ?_) branches _
  rw [branchFault, branchReport]
  cases b.isUnion with
  | true => simp [eq_comm]
  | false =>
    simp only [Bool.false_eq_true, if_false, false_or]
    split
    · next h => simp [h, eq_comm]
    · next h => simp [h]

/-- Two schemas have the same key if they have the same full name, or no full name and the same
tag. -/
theorem key_eq_key_iff {a b : Schema} :
    a.key = b.key ↔ a.full? = b.full? ∧ (a.full? = none → a.tag = b.tag) := by
  rw [key, key]
  cases a.full? <;> cases b.full? <;> simp

end Schema

/-- **What the constructors make.**  A union is made of branches that are not unions and have keys
of their own, an enum of words that are distinct, a record or a request of fields that have names of
their own; and if that cannot be, the first item that breaks the rule is reported.  The keys of two
branches are the same if both have the same full name, or both have none and they have the same tag.
In an enum that has been made each symbol has the position at which it stands, and in a record each
field is the one of its name. -/
theorem constructors_madeByRule (branches : List Schema) (symbols : List String)
    (fields : List Field) (name : Name) (doc : Option String) (kind : RecordKind) :
    (MadeByRule (fun b => b.isUnion = true) Schema.key Schema.branchReport branches
        (.union branches) (Schema.unionOf branches) ∧
      ∀ a b : Schema, a.key = b.key ↔ a.full? = b.full? ∧ (a.full? = none → a.tag = b.tag)) ∧
    (MadeByRule (fun symbol => ¬ IsWord symbol.toList) id (Definition.symbolReport name.full)
        symbols ⟨name, doc, .enum symbols⟩ (Definition.enumOf name doc symbols) ∧
      ∀ t, Definition.enumOf name doc symbols = .ok t → ∀ symbol i,
        t.symbolIndex? symbol = some i ↔ symbols[i]? = some symbol) ∧
    (MadeByRule (fun _ => False) Field.name (fun f => .duplicateField name.full f.name) fields
        ⟨name, doc, .record kind fields⟩ (Definition.recordOf name doc kind fields) ∧
      ∀ t, Definition.recordOf name doc kind fields = .ok t → ∀ text f,
        Field.find? t.fields text = some f ↔ f ∈ fields ∧ f.name = text) ∧
    MadeByRule (fun _ => False) Field.name (fun f => .duplicateField Schema.requestOwner f.name)
      fields (.request fields) (Schema.requestOf fields) := by
  have henum := Definition.enumOf_madeByRule name doc symbols
  have hrecord := Field.madeByRule name.full fields (Definition.mk name doc (.record kind fields))
  refine ⟨⟨Schema.unionOf_madeByRule branches, fun a b => Schema.key_eq_key_iff⟩,
    ⟨henum, fun t ht symbol i => ?_⟩, ⟨hrecord, fun t ht text f => ?_⟩,
    Field.madeByRule Schema.requestOwner fields (Schema.request fields)⟩
  · obtain ⟨rfl, -, hnodup⟩ := (henum.ok_iff t).mp ht
    rw [List.map_id] at hnodup
    exact Definition.symbolIndex?_eq_some_iff hnodup
  · obtain ⟨rfl, -, hnodup⟩ := (hrecord.ok_iff t).mp ht
    exact Field.find?_eq_some_iff hnodup

namespace Example

/-- A type that has the name of a tag. -/
def tile : Definition :=
  ⟨⟨"map", by decide⟩, none, .fixed 16⟩

def suit : Name :=
  ⟨"Suit", by decide⟩

def cardFields : List Field :=
  [⟨"rank", .primitive .int, none, none, none⟩, ⟨"suit", .reference "Suit" .enum, none, none, none⟩]

/-- The last branch is a union, but before it there is a reference to the second one. -/
def repeatedBranches : List Schema :=
  [.map (.primitive .int), .named tile, .reference "map" .fixed, .union []]

theorem isLeast_repeatedBranches :
    IsLeast {j | BreaksRule (fun b => b.isUnion = true) Schema.key repeatedBranches j} 2 := by
  refine ⟨⟨.reference "map" .fixed, rfl, .inr (by decide)⟩, ?_⟩
  rintro j ⟨b, hb, hbreaks⟩
  match j with
  | 0 =>
    obtain rfl : .map (.primitive .int) = b := Option.some.inj hb
    revert hbreaks
    decide
  | 1 =>
    obtain rfl : .named tile = b := Option.some.inj hb
    revert hbreaks
    decide
  | j + 2 => exact Nat.le_add_left 2 j

end Example

/-- A type called `map` may stand beside a map, and not beside a reference to it. -/
theorem constructors_madeByRule_tile :
    Schema.unionOf Example.repeatedBranches = .error (.invalidUnion (.repeated (.named "map"))) ∧
    Schema.unionOf (Example.repeatedBranches.take 2) =
      .ok (.union (Example.repeatedBranches.take 2)) ∧
    Definition.enumOf Example.suit none ["HEARTS", "SPADES"] =
      .ok ⟨Example.suit, none, .enum ["HEARTS", "SPADES"]⟩ ∧
    (Definition.mk Example.suit none (.enum ["HEARTS", "SPADES"])).symbolIndex? "SPADES" = some 1 ∧
    Definition.recordOf Example.suit none .error Example.cardFields =
      .ok ⟨Example.suit, none, .record .error Example.cardFields⟩ ∧
    Field.find? Example.cardFields "suit" =
      some ⟨"suit", .reference "Suit" .enum, none, none, none⟩ := by
  obtain ⟨⟨hunion, -⟩, ⟨henum, hindex⟩, ⟨hrecord, hfind⟩, -⟩ := constructors_madeByRule
    Example.repeatedBranches ["HEARTS", "SPADES"] Example.cardFields Example.suit none .error
  obtain ⟨⟨htake, -⟩, -⟩ := constructors_madeByRule
    (Example.repeatedBranches.take 2) [] [] Example.suit none .error
  have hmade : Definition.enumOf Example.suit none ["HEARTS", "SPADES"] =
      .ok ⟨Example.suit, none, .enum ["HEARTS", "SPADES"]⟩ := by rfl
  have hcard : Definition.recordOf Example.suit none .error Example.cardFields =
      .ok ⟨Example.suit, none, .record .error Example.cardFields⟩ :=
    (hrecord.ok_iff _).mpr ⟨rfl, fun _ _ => not_false, by decide⟩
  refine ⟨(hunion.error_iff _).mpr ⟨2, _, rfl, Example.isLeast_repeatedBranches, rfl⟩,
    (htake.ok_iff _).mpr ⟨rfl, by decide, by decide⟩, hmade, (hindex _ hmade _ _).mpr rfl, hcard,
    (hfind _ hcard _ _).mpr ⟨?_, rfl⟩⟩
  exact List.mem_cons_of_mem _ List.mem_cons_self

end Avro
