/-
# Rules: what is read obeys the rules of the constructors

A reading puts its schema together by the functions of `Avro.Schema.Build`, which check the rules
for the fields of a record, the symbols of an enum and the branches of a union.  So every schema in
the tree obeys them (`readerAt_lawful`).  A request is made at the root only, and stands in no tree.

* `firstFault?_eq_none_iff_nodup`: what a rule comes to for a whole list, if items are to have keys
  of their own; `Field.firstFault?_eq_none_iff`, `Definition.firstFault?_symbolFault_eq_none_iff`
  and `Schema.firstFault?_branchFault_eq_none_iff` are the three rules.
* `Schema.Lawful.nodup_fields`: the fields of a definition that is read have distinct names.
-/
import Avro.Proofs.References

namespace Avro

/-! ## 1. Items without a fault -/

/-- Items have no fault, one after the other, if each is sound by itself and is related to all items
before it. -/
theorem firstFault?_eq_none_iff_pairwise {α ε : Type} {fault : List α → α → Option ε}
    {sound : α → Prop} {r : α → α → Prop}
    (hfault : ∀ before x, fault before x = none ↔ sound x ∧ ∀ y ∈ before, r y x)
    {before items : List α} :
    firstFault? fault before items = none ↔
      (∀ x ∈ items, sound x ∧ ∀ y ∈ before, r y x) ∧ items.Pairwise r := by
  induction items generalizing before with
  | nil => simp [firstFault?]
  | cons item items ih =>
    have hstep : firstFault? fault before (item :: items) = none ↔
        fault before item = none ∧ firstFault? fault (before ++ [item]) items = none := by
      rw [firstFault?]
      split
      · next hitem => simp [hitem]
      · next hitem => simp [hitem]
    rw [hstep, hfault, ih, List.forall_mem_cons, List.pairwise_cons]
    simp only [List.forall_mem_append, List.forall_mem_singleton]
    constructor
    · rintro ⟨hitem, hitems, hpairwise⟩
      exact ⟨⟨hitem, fun x hx => ⟨(hitems x hx).1, (hitems x hx).2.1⟩⟩,
        fun x hx => (hitems x hx).2.2, hpairwise⟩
    · rintro ⟨⟨hitem, hitems⟩, hrelated, hpairwise⟩
      exact ⟨hitem, fun x hx => ⟨(hitems x hx).1, (hitems x hx).2, hrelated x hx⟩, hpairwise⟩

/-- Items that are to have keys of their own have no fault if each is sound by itself and no key is
there twice. -/
theorem firstFault?_eq_none_iff_nodup {α κ ε : Type} {fault : List α → α → Option ε}
    {sound : α → Prop} {key : α → κ}
    (hfault : ∀ before x, fault before x = none ↔ sound x ∧ key x ∉ before.map key)
    {items : List α} :
    firstFault? fault [] items = none ↔ (∀ x ∈ items, sound x) ∧ (items.map key).Nodup := by
  have hpairwise : ∀ before x, fault before x = none ↔
      sound x ∧ ∀ y ∈ before, key y ≠ key x := fun before x => by
    rw [hfault]
    simp
  rw [firstFault?_eq_none_iff_pairwise hpairwise, List.Nodup, List.pairwise_map]
  simp

theorem Field.fault_eq_none_iff {owner : String} {before : List Field} {f : Field} :
    Field.fault owner before f = none ↔ f.name ∉ before.map Field.name := by
  rw [Field.fault]
  split
  · next h => simp [h]
  · next h => simp [h]

/-- Fields have no fault if their names are distinct. -/
theorem Field.firstFault?_eq_none_iff {owner : String} {fields : List Field} :
    firstFault? (Field.fault owner) [] fields = none ↔ (fields.map Field.name).Nodup := by
  have hfault : ∀ before f, Field.fault owner before f = none ↔
      True ∧ f.name ∉ before.map Field.name := fun before f => by
    rw [Field.fault_eq_none_iff, true_and]
  rw [firstFault?_eq_none_iff_nodup hfault]
  simp

/-- Symbols have no fault if they are distinct identifiers. -/
theorem Definition.firstFault?_symbolFault_eq_none_iff {full : String} {symbols : List String} :
    firstFault? (symbolFault full) [] symbols = none ↔
      (∀ symbol ∈ symbols, isIdentifier symbol = true) ∧ symbols.Nodup := by
  have hfault : ∀ before symbol, symbolFault full before symbol = none ↔
      isIdentifier symbol = true ∧ id symbol ∉ before.map id := fun before symbol => by
    rw [symbolFault]
    cases isIdentifier symbol with
    | false => simp
    | true => simp
  rw [firstFault?_eq_none_iff_nodup hfault, List.map_id]

/-- Branches have no fault if they are no unions and have distinct keys. -/
theorem Schema.firstFault?_branchFault_eq_none_iff {branches : List Schema} :
    firstFault? branchFault [] branches = none ↔
      (∀ b ∈ branches, b.isUnion = false) ∧ (branches.map key).Nodup := by
  have hfault : ∀ before b, branchFault before b = none ↔
      b.isUnion = false ∧ b.key ∉ before.map key := fun before b => by
    rw [branchFault]
    cases b.isUnion with
    | true => simp
    | false => simp
  rw [firstFault?_eq_none_iff_nodup hfault]

/-- What each item of a row establishes of its own result holds of all results. -/
theorem Chain.forall_of_read {α β : Type} {read : α → ReadM β} {P : β → Prop}
    (hread : ∀ a R b R', read a R = .ok (b, R') → P b) {as : List α} {bs : List β}
    {R R' : Registry} (h : Chain read as R bs R') : ∀ b ∈ bs, P b :=
  (h.forall_mem (P := fun _ b => P b) hread fun _ _ _ _ _ _ hc => hc).1

namespace Schema

/-! ## 2. Lawful schemas -/

def isRequest : Schema → Bool
  | request _ => true
  | _ => false

/-- The fault that the constructors find at the root of a tree. -/
def fault? : Schema → Option SchemaError
  | named ⟨name, _, .record _ fields⟩ => firstFault? (Field.fault name.full) [] fields
  | named ⟨name, _, .enum symbols⟩ => firstFault? (Definition.symbolFault name.full) [] symbols
  | union branches => firstFault? branchFault [] branches
  | request fields => firstFault? (Field.fault requestOwner) [] fields
  | _ => none

/-- No schema in the tree breaks a rule, and a request has nothing around it. -/
structure Lawful (s : Schema) : Prop where
  rules : ∀ t ∈ s.nodes, t.fault? = none
  requests : ∀ t ∈ s.nodes, ∀ c ∈ t.children, c.isRequest = false

theorem lawful_of_children {s : Schema} (hroot : s.fault? = none)
    (hchildren : ∀ c ∈ s.children, c.isRequest = false ∧ c.Lawful) : s.Lawful where
  rules := by
    intro t ht
    rcases mem_nodes_iff.mp ht with rfl | ⟨c, hc, ht⟩
    · exact hroot
    · exact (hchildren c hc).2.rules t ht
  requests := by
    intro t ht
    rcases mem_nodes_iff.mp ht with rfl | ⟨c, hc, ht⟩
    · exact fun c hc => (hchildren c hc).1
    · exact (hchildren c hc).2.requests t ht

theorem lawful_of_leaf {s : Schema} (hroot : s.fault? = none) (hleaf : s.children = []) :
    s.Lawful :=
  lawful_of_children hroot (by simp [hleaf])

theorem Lawful.of_mem {s t : Schema} (h : s.Lawful) (ht : t ∈ s.nodes) : t.Lawful where
  rules := fun u hu => h.rules u (mem_nodes_trans ht hu)
  requests := fun u hu => h.requests u (mem_nodes_trans ht hu)

/-- A definition in a lawful schema has fields with distinct names. -/
theorem Lawful.nodup_fields {s : Schema} (h : s.Lawful) {d : Definition}
    (hd : named d ∈ s.nodes) : (d.fields.map Field.name).Nodup := by
  have hrule := h.rules (named d) hd
  obtain ⟨name, doc, body⟩ := d
  cases body with
  | record kind fields => exact Field.firstFault?_eq_none_iff.mp hrule
  | enum symbols => exact List.nodup_nil
  | fixed size => exact List.nodup_nil

/-! ## 3. Readings -/

theorem chain_readField_lawful {read : SchemaReader} {scope : Option String}
    (hread : ∀ scope v R s R', read scope v R = .ok (s, R') → s.isRequest = false ∧ s.Lawful)
    {items : List Json} {fields : List Field} {R R' : Registry}
    (h : Chain (readField read scope) items R fields R') :
    ∀ c ∈ fields.map Field.type, c.isRequest = false ∧ c.Lawful := by
  refine List.forall_mem_map.mpr (h.forall_of_read fun v R f R' hr => ?_)
  obtain ⟨members, rfl, hfield⟩ := readField_eq_ok_iff.mp hr
  obtain ⟨v, -, htype⟩ := hfield.type
  exact hread _ _ _ _ _ htype

/-- **What is read is lawful**, and no request. -/
theorem readerAt_lawful {limit levels : Nat} {scope : Option String} {v : Json} {s : Schema}
    {R R' : Registry} (h : readerAt limit levels scope v R = .ok (s, R')) :
    s.isRequest = false ∧ s.Lawful := by
  refine readerAt_induction (P := fun _ _ _ _ s _ => s.isRequest = false ∧ s.Lawful) ?_ h
  intro levels scope v R s R' ih hreads
  have hreference : ∀ full tag, (reference full tag).isRequest = false ∧
      (reference full tag).Lawful := fun _ _ => ⟨rfl, lawful_of_leaf rfl rfl⟩
  cases hreads with
  | bare => exact ⟨rfl, lawful_of_leaf rfl rfl⟩
  | bareReference _ href =>
    obtain ⟨full, tag, -, -, rfl⟩ := Registry.reference?_eq_some_iff.mp href
    exact hreference full tag
  | union hchain hfault =>
    exact ⟨rfl, lawful_of_children hfault (hchain.forall_of_read (ih scope))⟩
  | wrapped _ _ hs => exact ih _ _ _ _ _ hs
  | reference _ _ href =>
    obtain ⟨full, tag, -, -, rfl⟩ := Registry.reference?_eq_some_iff.mp href
    exact hreference full tag
  | primitive => exact ⟨rfl, lawful_of_leaf rfl rfl⟩
  | array _ _ hs =>
    have hitems := ih _ _ _ _ _ hs
    exact ⟨rfl, lawful_of_children rfl (by simpa [children] using hitems)⟩
  | map _ _ hs =>
    have hvalues := ih _ _ _ _ _ hs
    exact ⟨rfl, lawful_of_children rfl (by simpa [children] using hvalues)⟩
  | leaf _ _ _ hleaf =>
    cases hleaf with
    | enum _ hfault => exact ⟨rfl, lawful_of_leaf hfault rfl⟩
    | fixed => exact ⟨rfl, lawful_of_leaf rfl rfl⟩
  | record _ _ _ _ hchain hfault =>
    exact ⟨rfl, lawful_of_children hfault (chain_readField_lawful ih hchain)⟩

end Schema

/-! ## 4. Sessions -/

theorem Call.read_lawful {call : Call} {R R' : Registry} {s : Schema}
    (h : call.read R = .ok (s, R')) : s.Lawful := by
  rcases Call.read_cases h with ⟨limit, levels, scope, v, hread⟩ |
    ⟨-, limit, scope, items, fields, rfl, hchain, hfault⟩
  · exact (Schema.readerAt_lawful hread).2
  · exact Schema.lawful_of_children hfault
      (Schema.chain_readField_lawful (fun _ _ _ _ _ hr => Schema.readerAt_lawful hr) hchain)

/-- A call gives a request only if it reads a parameter list. -/
theorem Call.read_isRequest {call : Call} {R R' : Registry} {s : Schema}
    (h : call.read R = .ok (s, R')) (hcall : call.isRequest = false) : s.isRequest = false := by
  rcases Call.read_cases h with ⟨limit, levels, scope, v, hread⟩ | ⟨hrequest, -⟩
  · exact (Schema.readerAt_lawful hread).1
  · rw [hcall] at hrequest
    cases hrequest

namespace Session

theorem lawful_run (calls : List Call) : ∀ s ∈ (run calls).schemas, s.Lawful := by
  refine run_induction (P := fun c => ∀ s ∈ c.schemas, s.Lawful) (by simp [start])
    fun c call s R _ hc hread t ht => ?_
  rcases List.mem_append.mp ht with ht | ht
  · exact hc t ht
  · rw [List.mem_singleton.mp ht]
    exact Call.read_lawful hread

theorem isRequest_run {calls : List Call} (hcalls : ∀ call ∈ calls, call.isRequest = false) :
    ∀ s ∈ (run calls).schemas, s.isRequest = false := by
  refine run_induction (P := fun c => ∀ s ∈ c.schemas, s.isRequest = false) (by simp [start])
    fun c call s R hmem hc hread t ht => ?_
  rcases List.mem_append.mp ht with ht | ht
  · exact hc t ht
  · rw [List.mem_singleton.mp ht]
    exact Call.read_isRequest hread (hcalls call hmem)

end Session
end Avro
