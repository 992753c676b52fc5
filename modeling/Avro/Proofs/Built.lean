/-
# Built: the schemas and registries that this library makes

Schemas come from documents, and from the constructors of `Avro.Schema.Build`; registries come from
the operations on them, into which only such schemas go.  The constructors check their rules one
schema at a time, so each schema in a tree obeys them, wherever the tree came from.

* `Schema.Built`, `Registry.Built`: what can be made.
* `Schema.Built.rules`, `Registry.Built.rules`: nothing that is made breaks a rule anywhere.
* `Schema.Spelled`: the fields have identifiers for names, which is checked when a field is made and
  not with its record (`Schema.Built.spelled`).
* `Schema.Regular`: both of these.
-/
import Avro.Proofs.Rules

namespace Avro

/-! ## 1. What can be made -/

/-- The schemas that can be made.  A document may have been read with any registry. -/
inductive Schema.Built : Schema → Prop
  | read {call : Call} {R R' : Registry} {s : Schema} : call.read R = .ok (s, R') → Built s
  /-- A schema directly below one that has been made can be taken out of it. -/
  | part {s c : Schema} : Built s → c ∈ s.children → Built c
  | primitive (p : Primitive) : Built (.primitive p)
  | reference (full : String) (tag : Tag) : Built (.reference full tag)
  | array {items : Schema} : Built items → Built (.array items)
  | map {values : Schema} : Built values → Built (.map values)
  | union {branches : List Schema} {s : Schema} :
    (∀ b ∈ branches, Built b) → Schema.unionOf branches = .ok s → Built s
  | request {fields : List Field} {s : Schema} :
    (∀ f ∈ fields, isIdentifier f.name = true) → (∀ f ∈ fields, Built f.type) →
    Schema.requestOf fields = .ok s → Built s
  | record {name : Name} {doc : Option String} {kind : RecordKind} {fields : List Field}
      {t : Definition} :
    (∀ f ∈ fields, isIdentifier f.name = true) → (∀ f ∈ fields, Built f.type) →
    Definition.recordOf name doc kind fields = .ok t → Built (.named t)
  | enum {name : Name} {doc : Option String} {symbols : List String} {t : Definition} :
    Definition.enumOf name doc symbols = .ok t → Built (.named t)
  | fixed (name : Name) (doc : Option String) (size : UInt64) :
    Built (.named (Definition.fixedOf name doc size))

/-- The registries that can be made.  A name may have been taken and never completed, and a schema
that is registered may refer to names that are not there. -/
inductive Registry.Built : Registry → Prop
  | empty : Built .empty
  | read {R R' : Registry} {call : Call} {s : Schema} :
    Built R → call.read R = .ok (s, R') → Built R'
  | declare {R R' : Registry} {name : Name} {tag : Tag} :
    Built R → R.declare name tag = .ok R' → Built R'
  | register {R R' : Registry} {s : Schema} :
    Built R → s.Built → R.register s = .ok R' → Built R'

/-! ## 2. Rules -/

namespace Schema

/-- A tree breaks no rule if its root breaks none and the trees directly below break none. -/
theorem rules_of_children {s : Schema} (hroot : s.fault? = none)
    (hchildren : ∀ c ∈ s.children, ∀ t ∈ c.nodes, t.fault? = none) :
    ∀ t ∈ s.nodes, t.fault? = none := by
  intro t ht
  rcases mem_nodes_iff.mp ht with rfl | ⟨c, hc, ht⟩
  · exact hroot
  · exact hchildren c hc t ht

/-- **No schema in a tree that has been made breaks a rule.** -/
theorem Built.rules {s : Schema} (h : s.Built) : ∀ t ∈ s.nodes, t.fault? = none := by
  induction h with
  | read hread => exact (Call.read_lawful hread).rules
  | part _ hc ih => exact fun t ht => ih t (mem_nodes_of_child hc ht)
  | primitive p => exact rules_of_children rfl (by simp [children])
  | reference full tag => exact rules_of_children rfl (by simp [children])
  | array _ ih => exact rules_of_children rfl (by simpa [children] using ih)
  | map _ ih => exact rules_of_children rfl (by simpa [children] using ih)
  | union _ hmake ih =>
    obtain ⟨hfault, rfl⟩ := unionOf_eq_ok_iff.mp hmake
    exact rules_of_children hfault ih
  | request _ _ hmake ih =>
    obtain ⟨hfault, rfl⟩ := orFault_eq_ok_iff.mp hmake
    exact rules_of_children hfault (List.forall_mem_map.mpr ih)
  | record _ _ hmake ih =>
    obtain ⟨hfault, rfl⟩ := orFault_eq_ok_iff.mp hmake
    exact rules_of_children hfault (List.forall_mem_map.mpr ih)
  | enum hmake =>
    obtain ⟨hfault, rfl⟩ := orFault_eq_ok_iff.mp hmake
    exact rules_of_children hfault (by simp [children, Definition.fields, Body.fields])
  | fixed name doc size =>
    exact rules_of_children rfl
      (by simp [children, Definition.fixedOf, Definition.fields, Body.fields])

end Schema

namespace Registry

/-- A definition that a put has brought in is the one put, and any other was there before. -/
theorem get?_put {R : Registry} {full full' : String} {e : Entry} :
    (R.put full e).get? full' = if full' = full then e.definition? else R.get? full' := by
  rw [get?, find?_put, get?]
  split <;> rfl

/-- **No definition of a registry that has been made breaks a rule.** -/
theorem Built.rules {R : Registry} (h : R.Built) {full : String} {t : Definition}
    (ht : R.get? full = some t) : ∀ u ∈ (Schema.named t).nodes, u.fault? = none := by
  induction h generalizing full t with
  | empty => cases ht
  | @read R R' call s _ hread ih =>
    have hadds : R.Adds s.definitions R' := Call.read_adds hread
    by_cases hnew : full ∈ s.definitions.map Definition.full
    · obtain ⟨d, hd, rfl⟩ := List.mem_map.mp hnew
      rw [get?_eq_some_iff, hadds.defined d hd] at ht
      cases ht
      exact ((Call.read_lawful hread).of_mem (Schema.mem_definitions_iff.mp hd)).rules
    · rw [get?, hadds.kept full hnew] at ht
      exact ih ht
  | declare _ hdeclare ih =>
    obtain ⟨-, rfl⟩ := declare_eq_ok_iff.mp hdeclare
    rw [get?_put] at ht
    split at ht
    · cases ht
    · exact ih ht
  | register _ hs hregister ih =>
    obtain ⟨d, rfl, -, rfl⟩ := register_eq_ok_iff.mp hregister
    rw [define, get?_put] at ht
    split at ht
    · cases ht
      exact hs.rules
    · next hne =>
      rw [get?_put, if_neg hne] at ht
      exact ih ht

end Registry

/-! ## 3. Names of fields -/

namespace Schema

/-- The fields of the definitions in a tree have identifiers for names. -/
def Spelled (s : Schema) : Prop :=
  ∀ t, .named t ∈ s.nodes → ∀ f ∈ t.fields, isIdentifier f.name = true

theorem spelled_of_children {s : Schema}
    (hroot : ∀ t, s = .named t → ∀ f ∈ t.fields, isIdentifier f.name = true)
    (hchildren : ∀ c ∈ s.children, c.Spelled) : s.Spelled := by
  intro t ht
  rcases mem_nodes_iff.mp ht with heq | ⟨c, hc, ht⟩
  · exact hroot t heq.symm
  · exact hchildren c hc t ht

/-- The fields of a row that is read have identifiers for names, and so do those in their types. -/
theorem chain_readField_spelled {read : SchemaReader} {scope : Option String}
    (hread : ∀ scope v R s R', read scope v R = .ok (s, R') → s.Spelled)
    {items : List Json} {fields : List Field} {R R' : Registry}
    (h : Chain (readField read scope) items R fields R') :
    ∀ f ∈ fields, isIdentifier f.name = true ∧ f.type.Spelled := by
  refine h.forall_of_read fun v R f R' hr => ?_
  obtain ⟨members, rfl, hfield⟩ := readField_eq_ok_iff.mp hr
  obtain ⟨v, -, htype⟩ := hfield.type
  exact ⟨hfield.identifier, hread _ _ _ _ _ htype⟩

/-- **What is read is spelled in identifiers.** -/
theorem readerAt_spelled {limit levels : Nat} {scope : Option String} {v : Json} {s : Schema}
    {R R' : Registry} (h : readerAt limit levels scope v R = .ok (s, R')) : s.Spelled := by
  refine readerAt_induction (P := fun _ _ _ _ s _ => s.Spelled) ?_ h
  intro levels scope v R s R' ih hreads
  cases hreads with
  | bare => exact spelled_of_children (by simp) (by simp [children])
  | bareReference _ href =>
    obtain ⟨full, tag, -, -, rfl⟩ := Registry.reference?_eq_some_iff.mp href
    exact spelled_of_children (by simp) (by simp [children])
  | union hchain => exact spelled_of_children (by simp) (hchain.forall_of_read (ih scope))
  | wrapped _ _ hs => exact ih _ _ _ _ _ hs
  | reference _ _ href =>
    obtain ⟨full, tag, -, -, rfl⟩ := Registry.reference?_eq_some_iff.mp href
    exact spelled_of_children (by simp) (by simp [children])
  | primitive => exact spelled_of_children (by simp) (by simp [children])
  | array _ _ hs =>
    have hitems := ih _ _ _ _ _ hs
    exact spelled_of_children (by simp) (by simpa [children] using hitems)
  | map _ _ hs =>
    have hvalues := ih _ _ _ _ _ hs
    exact spelled_of_children (by simp) (by simpa [children] using hvalues)
  | leaf _ _ _ hleaf =>
    refine spelled_of_children ?_ ?_ <;> cases hleaf <;>
      simp [children, Definition.fields, Body.fields]
  | record _ _ _ _ hchain =>
    have hfields := chain_readField_spelled ih hchain
    refine spelled_of_children ?_ (List.forall_mem_map.mpr fun f hf => (hfields f hf).2)
    rintro _ ⟨⟩ f hf
    exact (hfields f hf).1

theorem Built.spelled {s : Schema} (h : s.Built) : s.Spelled := by
  induction h with
  | read hread =>
    rcases Call.read_cases hread with ⟨limit, levels, scope, v, hread⟩ |
      ⟨-, limit, scope, items, fields, rfl, hchain, -⟩
    · exact readerAt_spelled hread
    · have hfields := chain_readField_spelled (fun _ _ _ _ _ hr => readerAt_spelled hr) hchain
      exact spelled_of_children (by simp) (List.forall_mem_map.mpr fun f hf => (hfields f hf).2)
  | part _ hc ih => exact fun t ht => ih t (mem_nodes_of_child hc ht)
  | primitive p => exact spelled_of_children (by simp) (by simp [children])
  | reference full tag => exact spelled_of_children (by simp) (by simp [children])
  | array _ ih => exact spelled_of_children (by simp) (by simpa [children] using ih)
  | map _ ih => exact spelled_of_children (by simp) (by simpa [children] using ih)
  | union _ hmake ih =>
    obtain ⟨-, rfl⟩ := unionOf_eq_ok_iff.mp hmake
    exact spelled_of_children (by simp) ih
  | request _ _ hmake ih =>
    obtain ⟨-, rfl⟩ := orFault_eq_ok_iff.mp hmake
    exact spelled_of_children (by simp) (List.forall_mem_map.mpr ih)
  | record hnames _ hmake ih =>
    obtain ⟨-, rfl⟩ := orFault_eq_ok_iff.mp hmake
    refine spelled_of_children ?_ (List.forall_mem_map.mpr ih)
    rintro _ ⟨⟩
    exact hnames
  | enum hmake =>
    obtain ⟨-, rfl⟩ := orFault_eq_ok_iff.mp hmake
    refine spelled_of_children ?_ ?_ <;> simp [children, Definition.fields, Body.fields]
  | fixed name doc size =>
    refine spelled_of_children ?_ ?_ <;>
      simp [children, Definition.fixedOf, Definition.fields, Body.fields]

/-- A record is made of fields with distinct identifiers for names. -/
theorem Built.of_fields {name : Name} {doc : Option String} {kind : RecordKind}
    {fields : List Field} (hnames : ∀ f ∈ fields, isIdentifier f.name = true)
    (htypes : ∀ f ∈ fields, f.type.Built) (hdistinct : (fields.map Field.name).Nodup) :
    (named ⟨name, doc, .record kind fields⟩).Built :=
  .record hnames htypes (orFault_eq_ok_iff.mpr ⟨Field.firstFault?_eq_none_iff.mpr hdistinct, rfl⟩)

/-- What the constructors see to, anywhere in a tree. -/
structure Regular (s : Schema) : Prop where
  rules : ∀ t ∈ s.nodes, t.fault? = none
  spelled : s.Spelled

theorem Built.regular {s : Schema} (h : s.Built) : s.Regular :=
  ⟨h.rules, h.spelled⟩

theorem Regular.of_child {s c : Schema} (h : s.Regular) (hc : c ∈ s.children) : c.Regular where
  rules := fun t ht => h.rules t (mem_nodes_of_child hc ht)
  spelled := fun t ht => h.spelled t (mem_nodes_of_child hc ht)

end Schema

end Avro
