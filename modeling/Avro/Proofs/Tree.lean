/-
# Tree: what stands in a schema

`Schema.nodes` lists every schema in a tree.  This module relates it to the shape of the tree: which
definitions stand in it (`definitions_eq` and a case for each shape with parts), and that the nodes
of a node are nodes of the whole (`mem_nodes_trans`).
-/
import Avro.Schema.Basic

namespace Avro

/-- The greatest of some numbers is at most a bound if all of them are. -/
theorem foldr_max_le_iff {ns : List Nat} {bound : Nat} :
    ns.foldr max 0 ≤ bound ↔ ∀ n ∈ ns, n ≤ bound := by
  induction ns with
  | nil => simp
  | cons n ns ih => rw [List.foldr_cons, Nat.max_le, ih, List.forall_mem_cons]

namespace Schema

/-! ## 1. Nodes -/

theorem mem_nodes_iff {s t : Schema} : t ∈ s.nodes ↔ t = s ∨ ∃ c ∈ s.children, t ∈ c.nodes := by
  rw [nodes_eq_cons, List.mem_cons, List.mem_flatMap]

/-- Induction from all the schemas directly below, whatever the shape. -/
theorem children_induction {P : Schema → Prop} (step : ∀ s, (∀ c ∈ s.children, P c) → P s)
    (s : Schema) : P s := by
  induction s with
  | primitive p => exact step _ (by simp [children])
  | record name doc kind fields ih =>
    exact step _ (by simpa [children, Definition.fields, Body.fields] using ih)
  | enum name doc symbols => exact step _ (by simp [children, Definition.fields, Body.fields])
  | fixed name doc size => exact step _ (by simp [children, Definition.fields, Body.fields])
  | array items ih => exact step _ (by simpa [children] using ih)
  | map values ih => exact step _ (by simpa [children] using ih)
  | union branches ih => exact step _ ih
  | request fields ih => exact step _ (by simpa [children] using ih)
  | reference full tag => exact step _ (by simp [children])

/-- What stands in a part of a tree stands in the tree. -/
theorem mem_nodes_trans {s t u : Schema} (ht : t ∈ s.nodes) (hu : u ∈ t.nodes) : u ∈ s.nodes := by
  induction s using children_induction with
  | step s ih =>
    rcases mem_nodes_iff.mp ht with rfl | ⟨c, hc, ht⟩
    · exact hu
    · exact mem_nodes_of_child hc (ih c hc ht)

/-! ## 2. Definitions -/

/-- The definition that stands at the root of a tree, if one does. -/
def root? : Schema → Option Definition
  | named d => some d
  | _ => none

theorem mem_definitions_iff {s : Schema} {d : Definition} :
    d ∈ s.definitions ↔ named d ∈ s.nodes := by
  rw [definitions, List.mem_filterMap]
  constructor
  · rintro ⟨t, ht, hd⟩
    split at hd
    · cases hd
      exact ht
    · cases hd
  · exact fun h => ⟨named d, h, rfl⟩

theorem definitions_eq (s : Schema) :
    s.definitions = s.root?.toList ++ s.children.flatMap definitions := by
  rw [definitions, nodes_eq_cons, List.filterMap_cons, List.filterMap_flatMap]
  cases s <;> rfl

theorem definitions_named (d : Definition) :
    (named d).definitions = d :: d.fields.flatMap (fun f => f.type.definitions) := by
  simp [definitions_eq (named d), root?, children, List.flatMap_map]

theorem definitions_request (fields : List Field) :
    (request fields).definitions = fields.flatMap (fun f => f.type.definitions) := by
  simp [definitions_eq (request fields), root?, children, List.flatMap_map]

theorem definitions_union (branches : List Schema) :
    (union branches).definitions = branches.flatMap definitions := by
  simp [definitions_eq (union branches), root?, children]

theorem definitions_array (items : Schema) : (array items).definitions = items.definitions := by
  simp [definitions_eq (array items), root?, children]

theorem definitions_map (values : Schema) : (map values).definitions = values.definitions := by
  simp [definitions_eq (map values), root?, children]

end Schema
end Avro
