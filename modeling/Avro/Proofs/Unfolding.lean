/-
# Unfolding: a reference and its definition are interchangeable

A reference can be replaced by the definition that the registry has for its name, anywhere in a
schema, and again in what has been put in its place.  For a type that leads back to itself there is
no end to that, so the schema may get as large as one likes.

Whatever is replaced, the root that a check looks at is alike, and so the schemas directly below are
unfolded in turn: unfolding is a bisimulation.  Since a definition stands under its own full name, a
branch of a union keeps the key by which it is told apart and listed.

* `Schema.Unfolds`: the schemas that replacing references leads to.
* `Schema.Unfolds.rules`: what is unfolded breaks no rule that was obeyed before.
* `validate_unfolded`: every datum comes to the same result, with both paths.
-/
import Avro.Proofs.Likeness
import Avro.Proofs.Built
import Avro.Proofs.Growth
import Avro.Proofs.Location

namespace Avro

/-! ## 1. Replacing references -/

/-- The second schema is the first one with some of the references replaced by the definitions that
the registry has for them, and with some of those in the definitions replaced, and so on. -/
inductive Schema.Unfolds (R : Registry) : Schema → Schema → Prop
  | alike {s t : Schema} : Alike (Unfolds R) s t → Unfolds R s t
  | kept (full : String) (tag : Tag) : Unfolds R (.reference full tag) (.reference full tag)
  | replaced {full : String} {tag : Tag} {t : Definition} {u : Schema} :
    R.get? full = some t → Unfolds R (.named t) u → Unfolds R (.reference full tag) u

namespace Schema

variable {R : Registry} {s t : Schema}

namespace Unfolds

/-- Replacing nothing is allowed. -/
theorem refl (R : Registry) (s : Schema) : Unfolds R s s := by
  induction s using children_induction with
  | step s ih =>
    cases s with
    | reference full tag => exact .kept full tag
    | _ => exact .alike (alike_self nofun ih)

/-- A reference has been left alone, or else what a check looks at is alike. -/
theorem root (h : Unfolds R s t) :
    (∃ full tag, s = .reference full tag ∧ t = .reference full tag) ∨
      ∃ u, R.behind? s = some u ∧ Alike (Unfolds R) u t := by
  cases h with
  | alike h =>
    refine .inr ⟨s, ?_, h⟩
    cases h <;> rfl
  | kept full tag => exact .inl ⟨full, tag, rfl, rfl⟩
  | @replaced full tag d u hd h =>
    refine .inr ⟨.named d, by rw [Registry.behind?, hd]; rfl, ?_⟩
    cases h with
    | alike h => exact h

/-- A branch is told apart as before. -/
theorem key_eq (hR : R.Reachable) (h : Unfolds R s t) : t.key = s.key := by
  cases h with
  | alike h => exact h.key_eq
  | kept full tag => rfl
  | @replaced full tag d u hd h =>
    obtain rfl : d.full = full := hR.full_eq hd
    cases h with
    | alike h => exact h.key_eq

/-- Unfolding is a bisimulation. -/
theorem bisimulation (hR : R.Reachable) : Bisimulation R R (fun _ => True) (Unfolds R) where
  alike := by
    intro s t u h hu
    rcases h.root with ⟨full, tag, rfl, rfl⟩ | ⟨u', hu', halike⟩
    · -- a reference that has been left alone leads to one and the same definition
      exact ⟨u, hu, alike_self (Registry.ne_reference_of_behind? hu) fun c _ => refl R c,
        fun _ _ => trivial⟩
    · obtain rfl := Option.some.inj (hu'.symm.trans hu)
      exact ⟨t, Registry.behind?_eq_self halike.ne_reference, halike, fun _ _ => trivial⟩
  lost := by
    intro s t h hs
    rcases h.root with ⟨full, tag, rfl, rfl⟩ | ⟨u, hu, -⟩
    · exact hs
    · rw [hs] at hu
      cases hu
  key := fun s t h => h.key_eq hR

end Unfolds

/-! ## 2. Rules -/

theorem isUnion_eq_false_iff : s.isUnion = false ↔ s.key ≠ .unnamed .union := by
  cases s <;> simp [isUnion, key, full?, tag]

/-- Branches have no fault if their keys, in which unions show, are distinct. -/
theorem firstFault?_branchFault_eq_none_iff_keys {branches : List Schema} :
    firstFault? branchFault [] branches = none ↔
      Key.unnamed .union ∉ branches.map key ∧ (branches.map key).Nodup := by
  rw [firstFault?_branchFault_eq_none_iff]
  simp [isUnion_eq_false_iff]

/-- A schema that is alike and keeps the keys of its branches breaks no rule either. -/
theorem Alike.fault?_eq_none {rel : Schema → Schema → Prop} (h : Alike rel s t)
    (hkey : ∀ u v, rel u v → v.key = u.key) (hs : s.fault? = none) : t.fault? = none := by
  have hnames : ∀ {fields fields'}, List.Forall₂ (Field.Alike rel) fields fields' →
      fields'.map Field.name = fields.map Field.name := fun hfields =>
    map_eq_map_of_forall₂ hfields fun _ _ hf => by cases hf; rfl
  cases h with
  | record name doc kind hfields =>
    rw [fault?, Field.firstFault?_eq_none_iff] at hs ⊢
    rwa [hnames hfields]
  | request hfields =>
    rw [fault?, Field.firstFault?_eq_none_iff] at hs ⊢
    rwa [hnames hfields]
  | union hbranches =>
    rw [fault?, firstFault?_branchFault_eq_none_iff_keys] at hs ⊢
    rwa [map_eq_map_of_forall₂ hbranches hkey]
  | _ => exact hs

/-- **What is unfolded breaks no rule**, if neither the schema nor any definition of the registry
does. -/
theorem Unfolds.rules (hR : R.Reachable)
    (hdefinitions : ∀ full d, R.get? full = some d → ∀ u ∈ (named d).nodes, u.fault? = none)
    (h : Unfolds R s t) (hs : ∀ u ∈ s.nodes, u.fault? = none) : ∀ u ∈ t.nodes, u.fault? = none := by
  induction t using children_induction generalizing s with
  | step t ih =>
    rcases h.root with ⟨full, tag, rfl, rfl⟩ | ⟨u, hu, halike⟩
    · exact hs
    · have hrules : ∀ v ∈ u.nodes, v.fault? = none := by
        cases s with
        | reference full tag =>
          obtain ⟨d, hd, rfl⟩ := Option.map_eq_some_iff.mp hu
          exact hdefinitions full d hd
        | _ => cases hu; exact hs
      refine rules_of_children ?_ fun c' hc' => ?_
      · exact halike.fault?_eq_none (fun _ _ h => h.key_eq hR) (hrules u u.mem_nodes_self)
      · obtain ⟨c, hc, hcc'⟩ := exists_of_forall₂ halike.children hc'
        exact ih c' hc' hcc' fun v hv => hrules v (mem_nodes_of_child hc hv)

end Schema

/-! ## 3. Results -/

theorem Registry.Built.reachable {R : Registry} (h : R.Built) : R.Reachable := by
  induction h with
  | empty => exact .empty
  | read _ hread ih => exact .read ih hread
  | declare _ hdeclare ih => exact .declare ih hdeclare
  | register _ _ hregister ih => exact .register ih hregister

/-- **A reference and its definition are interchangeable.**  Take a schema and a registry that have
been made, and replace references in the schema, anywhere and as often as one likes, by the
definitions of the registry.  The unions of the result are accepted by their constructor, and every
datum comes to the same result as before: it conforms, or else the violation is the same, with the
branches that it lists, and both paths to it are. -/
theorem validate_unfolded {R : Registry} (hR : R.Built) {s t : Schema} (hs : s.Built)
    (h : s.Unfolds R t) :
    (∀ branches, .union branches ∈ t.nodes →
      Schema.unionOf branches = .ok (.union branches)) ∧
    ∀ d, validate R t d = validate R s d := by
  have hrules : ∀ u ∈ t.nodes, u.fault? = none :=
    h.rules hR.reachable (fun _ _ hd => hR.rules hd) hs.rules
  refine ⟨fun branches hmem => Schema.unionOf_eq_ok_iff.mpr ⟨hrules _ hmem, rfl⟩, fun d => ?_⟩
  -- the slots of both schemas are put at hand
  let available := s.slots ++ t.slots ++ R.slots
  have hleft : check R (defaultStands R available) d s = validate R s d :=
    check_eq_validate (fun σ hσ => by simp only [available, List.mem_append] at hσ ⊢; tauto) d
  have hright : check R (defaultStands R available) d t = validate R t d :=
    check_eq_validate (fun σ hσ => by simp only [available, List.mem_append] at hσ ⊢; tauto) d
  rw [← hleft, ← hright]
  exact ((Schema.Unfolds.bisimulation hR.reachable).check_eq (fun _ _ => Iff.rfl) h d).symm

namespace Example

def optionalFolder : Schema :=
  .union [.reference "Folder" .record, .primitive .null]

/-- The folder in full, and the folders inside it in full, too. -/
def unfoldedFolder : Definition :=
  ⟨folder.name, none, .record .record [
    ⟨"size", .primitive .int, none, none, none⟩,
    ⟨"folders", .array (.named folder), none, none, none⟩]⟩

def optionalUnfoldedFolder : Schema :=
  .union [.named unfoldedFolder, .primitive .null]

theorem unfolds_folder :
    Schema.Unfolds folderDocument.registry (.reference "Folder" .record)
      (.named unfoldedFolder) := by
  have hfolder : folderDocument.registry.get? "Folder" = some folder := by rfl
  have hinner : Schema.Unfolds folderDocument.registry (.array (.reference "Folder" .record))
      (.array (.named folder)) :=
    .alike (.array (.replaced hfolder (.refl _ _)))
  exact .replaced hfolder (.alike (.record _ none .record
    (.cons (.mk "size" none none none (.refl _ _))
      (.cons (.mk "folders" none none none hinner) .nil))))

end Example

/-- A union of a folder and `null`, with the folder and the folders inside written out: the branches
are listed by the same names, and the size that is too large is what rules the folder out. -/
theorem validate_unfolded_folder :
    Schema.unionOf [.named Example.unfoldedFolder, .primitive .null] =
      .ok Example.optionalUnfoldedFolder ∧
    validate Example.folderDocument.registry Example.optionalUnfoldedFolder Example.oversizedDatum =
      .error ⟨.noMatchingBranch ["Folder", "null"], [], ["union"]⟩ ∧
    validate Example.folderDocument.registry (.named Example.unfoldedFolder)
      Example.oversizedDatum = .error Example.oversizedRejection := by
  have hR : Example.folderDocument.registry.Built :=
    .read .empty (Document.read_of_ofText Example.ofText_folderText)
  have hbranches : ∀ b ∈ [Schema.reference "Folder" .record, .primitive .null], b.Built := by
    simp [Schema.Built.reference, Schema.Built.primitive]
  have hunion : Example.optionalFolder.Built := .union hbranches (by rfl)
  have hunfolds : Example.optionalFolder.Unfolds Example.folderDocument.registry
      Example.optionalUnfoldedFolder :=
    .alike (.union (.cons Example.unfolds_folder (.cons (.refl _ _) .nil)))
  obtain ⟨haccepted, hresults⟩ := validate_unfolded hR hunion hunfolds
  obtain ⟨-, hresults'⟩ := validate_unfolded hR (.reference "Folder" .record) Example.unfolds_folder
  refine ⟨haccepted _ (Schema.mem_nodes_self _), ?_, ?_⟩
  · rw [hresults]
    cbv
  · rw [hresults']
    cbv

end Avro
