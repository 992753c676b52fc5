/-
# Branches: the branch of a union that a datum goes to

A union asks its branches in turn and takes the first that accepts.  It asks each of them with the
defaults of the whole union at hand, and what a branch has found wrong is dropped when the next one
is asked; a branch by itself has its own defaults and no others, and starts anew.  The verdict is
the same for both, so a union is decided by its branches one by one.

* `acceptingBranch?_eq_findIdx?`: the branch that is taken is the first that the datum is valid for.
* `validate_union_eq`: a union that takes none rejects at its own place, and lists its branches.
* `acceptingBranch?_append`: branches that come after the others are asked last.
* `acceptingBranch?_iff_isValid`: all of this, for any registry and datum.
-/
import Mathlib
import Avro.Proofs.Likeness

namespace Avro

/-! ## 1. Asking in turn -/

section Branches

variable {R : Registry} {branches : List Schema} {d : Datum}

/-- Where each branch comes to what it comes to by itself, so does the search. -/
theorem firstAccepting?_eq_findIdx? {stands : String → Field → Bool}
    (h : ∀ b ∈ branches, check R stands d b = validate R b d) :
    firstAccepting? R stands d branches = branches.findIdx? (fun b => isValid R b d) := by
  induction branches with
  | nil => rw [firstAccepting?, List.findIdx?_nil]
  | cons b branches ih =>
    obtain ⟨hb, hbranches⟩ := List.forall_mem_cons.mp h
    rw [firstAccepting?, List.findIdx?_cons, hb, ih hbranches, isValid]

/-- The other branches of a union have defaults that a branch does not ask for. -/
theorem check_branch {b : Schema} (hb : b ∈ branches) :
    check R (defaultStands R ((Schema.union branches).slots ++ R.slots)) d b = validate R b d := by
  refine check_eq_validate (fun σ hσ => ?_) d
  rcases List.mem_append.mp hσ with hσ | hσ
  · exact List.mem_append_left _ (Schema.mem_slots_of_child hb hσ)
  · exact List.mem_append_right _ hσ

end Branches

/-- **The branch that is taken** is the first that the datum is valid for by itself. -/
theorem acceptingBranch?_eq_findIdx? (R : Registry) (branches : List Schema) (d : Datum) :
    acceptingBranch? R branches d = branches.findIdx? (fun b => isValid R b d) :=
  firstAccepting?_eq_findIdx? fun _ hb => check_branch hb

/-! ## 2. The union -/

/-- A union that takes no branch rejects at its own place. -/
theorem validate_union_eq (R : Registry) (branches : List Schema) (d : Datum) :
    validate R (.union branches) d =
      if (acceptingBranch? R branches d).isSome then .ok ()
      else .error ⟨.noMatchingBranch (branches.map Schema.label), [], ["union"]⟩ := by
  rw [validate, check, ← acceptingBranch?]
  split
  · rfl
  · rfl

/-- Branches that come after the others are asked last. -/
theorem acceptingBranch?_append (R : Registry) (branches more : List Schema) (d : Datum) :
    acceptingBranch? R (branches ++ more) d =
      (acceptingBranch? R branches d).or
        ((acceptingBranch? R more d).map (· + branches.length)) := by
  simp only [acceptingBranch?_eq_findIdx?, List.findIdx?_append]

/-- **A union goes by its branches, in order.**  The branch that is taken is the first that the
datum is valid for, and none is taken if it is valid for none.  The datum conforms to the union
exactly if a branch is taken; else the union rejects it at the root of the datum, and lists all its
branches.  Branches added at the end do not change which one is taken.  None of this asks for the
rules of a union. -/
theorem acceptingBranch?_iff_isValid (R : Registry) (branches : List Schema) (d : Datum) :
    (∀ i, acceptingBranch? R branches d = some i ↔
      ∃ h : i < branches.length, isValid R branches[i] d = true ∧
        ∀ j (hj : j < i), isValid R branches[j] d = false) ∧
    (acceptingBranch? R branches d = none ↔ ∀ b ∈ branches, isValid R b d = false) ∧
    (validate R (.union branches) d = .ok () ↔ ∃ i, acceptingBranch? R branches d = some i) ∧
    (acceptingBranch? R branches d = none ↔
      validate R (.union branches) d =
        .error ⟨.noMatchingBranch (branches.map Schema.label), [], ["union"]⟩) ∧
    ∀ more i, acceptingBranch? R branches d = some i →
      acceptingBranch? R (branches ++ more) d = some i := by
  refine ⟨fun i => ?taken, ?none, ?conforms, ?rejects, fun more i h => ?append⟩
  case taken =>
    rw [acceptingBranch?_eq_findIdx?, List.findIdx?_eq_some_iff_getElem]
    simp only [Bool.not_eq_true]
  case none => rw [acceptingBranch?_eq_findIdx?, List.findIdx?_eq_none_iff]
  case conforms =>
    rw [validate_union_eq, ← Option.isSome_iff_exists]
    split
    · next h => exact iff_of_true rfl h
    · next h => exact iff_of_false nofun h
  case rejects =>
    rw [validate_union_eq]
    cases acceptingBranch? R branches d with
    | none => exact iff_of_true rfl rfl
    | some i => exact iff_of_false nofun nofun
  case append => rw [acceptingBranch?_append, h, Option.some_or]

namespace Example

/-- A registry with a record whose one default leads back to itself and nowhere else. -/
def loops : Registry :=
  Registry.empty.define loop

def loopOrMap : List Schema :=
  [.reference "Loop" .record, .map (.primitive .null)]

end Example

/-- The first branch follows its default round in a circle and refuses the empty map, which leaves
no trace for the second one. -/
theorem acceptingBranch?_iff_isValid_loop :
    acceptingBranch? Example.loops Example.loopOrMap (.map []) = some 1 ∧
    acceptingBranch? Example.loops (Example.loopOrMap ++ [.map (.primitive .int)]) (.map []) =
      some 1 ∧
    validate Example.loops (.union Example.loopOrMap) (.int 1) =
      .error ⟨.noMatchingBranch ["Loop", "map"], [], ["union"]⟩ := by
  obtain ⟨htaken, -, -, -, happend⟩ :=
    acceptingBranch?_iff_isValid Example.loops Example.loopOrMap (.map [])
  obtain ⟨-, hnone, -, hrejects, -⟩ :=
    acceptingBranch?_iff_isValid Example.loops Example.loopOrMap (.int 1)
  have hsecond : acceptingBranch? Example.loops Example.loopOrMap (.map []) = some 1 := by
    refine (htaken 1).mpr ⟨by decide, by cbv, fun j hj => ?_⟩
    obtain rfl : j = 0 := by omega
    cbv
  refine ⟨hsecond, happend [.map (.primitive .int)] 1 hsecond, hrejects.mp (hnone.mpr ?_)⟩
  simp only [Example.loopOrMap, List.forall_mem_cons]
  exact ⟨by cbv, by cbv, List.forall_mem_nil _⟩

end Avro
