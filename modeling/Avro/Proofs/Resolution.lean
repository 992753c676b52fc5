/-
# Resolution: which names a definition can have

A definition states a text, and maybe a namespace; another one may be in scope.  What these come to
is one full name, and the definition is refused if that is not well formed.  The full name is put
together before it is looked at, so a dot may come from any of the three.

* `IsWord`: identifiers, by the characters that may stand in them.
* `stated`, `statedParts`: the full name that is meant, and the parts it is put together from.
* `Name.parts_eq_statedParts`: a full name comes apart again where it was put together.
* `Name.exists_resolve_iff`: which texts are given a name, and what its parts are; a name is known
  by its full text, and its parts or its full text give it back.
-/
import Mathlib
import Avro.Proofs.Names

namespace Avro

/-! ## 1. Components -/

/-- The ASCII letters and the underscore. -/
def IsWordStart (c : Char) : Prop :=
  ('A' ≤ c ∧ c ≤ 'Z') ∨ ('a' ≤ c ∧ c ≤ 'z') ∨ c = '_'

/-- A letter or an underscore, and after it only letters, underscores and decimal digits. -/
inductive IsWord : List Char → Prop
  | start {c : Char} {rest : List Char} : IsWordStart c →
    (∀ d ∈ rest, IsWordStart d ∨ ('0' ≤ d ∧ d ≤ '9')) → IsWord (c :: rest)

theorem isIdentifierStart_iff {c : Char} : isIdentifierStart c = true ↔ IsWordStart c := by
  simp only [isIdentifierStart, IsWordStart, Char.isAlpha, Char.isUpper, Char.isLower,
    Bool.or_eq_true, Bool.and_eq_true, decide_eq_true_eq, or_assoc]
  rfl

theorem isIdentifierPart_iff {c : Char} :
    isIdentifierPart c = true ↔ IsWordStart c ∨ ('0' ≤ c ∧ c ≤ '9') := by
  have hdigit : c.isDigit = true ↔ '0' ≤ c ∧ c ≤ '9' := by
    simp only [Char.isDigit, Bool.and_eq_true, decide_eq_true_eq]
    rfl
  rw [← isIdentifierStart_iff, ← hdigit]
  simp only [isIdentifierPart, isIdentifierStart, Char.isAlphanum, Bool.or_eq_true]
  rw [or_right_comm]

/-- What passes for an identifier is a word. -/
theorem isIdentifierChars_iff {cs : List Char} : isIdentifierChars cs = true ↔ IsWord cs := by
  cases cs with
  | nil => exact iff_of_false Bool.false_ne_true nofun
  | cons c rest =>
    simp only [isIdentifierChars, Bool.and_eq_true, List.all_eq_true, isIdentifierStart_iff,
      isIdentifierPart_iff]
    constructor
    · rintro ⟨hstart, hrest⟩
      exact .start hstart hrest
    · rintro ⟨hstart, hrest⟩
      exact ⟨hstart, hrest⟩

theorem splitAtDots_eq_splitOn (cs : List Char) : splitAtDots cs = cs.splitOn '.' := by
  induction cs with
  | nil => rfl
  | cons c cs ih =>
    rw [splitAtDots, List.splitOn_cons_eq_if_modifyHead, ih]
    simp only [beq_iff_eq]
    split
    · rfl
    · cases h : cs.splitOn '.' with
      | nil => exact absurd h (List.splitOn_ne_nil '.' cs)
      | cons first rest => rfl

/-- A text is a full name if what stands between its dots are words and it is not the name of a
primitive type. -/
theorem nameFault?_eq_none_iff_words {full : String} :
    nameFault? full = none ↔
      (∀ cs ∈ full.toList.splitOn '.', IsWord cs) ∧ ∀ p : Primitive, full ≠ p.name := by
  rw [nameFault?_eq_none_iff, splitAtDots_eq_splitOn]
  refine and_congr (forall₂_congr fun cs _ => isIdentifierChars_iff) ?_
  rw [Option.eq_none_iff_forall_ne_some]
  exact forall_congr' fun p => not_congr (Primitive.ofName?_eq_some_iff.trans eq_comm)

/-! ## 2. The name that is meant -/

/-- The first of two namespaces that is given and not empty. -/
def firstNamespace (space scope : Option String) : Option String :=
  (space.toList ++ scope.toList).find? (fun s => s ≠ "")

/-- The full name that a text stands for.  A text with a dot is full already, and any other is
completed by a namespace if there is one. -/
def stated (text : String) (space scope : Option String) : String :=
  if '.' ∈ text.toList then text
  else match firstNamespace space scope with
    | some s => s ++ "." ++ text
    | none => text

/-- The simple name and the namespace that are meant.  A text with a dot says both itself. -/
def statedParts (text : String) (space scope : Option String) : String × Option String :=
  match splitAtLastDot? text.toList with
  | some (before, after) => (.ofList after, some (.ofList before))
  | none => (text, firstNamespace space scope)

namespace Name

theorem find?_toList_eq_present (space : Option String) :
    space.toList.find? (fun s => s ≠ "") = present space := by
  cases space with
  | none => rfl
  | some s =>
    rw [Option.toList_some, List.find?_singleton]
    rfl

theorem firstNamespace_eq (space scope : Option String) :
    firstNamespace space scope = (present space).or (present scope) := by
  rw [firstNamespace, List.find?_append, find?_toList_eq_present, find?_toList_eq_present]

theorem stated_eq_qualify (text : String) (space scope : Option String) :
    stated text space scope = qualify text ((present space).or scope) := by
  have hpresent : present ((present space).or scope) = firstNamespace space scope := by
    rw [firstNamespace_eq]
    cases h : present space with
    | none => rfl
    | some s =>
      obtain ⟨rfl, hne⟩ := present_eq_some_iff.mp h
      exact present_eq_some_iff.mpr ⟨rfl, hne⟩
  by_cases hdot : '.' ∈ text.toList
  · rw [stated, if_pos hdot, qualify_of_dot hdot]
  · rw [stated, if_neg hdot]
    cases hspace : firstNamespace space scope with
    | none => rw [qualify_of_not_present (hpresent.trans hspace)]
    | some s => rw [qualify_of_present hdot (hpresent.trans hspace)]

/-- A definition gets a name exactly if the full name that is meant is well formed. -/
theorem resolve_eq_ok_iff_stated {text : String} {space scope : Option String} {n : Name} :
    resolve text space scope = .ok n ↔ text ≠ "" ∧ n.full = stated text space scope := by
  rw [resolve_eq_ok_iff, stated_eq_qualify]

/-! ## 3. Parts -/

/-- The simple name is the last component. -/
theorem getLast?_splitOn (n : Name) :
    (n.full.toList.splitOn '.').getLast? = some n.simple.toList := by
  have hlast : n.simple.toList.splitOn '.' = [n.simple.toList] :=
    List.splitOn_eq_singleton n.dot_not_mem_simple
  cases h : n.space? with
  | none => rw [← (full_eq_simple h).1, hlast, List.getLast?_singleton]
  | some space =>
    have hfull : n.full.toList = space.toList ++ '.' :: n.simple.toList := by
      rw [(full_eq_of_space? h).1]
      simp
    rw [hfull, List.splitOn_append_cons_self, hlast, List.getLast?_append, List.getLast?_singleton,
      Option.some_or]

/-- The parts of a full name are the parts that were meant. -/
theorem parts_eq_statedParts {n : Name} {text : String} {space scope : Option String}
    (h : n.full = stated text space scope) :
    (n.simple, n.space?) = statedParts text space scope := by
  rw [stated] at h
  rw [statedParts]
  cases hsplit : splitAtLastDot? text.toList with
  | some parts =>
    have hdot : '.' ∈ text.toList := by
      refine Decidable.byContradiction fun hdot => ?_
      rw [splitAtLastDot?_eq_none_iff.mpr hdot] at hsplit
      cases hsplit
    rw [if_pos hdot] at h
    simp only [simple, space?, h, hsplit, Option.map_some]
  | none =>
    have hdot : '.' ∉ text.toList := splitAtLastDot?_eq_none_iff.mp hsplit
    rw [if_neg hdot] at h
    cases hspace : firstNamespace space scope with
    | none =>
      simp only [hspace] at h
      have hnone : n.space? = none := space?_eq_none_iff.mpr (h ▸ hdot)
      exact Prod.ext ((full_eq_simple hnone).1.trans h) hnone
    | some s =>
      simp only [hspace] at h
      obtain ⟨hsimple, hspace?⟩ := simple_space?_of_full hdot h
      exact Prod.ext hsimple hspace?

/-! ## 4. Names -/

/-- **The names that definitions get.**  A definition gets a name exactly if it states a text, and
the full name that is meant is made of words between dots and is not the name of a primitive type.
The name then has this full text, its simple name is the last component, its namespace is all before
the last dot, and these are the parts that were put together.  So a name is known by its full text;
what its parts or its full text state is the name again, in any scope if it has a namespace; and a
reference with the same text in the same scope means it. -/
theorem exists_resolve_iff (text : String) (space scope : Option String) :
    ((∃ n, resolve text space scope = .ok n) ↔
      text ≠ "" ∧ (∀ cs ∈ (stated text space scope).toList.splitOn '.', IsWord cs) ∧
        ∀ p : Primitive, stated text space scope ≠ p.name) ∧
    (∀ n, resolve text space scope = .ok n →
      n.full = stated text space scope ∧
      (n.full.toList.splitOn '.').getLast? = some n.simple.toList ∧ '.' ∉ n.simple.toList ∧
      (n.space? = none ↔ '.' ∉ n.full.toList) ∧
      (∀ before, n.space? = some before ↔ n.full = before ++ "." ++ n.simple) ∧
      (n.simple, n.space?) = statedParts text space scope) ∧
    (∀ m n : Name, m.full = n.full → m = n) ∧
    (∀ n : Name, resolve n.simple n.space? none = .ok n ∧ resolve n.full none none = .ok n) ∧
    (∀ n : Name, n.space? ≠ none →
      resolve n.simple n.space? scope = .ok n ∧ resolve n.full none scope = .ok n) ∧
    ∀ n, resolve text none scope = .ok n → qualify text scope = n.full := by
  refine ⟨⟨?_, ?_⟩, fun n h => ?_, fun m n => ext, fun n => ?_, fun n h => ?_, fun n h => ?_⟩
  · rintro ⟨n, h⟩
    obtain ⟨hne, hfull⟩ := resolve_eq_ok_iff_stated.mp h
    rw [← hfull]
    exact ⟨hne, nameFault?_eq_none_iff_words.mp n.wellFormed⟩
  · rintro ⟨hne, hwords⟩
    exact ⟨⟨_, nameFault?_eq_none_iff_words.mpr hwords⟩, resolve_eq_ok_iff_stated.mpr ⟨hne, rfl⟩⟩
  · obtain ⟨-, hfull⟩ := resolve_eq_ok_iff_stated.mp h
    exact ⟨hfull, n.getLast?_splitOn, n.dot_not_mem_simple, space?_eq_none_iff,
      fun before => space?_eq_some_iff, parts_eq_statedParts hfull⟩
  · exact ⟨resolve_parts fun _ => rfl, resolve_full fun _ => rfl⟩
  · exact ⟨resolve_parts fun hnone => absurd hnone h, resolve_full fun hnone => absurd hnone h⟩
  · exact (resolve_eq_ok_iff.mp h).2.symm

namespace Example

def leaf : Name :=
  ⟨"a.b.Leaf", by decide⟩

end Example

/-- An empty namespace is passed over, the one in scope completes the text, and no other scope takes
the name away from its parts. -/
theorem exists_resolve_iff_leaf :
    resolve "Leaf" (some "") (some "a.b") = .ok Example.leaf ∧
    Example.leaf.simple = "Leaf" ∧ Example.leaf.space? = some "a.b" ∧
    resolve "Leaf" (some "a.b") (some "z") = .ok Example.leaf ∧
    resolve "a.b.Leaf" none (some "z") = .ok Example.leaf := by
  have hresolve : resolve "Leaf" (some "") (some "a.b") = .ok Example.leaf := by rfl
  obtain ⟨-, hparts, -⟩ := exists_resolve_iff "Leaf" (some "") (some "a.b")
  obtain ⟨-, -, -, -, -, hstated⟩ := hparts Example.leaf hresolve
  have hsimple : Example.leaf.simple = "Leaf" := congrArg Prod.fst hstated
  have hspace : Example.leaf.space? = some "a.b" := congrArg Prod.snd hstated
  obtain ⟨-, -, -, -, hscope, -⟩ := exists_resolve_iff "Leaf" none (some "z")
  obtain ⟨hback, hfull⟩ := hscope Example.leaf (by rw [hspace]; exact nofun)
  rw [hsimple, hspace] at hback
  exact ⟨hresolve, hsimple, hspace, hback, hfull⟩

end Name
end Avro
