/-
# Names: taking a full name apart

A name is kept as its full text, and its simple name and namespace are read off the last dot.  This
module puts the two together again: `Name.full_eq_of_space?` and `Name.full_eq_simple` say how a
full name is made of its parts, `Name.simple_space?_of_full` that it comes apart in the same way,
and `Name.resolve_parts` and `Name.resolve_full` that a definition which states the parts or the
full text gets the name back, whatever namespace is in scope, unless the name has no namespace of
its own and one is put in front of it.

`nameFault?_eq_none_iff` says when a text is a full name; in particular it is not the name of a
primitive type.
-/
import Avro.Name

namespace Avro

/-! ## 1. Well formed texts -/

/-- A text is a full name if what stands between its dots are identifiers and it is not the name of
a primitive type. -/
theorem nameFault?_eq_none_iff {full : String} :
    nameFault? full = none ↔
      (∀ cs ∈ splitAtDots full.toList, isIdentifierChars cs = true) ∧
        Primitive.ofName? full = none := by
  have hbad : badComponent? full = none ↔
      ∀ cs ∈ splitAtDots full.toList, isIdentifierChars cs = true := by
    simp [badComponent?, List.find?_eq_none]
  rw [← hbad, nameFault?]
  cases badComponent? full with
  | some cs => simp
  | none => cases Primitive.ofName? full <;> simp

namespace Name

/-- Something stands between any two dots of a name, before the first and after the last. -/
theorem nil_not_mem_splitAtDots (n : Name) : [] ∉ splitAtDots n.full.toList := by
  intro hmem
  have hidentifier := (nameFault?_eq_none_iff.mp n.wellFormed).1 [] hmem
  cases hidentifier

/-! ## 2. Parts -/

/-- A name without a namespace is its simple name, and has no dot. -/
theorem full_eq_simple {n : Name} (h : n.space? = none) :
    n.simple = n.full ∧ '.' ∉ n.full.toList := by
  rw [space?, Option.map_eq_none_iff] at h
  refine ⟨?_, splitAtLastDot?_eq_none_iff.mp h⟩
  rw [simple, h]

/-- A name with a namespace is its namespace and its simple name, with a dot between them. -/
theorem full_eq_of_space? {n : Name} {space : String} (h : n.space? = some space) :
    n.full = space ++ "." ++ n.simple ∧ '.' ∉ n.simple.toList := by
  rw [space?, Option.map_eq_some_iff] at h
  obtain ⟨⟨before, after⟩, hsplit, rfl⟩ := h
  obtain ⟨hfull, hdot⟩ := eq_of_splitAtLastDot? hsplit
  have hsimple : n.simple = .ofList after := by rw [simple, hsplit]
  rw [hsimple, String.toList_ofList]
  refine ⟨?_, hdot⟩
  refine String.toList_inj.mp ?_
  rw [hfull]
  simp

/-- A full name comes apart where it was put together. -/
theorem simple_space?_of_full {n : Name} {space text : String} (hdot : '.' ∉ text.toList)
    (h : n.full = space ++ "." ++ text) : n.simple = text ∧ n.space? = some space := by
  have hsplit : splitAtLastDot? n.full.toList = some (space.toList, text.toList) := by
    rw [h, ← splitAtLastDot?_append_dot hdot]
    simp
  constructor
  · simp only [simple, hsplit, String.ofList_toList]
  · simp only [space?, hsplit, Option.map_some, String.ofList_toList]

theorem space?_eq_none_iff {n : Name} : n.space? = none ↔ '.' ∉ n.full.toList := by
  rw [space?, Option.map_eq_none_iff, splitAtLastDot?_eq_none_iff]

/-- The simple name has no dot in it, with a namespace or without. -/
theorem dot_not_mem_simple (n : Name) : '.' ∉ n.simple.toList := by
  cases h : n.space? with
  | none =>
    obtain ⟨hsimple, hdot⟩ := full_eq_simple h
    rwa [hsimple]
  | some space => exact (full_eq_of_space? h).2

/-- The namespace is what stands before the last dot. -/
theorem space?_eq_some_iff {n : Name} {space : String} :
    n.space? = some space ↔ n.full = space ++ "." ++ n.simple := by
  constructor
  · intro h
    exact (full_eq_of_space? h).1
  · intro h
    exact (simple_space?_of_full n.dot_not_mem_simple h).2

theorem full_ne_empty (n : Name) : n.full ≠ "" := by
  intro h
  refine n.nil_not_mem_splitAtDots ?_
  rw [h]
  exact List.mem_cons_self

/-- A namespace says something, and so does a simple name. -/
theorem parts_ne_empty (n : Name) : n.simple ≠ "" ∧ n.space? ≠ some "" := by
  constructor
  · intro hsimple
    cases hspace : n.space? with
    | none => exact n.full_ne_empty ((full_eq_simple hspace).1.symm.trans hsimple)
    | some space =>
      obtain ⟨heq, -⟩ := full_eq_of_space? hspace
      refine n.nil_not_mem_splitAtDots ?_
      rw [heq, hsimple]
      simp [splitAtDots_append_dot, splitAtDots]
  · intro hspace
    obtain ⟨heq, -⟩ := full_eq_of_space? hspace
    refine n.nil_not_mem_splitAtDots ?_
    rw [heq]
    simp [splitAtDots]

/-! ## 3. Resolution -/

theorem present_eq_some_iff {space : Option String} {s : String} :
    present space = some s ↔ space = some s ∧ s ≠ "" := by
  rw [present, Option.filter_eq_some_iff, decide_eq_true_eq]

theorem qualify_of_dot {text : String} {scope : Option String} (h : '.' ∈ text.toList) :
    qualify text scope = text := by
  rw [qualify, if_pos h]

/-- A name without a dot is completed by the namespace in scope. -/
theorem qualify_of_present {text : String} {scope : Option String} {space : String}
    (hdot : '.' ∉ text.toList) (h : present scope = some space) :
    qualify text scope = space ++ "." ++ text := by
  rw [qualify, if_neg hdot, h]

theorem qualify_of_not_present {text : String} {scope : Option String}
    (h : present scope = none) : qualify text scope = text := by
  rw [qualify, h]
  split <;> rfl

/-- A name that has been completed is full. -/
theorem qualify_qualify (text : String) (scope : Option String) :
    qualify (qualify text scope) scope = qualify text scope := by
  by_cases hdot : '.' ∈ text.toList
  · rw [qualify_of_dot hdot, qualify_of_dot hdot]
  · cases hpresent : present scope with
    | none => rw [qualify_of_not_present hpresent, qualify_of_not_present hpresent]
    | some space =>
      rw [qualify_of_present hdot hpresent]
      exact qualify_of_dot (by simp)

/-- A definition gets a name if what it says, completed by a namespace, is the full name. -/
theorem resolve_eq_ok_iff {text : String} {space scope : Option String} {n : Name} :
    resolve text space scope = .ok n ↔
      text ≠ "" ∧ n.full = qualify text ((present space).or scope) := by
  rw [resolve]
  split
  · next h => simp [h]
  · next h =>
    simp only [ne_eq, h, not_false_eq_true, true_and]
    split
    · next fault hfault =>
      refine ⟨nofun, fun heq => ?_⟩
      rw [← heq, n.wellFormed] at hfault
      cases hfault
    · next hfault =>
      constructor
      · intro heq
        cases heq
        rfl
      · intro heq
        exact congrArg Except.ok (ext heq.symm)

/-- A definition whose name has no namespace has none in scope. -/
theorem not_present_of_resolve {text : String} {space scope : Option String} {n : Name}
    (h : resolve text space scope = .ok n) (hspace : n.space? = none) :
    present scope = none := by
  obtain ⟨-, heq⟩ := resolve_eq_ok_iff.mp h
  obtain ⟨-, hdot⟩ := full_eq_simple hspace
  have hcompleted : ∀ s, present ((present space).or scope) ≠ some s := by
    intro s hs
    have htext : '.' ∉ text.toList := by
      intro htext
      rw [heq, qualify_of_dot htext] at hdot
      exact hdot htext
    rw [heq, qualify_of_present htext hs] at hdot
    simp at hdot
  cases hpresent : present space with
  | none =>
    rw [hpresent, Option.none_or] at hcompleted
    exact Option.eq_none_iff_forall_ne_some.mpr hcompleted
  | some s =>
    obtain ⟨rfl, hne⟩ := present_eq_some_iff.mp hpresent
    rw [hpresent, Option.some_or] at hcompleted
    exact absurd (present_eq_some_iff.mpr ⟨rfl, hne⟩) (hcompleted s)

/-- **The parts of a name make the name**, unless it has no namespace and one is in scope. -/
theorem resolve_parts {n : Name} {scope : Option String}
    (h : n.space? = none → present scope = none) :
    resolve n.simple n.space? scope = .ok n := by
  obtain ⟨hsimple, hempty⟩ := n.parts_ne_empty
  refine resolve_eq_ok_iff.mpr ⟨hsimple, ?_⟩
  cases hspace : n.space? with
  | none =>
    rw [(full_eq_simple hspace).1]
    exact (qualify_of_not_present (h hspace)).symm
  | some space =>
    obtain ⟨hfull, hdot⟩ := full_eq_of_space? hspace
    have hne : space ≠ "" := fun heq => hempty (heq ▸ hspace)
    have hpresent : present (some space) = some space := present_eq_some_iff.mpr ⟨rfl, hne⟩
    rw [hpresent, Option.some_or, qualify_of_present hdot hpresent]
    exact hfull

/-- The full text of a name gives it back, unless it has no namespace and one is in scope. -/
theorem resolve_full {n : Name} {scope : Option String}
    (h : n.space? = none → present scope = none) : resolve n.full none scope = .ok n := by
  refine resolve_eq_ok_iff.mpr ⟨n.full_ne_empty, ?_⟩
  cases hspace : n.space? with
  | none => exact (qualify_of_not_present (h hspace)).symm
  | some space =>
    refine (qualify_of_dot ?_).symm
    rw [(full_eq_of_space? hspace).1]
    simp

end Name
end Avro
