/-
# Entries: finite maps from strings, as lists sorted by key

JSON objects, map values and the registry of named types are all finite maps whose keys come
out in code point order.  They share this one representation: a list of keys and values,
sorted by key.  A look-up is `List.lookup`, the first entry with the key.

* `lookup_insert`: what an insertion does to every look-up; it asks nothing of the list.
* `lookup_ofList`: of a repeated key the last pair counts.
* `sorted_insert`, `sorted_ofList`: insertion keeps the keys sorted and distinct.
* `Sorted.ext`: sorted lists with the same look-ups are equal, so the representation is
  canonical.
-/

namespace Avro

/-- A finite map from strings. -/
abbrev Entries (α : Type) := List (String × α)

namespace Entries

variable {α β : Type}

/-! ## 1. Insertion -/

/-- Puts `v` under `k`, before the first larger key, in place of an equal one. -/
def insert (k : String) (v : α) : Entries α → Entries α
  | [] => [(k, v)]
  | (k', v') :: rest =>
    if k < k' then (k, v) :: (k', v') :: rest
    else if k = k' then (k, v) :: rest
    else (k', v') :: insert k v rest

/-- The entries of a list of pairs; of a repeated key the last pair counts. -/
def ofList (pairs : List (String × α)) : Entries α :=
  pairs.foldl (fun entries p => insert p.1 p.2 entries) []

/-- Every key is smaller than those after it. -/
def Sorted (entries : Entries α) : Prop :=
  entries.Pairwise (fun a b => a.1 < b.1)

/-- The keys, in order. -/
def keys (entries : Entries α) : List String :=
  entries.map Prod.fst

/-! ## 2. Look-ups -/

theorem lookup_cons_ite (k k' : String) (v : α) (rest : Entries α) :
    List.lookup k' ((k, v) :: rest) = if k' = k then some v else rest.lookup k' := by
  rw [List.lookup_cons]
  split
  · next h => simp [beq_iff_eq.mp h]
  · next h => simp [beq_eq_false_iff_ne.mp h]

theorem lookup_insert (k k' : String) (v : α) (entries : Entries α) :
    (insert k v entries).lookup k' = if k' = k then some v else entries.lookup k' := by
  induction entries with
  | nil => simp [insert, lookup_cons_ite]
  | cons e rest ih =>
    obtain ⟨k₁, v₁⟩ := e
    rw [insert]
    split
    · rw [lookup_cons_ite]
    · split
      · next heq => subst heq; simp only [lookup_cons_ite]; split <;> rfl
      · next hne =>
        rw [lookup_cons_ite, ih, lookup_cons_ite]
        by_cases h : k' = k₁
        · simp [h, Ne.symm hne]
        · simp [h]

/-- Of a repeated key the last pair counts. -/
theorem lookup_ofList (k : String) (pairs : List (String × α)) :
    (ofList pairs).lookup k = pairs.reverse.lookup k := by
  suffices h : ∀ entries : Entries α,
      (pairs.foldl (fun entries p => insert p.1 p.2 entries) entries).lookup k =
        (pairs.reverse.lookup k).or (entries.lookup k) by
    simpa [ofList] using h []
  induction pairs with
  | nil => simp
  | cons p pairs ih =>
    intro entries
    obtain ⟨k', v⟩ := p
    rw [List.foldl_cons, ih, lookup_insert, List.reverse_cons, List.lookup_append, lookup_cons_ite,
      List.lookup_nil]
    cases pairs.reverse.lookup k <;> by_cases h : k = k' <;> simp [h]

theorem mem_of_lookup_eq_some {k : String} {v : α} {entries : Entries α}
    (h : entries.lookup k = some v) : (k, v) ∈ entries := by
  obtain ⟨l₁, l₂, rfl, -⟩ := List.lookup_eq_some_iff.mp h
  simp

theorem isSome_lookup_iff_mem_keys {k : String} {entries : Entries α} :
    (entries.lookup k).isSome ↔ k ∈ keys entries := by
  simp only [List.lookup_isSome_iff, keys, List.mem_map, beq_iff_eq]
  constructor
  · rintro ⟨p, hp, rfl⟩; exact ⟨p, hp, rfl⟩
  · rintro ⟨p, hp, rfl⟩; exact ⟨p, hp, rfl⟩

/-! ## 3. Order -/

theorem mem_insert {k : String} {v : α} {e : String × α} {entries : Entries α}
    (h : e ∈ insert k v entries) : e = (k, v) ∨ e ∈ entries := by
  induction entries with
  | nil => simpa [insert] using h
  | cons e' rest ih =>
    obtain ⟨k', v'⟩ := e'
    rw [insert] at h
    split at h
    · simpa using h
    · split at h
      · rcases List.mem_cons.mp h with rfl | h
        · exact .inl rfl
        · exact .inr (List.mem_cons_of_mem _ h)
      · rcases List.mem_cons.mp h with rfl | h
        · exact .inr List.mem_cons_self
        · exact (ih h).imp_right (List.mem_cons_of_mem _)

theorem sorted_nil : Sorted ([] : Entries α) :=
  List.Pairwise.nil

theorem sorted_insert (k : String) (v : α) {entries : Entries α} (h : Sorted entries) :
    Sorted (insert k v entries) := by
  induction entries with
  | nil => simp [insert, Sorted]
  | cons e rest ih =>
    obtain ⟨k', v'⟩ := e
    obtain ⟨hlt, hrest⟩ := List.pairwise_cons.mp h
    rw [insert]
    split
    · next hk =>
      refine List.pairwise_cons.mpr ⟨fun e he => ?_, h⟩
      rcases List.mem_cons.mp he with rfl | he
      · exact hk
      · exact String.lt_trans hk (hlt e he)
    · split
      · next heq => subst heq; exact List.pairwise_cons.mpr ⟨hlt, hrest⟩
      · next hnlt hne =>
        refine List.pairwise_cons.mpr ⟨fun e he => ?_, ih hrest⟩
        rcases mem_insert he with rfl | he
        · exact Std.lt_of_le_of_ne (Std.not_lt.mp hnlt) (fun e => hne e.symm)
        · exact hlt e he

theorem sorted_ofList (pairs : List (String × α)) : Sorted (ofList pairs) := by
  suffices h : ∀ entries : Entries α, Sorted entries →
      Sorted (pairs.foldl (fun entries p => insert p.1 p.2 entries) entries) from h [] sorted_nil
  induction pairs with
  | nil => exact fun _ h => h
  | cons p pairs ih => exact fun entries h => ih _ (sorted_insert p.1 p.2 h)

theorem Sorted.lookup_eq_none {k k' : String} {v : α} {rest : Entries α}
    (h : Sorted ((k', v) :: rest)) (hk : k ≤ k') : rest.lookup k = none := by
  rw [List.lookup_eq_none_iff]
  intro e he
  have : k < e.1 := Std.lt_of_le_of_lt hk ((List.pairwise_cons.mp h).1 e he)
  exact bne_iff_ne.mpr (Std.ne_of_lt this)

/-- Each key of a sorted list has one entry, which its look-up finds. -/
theorem Sorted.lookup_of_mem {k : String} {v : α} {entries : Entries α} (h : Sorted entries)
    (hmem : (k, v) ∈ entries) : entries.lookup k = some v := by
  induction entries with
  | nil => cases hmem
  | cons e rest ih =>
    obtain ⟨hlt, hrest⟩ := List.pairwise_cons.mp h
    rcases List.mem_cons.mp hmem with rfl | hmem
    · simp
    · have hne : k ≠ e.1 := fun heq => Std.ne_of_lt (hlt (k, v) hmem) heq.symm
      rw [lookup_cons_ite, if_neg hne]
      exact ih hrest hmem

/-- **The representation is canonical.**  Sorted lists that answer every look-up alike are
equal. -/
theorem Sorted.ext {xs ys : Entries α} (hx : Sorted xs) (hy : Sorted ys)
    (h : ∀ k, xs.lookup k = ys.lookup k) : xs = ys := by
  induction xs generalizing ys with
  | nil =>
    match ys with
    | [] => rfl
    | (k, v) :: ys => simpa using h k
  | cons x xs ih =>
    obtain ⟨k, v⟩ := x
    match ys with
    | [] => simpa using h k
    | (k', v') :: ys =>
      have hkk : k = k' := by
        rcases Std.lt_trichotomy k k' with hlt | heq | hlt
        · have hk := h k
          rw [lookup_cons_ite, lookup_cons_ite, hy.lookup_eq_none (Std.le_of_lt hlt)] at hk
          simp [Std.ne_of_lt hlt] at hk
        · exact heq
        · have hk := h k'
          rw [lookup_cons_ite, lookup_cons_ite, hx.lookup_eq_none (Std.le_of_lt hlt)] at hk
          simp [Std.ne_of_lt hlt] at hk
      subst hkk
      have hv : v = v' := by simpa using h k
      subst hv
      congr 1
      refine ih (List.pairwise_cons.mp hx).2 (List.pairwise_cons.mp hy).2 fun k₁ => ?_
      by_cases hk : k₁ = k
      · subst hk
        rw [hx.lookup_eq_none (Std.le_refl k₁), hy.lookup_eq_none (Std.le_refl k₁)]
      · simpa [lookup_cons_ite, hk] using h k₁

end Entries
end Avro
