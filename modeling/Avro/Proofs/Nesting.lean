/-
# Nesting: what the limit of a reading does

A reading has a limit for the schemas inside one another.  The limit is not the value's but the
caller's, so it should make no other difference than to refuse what is nested too deeply.

Two readings that differ in their limits take the same steps, until the one with the lower limit
reports that it has come to it.  The report goes out through all the readings around it as it is,
though any other fault is put inside an excerpt; so the one with the lower limit gives either the
report or the result of the other one.

* `ReadM.Agrees`: a reading does what another one does, unless it comes to its limit.
* `Schema.readerAt_agrees`: so does a reading with a lower limit.
* `Schema.readerFrom`: a reading that counts its depth up to the limit, and does what the one does
  that counts its levels down.
* `Json.nesting`: how many schemas stand inside one another in a value.
* `Schema.reader_of_le`: of two limits, the lower one is reported, or else makes no difference; and
  where the higher one is enough, the lower one is enough exactly if the nesting is within it.
-/
import Mathlib
import Avro.Proofs.Acceptance

namespace Avro

/-! ## 1. Readings that agree -/

/-- Wherever it is done, a reading comes to its limit, or else to what the other one comes to. -/
def ReadM.Agrees (limit : Nat) {α : Type} (x y : ReadM α) : Prop :=
  ∀ R, x R = .error (.nestingTooDeep limit) ∨ x R = y R

namespace ReadM.Agrees

variable {limit : Nat} {α β : Type} {x y : ReadM α}

theorem refl (limit : Nat) (x : ReadM α) : x.Agrees limit x :=
  fun _ => .inr rfl

theorem bind {f g : α → ReadM β} (hx : x.Agrees limit y) (hf : ∀ a, (f a).Agrees limit (g a)) :
    (x >>= f).Agrees limit (y >>= g) := by
  intro R
  simp only [Bind.bind, StateT.bind, Except.bind]
  rcases hx R with h | h
  · rw [h]
    exact .inl rfl
  · rw [h]
    cases y R with
    | error e => exact .inr rfl
    | ok r => exact hf r.1 r.2

/-- The same step comes first. -/
theorem after (x : ReadM α) {f g : α → ReadM β} (hf : ∀ a, (f a).Agrees limit (g a)) :
    (x >>= f).Agrees limit (x >>= g) :=
  (refl limit x).bind hf

theorem mapM {f g : α → ReadM β} (h : ∀ a, (f a).Agrees limit (g a)) (as : List α) :
    (as.mapM f).Agrees limit (as.mapM g) := by
  induction as with
  | nil => exact refl limit _
  | cons a as ih =>
    rw [List.mapM_cons, List.mapM_cons]
    exact (h a).bind fun b => ih.bind fun bs => refl limit _

end ReadM.Agrees

namespace Schema

open ReadM (Agrees)

section Level

variable {limit : Nat} {read read' : SchemaReader}

/-- The report goes out through a schema around it. -/
theorem readNested_agrees {scope : Option String} {v : Json}
    (h : (read scope v).Agrees limit (read' scope v)) :
    (readNested read scope v).Agrees limit (readNested read' scope v) := by
  intro R
  rw [readNested, readNested]
  rcases h R with h | h
  · rw [h]
    exact .inl rfl
  · rw [h]
    exact .inr rfl

variable (h : ∀ scope v, (read scope v).Agrees limit (read' scope v))
include h

theorem readField_agrees (scope : Option String) (v : Json) :
    (readField read scope v).Agrees limit (readField read' scope v) := by
  cases v with
  | obj members =>
    refine .after _ fun name => .after _ fun w => ?_
    exact (readNested_agrees (h scope w)).bind fun type => .refl limit _
  | _ => exact .refl limit _

theorem readFields_agrees (scope : Option String) (v : Json) :
    (readFields read scope v).Agrees limit (readFields read' scope v) := by
  cases v with
  | arr items => exact .mapM (readField_agrees h scope) items
  | _ => exact .refl limit _

theorem readRecord_agrees (kind : RecordKind) (scope : Option String)
    (members : List (String × Json)) :
    (readRecord read kind scope members).Agrees limit (readRecord read' kind scope members) := by
  refine .after _ fun name => .after _ fun doc => .after _ fun _ => .after _ fun w => ?_
  exact (readFields_agrees h name.space? w).bind fun fields => .refl limit _

theorem readTagged_agrees (tag : Tag) (scope : Option String) (members : List (String × Json)) :
    (readTagged read tag scope members).Agrees limit (readTagged read' tag scope members) := by
  cases tag with
  | record => exact readRecord_agrees h .record scope members
  | error => exact readRecord_agrees h .error scope members
  | array =>
    exact .after _ fun w => (readNested_agrees (h scope w)).bind fun items => .refl limit _
  | map =>
    exact .after _ fun w => (readNested_agrees (h scope w)).bind fun values => .refl limit _
  | _ => exact .refl limit _

/-- **One level agrees with another** if the levels below do. -/
theorem readWith_agrees (scope : Option String) (v : Json) :
    (readWith read scope v).Agrees limit (readWith read' scope v) := by
  cases v with
  | arr items =>
    exact (Agrees.mapM (fun w => readNested_agrees (h scope w)) items).bind fun branches =>
      .refl limit _
  | obj members =>
    cases hw : Attribute.type.find? members with
    | none =>
      simp only [readWith, hw]
      exact .refl limit _
    | some w =>
      cases w with
      | str text =>
        cases htag : Tag.ofName? text with
        | some tag =>
          simp only [readWith, hw, htag]
          exact readTagged_agrees h tag scope members
        | none =>
          simp only [readWith, hw, htag]
          exact .refl limit _
      | arr items =>
        simp only [readWith, hw]
        exact h scope (.arr items)
      | obj members =>
        simp only [readWith, hw]
        exact h scope (.obj members)
      | _ =>
        simp only [readWith, hw]
        exact .refl limit _
  | _ => exact .refl limit _

end Level

/-- **A reading with fewer levels agrees with one with more**, whatever limit that one reports. -/
theorem readerAt_agrees (limit limit' levels more : Nat) (scope : Option String) (v : Json) :
    (readerAt limit levels scope v).Agrees limit (readerAt limit' (levels + more) scope v) := by
  induction levels generalizing scope v with
  | zero => exact fun R => .inl rfl
  | succ levels ih =>
    rw [Nat.succ_add]
    exact readWith_agrees ih scope v

end Schema

/-! ## 2. The nesting of a value -/

namespace Json

/-- How many schemas stand inside one another in a value, the value being one of them. -/
def nesting (v : Json) : Nat :=
  (v.inner.attach.map fun w => nesting w.1).foldr max 0 + 1
termination_by sizeOf v
decreasing_by exact sizeOf_lt_of_mem_inner w.2

theorem nesting_eq (v : Json) : v.nesting = (v.inner.map nesting).foldr max 0 + 1 := by
  rw [nesting, List.map_attach_eq_pmap, List.pmap_eq_map]

theorem fits_iff_nesting_le {levels : Nat} {v : Json} : v.Fits levels ↔ v.nesting ≤ levels := by
  induction levels generalizing v with
  | zero => simp [Fits, nesting_eq]
  | succ levels ih =>
    rw [Fits, nesting_eq, Nat.add_le_add_iff_right, foldr_max_le_iff, List.forall_mem_map]
    exact forall₂_congr fun w _ => ih

end Json

/-! ## 3. Limits -/

namespace Schema

/-- Reads a schema that has `depth` others around it, where at most `limit` may stand inside one
another. -/
def readerFrom (limit depth : Nat) : SchemaReader :=
  if depth < limit then readWith (readerFrom limit (depth + 1))
  else fun _ _ => throw (.nestingTooDeep limit)
termination_by limit - depth

/-- **The depth is counted up as the levels that are left are counted down.** -/
theorem readerFrom_eq_readerAt (limit depth : Nat) :
    readerFrom limit depth = readerAt limit (limit - depth) := by
  induction hlevels : limit - depth generalizing depth with
  | zero =>
    rw [readerFrom, if_neg (by omega)]
    rfl
  | succ levels ih =>
    rw [readerFrom, if_pos (by omega), ih (depth + 1) (by omega)]
    rfl

/-- A reading counts its depth from nothing. -/
theorem reader_eq_readerFrom (limit : Nat) : reader limit = readerFrom limit 0 := by
  rw [readerFrom_eq_readerAt]
  rfl

/-- **The limit of the nesting.**  Take two limits, the first of which is not greater.  If the
reading with the first one does not report it, both come to the same: to the same schema and
registry, or to the same fault.  If the reading with the second one succeeds, so does the one with
the first, provided that the first is at least the nesting of the value; otherwise that one reports
its limit, and the report is not put inside another fault. -/
theorem reader_of_le {d₁ d₂ : Nat} (hle : d₁ ≤ d₂) (scope : Option String) (v : Json)
    (R : Registry) :
    (reader d₁ scope v R ≠ .error (.nestingTooDeep d₁) →
      reader d₂ scope v R = reader d₁ scope v R) ∧
    ∀ r, reader d₂ scope v R = .ok r →
      reader d₁ scope v R =
        if v.nesting ≤ d₁ then .ok r else .error (.nestingTooDeep d₁) := by
  have hagrees : reader d₁ scope v R = .error (.nestingTooDeep d₁) ∨
      reader d₁ scope v R = reader d₂ scope v R := by
    obtain ⟨more, rfl⟩ := Nat.exists_eq_add_of_le hle
    exact readerAt_agrees d₁ (d₁ + more) d₁ more scope v R
  refine ⟨fun h => (hagrees.resolve_left h).symm, fun r hr => ?_⟩
  split
  · next hfits =>
    -- what the higher limit has let through is grammatical, so nothing but the limit is in the way
    obtain ⟨s, R'⟩ := r
    rcases settles_reader (grammatical_of_reader hr) with ⟨r', hr'⟩ | ⟨-, hdeep⟩
    · rw [hagrees.resolve_left (by rw [hr']; nofun), hr]
    · exact absurd (Json.fits_iff_nesting_le.mpr hfits) hdeep
  · next hdeep =>
    refine hagrees.resolve_right fun h => hdeep ?_
    exact Json.fits_iff_nesting_le.mp (fits_of_readerAt (h.trans hr))

end Schema

namespace Example

/-- An array of maps, where the object of the map is wrapped in another one. -/
def wrappedJson : Json :=
  .obj [
    ("items", .obj [("type", .obj [("type", .str "map"), ("values", .str "int")])]),
    ("type", .str "array")]

end Example

/-- The object around that of the map counts as well, so three levels are not enough; more than four
make no difference. -/
theorem Schema.reader_of_le_wrapped :
    Example.wrappedJson.nesting = 4 ∧
    Schema.reader 3 none Example.wrappedJson .empty = .error (.nestingTooDeep 3) ∧
    Schema.reader 64 none Example.wrappedJson .empty =
      .ok (.array (.map (.primitive .int)), .empty) := by
  have hnesting : Example.wrappedJson.nesting = 4 := by
    cbv
  have hread : Schema.reader 4 none Example.wrappedJson .empty =
      .ok (.array (.map (.primitive .int)), .empty) := by
    rfl
  refine ⟨hnesting, ?_, ?_⟩
  · rw [(Schema.reader_of_le (by decide : 3 ≤ 4) none Example.wrappedJson .empty).2 _ hread,
      hnesting]
    rfl
  · have hlimit : Schema.reader 4 none Example.wrappedJson .empty ≠ .error (.nestingTooDeep 4) := by
      intro hdeep
      rw [hread] at hdeep
      cases hdeep
    rw [(Schema.reader_of_le (by decide : 4 ≤ 64) none Example.wrappedJson .empty).1 hlimit, hread]

end Avro
