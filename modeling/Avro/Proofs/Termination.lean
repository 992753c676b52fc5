/-
# Termination: how deep the calls of a check nest

A check calls itself on the parts of a datum, on the branches of a union, on the definition behind a
reference, and on the default of a field that is absent.  In the last three the datum does not get
smaller, and a default may be larger than the datum that it completes.  Still the calls nest to a
depth that can be told beforehand:

* a union has no unions among its branches and a reference leads to a definition, so at most three
  calls in a row have the same datum;
* every other call goes to a part of the datum, whose nesting is less;
* and a default is checked only if no call around it is checking the default of the same slot.

`checkWithin` is the check with a number of calls that may stand inside one another, and gives
nothing if it would take more.  It keeps the slots in use, as the walk meets them, where `check` has
those that are left over from a list made beforehand.

`checkWithin_eq_validate` says that with `3 * (D + 1) * (P + 1)` calls it gives what `validate`
gives, for `P` slots in the schema and the registry and a nesting of at most `D` in the datum and
the defaults.
-/
import Mathlib.Data.Finset.Card
import Avro.Proofs.Built
import Avro.Proofs.Defaults

namespace Avro

/-! ## 1. Nesting -/

namespace Datum

mutual

/-- How deep the arrays and maps of a datum nest; a datum without parts has height 0. -/
def height : Datum → Nat
  | array items => heightOfItems items
  | map entries => heightOfEntries entries
  | _ => 0

def heightOfItems : List Datum → Nat
  | [] => 0
  | d :: ds => max (height d + 1) (heightOfItems ds)

def heightOfEntries : List (String × Datum) → Nat
  | [] => 0
  | (_, d) :: entries => max (height d + 1) (heightOfEntries entries)

end

theorem height_lt_array {d : Datum} {ds : List Datum} (h : d ∈ ds) :
    d.height < (array ds).height := by
  rw [height]
  induction ds with
  | nil => cases h
  | cons d' ds ih =>
    rw [heightOfItems]
    rcases List.mem_cons.mp h with rfl | h
    · omega
    · have := ih h
      omega

theorem height_lt_map {e : String × Datum} {entries : List (String × Datum)} (h : e ∈ entries) :
    e.2.height < (map entries).height := by
  rw [height]
  induction entries with
  | nil => cases h
  | cons e' entries ih =>
    rw [heightOfEntries]
    rcases List.mem_cons.mp h with rfl | h
    · omega
    · have := ih h
      omega

/-- The greatest height among these. -/
def greatestHeight (ds : List Datum) : Nat :=
  (ds.map height).foldr max 0

theorem height_le_greatestHeight {d : Datum} {ds : List Datum} (h : d ∈ ds) :
    d.height ≤ greatestHeight ds := by
  induction ds with
  | nil => cases h
  | cons d' ds ih =>
    rw [greatestHeight, List.map_cons, List.foldr_cons, ← greatestHeight]
    rcases List.mem_cons.mp h with rfl | h
    · exact Nat.le_max_left _ _
    · exact Nat.le_trans (ih h) (Nat.le_max_right _ _)

end Datum

namespace Schema

/-- The fields of this very schema. -/
def fields : Schema → List Field
  | named t => t.fields
  | request fields => fields
  | _ => []

/-- The defaults anywhere in a schema. -/
def defaults (s : Schema) : List Datum :=
  s.nodes.flatMap fun t => (t.fields.filterMap Field.default).map .ofJson

end Schema

/-- The defaults anywhere in the definitions of a registry. -/
def Registry.defaults (R : Registry) : List Datum :=
  R.entries.flatMap fun (_, entry) =>
    match entry with
    | .defined t => (Schema.named t).defaults
    | .declared _ => []

/-- How many distinct slots the schema and the registry have. -/
def slotCount (R : Registry) (s : Schema) : Nat :=
  (s.slots ++ R.slots).toFinset.card

/-- How deep the datum or some default in the schema or the registry nests. -/
def greatestNesting (R : Registry) (s : Schema) (d : Datum) : Nat :=
  Datum.greatestHeight (d :: (s.defaults ++ R.defaults))

/-! ## 2. Checks that may run out of calls -/

open Verdict (reject)

/-- The result of a check, or nothing if the calls do not suffice. -/
abbrev Attempt := Option Verdict

namespace Attempt

/-- Attempts in turn, until one rejects or is cut off. -/
def inTurn : List Attempt → Attempt
  | [] => some (.ok ())
  | a :: as =>
    match a with
    | some (.ok ()) => inTurn as
    | some (.error r) => some (.error r)
    | none => none

/-- Whether one of the attempts accepts; they are made in turn, until one does or is cut off. -/
def someAccepts : List Attempt → Option Bool
  | [] => some false
  | a :: as =>
    match a with
    | some v => if v.accepts then some true else someAccepts as
    | none => none

section Level

variable (below : List Slot → Datum → Schema → Attempt) (used : List Slot)

/-- A field.  If it is absent its default stands in for it, unless its slot is in use; then a
default that is refused is what is rejected, whatever is wrong with it. -/
def field (entries : List (String × Datum)) (owner : String) (f : Field) : Attempt :=
  match entries.lookup f.name with
  | some d => below used d f.type
  | none =>
    match f.default with
    | none => some (reject (.missingField f.name))
    | some v =>
      if used.contains (owner, f.name) then some (reject (.invalidDefault f.name))
      else
        (below ((owner, f.name) :: used) (.ofJson v) f.type).map fun verdict =>
          if verdict.accepts then .ok () else reject (.invalidDefault f.name)

def fields (d : Datum) (owner : String) (fields : List Field) : Attempt :=
  match d with
  | .map entries =>
    inTurn <| fields.map fun f =>
      (field below used entries owner f).map fun verdict =>
        (verdict.inInstance (.key f.name)).inSchema f.segment
  | d => some (mismatch "record" d)

/-- One call, which makes the calls directly inside it by `below`. -/
def level (R : Registry) (d : Datum) (s : Schema) : Attempt :=
  match s with
  | .primitive p => some ((checkPrimitive p d).inSchema p.name)
  | .named t =>
    Option.map (Verdict.inSchema t.segment) <| match t.body with
      | .enum symbols => some (checkSymbol symbols d)
      | .fixed size => some (checkSize size.toNat d)
      | .record _ fs => fields below used d t.full fs
  | .array items =>
    Option.map (Verdict.inSchema "array") <| match d with
      | .array ds =>
        inTurn (ds.mapIdx fun i d => (below used d items).map (Verdict.inInstance (.index i)))
      | d => some (mismatch "array" d)
  | .map values =>
    Option.map (Verdict.inSchema "map") <| match d with
      | .map entries =>
        inTurn (entries.map fun e => (below used e.2 values).map (Verdict.inInstance (.key e.1)))
      | d => some (mismatch "map" d)
  | .union branches =>
    (someAccepts (branches.map (below used d))).map fun accepted =>
      Verdict.inSchema "union" <|
        if accepted then .ok () else reject (.noMatchingBranch (branches.map Schema.label))
  | .request fs => (fields below used d Schema.requestOwner fs).map (Verdict.inSchema "request")
  | .reference full _ =>
    match R.get? full with
    | some t => below used d (.named t)
    | none => some (reject (.unresolvedReference full))

end Level
end Attempt

/-- The check of a datum, where the slots `used` are in use, by at most so many calls inside one
another. -/
def checkWithin (R : Registry) : Nat → List Slot → Datum → Schema → Attempt
  | 0, _, _, _ => none
  | calls + 1, used, d, s => Attempt.level (checkWithin R calls) used R d s

/-! ## 3. Attempts that are not cut off -/

namespace Attempt

theorem inTurn_map_some (vs : List Verdict) : inTurn (vs.map some) = some (.all vs) := by
  induction vs with
  | nil => rfl
  | cons v vs ih =>
    rw [List.map_cons, Verdict.all_cons]
    cases v with
    | ok u => rw [inTurn, ih]; rfl
    | error r => rfl

section Level

variable {R : Registry} {below : List Slot → Datum → Schema → Attempt} {used available : List Slot}
  {d : Datum}

theorem someAccepts_eq {branches : List Schema} {stands : String → Field → Bool}
    (h : ∀ b ∈ branches, below used d b = some (check R stands d b)) :
    someAccepts (branches.map (below used d)) =
      some (firstAccepting? R stands d branches).isSome := by
  induction branches with
  | nil => rw [firstAccepting?]; rfl
  | cons b branches ih =>
    obtain ⟨hb, hbranches⟩ := List.forall_mem_cons.mp h
    rw [List.map_cons, hb, someAccepts, firstAccepting?, ih hbranches]
    split
    · rfl
    · rw [Option.isSome_map]

/-- A field is tried as it is checked: its slot is at hand exactly if it is not in use. -/
theorem field_eq {entries : List (String × Datum)} {owner : String} {f : Field}
    (hslot : f.default.isSome = true → ((owner, f.name) ∈ available ↔ (owner, f.name) ∉ used))
    (hpresent : ∀ d, entries.lookup f.name = some d →
      below used d f.type = some (check R (defaultStands R available) d f.type))
    (habsent : ∀ v, f.default = some v → (owner, f.name) ∈ available →
      below ((owner, f.name) :: used) (.ofJson v) f.type =
        some (check R (defaultStands R (Slot.without (owner, f.name) available)) (.ofJson v)
          f.type)) :
    field below used entries owner f =
      some (checkField R (defaultStands R available) entries owner f) := by
  rw [field, checkField]
  cases hlookup : entries.lookup f.name with
  | some d => exact hpresent d hlookup
  | none =>
    simp only [checkAbsent]
    cases hv : f.default with
    | none => rfl
    | some v =>
      rw [hv] at hslot
      by_cases hmem : (owner, f.name) ∈ available
      · have hused : used.contains (owner, f.name) = false := by
          rw [← Bool.not_eq_true, List.contains_iff_mem]
          exact (hslot rfl).mp hmem
        simp only [hused, Bool.false_eq_true, if_false, habsent v hv hmem, Option.map_some]
        rw [defaultStands]
        simp only [hv, dif_pos hmem]
      · have hused : used.contains (owner, f.name) = true := by
          rw [List.contains_iff_mem]
          exact Decidable.byContradiction fun h => hmem ((hslot rfl).mpr h)
        simp only [hused, if_true]
        rw [defaultStands]
        simp only [hv, dif_neg hmem, Bool.false_eq_true, if_false]

theorem fields_eq {entries : List (String × Datum)} {owner : String} {fs : List Field}
    {stands : String → Field → Bool}
    (h : ∀ f ∈ fs,
      field below used entries owner f = some (checkField R stands entries owner f)) :
    fields below used (.map entries) owner fs = some (checkFields R stands entries owner fs) := by
  rw [fields, checkFields_eq_all, ← inTurn_map_some, List.map_map]
  refine congrArg inTurn (List.map_congr_left fun f hf => ?_)
  rw [h f hf]
  rfl

/-- **One call is tried as it is checked**, if the calls directly inside it are: on parts of the
datum, on defaults whose slot is not in use, on branches of a union, and on the definition behind a
reference. -/
theorem level_eq {s : Schema} (hslots : ∀ σ ∈ s.ownSlots, σ ∈ available ↔ σ ∉ used)
    (hpart : ∀ d' c, d'.height < d.height → c ∈ s.children →
      below used d' c = some (check R (defaultStands R available) d' c))
    (hdefault : ∀ σ ∈ s.ownSlots, ∀ f ∈ s.fields, ∀ v, f.default = some v → σ ∈ available →
      below (σ :: used) (.ofJson v) f.type =
        some (check R (defaultStands R (σ.without available)) (.ofJson v) f.type))
    (hbranch : ∀ branches, s = .union branches → ∀ b ∈ branches,
      below used d b = some (check R (defaultStands R available) d b))
    (hreference : ∀ full tag t, s = .reference full tag → R.get? full = some t →
      below used d (.named t) = some (check R (defaultStands R available) d (.named t))) :
    level below used R d s = some (check R (defaultStands R available) d s) := by
  have hfields : ∀ owner, (∀ f ∈ s.fields, f.default.isSome = true →
        (owner, f.name) ∈ s.ownSlots) → s.children = s.fields.map Field.type →
      ∀ entries, d = .map entries → ∀ f ∈ s.fields,
        field below used entries owner f =
          some (checkField R (defaultStands R available) entries owner f) := by
    rintro owner hown hchildren entries rfl f hf
    refine field_eq (fun hsome => hslots _ (hown f hf hsome)) (fun d' hd' => ?_)
      (fun v hv hmem => ?_)
    · refine hpart d' f.type (Datum.height_lt_map (Entries.mem_of_lookup_eq_some hd')) ?_
      rw [hchildren]
      exact List.mem_map.mpr ⟨f, hf, rfl⟩
    · exact hdefault _ (hown f hf (by rw [hv]; rfl)) f hf v hv hmem
  cases s with
  | primitive p => rw [level, check]
  | named t =>
    obtain ⟨name, doc, body⟩ := t
    rw [level, check, checkDefinition]
    cases body with
    | enum symbols => rfl
    | fixed size => rfl
    | record kind fs =>
      have hown : ∀ f ∈ fs, f.default.isSome = true →
          (name.full, f.name) ∈ Field.slots name.full fs :=
        fun f hf hsome => Field.mem_slots_iff.mpr ⟨f, hf, hsome, rfl⟩
      cases d with
      | map entries =>
        exact congrArg (Option.map _) (fields_eq (hfields name.full hown rfl entries rfl))
      | _ => rfl
  | array items =>
    cases d with
    | array ds =>
      rw [level, check, checkItems_eq_all, ← Option.map_some, ← inTurn_map_some]
      refine congrArg (fun as => Option.map _ (inTurn as)) ?_
      refine List.ext_getElem (by simp) fun i hi _ => ?_
      have hlength : i < ds.length := by simpa using hi
      have hlt : ds[i].height < (Datum.array ds).height :=
        Datum.height_lt_array (List.getElem_mem hlength)
      simp [hpart ds[i] items hlt List.mem_cons_self]
    | _ => simp only [level, check, Option.map_some]
  | map values =>
    cases d with
    | map entries =>
      rw [level, check, checkEntries_eq_all, ← Option.map_some, ← inTurn_map_some, List.map_map]
      refine congrArg (fun as => Option.map _ (inTurn as)) (List.map_congr_left fun e he => ?_)
      rw [hpart e.2 values (Datum.height_lt_map he) List.mem_cons_self]
      rfl
    | _ => simp only [level, check, Option.map_some]
  | union branches =>
    rw [level, check, someAccepts_eq (hbranch branches rfl), Option.map_some]
  | request fs =>
    have hown : ∀ f ∈ fs, f.default.isSome = true →
        (Schema.requestOwner, f.name) ∈ Field.slots Schema.requestOwner fs :=
      fun f hf hsome => Field.mem_slots_iff.mpr ⟨f, hf, hsome, rfl⟩
    cases d with
    | map entries =>
      rw [level, check]
      exact congrArg (Option.map _) (fields_eq (hfields Schema.requestOwner hown rfl entries rfl))
    | _ => simp only [level, check, fields, Option.map_some]
  | reference full tag =>
    rw [level, check]
    cases ht : R.get? full with
    | some t =>
      simp only [hreference full tag t rfl ht]
      rw [check]
    | none => rfl

end Level
end Attempt

/-! ## 4. The calls suffice -/

namespace Schema

/-- How many calls with the same datum a schema may lead to: a union to a branch, a reference to a
definition. -/
def rank : Schema → Nat
  | union _ => 3
  | reference _ _ => 2
  | _ => 1

theorem rank_pos (s : Schema) : 1 ≤ s.rank := by
  cases s <;> simp [rank]

theorem rank_le (s : Schema) : s.rank ≤ 3 := by
  cases s <;> simp [rank]

theorem rank_le_of_not_union {s : Schema} (h : s.isUnion = false) : s.rank ≤ 2 := by
  cases s with
  | union branches => cases h
  | _ => simp [rank]

theorem type_mem_children {s : Schema} {f : Field} (h : f ∈ s.fields) : f.type ∈ s.children := by
  cases s with
  | named t => exact List.mem_map.mpr ⟨f, h, rfl⟩
  | request fields => exact List.mem_map.mpr ⟨f, h, rfl⟩
  | _ => cases h

/-- What a check may meet in a schema: no broken rule, slots among these and defaults up to this
height. -/
structure Bounded (all : List Slot) (height : Nat) (s : Schema) : Prop where
  rules : ∀ t ∈ s.nodes, t.fault? = none
  slots : ∀ σ ∈ s.slots, σ ∈ all
  defaults : ∀ d ∈ s.defaults, d.height ≤ height

namespace Bounded

variable {all : List Slot} {height : Nat} {s : Schema}

theorem of_child (h : s.Bounded all height) {c : Schema} (hc : c ∈ s.children) :
    c.Bounded all height where
  rules := fun t ht => h.rules t (mem_nodes_of_child hc ht)
  slots := by
    intro σ hσ
    obtain ⟨t, ht, hσ⟩ := List.mem_flatMap.mp hσ
    exact h.slots σ (List.mem_flatMap.mpr ⟨t, mem_nodes_of_child hc ht, hσ⟩)
  defaults := by
    intro d hd
    obtain ⟨t, ht, hd⟩ := List.mem_flatMap.mp hd
    exact h.defaults d (List.mem_flatMap.mpr ⟨t, mem_nodes_of_child hc ht, hd⟩)

theorem own_slot (h : s.Bounded all height) {σ : Slot} (hσ : σ ∈ s.ownSlots) : σ ∈ all :=
  h.slots σ (mem_slots_of_own hσ)

theorem own_default (h : s.Bounded all height) {f : Field} (hf : f ∈ s.fields) {v : Json}
    (hv : f.default = some v) : (Datum.ofJson v).height ≤ height := by
  refine h.defaults _ (List.mem_flatMap.mpr ⟨s, s.mem_nodes_self, List.mem_map.mpr ⟨v, ?_, rfl⟩⟩)
  exact List.mem_filterMap.mpr ⟨f, hf, hv⟩

end Bounded
end Schema

/-- Using a slot up leaves one slot less. -/
theorem Slot.card_without {σ : Slot} {available : List Slot} (h : σ ∈ available) :
    (σ.without available).toFinset.card + 1 = available.toFinset.card := by
  have herase : (σ.without available).toFinset = available.toFinset.erase σ := by
    ext τ
    rw [List.mem_toFinset, Slot.mem_without_iff, Finset.mem_erase, List.mem_toFinset, and_comm]
  rw [herase, Finset.card_erase_add_one (List.mem_toFinset.mpr h)]

/-- **The calls suffice** if there are three for each height up to that of the datum, and three for
each height of a default as often as there are slots left.  A call with the same datum lowers the
rank of the schema, a call on a part lowers the height, and a call on a default takes a slot. -/
theorem checkWithin_eq_check {R : Registry} {all : List Slot} {height : Nat}
    (hR : ∀ full t, R.get? full = some t → (Schema.named t).Bounded all height) {calls : Nat}
    {used available : List Slot} {d : Datum} {s : Schema} (hs : s.Bounded all height)
    (hused : ∀ σ ∈ all, σ ∈ available ↔ σ ∉ used)
    (hcalls : 3 * (height + 1) * available.toFinset.card + 3 * d.height + s.rank ≤ calls) :
    checkWithin R calls used d s = some (check R (defaultStands R available) d s) := by
  induction calls generalizing used available d s with
  | zero =>
    have hrank := s.rank_pos
    omega
  | succ calls ih =>
    refine Attempt.level_eq (fun σ hσ => hused σ (hs.own_slot hσ)) (fun d' c hlt hc => ?part)
      (fun σ hσ f hf v hv hmem => ?default) (fun branches heq b hb => ?branch)
      (fun full tag t heq ht => ?reference)
    case part =>
      have hrank := c.rank_le
      have hpos := s.rank_pos
      exact ih (hs.of_child hc) hused (by omega)
    case default =>
      have hrank := f.type.rank_le
      have hpos := s.rank_pos
      have hheight : (Datum.ofJson v).height ≤ height := hs.own_default hf hv
      have hcard := Slot.card_without hmem
      refine ih (hs.of_child (Schema.type_mem_children hf)) (fun τ hτ => ?_) ?_
      · rw [Slot.mem_without_iff, hused τ hτ, List.mem_cons, not_or, and_comm]
      · rw [← hcard, Nat.mul_succ] at hcalls
        omega
    case branch =>
      subst heq
      have hfault := hs.rules _ (Schema.mem_nodes_self _)
      obtain ⟨hbranches, -⟩ := Schema.firstFault?_branchFault_eq_none_iff.mp hfault
      have hrank := Schema.rank_le_of_not_union (hbranches _ hb)
      refine ih (hs.of_child hb) hused ?_
      simp only [Schema.rank] at hcalls
      omega
    case reference =>
      subst heq
      refine ih (hR full t ht) hused ?_
      simp only [Schema.rank] at hcalls ⊢
      omega

/-- A definition of a registry has its slots and its defaults among those of the registry. -/
theorem Registry.Built.bounded {R : Registry} (hR : R.Built) {all : List Slot} {height : Nat}
    (hslots : ∀ σ ∈ R.slots, σ ∈ all) (hdefaults : ∀ d ∈ R.defaults, d.height ≤ height)
    {full : String} {t : Definition} (ht : R.get? full = some t) :
    (Schema.named t).Bounded all height := by
  have hentry : (full, Entry.defined t) ∈ R.entries :=
    Entries.mem_of_lookup_eq_some (get?_eq_some_iff.mp ht)
  refine ⟨hR.rules ht, fun σ hσ => hslots σ ?_, fun d hd => hdefaults d ?_⟩
  · exact List.mem_flatMap.mpr ⟨_, hentry, hσ⟩
  · exact List.mem_flatMap.mpr ⟨_, hentry, hd⟩

/-- So many calls or more are enough for a whole check. -/
theorem checkWithin_of_le {R : Registry} (hR : R.Built) {s : Schema} (hs : s.Built) (d : Datum)
    {calls : Nat} (hcalls : 3 * (greatestNesting R s d + 1) * (slotCount R s + 1) ≤ calls) :
    checkWithin R calls [] d s = some (validate R s d) := by
  have hnesting : ∀ d' ∈ d :: (s.defaults ++ R.defaults),
      d'.height ≤ greatestNesting R s d := fun d' hd' => Datum.height_le_greatestHeight hd'
  have hd : d.height ≤ greatestNesting R s d := hnesting d List.mem_cons_self
  have hbounded : s.Bounded (s.slots ++ R.slots) (greatestNesting R s d) := by
    refine ⟨hs.rules, fun σ hσ => List.mem_append_left _ hσ, fun d' hd' => hnesting d' ?_⟩
    exact List.mem_cons_of_mem _ (List.mem_append_left _ hd')
  have hrank := s.rank_le
  refine checkWithin_eq_check (fun full t ht => hR.bounded (fun σ hσ => ?_) (fun d' hd' => ?_) ht)
    hbounded (by simp) ?_
  · exact List.mem_append_right _ hσ
  · exact hnesting d' (List.mem_cons_of_mem _ (List.mem_append_right _ hd'))
  · rw [Nat.mul_succ (3 * (greatestNesting R s d + 1)), slotCount] at hcalls
    omega

/-- **A check terminates, within a depth that is known beforehand.**  For whatever schema and
registry can be made and every datum, no more than `3 * (D + 1) * (P + 1)` calls stand inside one
another, where `P` is the number of slots in the schema and the registry and `D` the greatest
nesting in the datum and the defaults: with so many calls the check is never cut off, and it gives
what `validate` gives. -/
theorem checkWithin_eq_validate {R : Registry} (hR : R.Built) {s : Schema} (hs : s.Built)
    (d : Datum) :
    checkWithin R (3 * (greatestNesting R s d + 1) * (slotCount R s + 1)) [] d s =
      some (validate R s d) :=
  checkWithin_of_le hR hs d (Nat.le_refl _)

namespace Example

/-- A record whose one default leads back to itself, through a union and a reference. -/
def ringJson : Json :=
  .obj [
    ("fields", .arr [.obj [("default", .obj []), ("name", .str "next"),
      ("type", .arr [.str "Ring"])]]),
    ("name", .str "Ring"), ("type", .str "record")]

def ring : Definition :=
  ⟨⟨"Ring", by decide⟩, none, .record .record [
    ⟨"next", .union [.reference "Ring" .record], some (.obj []), none, none⟩]⟩

def ringRegistry : Registry :=
  Registry.empty.define ring

/-- A union of one branch, the ring. -/
def ringUnion : Schema :=
  .union [.reference "Ring" .record]

end Example

/-- With one slot and data of height 0 there are six calls.  The check of the empty map as a ring
takes all of them: the union, the reference and the record, and again for the default. -/
theorem checkWithin_eq_validate_ring :
    checkWithin Example.ringRegistry 6 [] (.map []) Example.ringUnion =
      some (validate Example.ringRegistry Example.ringUnion (.map [])) ∧
    checkWithin Example.ringRegistry 5 [] (.map []) Example.ringUnion = none := by
  have hread : (Call.value 64 none Example.ringJson).read .empty =
      .ok (.named Example.ring, Example.ringRegistry) := by rfl
  have hR : Example.ringRegistry.Built := .read .empty hread
  have hmake : Schema.unionOf [.reference "Ring" .record] = .ok Example.ringUnion := by rfl
  have hs : Example.ringUnion.Built := .union (by simp [Schema.Built.reference]) hmake
  have hslots : slotCount Example.ringRegistry Example.ringUnion = 1 := by decide
  have hnesting : greatestNesting Example.ringRegistry Example.ringUnion (.map []) = 0 := by decide
  have hsix := checkWithin_eq_validate hR hs (.map [])
  rw [hslots, hnesting] at hsix
  exact ⟨hsix, by rfl⟩

end Avro
