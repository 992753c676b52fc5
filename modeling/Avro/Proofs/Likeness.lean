/-
# Likeness: schemas that a check cannot tell apart

A check looks at the root of a schema, or of the definition behind a reference, and goes on to the
schemas directly below.  So two schemas come to the same result if their roots are alike and the
schemas directly below are related by a relation that sees to the same of whatever it relates.  This
is not an induction on the schemas, which may lead back to themselves: the datum gets smaller.

The relation may be between schemas in two registries, and the slots at hand for defaults may
differ, as long as they do not in the slots that are asked for.

* `Schema.Alike rel`: the same at the root, with schemas directly below that are related.
* `Bisimulation`: a relation that sees to it that what it relates is alike.
* `Bisimulation.check_eq`: what it relates comes to the same results, with both paths.
* `check_eq_validate`: more slots at hand than a check may ask for make no difference.
-/
import Mathlib.Data.List.Forall2
import Avro.Proofs.Defaults

namespace Avro

/-! ## 1. Alike at the root -/

theorem map_eq_map_of_forall₂ {α β γ : Type} {r : α → β → Prop} {f : α → γ} {g : β → γ}
    {as : List α} {bs : List β} (h : List.Forall₂ r as bs) (hr : ∀ a b, r a b → g b = f a) :
    bs.map g = as.map f := by
  induction h with
  | nil => rfl
  | cons hab _ ih => rw [List.map_cons, List.map_cons, hr _ _ hab, ih]

theorem exists_of_forall₂ {α β : Type} {r : α → β → Prop} {as : List α} {bs : List β}
    (h : List.Forall₂ r as bs) {b : β} (hb : b ∈ bs) : ∃ a ∈ as, r a b := by
  induction h with
  | nil => cases hb
  | @cons a b' as bs hab _ ih =>
    rcases List.mem_cons.mp hb with rfl | hb
    · exact ⟨a, List.mem_cons_self, hab⟩
    · obtain ⟨a', ha', hr⟩ := ih hb
      exact ⟨a', List.mem_cons_of_mem _ ha', hr⟩

/-- Fields that differ in nothing but their types, which are related. -/
inductive Field.Alike (rel : Schema → Schema → Prop) : Field → Field → Prop
  | mk (name : String) {type type' : Schema} (default : Option Json) (order : Option FieldOrder)
    (doc : Option String) :
    rel type type' → Alike rel ⟨name, type, default, order, doc⟩ ⟨name, type', default, order, doc⟩

namespace Schema

/-- Schemas that differ in nothing but the schemas directly below, which are related.  Neither is a
reference. -/
inductive Alike (rel : Schema → Schema → Prop) : Schema → Schema → Prop
  | primitive (p : Primitive) : Alike rel (.primitive p) (.primitive p)
  | enum (name : Name) (doc : Option String) (symbols : List String) :
    Alike rel (.named ⟨name, doc, .enum symbols⟩) (.named ⟨name, doc, .enum symbols⟩)
  | fixed (name : Name) (doc : Option String) (size : UInt64) :
    Alike rel (.named ⟨name, doc, .fixed size⟩) (.named ⟨name, doc, .fixed size⟩)
  | record (name : Name) (doc : Option String) (kind : RecordKind) {fields fields' : List Field} :
    List.Forall₂ (Field.Alike rel) fields fields' →
    Alike rel (.named ⟨name, doc, .record kind fields⟩) (.named ⟨name, doc, .record kind fields'⟩)
  | array {items items' : Schema} : rel items items' → Alike rel (.array items) (.array items')
  | map {values values' : Schema} : rel values values' → Alike rel (.map values) (.map values')
  | union {branches branches' : List Schema} :
    List.Forall₂ rel branches branches' → Alike rel (.union branches) (.union branches')
  | request {fields fields' : List Field} :
    List.Forall₂ (Field.Alike rel) fields fields' → Alike rel (.request fields) (.request fields')

variable {rel : Schema → Schema → Prop}

theorem fields_alike_self {fields : List Field} (h : ∀ f ∈ fields, rel f.type f.type) :
    List.Forall₂ (Field.Alike rel) fields fields := by
  refine List.forall₂_same.mpr fun f hf => ?_
  obtain ⟨name, type, default, order, doc⟩ := f
  exact .mk name default order doc (h _ hf)

/-- A schema that is no reference is like itself if the schemas directly below are related to
themselves. -/
theorem alike_self {s : Schema} (hs : ∀ full tag, s ≠ .reference full tag)
    (h : ∀ c ∈ s.children, rel c c) : Alike rel s s := by
  cases s with
  | primitive p => exact .primitive p
  | named t =>
    obtain ⟨name, doc, body⟩ := t
    cases body with
    | record kind fields =>
      exact .record name doc kind (fields_alike_self (List.forall_mem_map.mp h))
    | enum symbols => exact .enum name doc symbols
    | fixed size => exact .fixed name doc size
  | array items => exact .array (h items List.mem_cons_self)
  | map values => exact .map (h values List.mem_cons_self)
  | union branches => exact .union (List.forall₂_same.mpr h)
  | request fields => exact .request (fields_alike_self (List.forall_mem_map.mp h))
  | reference full tag => exact absurd rfl (hs full tag)

theorem Alike.key_eq {s t : Schema} (h : Alike rel s t) : t.key = s.key := by
  cases h <;> rfl

theorem Alike.ne_reference {s t : Schema} (h : Alike rel s t) (full : String) (tag : Tag) :
    t ≠ .reference full tag := by
  cases h <;> nofun

theorem Alike.children {s t : Schema} (h : Alike rel s t) :
    List.Forall₂ rel s.children t.children := by
  have htypes : ∀ {fields fields'}, List.Forall₂ (Field.Alike rel) fields fields' →
      List.Forall₂ rel (fields.map Field.type) (fields'.map Field.type) := fun hfields => by
    rw [List.forall₂_map_left_iff, List.forall₂_map_right_iff]
    exact hfields.imp fun _ _ hf => by cases hf; assumption
  cases h with
  | record name doc kind hfields => exact htypes hfields
  | request hfields => exact htypes hfields
  | union hbranches => exact hbranches
  | array h => exact .cons h .nil
  | map h => exact .cons h .nil
  | _ => exact .nil

end Schema

/-! ## 2. Bisimulations -/

/-- What a check looks at: the definition behind a reference, if there is one, and any other schema
itself. -/
def Registry.behind? (R : Registry) : Schema → Option Schema
  | .reference full _ => (R.get? full).map .named
  | s => some s

/-- A relation between schemas in two registries that relates only what a check sees alike.  Of the
slots that a check may come to, those that it asks for are `asked`. -/
structure Bisimulation (R R' : Registry) (asked : Slot → Prop) (rel : Schema → Schema → Prop) :
    Prop where
  alike : ∀ s t u, rel s t → R.behind? s = some u →
    ∃ v, R'.behind? t = some v ∧ u.Alike rel v ∧ ∀ σ ∈ u.ownSlots, asked σ
  lost : ∀ s t, rel s t → R.behind? s = none → R'.behind? t = none
  key : ∀ s t, rel s t → t.key = s.key

namespace Registry

variable {R : Registry} {s : Schema}

theorem eq_reference_of_behind? (h : R.behind? s = none) :
    ∃ full tag, s = .reference full tag ∧ R.get? full = none := by
  cases s with
  | reference full tag => exact ⟨full, tag, rfl, Option.map_eq_none_iff.mp h⟩
  | _ => cases h

theorem ne_reference_of_behind? {u : Schema} (h : R.behind? s = some u) (full : String)
    (tag : Tag) :
    u ≠ .reference full tag := by
  rintro rfl
  cases s with
  | reference full' tag' =>
    obtain ⟨t, -, heq⟩ := Option.map_eq_some_iff.mp h
    cases heq
  | _ => cases h

theorem behind?_eq_self (h : ∀ full tag, s ≠ .reference full tag) : R.behind? s = some s := by
  cases s with
  | reference full tag => exact absurd rfl (h full tag)
  | _ => rfl

theorem eq_union_of_behind? {branches : List Schema} (h : R.behind? s = some (.union branches)) :
    s = .union branches := by
  cases s with
  | reference full tag =>
    obtain ⟨t, -, heq⟩ := Option.map_eq_some_iff.mp h
    cases heq
  | _ => exact Option.some.inj h

end Registry

section Check

variable {R R' : Registry} {stands stands' : String → Field → Bool} {d : Datum}

theorem check_of_behind? {s u : Schema} (h : R.behind? s = some u) :
    check R stands d s = check R stands d u := by
  cases s with
  | reference full tag =>
    obtain ⟨t, ht, rfl⟩ := Option.map_eq_some_iff.mp h
    rw [check, check, ht]
  | _ => cases h; rfl

theorem checkItems_congr {ds : List Datum} {items items' : Schema} {index : Nat}
    (h : ∀ d ∈ ds, check R stands d items = check R' stands' d items') :
    checkItems R stands index ds items = checkItems R' stands' index ds items' := by
  induction ds generalizing index with
  | nil => rw [checkItems, checkItems]
  | cons d ds ih =>
    obtain ⟨hd, hds⟩ := List.forall_mem_cons.mp h
    rw [checkItems, checkItems, hd, ih hds]

theorem checkEntries_congr {entries : List (String × Datum)} {values values' : Schema}
    (h : ∀ e ∈ entries, check R stands e.2 values = check R' stands' e.2 values') :
    checkEntries R stands entries values = checkEntries R' stands' entries values' := by
  induction entries with
  | nil => rw [checkEntries, checkEntries]
  | cons e entries ih =>
    obtain ⟨he, hentries⟩ := List.forall_mem_cons.mp h
    rw [checkEntries, checkEntries, he, ih hentries]

theorem firstAccepting?_congr {branches branches' : List Schema}
    (h : List.Forall₂ (fun b b' => check R stands d b = check R' stands' d b') branches branches') :
    firstAccepting? R stands d branches = firstAccepting? R' stands' d branches' := by
  induction h with
  | nil => rw [firstAccepting?, firstAccepting?]
  | cons hb _ ih => rw [firstAccepting?, firstAccepting?, hb, ih]

/-- The fields of a record come out alike if their values do and their defaults stand alike. -/
theorem checkFields_congr {rel : Schema → Schema → Prop} {entries : List (String × Datum)}
    {owner : String} {fields fields' : List Field}
    (h : List.Forall₂ (Field.Alike rel) fields fields')
    (hvalue : ∀ s t, rel s t → ∀ e ∈ entries, check R stands e.2 s = check R' stands' e.2 t)
    (hstands : ∀ f f', f ∈ fields → f.default.isSome = true → Field.Alike rel f f' →
      stands owner f = stands' owner f') :
    checkFields R stands entries owner fields = checkFields R' stands' entries owner fields' := by
  induction h with
  | nil => rw [checkFields, checkFields]
  | @cons f f' fields fields' hf _ ih =>
    rw [checkFields_eq_all, checkFields_eq_all, List.map_cons, List.map_cons, Verdict.all_cons,
      Verdict.all_cons, ← checkFields_eq_all, ← checkFields_eq_all,
      ih fun g g' hg => hstands g g' (List.mem_cons_of_mem _ hg)]
    suffices hfield :
        checkField R stands entries owner f = checkField R' stands' entries owner f' by
      rw [hfield]
      cases hf
      rfl
    have hdefault := hstands f f' List.mem_cons_self
    cases hf with
    | @mk name type type' default order doc htype =>
      rw [checkField, checkField]
      cases hlookup : entries.lookup name with
      | some d => exact hvalue type type' htype (name, d) (Entries.mem_of_lookup_eq_some hlookup)
      | none =>
        cases default with
        | none => rfl
        | some v => simp only [checkAbsent, hdefault rfl (.mk name (some v) order doc htype)]

/-- **Like schemas come to the same result** for a datum, if those directly below do for its parts,
and for the datum itself if they are branches. -/
theorem Schema.Alike.check_eq {rel : Schema → Schema → Prop} {s t : Schema} (h : s.Alike rel t)
    (hkey : ∀ u v, rel u v → v.key = u.key)
    (hstands : ∀ owner f f', (owner, f.name) ∈ s.ownSlots → Field.Alike rel f f' →
      stands owner f = stands' owner f')
    (hparts : ∀ d' u v, sizeOf d' < sizeOf d → rel u v →
      check R stands d' u = check R' stands' d' v)
    (hbranches : ∀ branches, s = .union branches → ∀ b ∈ branches, ∀ b', rel b b' →
      check R stands d b = check R' stands' d b') :
    check R stands d s = check R' stands' d t := by
  -- the fields of a record or a request, whose values are parts of the datum
  have hfields : ∀ owner entries fields fields', d = .map entries →
      List.Forall₂ (Field.Alike rel) fields fields' → s.ownSlots = Field.slots owner fields →
      checkFields R stands entries owner fields =
        checkFields R' stands' entries owner fields' := by
    rintro owner entries fields fields' rfl hall hslots
    refine checkFields_congr hall (fun u v huv e he => hparts e.2 u v (Datum.sizeOf_lt_map he) huv)
      fun f f' hf hsome hff' => hstands owner f f' ?_ hff'
    rw [hslots]
    exact Field.mem_slots_iff.mpr ⟨f, hf, hsome, rfl⟩
  cases h with
  | primitive p => rw [check, check]
  | enum name doc symbols => rw [check, check, checkDefinition, checkDefinition]
  | fixed name doc size => rw [check, check, checkDefinition, checkDefinition]
  | @record name doc kind fields fields' hall =>
    rw [check, check, checkDefinition, checkDefinition]
    cases d with
    | map entries => exact congrArg _ (hfields name.full entries fields fields' rfl hall rfl)
    | _ => rfl
  | @array items items' hitems =>
    cases d with
    | array ds =>
      rw [check, check]
      exact congrArg _ (checkItems_congr fun d hd =>
        hparts d items items' (Datum.sizeOf_lt_array hd) hitems)
    | _ => simp only [check]
  | @map values values' hvalues =>
    cases d with
    | map entries =>
      rw [check, check]
      exact congrArg _ (checkEntries_congr fun e he =>
        hparts e.2 values values' (Datum.sizeOf_lt_map he) hvalues)
    | _ => simp only [check]
  | @union branches branches' hall =>
    have hlabels : branches'.map Schema.label = branches.map Schema.label :=
      map_eq_map_of_forall₂ hall fun b b' hb => congrArg Schema.Key.text (hkey b b' hb)
    have haccepting : firstAccepting? R stands d branches =
        firstAccepting? R' stands' d branches' := by
      refine firstAccepting?_congr (List.forall₂_iff_zip.mpr ⟨hall.length_eq, fun hmem => ?_⟩)
      exact hbranches branches rfl _ (List.of_mem_zip hmem).1 _ (List.forall₂_zip hall hmem)
    rw [check, check, haccepting, hlabels]
  | @request fields fields' hall =>
    cases d with
    | map entries =>
      rw [check, check]
      exact congrArg _ (hfields Schema.requestOwner entries fields fields' rfl hall rfl)
    | _ => simp only [check]

end Check

namespace Bisimulation

variable {R R' : Registry} {asked : Slot → Prop} {rel : Schema → Schema → Prop}

/-- **What is related comes to the same result**, if the defaults of like fields stand alike. -/
theorem check_eq_of_stands (h : Bisimulation R R' asked rel)
    {stands stands' : String → Field → Bool}
    (hstands : ∀ owner f f', asked (owner, f.name) → Field.Alike rel f f' →
      stands owner f = stands' owner f') (d : Datum) (s : Schema) :
    ∀ t, rel s t → check R stands d s = check R' stands' d t := by
  induction d, s using walk_induction with
  | step d s ihd ihs =>
    intro t hrel
    cases hu : R.behind? s with
    | none =>
      have hkey : t.key = s.key := h.key s t hrel
      obtain ⟨full, tag, rfl, hs⟩ := Registry.eq_reference_of_behind? hu
      obtain ⟨full', tag', rfl, ht⟩ := Registry.eq_reference_of_behind? (h.lost _ t hrel hu)
      cases hkey
      rw [check, check, hs, ht]
    | some u =>
      obtain ⟨v, hv, halike, hasked⟩ := h.alike s t u hrel hu
      rw [check_of_behind? hu, check_of_behind? hv]
      refine halike.check_eq h.key (fun owner f f' hf => hstands owner f f' (hasked _ hf))
        (fun d' s t hlt hst => ihd d' s hlt t hst) ?_
      -- a union stands behind no reference, so that its branches are smaller
      rintro branches rfl b hb b' hbb'
      obtain rfl := Registry.eq_union_of_behind? hu
      exact ihs b (Schema.sizeOf_lt_union hb) b' hbb'

/-- The default of a field stands alike where the slots that are asked for are at hand alike. -/
theorem defaultStands_eq (h : Bisimulation R R' asked rel) {available available' : List Slot}
    (hslots : ∀ σ, asked σ → (σ ∈ available ↔ σ ∈ available')) {owner : String} {f f' : Field}
    (hasked : asked (owner, f.name)) (hf : Field.Alike rel f f') :
    defaultStands R available owner f = defaultStands R' available' owner f' := by
  cases hf with
  | @mk name type type' default order doc htype =>
    rw [defaultStands, defaultStands]
    cases default with
    | none => rfl
    | some v =>
      by_cases hmem : (owner, name) ∈ available
      · have hmem' : (owner, name) ∈ available' := (hslots _ hasked).mp hmem
        simp only [dif_pos hmem, dif_pos hmem']
        -- one slot less is at hand on both sides
        have hrest : ∀ σ, asked σ → (σ ∈ Slot.without (owner, name) available ↔
            σ ∈ Slot.without (owner, name) available') := by
          intro σ hσ
          rw [Slot.mem_without_iff, Slot.mem_without_iff, hslots σ hσ]
        have hstands : ∀ owner' g g', asked (owner', g.name) → Field.Alike rel g g' →
            defaultStands R (Slot.without (owner, name) available) owner' g =
              defaultStands R' (Slot.without (owner, name) available') owner' g' :=
          fun owner' g g' hg hgg' => defaultStands_eq h hrest hg hgg'
        rw [h.check_eq_of_stands hstands (.ofJson v) type type' htype]
      · have hmem' : (owner, name) ∉ available' := fun h => hmem ((hslots _ hasked).mpr h)
        simp only [dif_neg hmem, dif_neg hmem']
termination_by available.length
decreasing_by exact Slot.length_without_lt hmem

/-- **What is related comes to the same result** where the slots that are asked for are at hand
alike. -/
theorem check_eq (h : Bisimulation R R' asked rel) {available available' : List Slot}
    (hslots : ∀ σ, asked σ → (σ ∈ available ↔ σ ∈ available')) {s t : Schema} (hrel : rel s t)
    (d : Datum) :
    check R (defaultStands R available) d s = check R' (defaultStands R' available') d t := by
  have hstands : ∀ owner f f', asked (owner, f.name) → Field.Alike rel f f' →
      defaultStands R available owner f = defaultStands R' available' owner f' :=
    fun owner f f' hasked hf => h.defaultStands_eq hslots hasked hf
  exact h.check_eq_of_stands hstands d s t hrel

end Bisimulation

/-! ## 3. A schema beside itself -/

section Diagonal

variable {R R' : Registry} {asked : Slot → Prop}

/-- A property that goes down to whatever a check comes to makes a bisimulation of every such schema
with itself, if the registries agree on the names that it comes to. -/
theorem Bisimulation.diagonal {P : Schema → Prop} (hchild : ∀ s, P s → ∀ c ∈ s.children, P c)
    (hget : ∀ full tag, P (.reference full tag) → R'.get? full = R.get? full)
    (hbehind : ∀ full tag t, P (.reference full tag) → R.get? full = some t → P (.named t))
    (hasked : ∀ s, P s → ∀ σ ∈ s.ownSlots, asked σ) :
    Bisimulation R R' asked fun s t => s = t ∧ P s where
  alike := by
    rintro s _ u ⟨rfl, hs⟩ hu
    have hPu : P u := by
      cases s with
      | reference full tag =>
        obtain ⟨t, ht, rfl⟩ := Option.map_eq_some_iff.mp hu
        exact hbehind full tag t hs ht
      | _ => cases hu; exact hs
    refine ⟨u, ?_, Schema.alike_self (Registry.ne_reference_of_behind? hu)
      fun c hc => ⟨rfl, hchild u hPu c hc⟩, hasked u hPu⟩
    cases s with
    | reference full tag => rw [Registry.behind?, hget full tag hs, ← Registry.behind?, hu]
    | _ => exact hu
  lost := by
    rintro s _ ⟨rfl, hs⟩ hu
    obtain ⟨full, tag, rfl, hnone⟩ := Registry.eq_reference_of_behind? hu
    rw [Registry.behind?, hget full tag hs, hnone]
    rfl
  key := by
    rintro s _ ⟨rfl, -⟩
    rfl

/-- A definition has its slots among those of the registry. -/
theorem Registry.mem_slots_of_get? {full : String} {t : Definition} (ht : R.get? full = some t)
    {σ : Slot} (hσ : σ ∈ (Schema.named t).slots) : σ ∈ R.slots := by
  have hentry : (full, Entry.defined t) ∈ R.entries :=
    Entries.mem_of_lookup_eq_some (get?_eq_some_iff.mp ht)
  exact List.mem_flatMap.mpr ⟨_, hentry, hσ⟩

theorem Schema.mem_slots_of_child {s c : Schema} (hc : c ∈ s.children) {σ : Slot}
    (hσ : σ ∈ c.slots) : σ ∈ s.slots := by
  obtain ⟨t, ht, hσ⟩ := List.mem_flatMap.mp hσ
  exact List.mem_flatMap.mpr ⟨t, mem_nodes_of_child hc ht, hσ⟩

/-- **More slots at hand make no difference.**  A check asks for those of the schema and of the
registry only. -/
theorem check_eq_validate {s : Schema} {available : List Slot}
    (h : ∀ σ ∈ s.slots ++ R.slots, σ ∈ available) (d : Datum) :
    check R (defaultStands R available) d s = validate R s d := by
  -- what a check comes to has its slots among these
  have hdiagonal : Bisimulation R R (fun σ => σ ∈ s.slots ++ R.slots)
      fun u v => u = v ∧ ∀ σ ∈ u.slots, σ ∈ s.slots ++ R.slots :=
    .diagonal (fun u hu c hc σ hσ => hu σ (Schema.mem_slots_of_child hc hσ)) (fun _ _ _ => rfl)
      (fun full tag t _ ht σ hσ => List.mem_append_right _ (Registry.mem_slots_of_get? ht hσ))
      (fun u hu σ hσ => hu σ (Schema.mem_slots_of_own hσ))
  exact hdiagonal.check_eq (fun σ hσ => iff_of_true (h σ hσ) hσ)
    ⟨rfl, fun σ hσ => List.mem_append_left _ hσ⟩ d

end Diagonal

end Avro
