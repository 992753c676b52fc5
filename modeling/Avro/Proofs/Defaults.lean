/-
# Defaults: a default stands exactly if it conforms

`defaultStands` is asked along the way, with some defaults used up already.  In a closed registry
the answer does not depend on that, as long as no field of the registry is among those used up: the
default of a field stands exactly if it conforms to the type of the field.

* `Registry.Closed.mem_slots_iff`: the slots of a closed registry are those of its own fields.
* `check_eq_ok_iff`: with every default of the registry at hand, to pass is to conform.
* `checkField_eq_ok_iff_filled`: a field is in order exactly if it has a value that conforms, its
  own or its default.  It may be a field of the registry, or of an owner that the registry does not
  know.
* `defaultStands_eq_defaultIsValid`: so a default stands exactly if it is valid on its own.
-/
import Avro.Proofs.Conformance

namespace Avro

/-! ## 1. The slots of a closed registry -/

/-- In a lawful tree that is no request none stands anywhere. -/
theorem Schema.Lawful.isRequest_of_mem {s u : Schema} (h : s.Lawful) (hs : s.isRequest = false)
    (hu : u ∈ s.nodes) : u.isRequest = false := by
  induction s using children_induction with
  | step s ih =>
    rcases mem_nodes_iff.mp hu with rfl | ⟨c, hc, hu⟩
    · exact hs
    · have hchild : c.Lawful := h.of_mem (mem_nodes_of_child hc (mem_nodes_self c))
      exact ih c hc hchild (h.requests s (mem_nodes_self s) c hc) hu

theorem Field.mem_slots_iff {owner : String} {fields : List Field} {σ : Slot} :
    σ ∈ Field.slots owner fields ↔
      ∃ f ∈ fields, f.default.isSome = true ∧ σ = (owner, f.name) := by
  simp only [Field.slots, List.mem_map, List.mem_filter]
  constructor
  · rintro ⟨f, ⟨hf, hdefault⟩, rfl⟩
    exact ⟨f, hf, hdefault, rfl⟩
  · rintro ⟨f, hf, hdefault, rfl⟩
    exact ⟨f, ⟨hf, hdefault⟩, rfl⟩

theorem Schema.mem_slots_of_own {s : Schema} {σ : Slot} (h : σ ∈ s.ownSlots) : σ ∈ s.slots :=
  List.mem_flatMap.mpr ⟨s, s.mem_nodes_self, h⟩

namespace Registry

variable {R : Registry}

theorem find?_of_mem_entries {full : String} {e : Entry} (h : (full, e) ∈ R.entries) :
    R.find? full = some e :=
  Entries.Sorted.lookup_of_mem R.sorted h

/-- The slots in a schema that is covered are those of fields that the registry has. -/
theorem Covers.hasField_of_mem_slots {s : Schema} (h : R.Covers s) {full name : String}
    (hσ : (full, name) ∈ s.slots) :
    ∃ f, R.HasField full f ∧ f.name = name ∧ f.default.isSome = true := by
  obtain ⟨u, hu, hσ⟩ := List.mem_flatMap.mp hσ
  cases u with
  | named d =>
    obtain ⟨f, hf, hdefault, heq⟩ := Field.mem_slots_iff.mp hσ
    obtain ⟨rfl, rfl⟩ := Prod.mk.inj heq
    exact ⟨f, ⟨d, h.held d hu, hf⟩, rfl, hdefault⟩
  | request fields =>
    exact absurd (h.lawful.isRequest_of_mem h.schema hu) (by simp [Schema.isRequest])
  | _ => simp [Schema.ownSlots] at hσ

/-- **The slots of a closed registry** are those of the fields that it has. -/
theorem Closed.mem_slots_iff (hR : R.Closed) {full name : String} :
    (full, name) ∈ R.slots ↔
      ∃ f, R.HasField full f ∧ f.name = name ∧ f.default.isSome = true := by
  constructor
  · intro hσ
    obtain ⟨⟨key, e⟩, he, hσ⟩ := List.mem_flatMap.mp hσ
    cases e with
    | declared tag => simp at hσ
    | defined t =>
      have ht : R.get? key = some t := get?_eq_some_iff.mpr (find?_of_mem_entries he)
      exact (hR key t ht).2.hasField_of_mem_slots hσ
  · rintro ⟨f, hf, rfl, hdefault⟩
    exact hR.mem_slots hf hdefault

/-- An owner that the registry does not know has no slot in it. -/
theorem Closed.not_mem_slots (hR : R.Closed) {full : String} (hfull : R.contains full = false)
    (name : String) : (full, name) ∉ R.slots := by
  intro hσ
  obtain ⟨f, ⟨d, hd, -⟩, -⟩ := hR.mem_slots_iff.mp hσ
  rw [contains_eq_false_iff, get?_eq_some_iff.mp hd] at hfull
  cases hfull

end Registry

/-! ## 2. Values of fields -/

/-- The value that a field has in a record with these entries: its own, or else its default. -/
def Field.value? (entries : List (String × Datum)) (f : Field) : Option Datum :=
  (entries.lookup f.name).or (f.default.map Datum.ofJson)

/-- A field has a value, which conforms. -/
def Field.Filled (R : Registry) (entries : List (String × Datum)) (f : Field) : Prop :=
  ∃ d, f.value? entries = some d ∧ Conforms R d f.type

theorem Field.filled_iff {R : Registry} {entries : List (String × Datum)} {f : Field} :
    f.Filled R entries ↔
      (∃ d, entries.lookup f.name = some d ∧ Conforms R d f.type) ∨
      entries.lookup f.name = none ∧ ∃ v, f.default = some v ∧ Conforms R (.ofJson v) f.type := by
  rw [Filled, value?]
  cases entries.lookup f.name with
  | some d => simp
  | none => simp

section Closed

variable {R : Registry} {available : List Slot}

/-- **With every default of the registry at hand, to pass is to conform.** -/
theorem check_eq_ok_iff (hR : R.Closed) (havailable : ∀ σ ∈ R.slots, σ ∈ available) {s : Schema}
    (hs : R.Covers s) {d : Datum} :
    check R (defaultStands R available) d s = .ok () ↔ Conforms R d s :=
  ⟨conforms_of_check hR hs, fun h => check_of_conforms hR havailable h hs⟩

/-- A field that is in order has a value that conforms, whatever defaults have been at hand. -/
theorem filled_of_checkField (hR : R.Closed) {entries : List (String × Datum)} {owner : String}
    {f : Field} (htype : R.Covers f.type)
    (h : checkField R (defaultStands R available) entries owner f = .ok ()) :
    f.Filled R entries := by
  rw [Field.filled_iff]
  rcases checkField_eq_ok_iff.mp h with ⟨d, hd, hcheck⟩ | ⟨hnone, -, hstands⟩
  · exact .inl ⟨d, hd, conforms_of_check hR htype hcheck⟩
  · obtain ⟨v, hv, -, hcheck⟩ := defaultStands_eq_true_iff.mp hstands
    exact .inr ⟨hnone, v, hv, conforms_of_check hR htype hcheck⟩

/-- The default of a field stands if it conforms: the slot of the field is at hand, and either the
registry has the field or the slot is none of the registry's. -/
theorem defaultStands_of_conforms (hR : R.Closed) (havailable : ∀ σ ∈ R.slots, σ ∈ available)
    {owner : String} {f : Field} (htype : R.Covers f.type)
    (hslot : R.HasField owner f ∨ (owner, f.name) ∉ R.slots ∧ (owner, f.name) ∈ available)
    {v : Json} (hv : f.default = some v) (h : Conforms R (.ofJson v) f.type) :
    defaultStands R available owner f = true := by
  rcases hslot with hfield | ⟨hfree, hmem⟩
  · have hmem : (owner, f.name) ∈ available :=
      havailable _ (hR.mem_slots hfield (by rw [hv]; rfl))
    exact defaultStands_of_check hR hfield hmem hv (check_of_conforms hR havailable h htype)
  · refine defaultStands_eq_true_iff.mpr ⟨v, hv, hmem, ?_⟩
    -- using the slot up takes nothing from the registry
    refine check_of_conforms hR (fun σ hσ => Slot.mem_without_iff.mpr ⟨havailable σ hσ, ?_⟩) h htype
    rintro rfl
    exact hfree hσ

/-- **A field is in order exactly if it has a value that conforms.** -/
theorem checkField_eq_ok_iff_filled (hR : R.Closed) (havailable : ∀ σ ∈ R.slots, σ ∈ available)
    {entries : List (String × Datum)} {owner : String} {f : Field} (htype : R.Covers f.type)
    (hslot : f.default.isSome = true →
      R.HasField owner f ∨ (owner, f.name) ∉ R.slots ∧ (owner, f.name) ∈ available) :
    checkField R (defaultStands R available) entries owner f = .ok () ↔ f.Filled R entries := by
  refine ⟨filled_of_checkField hR htype, fun h => checkField_eq_ok_iff.mpr ?_⟩
  rcases Field.filled_iff.mp h with ⟨d, hd, hconforms⟩ | ⟨hnone, v, hv, hconforms⟩
  · exact .inl ⟨d, hd, check_of_conforms hR havailable hconforms htype⟩
  · have hdefault : f.default.isSome = true := by rw [hv]; rfl
    exact .inr ⟨hnone, hdefault,
      defaultStands_of_conforms hR havailable htype (hslot hdefault) hv hconforms⟩

/-- **A default stands exactly if it is valid on its own**, for a field of the registry. -/
theorem defaultStands_eq_defaultIsValid (hR : R.Closed) (havailable : ∀ σ ∈ R.slots, σ ∈ available)
    {full : String} {f : Field} (hf : R.HasField full f) (hdefault : f.default.isSome = true) :
    defaultStands R available full f = f.defaultIsValid R := by
  obtain ⟨v, hv⟩ := Option.isSome_iff_exists.mp hdefault
  have htype : R.Covers f.type := hR.field hf
  rw [Field.defaultIsValid, hv, Bool.eq_iff_iff, isValid_eq_true_iff hR htype]
  constructor
  · intro h
    obtain ⟨w, hw, -, hcheck⟩ := defaultStands_eq_true_iff.mp h
    rw [hv] at hw
    cases hw
    exact conforms_of_check hR htype hcheck
  · exact defaultStands_of_conforms hR havailable htype (.inl hf) hv

end Closed
end Avro
