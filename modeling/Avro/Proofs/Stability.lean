/-
# Stability: what a registry gains makes no difference to what was read

A check looks up the names that it meets, in the registry that is passed to it, through references
and defaults.  If the registry has an entry for every reference in the schema, and for every
reference in its own definitions, the check never meets another name; and since the entries do not
change, it comes to the same result in every registry that this one grows into.  An entry need not
be a definition for that: a name that is taken and not completed will never be completed.

What is at hand for defaults is more in the larger registry, but the slots that are new are slots
that the check does not ask for.

* `Registry.KnowsOwn`: the registry has an entry for every reference in its own definitions.
* `bisimulation_of_grows`: what a check meets is the same in both, so that its results are.
* `validate_eq_of_grows`: the whole of the result, for a schema whose references are known.
* `isValid_of_grows`: whatever the references are, a datum that is valid stays valid.
* `Session.validate_after`: so later operations do not change the results for what was read earlier.
-/
import Mathlib
import Avro.Proofs.Growth
import Avro.Proofs.Likeness
import Avro.Proofs.Termination

namespace Avro

open Registry (Grows)

/-! ## 1. What a check may meet -/

namespace Registry

/-- Every reference in a definition of the registry is the name of an entry, with its tag. -/
def KnowsOwn (R : Registry) : Prop :=
  ∀ full t, R.get? full = some t → R.Knows (.named t)

/-- The references in a schema are known, and its slots are among these. -/
structure Encloses (R : Registry) (slots : List Slot) (s : Schema) : Prop where
  known : R.Knows s
  slots : ∀ σ ∈ s.slots, σ ∈ slots

variable {R : Registry} {slots : List Slot} {s : Schema}

theorem Encloses.of_child (h : R.Encloses slots s) {c : Schema} (hc : c ∈ s.children) :
    R.Encloses slots c where
  known := h.known.of_mem (Schema.mem_nodes_of_child hc (Schema.mem_nodes_self c))
  slots := fun σ hσ => h.slots σ (Schema.mem_slots_of_child hc hσ)

/-- The slots of a registry are those of its definitions. -/
theorem exists_of_mem_slots {σ : Slot} (hσ : σ ∈ R.slots) :
    ∃ full t, R.get? full = some t ∧ σ ∈ (Schema.named t).slots := by
  obtain ⟨⟨full, e⟩, he, hσ⟩ := List.mem_flatMap.mp hσ
  cases e with
  | declared tag => simp at hσ
  | defined t => exact ⟨full, t, get?_eq_some_iff.mpr (find?_of_mem_entries he), hσ⟩

theorem Grows.mem_slots {R' : Registry} (h : R.Grows R') {σ : Slot} (hσ : σ ∈ R.slots) :
    σ ∈ R'.slots := by
  obtain ⟨full, t, ht, hσ⟩ := exists_of_mem_slots hσ
  exact mem_slots_of_get? (h.get? ht) hσ

end Registry

/-! ## 2. Checks in a registry that has grown -/

section Grows

variable {R R' : Registry} {slots : List Slot}

/-- **A check that meets known names only** meets the same in a registry that has grown. -/
theorem bisimulation_of_grows (hgrows : R.Grows R')
    (hR : ∀ full t, R.get? full = some t → R.Encloses slots (.named t)) :
    Bisimulation R R' (fun σ => σ ∈ slots) fun s t => s = t ∧ R.Encloses slots s := by
  refine .diagonal (fun s hs c hc => hs.of_child hc) (fun full tag hs => ?_)
    (fun full tag t _ ht => hR full t ht) (fun s hs σ hσ => hs.slots σ (Schema.mem_slots_of_own hσ))
  -- the entry is known, so it is the same in both registries
  have htag : R.tag? full = some tag := hs.known full tag (Schema.mem_nodes_self _)
  rw [Registry.tag?, Option.map_eq_some_iff] at htag
  obtain ⟨e, he, -⟩ := htag
  rw [Registry.get?, Registry.get?, he, hgrows full e he]

/-- **What a registry gains changes no result.**  The references in the schema are known, and so are
those in the definitions that the registry had before. -/
theorem validate_eq_of_grows (hgrows : R.Grows R') (hR : R.KnowsOwn) {s : Schema} (hs : R.Knows s)
    (d : Datum) : validate R' s d = validate R s d := by
  have hdefinitions : ∀ full t, R.get? full = some t →
      R.Encloses (s.slots ++ R.slots) (.named t) := fun full t ht =>
    ⟨hR full t ht, fun σ hσ => List.mem_append_right _ (Registry.mem_slots_of_get? ht hσ)⟩
  have hschema : R.Encloses (s.slots ++ R.slots) s :=
    ⟨hs, fun σ hσ => List.mem_append_left _ hσ⟩
  have halike : ∀ σ ∈ s.slots ++ R.slots, σ ∈ s.slots ++ R.slots ↔ σ ∈ s.slots ++ R'.slots := by
    intro σ hσ
    refine iff_of_true hσ ?_
    rcases List.mem_append.mp hσ with hσ | hσ
    · exact List.mem_append_left _ hσ
    · exact List.mem_append_right _ (hgrows.mem_slots hσ)
  exact ((bisimulation_of_grows hgrows hdefinitions).check_eq halike ⟨rfl, hschema⟩ d).symm

/-- The default of a field is as valid as it was before. -/
theorem defaultIsValid_eq_of_grows (hgrows : R.Grows R') (hR : R.KnowsOwn) {f : Field}
    (hf : R.Knows f.type) : f.defaultIsValid R' = f.defaultIsValid R := by
  rw [Field.defaultIsValid, Field.defaultIsValid]
  cases f.default with
  | none => rfl
  | some v =>
    simp only [isValid]
    rw [validate_eq_of_grows hgrows hR hf]

/-! ## 3. Valid data stay valid -/

/-- A check that passes does so where there are more definitions and more defaults stand. -/
theorem check_of_grows {stands stands' : String → Field → Bool} (hgrows : R.Grows R')
    (hstands : ∀ owner f, stands owner f = true → stands' owner f = true) {d : Datum} {s : Schema}
    (h : check R stands d s = .ok ()) : check R' stands' d s = .ok () := by
  have hfields : ∀ (fields : List Field) owner entries,
      (∀ f ∈ fields, ∀ d, entries.lookup f.name = some d → check R' stands' d f.type = .ok ()) →
      (∀ f ∈ fields, entries.lookup f.name = none →
        f.default.isSome = true ∧ stands owner f = true) →
      ∀ f ∈ fields, checkField R' stands' entries owner f = .ok () := by
    intro fields owner entries hpresent habsent f hf
    refine checkField_eq_ok_iff.mpr ?_
    cases hlookup : entries.lookup f.name with
    | some d => exact .inl ⟨d, rfl, hpresent f hf d hlookup⟩
    | none =>
      obtain ⟨hdefault, hstand⟩ := habsent f hf hlookup
      exact .inr ⟨rfl, hdefault, hstands owner f hstand⟩
  refine check_induction (P := fun d s => check R' stands' d s = .ok ())
    ?primitive ?enum ?fixed ?record ?request ?array ?map ?union ?reference d s h
  case primitive =>
    intro p d hp
    exact check_primitive_eq_ok_iff.mpr (checkPrimitive_eq_ok_iff.mpr hp)
  case enum =>
    intro name doc symbols s hs
    exact check_enum_eq_ok_iff.mpr (checkSymbol_eq_ok_iff.mpr ⟨s, rfl, hs⟩)
  case fixed =>
    intro name doc size d hd
    exact check_fixed_eq_ok_iff.mpr (checkSize_eq_ok_iff.mpr hd)
  case record =>
    intro name doc kind fields entries hpresent habsent
    exact check_record_eq_ok_iff.mpr
      ⟨entries, rfl, hfields fields name.full entries hpresent habsent⟩
  case request =>
    intro fields entries hpresent habsent
    exact check_request_eq_ok_iff.mpr
      ⟨entries, rfl, hfields fields Schema.requestOwner entries hpresent habsent⟩
  case array =>
    intro items ds hall
    exact check_array_eq_ok_iff.mpr ⟨ds, rfl, hall⟩
  case map =>
    intro values entries hall
    exact check_map_eq_ok_iff.mpr ⟨entries, rfl, hall⟩
  case union =>
    intro branches b d hb hcheck
    exact check_union_eq_ok_iff.mpr ⟨b, hb, hcheck⟩
  case reference =>
    intro full tag t d ht hcheck
    exact check_reference_eq_ok_iff.mpr ⟨t, hgrows.get? ht, hcheck⟩

theorem defaultStands_of_grows (hgrows : R.Grows R') {available available' : List Slot}
    (hsub : ∀ σ ∈ available, σ ∈ available') {owner : String} {f : Field}
    (h : defaultStands R available owner f = true) :
    defaultStands R' available' owner f = true := by
  obtain ⟨v, hv, hmem, hcheck⟩ := defaultStands_eq_true_iff.mp h
  refine defaultStands_eq_true_iff.mpr ⟨v, hv, hsub _ hmem, ?_⟩
  refine check_of_grows hgrows (fun owner' g hstands => ?_) hcheck
  refine defaultStands_of_grows hgrows (fun σ hσ => ?_) hstands
  obtain ⟨hσ, hne⟩ := Slot.mem_without_iff.mp hσ
  exact Slot.mem_without_iff.mpr ⟨hsub σ hσ, hne⟩
termination_by available.length
decreasing_by exact Slot.length_without_lt hmem

/-- **A datum that is valid stays valid** when the registry grows.  A reference that led nowhere may
lead somewhere now, but what it led to is the same. -/
theorem isValid_of_grows (hgrows : R.Grows R') {s : Schema} {d : Datum}
    (h : isValid R s d = true) : isValid R' s d = true := by
  rw [isValid, Verdict.accepts_iff, validate] at h ⊢
  refine check_of_grows hgrows (fun owner f hstands => ?_) h
  refine defaultStands_of_grows hgrows (fun σ hσ => ?_) hstands
  rcases List.mem_append.mp hσ with hσ | hσ
  · exact List.mem_append_left _ hσ
  · exact List.mem_append_right _ (hgrows.mem_slots hσ)

end Grows

/-! ## 4. Sessions -/

/-- What has been read is known, and the definitions of the registry are known. -/
structure Session.Known (c : Session) : Prop where
  own : c.registry.KnowsOwn
  schemas : ∀ s ∈ c.schemas, c.registry.Knows s

/-- **Operations that register nothing** leave a registry that knows the references in all its
definitions and in all the schemas that have been read. -/
theorem Session.known_after {ops : List Operation} (hops : ∀ op ∈ ops, op.isRegister = false) :
    (start.after ops).Known := by
  refine after_induction (P := Known) (fun c op s? R hop hc h => ?_) ⟨nofun, nofun⟩
  have hgrows : c.registry.Grows R := h.grows
  cases h with
  | @read call s R hread =>
    have hadds : c.registry.Adds s.definitions R := Call.read_adds hread
    have hs : R.Knows s := Call.read_knows hread
    refine ⟨fun full t ht => ?_, fun u hu => ?_⟩
    · by_cases hnew : full ∈ s.definitions.map Definition.full
      · obtain ⟨d, hd, rfl⟩ := List.mem_map.mp hnew
        rw [Registry.get?_eq_some_iff, hadds.defined d hd] at ht
        cases ht
        exact hs.of_mem (Schema.mem_definitions_iff.mp hd)
      · rw [Registry.get?, hadds.kept full hnew] at ht
        exact hgrows.knows (hc.own full t ht)
    · rcases List.mem_append.mp hu with hu | hu
      · exact hgrows.knows (hc.schemas u hu)
      · rw [List.mem_singleton.mp hu]
        exact hs
  | declare hdeclare =>
    obtain ⟨-, rfl⟩ := Registry.declare_eq_ok_iff.mp hdeclare
    refine ⟨fun full t ht => ?_, fun u hu => ?_⟩
    · rw [Registry.get?_put] at ht
      split at ht
      · cases ht
      · exact hgrows.knows (hc.own full t ht)
    · exact hgrows.knows (hc.schemas u (by simpa using hu))
  | register => cases hops _ hop

/-- **Later operations change no result.**  Take a schema that has been read in the course of any
operations but registering.  Whatever is done with the registry afterwards, every datum comes to the
same result, the rejection with both its paths included, and so does the default of every field in
the schema. -/
theorem Session.validate_after (ops : List Operation) (hops : ∀ op ∈ ops, op.isRegister = false)
    (s : Schema) (hs : s ∈ (start.after ops).schemas) (later : List Operation) :
    (∀ d, validate (start.after (ops ++ later)).registry s d =
      validate (start.after ops).registry s d) ∧
    ∀ t ∈ s.nodes, ∀ f ∈ t.fields,
      f.defaultIsValid (start.after (ops ++ later)).registry =
        f.defaultIsValid (start.after ops).registry := by
  have hknown : (start.after ops).Known := known_after hops
  have hgrows : (start.after ops).registry.Grows (start.after (ops ++ later)).registry := by
    rw [after_append]
    exact grows_after _ later
  refine ⟨fun d => validate_eq_of_grows hgrows hknown.own (hknown.schemas s hs) d,
    fun t ht f hf => defaultIsValid_eq_of_grows hgrows hknown.own ?_⟩
  refine (hknown.schemas s hs).of_mem (Schema.mem_nodes_trans ht ?_)
  exact Schema.mem_nodes_of_child (Schema.type_mem_children hf) (Schema.mem_nodes_self _)

namespace Example

def later : Name :=
  ⟨"Later", by decide⟩

/-- A name is taken, and the record that is read next has a field of that type. -/
def earlierOperations : List Operation :=
  [.declare later .fixed,
    .read (.value 64 none (.obj [
      ("fields", .arr [
        .obj [("default", .str "x"), ("name", .str "size"), ("type", .obj [
          ("name", .str "Size"), ("size", .num (.int 1)), ("type", .str "fixed")])],
        .obj [("name", .str "next"), ("type", .str "Later")]]),
      ("name", .str "Page"), ("type", .str "record")]))]

def page : Schema :=
  .named ⟨⟨"Page", by decide⟩, none, .record .record [
    ⟨"size", .named ⟨⟨"Size", by decide⟩, none, .fixed 1⟩, some (.str "x"), none, none⟩,
    ⟨"next", .reference "Later" .fixed, none, none, none⟩]⟩

/-- The name that is taken is registered, which fails, and so is another one, which does not. -/
def laterOperations : List Operation :=
  [.register (.named ⟨later, none, .fixed 1⟩),
    .register (.named ⟨⟨"Other", by decide⟩, none, .fixed 1⟩)]

end Example

/-- The registry does grow, but the field whose type was not complete is refused as before. -/
theorem Session.validate_after_page :
    (start.after Example.earlierOperations).registry.names = ["Later", "Page", "Size"] ∧
    (start.after (Example.earlierOperations ++ Example.laterOperations)).registry.names =
      ["Later", "Other", "Page", "Size"] ∧
    validate (start.after (Example.earlierOperations ++ Example.laterOperations)).registry
      Example.page (.map [("next", .string "x")]) =
      .error ⟨.unresolvedReference "Later", [.key "next"],
        ["record:Page", "field:next"]⟩ := by
  have hops : ∀ op ∈ Example.earlierOperations, op.isRegister = false := by decide
  have hmem : Example.page ∈ (start.after Example.earlierOperations).schemas := by
    have hschemas : (start.after Example.earlierOperations).schemas = [Example.page] := by rfl
    rw [hschemas]
    exact List.mem_cons_self
  have hsame := (validate_after Example.earlierOperations hops Example.page hmem
    Example.laterOperations).1 (.map [("next", .string "x")])
  refine ⟨by rfl, by rfl, ?_⟩
  rw [hsame]
  cbv

end Avro
