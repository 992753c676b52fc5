/-
# Conformance: what validity means

`Conforms R d s` says when a datum conforms to a schema, as the least relation that is closed under
one rule for each shape of a schema.  It knows nothing of the order in which `check` works, nor of
the defaults that are used up on the way: a record may leave out a field whose default conforms, and
that is all.

A derivation is finite, so a default that is needed for itself does not conform.  `defaultStands`
refuses a default the second time it comes up on the way to itself.  That loses nothing, since a
derivation that comes to a default twice can be cut short (`defaultStands_without`).

* `check_induction`: what holds of a datum that passes, by the rules.
* `defaultStands_of_check`: a default stands as soon as it passes with itself at hand.
* `conforms_of_check`, `check_of_conforms`: the two directions.
* `isValid_iff_conforms`: the two agree on every schema that is read.
-/
import Mathlib.Data.List.Nodup
import Avro.Proofs.Rules

namespace Avro

/-! ## 1. The relation -/

/-- The data of a primitive type.  An `int` lies between `-2 ^ 31` and `2 ^ 31 - 1`, and a `long`
between `-2 ^ 62` and `2 ^ 62 - 1`. -/
inductive Primitive.Admits : Primitive → Datum → Prop
  | null : Admits .null .null
  | boolean (b : Bool) : Admits .boolean (.bool b)
  | int {n : Int} : -2147483648 ≤ n → n ≤ 2147483647 → Admits .int (.int n)
  | long {n : Int} : -4611686018427387904 ≤ n → n ≤ 4611686018427387903 → Admits .long (.int n)
  | float (x : Binary64) : Admits .float (.float x)
  | floatOfInt (n : Int) : Admits .float (.int n)
  | double (x : Binary64) : Admits .double (.float x)
  | doubleOfInt (n : Int) : Admits .double (.int n)
  | bytes (b : List UInt8) : Admits .bytes (.bytes b)
  | bytesOfString (s : String) : Admits .bytes (.string s)
  | string (s : String) : Admits .string (.string s)
  | stringOfBytes (b : List UInt8) : Admits .string (.bytes b)

/-- A datum conforms to a schema, where `R` has the definitions that references lead to. -/
inductive Conforms (R : Registry) : Datum → Schema → Prop
  | primitive {p : Primitive} {d : Datum} : p.Admits d → Conforms R d (.primitive p)
  | enum {name : Name} {doc : Option String} {symbols : List String} {s : String} :
    s ∈ symbols → Conforms R (.string s) (.named ⟨name, doc, .enum symbols⟩)
  | fixed {name : Name} {doc : Option String} {size : UInt64} {b : List UInt8} :
    b.length = size.toNat → Conforms R (.bytes b) (.named ⟨name, doc, .fixed size⟩)
  | fixedOfString {name : Name} {doc : Option String} {size : UInt64} {s : String} :
    s.utf8ByteSize = size.toNat → Conforms R (.string s) (.named ⟨name, doc, .fixed size⟩)
  /-- Every field that is present has a conforming value, and every field that is absent has a
  default, which conforms. -/
  | record {name : Name} {doc : Option String} {kind : RecordKind} {fields : List Field}
      {entries : List (String × Datum)} :
    (∀ f ∈ fields, ∀ d, entries.lookup f.name = some d → Conforms R d f.type) →
    (∀ f ∈ fields, entries.lookup f.name = none → f.default.isSome = true) →
    (∀ f ∈ fields, ∀ v, entries.lookup f.name = none → f.default = some v →
      Conforms R (.ofJson v) f.type) →
    Conforms R (.map entries) (.named ⟨name, doc, .record kind fields⟩)
  | array {items : Schema} {ds : List Datum} :
    (∀ d ∈ ds, Conforms R d items) → Conforms R (.array ds) (.array items)
  | map {values : Schema} {entries : List (String × Datum)} :
    (∀ e ∈ entries, Conforms R e.2 values) → Conforms R (.map entries) (.map values)
  | union {branches : List Schema} {b : Schema} {d : Datum} :
    b ∈ branches → Conforms R d b → Conforms R d (.union branches)
  | reference {full : String} {tag : Tag} {t : Definition} {d : Datum} :
    R.get? full = some t → Conforms R d (.named t) → Conforms R d (.reference full tag)

theorem checkRange_eq_ok_iff {minimum maximum n : Int} :
    checkRange minimum maximum n = .ok () ↔ minimum ≤ n ∧ n ≤ maximum := by
  unfold checkRange
  split
  · next h => simp [h]
  · next h => simp [h, Verdict.reject]

theorem checkPrimitive_eq_ok_iff {p : Primitive} {d : Datum} :
    checkPrimitive p d = .ok () ↔ p.Admits d := by
  constructor
  · intro h
    unfold checkPrimitive at h
    split at h
    · exact .null
    · exact .boolean _
    · obtain ⟨hmin, hmax⟩ := checkRange_eq_ok_iff.mp h
      exact .int hmin hmax
    · obtain ⟨hmin, hmax⟩ := checkRange_eq_ok_iff.mp h
      exact .long hmin hmax
    · exact .float _
    · exact .floatOfInt _
    · exact .double _
    · exact .doubleOfInt _
    · exact .bytes _
    · exact .bytesOfString _
    · exact .stringOfBytes _
    · exact .string _
    · cases h
  · intro h
    cases h with
    | int hmin hmax => exact checkRange_eq_ok_iff.mpr ⟨hmin, hmax⟩
    | long hmin hmax => exact checkRange_eq_ok_iff.mpr ⟨hmin, hmax⟩
    | _ => rfl

theorem checkSymbol_eq_ok_iff {symbols : List String} {d : Datum} :
    checkSymbol symbols d = .ok () ↔ ∃ s, d = .string s ∧ s ∈ symbols := by
  cases d with
  | string s =>
    simp only [checkSymbol]
    split
    · next h => simp [h]
    · next h => simp [h, Verdict.reject]
  | _ => simp [checkSymbol, mismatch, Verdict.reject]

theorem checkSize_eq_ok_iff {size : Nat} {d : Datum} :
    checkSize size d = .ok () ↔ byteLength? d = some size := by
  unfold checkSize
  split
  · next n hn =>
    rw [hn]
    split
    · next h => simp [h]
    · next h => simp [h, Verdict.reject]
  · next hn => simp [hn, mismatch, Verdict.reject]

/-! ## 2. What holds of a datum that passes -/

section Rules

variable {R : Registry} {stands : String → Field → Bool}

/-- **Induction over a check that passes.**  A relation that is closed under the steps of `check`,
where an absent field is a matter of `stands`, holds of every datum that passes. -/
theorem check_induction {P : Datum → Schema → Prop}
    (primitive : ∀ p d, p.Admits d → P d (.primitive p))
    (enum : ∀ name doc symbols s, s ∈ symbols → P (.string s) (.named ⟨name, doc, .enum symbols⟩))
    (fixed : ∀ name doc size d, byteLength? d = some size.toNat →
      P d (.named ⟨name, doc, .fixed size⟩))
    (record : ∀ name doc kind (fields : List Field) entries,
      (∀ f ∈ fields, ∀ d, entries.lookup f.name = some d → P d f.type) →
      (∀ f ∈ fields, entries.lookup f.name = none →
        f.default.isSome = true ∧ stands name.full f = true) →
      P (.map entries) (.named ⟨name, doc, .record kind fields⟩))
    (request : ∀ (fields : List Field) entries,
      (∀ f ∈ fields, ∀ d, entries.lookup f.name = some d → P d f.type) →
      (∀ f ∈ fields, entries.lookup f.name = none →
        f.default.isSome = true ∧ stands Schema.requestOwner f = true) →
      P (.map entries) (.request fields))
    (array : ∀ items ds, (∀ d ∈ ds, P d items) → P (.array ds) (.array items))
    (map : ∀ values entries, (∀ e ∈ entries, P e.2 values) → P (.map entries) (.map values))
    (union : ∀ branches b d, b ∈ branches → P d b → P d (.union branches))
    (reference : ∀ full tag t d, R.get? full = some t → P d (.named t) →
      P d (.reference full tag))
    (d : Datum) (s : Schema) : check R stands d s = .ok () → P d s := by
  induction d, s using walk_induction with
  | step d s ihd ihs =>
    -- the fields of a record or a request are checked on parts of the datum
    have hfields : ∀ owner (fields : List Field) entries, d = .map entries →
        (∀ f ∈ fields, checkField R stands entries owner f = .ok ()) →
        (∀ f ∈ fields, ∀ d, entries.lookup f.name = some d → P d f.type) ∧
        ∀ f ∈ fields, entries.lookup f.name = none →
          f.default.isSome = true ∧ stands owner f = true := by
      rintro owner fields entries rfl hall
      refine ⟨fun f hf d' hd' => ?_, fun f hf hnone => ?_⟩
      · rcases checkField_eq_ok_iff.mp (hall f hf) with ⟨d'', hd'', hcheck⟩ | ⟨hnone, -⟩
        · rw [hd'] at hd''
          cases hd''
          exact ihd d' f.type (Datum.sizeOf_lt_map (Entries.mem_of_lookup_eq_some hd')) hcheck
        · rw [hd'] at hnone
          cases hnone
      · rcases checkField_eq_ok_iff.mp (hall f hf) with ⟨d'', hd'', -⟩ | ⟨-, hdefault⟩
        · rw [hnone] at hd''
          cases hd''
        · exact hdefault
    have hnamed : ∀ t, check R stands d (.named t) = .ok () → P d (.named t) := by
      intro t h
      obtain ⟨name, doc, body⟩ := t
      cases body with
      | record kind fields =>
        obtain ⟨entries, rfl, hall⟩ := check_record_eq_ok_iff.mp h
        obtain ⟨hpresent, habsent⟩ := hfields name.full fields entries rfl hall
        exact record name doc kind fields entries hpresent habsent
      | enum symbols =>
        obtain ⟨s, rfl, hs⟩ := checkSymbol_eq_ok_iff.mp (check_enum_eq_ok_iff.mp h)
        exact enum name doc symbols s hs
      | fixed size =>
        have hsize : byteLength? d = some size.toNat :=
          checkSize_eq_ok_iff.mp (check_fixed_eq_ok_iff.mp h)
        exact fixed name doc size d hsize
    intro h
    cases s with
    | primitive p =>
      have hp : p.Admits d := checkPrimitive_eq_ok_iff.mp (check_primitive_eq_ok_iff.mp h)
      exact primitive p d hp
    | named t => exact hnamed t h
    | array items =>
      obtain ⟨ds, rfl, hall⟩ := check_array_eq_ok_iff.mp h
      exact array items ds fun x hx => ihd x items (Datum.sizeOf_lt_array hx) (hall x hx)
    | map values =>
      obtain ⟨entries, rfl, hall⟩ := check_map_eq_ok_iff.mp h
      exact map values entries fun e he => ihd e.2 values (Datum.sizeOf_lt_map he) (hall e he)
    | union branches =>
      obtain ⟨b, hb, hcheck⟩ := check_union_eq_ok_iff.mp h
      exact union branches b d hb (ihs b (Schema.sizeOf_lt_union hb) hcheck)
    | request fields =>
      obtain ⟨entries, rfl, hall⟩ := check_request_eq_ok_iff.mp h
      obtain ⟨hpresent, habsent⟩ := hfields Schema.requestOwner fields entries rfl hall
      exact request fields entries hpresent habsent
    | reference full tag =>
      obtain ⟨t, ht, hcheck⟩ := check_reference_eq_ok_iff.mp h
      exact reference full tag t d ht (hnamed t hcheck)

end Rules

/-! ## 3. Registries that are closed -/

namespace Registry

/-- A registry covers a schema if it holds every definition in the tree, and the tree is one that a
reading may give. -/
structure Covers (R : Registry) (s : Schema) : Prop where
  held : ∀ d, .named d ∈ s.nodes → R.get? d.full = some d
  lawful : s.Lawful
  schema : s.isRequest = false

/-- The registry covers its own definitions, each of which stands under its full name. -/
def Closed (R : Registry) : Prop :=
  ∀ full d, R.get? full = some d → d.full = full ∧ R.Covers (.named d)

/-- `f` is a field of the definition of this name. -/
def HasField (R : Registry) (full : String) (f : Field) : Prop :=
  ∃ d, R.get? full = some d ∧ f ∈ d.fields

variable {R : Registry}

theorem Covers.of_child {s c : Schema} (h : R.Covers s) (hc : c ∈ s.children) : R.Covers c where
  held := fun d hd => h.held d (Schema.mem_nodes_of_child hc hd)
  lawful := h.lawful.of_mem (Schema.mem_nodes_of_child hc (Schema.mem_nodes_self c))
  schema := h.lawful.requests s (Schema.mem_nodes_self s) c hc

theorem Covers.field {d : Definition} (h : R.Covers (.named d)) {f : Field} (hf : f ∈ d.fields) :
    R.Covers f.type :=
  h.of_child (List.mem_map.mpr ⟨f, hf, rfl⟩)

/-- The fields of a definition that is covered are those that the registry has under its name. -/
theorem Covers.hasField {d : Definition} (h : R.Covers (.named d)) {f : Field}
    (hf : f ∈ d.fields) : R.HasField d.full f :=
  ⟨d, h.held d (Schema.mem_nodes_self _), hf⟩

theorem Closed.field (hR : R.Closed) {full : String} {f : Field} (h : R.HasField full f) :
    R.Covers f.type := by
  obtain ⟨d, hd, hf⟩ := h
  exact (hR full d hd).2.field hf

/-- **A field is known by its slot**: the name of its owner and its own. -/
theorem Closed.field_ext (hR : R.Closed) {full : String} {f g : Field} (hf : R.HasField full f)
    (hg : R.HasField full g) (hname : f.name = g.name) : f = g := by
  obtain ⟨d, hd, hf⟩ := hf
  obtain ⟨e, he, hg⟩ := hg
  rw [hd] at he
  cases he
  have hnodup : (d.fields.map Field.name).Nodup :=
    (hR full d hd).2.lawful.nodup_fields (Schema.mem_nodes_self _)
  exact List.inj_on_of_nodup_map hnodup hf hg hname

end Registry

/-- After any row of calls the registry is closed. -/
theorem Session.closed_run (calls : List Call) : (Session.run calls).registry.Closed := by
  intro full d hd
  have hcomplete : (Session.run calls).Complete := Session.complete_run calls
  obtain ⟨d', heq, hfull, s, hs, hmem⟩ :=
    hcomplete.finished full _ (Registry.get?_eq_some_iff.mp hd)
  cases heq
  -- the definition stands in a schema that has been read, and all that holds there holds of it
  have hnode : .named d ∈ s.nodes := Schema.mem_definitions_iff.mp hmem
  refine ⟨hfull, fun e he => ?_, (Session.lawful_run calls s hs).of_mem hnode, rfl⟩
  have hdefinition : e ∈ s.definitions :=
    Schema.mem_definitions_iff.mpr (Schema.mem_nodes_trans hnode he)
  exact Registry.get?_eq_some_iff.mpr (hcomplete.held s hs e hdefinition)

/-- After any row of calls the registry covers every schema that has been read. -/
theorem Session.covers_run {calls : List Call} {s : Schema} (hs : s ∈ (Session.run calls).schemas)
    (hschema : s.isRequest = false) : (Session.run calls).registry.Covers s where
  held := fun d hd => Registry.get?_eq_some_iff.mpr
    ((Session.complete_run calls).held s hs d (Schema.mem_definitions_iff.mpr hd))
  lawful := Session.lawful_run calls s hs
  schema := hschema

/-! ## 4. Defaults -/

section Defaults

variable {R : Registry}

theorem Slot.mem_without_iff {slot σ : Slot} {slots : List Slot} :
    σ ∈ slot.without slots ↔ σ ∈ slots ∧ σ ≠ slot := by
  simp [Slot.without]

theorem Slot.without_comm (σ τ : Slot) (slots : List Slot) :
    σ.without (τ.without slots) = τ.without (σ.without slots) := by
  simp only [Slot.without, List.filter_filter, Bool.and_comm]

/-- A default stands if it passes where the defaults still at hand are all but itself. -/
theorem defaultStands_eq_true_iff {available : List Slot} {owner : String} {f : Field} :
    defaultStands R available owner f = true ↔
      ∃ v, f.default = some v ∧ (owner, f.name) ∈ available ∧
        check R (defaultStands R (Slot.without (owner, f.name) available)) (.ofJson v) f.type =
          .ok () := by
  rw [defaultStands]
  split
  · next h => simp [h]
  · next v h =>
    split
    · next hmem => simp [h, hmem, Verdict.accepts_iff]
    · next hmem => simp [h, hmem]

/-- A check that passes still does where more of the registry's defaults stand. -/
theorem check_mono {stands stands' : String → Field → Bool} (hR : R.Closed)
    (hstands : ∀ full f, R.HasField full f → stands full f = true → stands' full f = true)
    {d : Datum} {s : Schema} (hs : R.Covers s) (h : check R stands d s = .ok ()) :
    check R stands' d s = .ok () := by
  suffices hall : R.Covers s → check R stands' d s = .ok () from hall hs
  refine check_induction (P := fun d s => R.Covers s → check R stands' d s = .ok ())
    ?primitive ?enum ?fixed ?record ?request ?array ?map ?union ?reference d s h
  case primitive =>
    intro p d hp _
    exact check_primitive_eq_ok_iff.mpr (checkPrimitive_eq_ok_iff.mpr hp)
  case enum =>
    intro name doc symbols s hs _
    exact check_enum_eq_ok_iff.mpr (checkSymbol_eq_ok_iff.mpr ⟨s, rfl, hs⟩)
  case fixed =>
    intro name doc size d hd _
    exact check_fixed_eq_ok_iff.mpr (checkSize_eq_ok_iff.mpr hd)
  case record =>
    intro name doc kind fields entries hpresent habsent hcovers
    refine check_record_eq_ok_iff.mpr ⟨entries, rfl, fun f hf => checkField_eq_ok_iff.mpr ?_⟩
    cases hlookup : entries.lookup f.name with
    | some d => exact .inl ⟨d, rfl, hpresent f hf d hlookup (hcovers.field hf)⟩
    | none =>
      obtain ⟨hdefault, hstand⟩ := habsent f hf hlookup
      exact .inr ⟨rfl, hdefault, hstands name.full f (hcovers.hasField hf) hstand⟩
  case request =>
    intro fields entries _ _ hcovers
    exact absurd hcovers.schema (by simp [Schema.isRequest])
  case array =>
    intro items ds hall hcovers
    have hitems : R.Covers items := hcovers.of_child List.mem_cons_self
    exact check_array_eq_ok_iff.mpr ⟨ds, rfl, fun d hd => hall d hd hitems⟩
  case map =>
    intro values entries hall hcovers
    have hvalues : R.Covers values := hcovers.of_child List.mem_cons_self
    exact check_map_eq_ok_iff.mpr ⟨entries, rfl, fun e he => hall e he hvalues⟩
  case union =>
    intro branches b d hb hall hcovers
    exact check_union_eq_ok_iff.mpr ⟨b, hb, hall (hcovers.of_child hb)⟩
  case reference =>
    intro full tag t d ht hall _
    exact check_reference_eq_ok_iff.mpr ⟨t, ht, hall (hR full t ht).2⟩

/-- A default that stands does so where more defaults are at hand. -/
theorem defaultStands_mono (hR : R.Closed) {available available' : List Slot}
    (hsub : ∀ σ ∈ available, σ ∈ available') {full : String} {f : Field}
    (hf : R.HasField full f) (h : defaultStands R available full f = true) :
    defaultStands R available' full f = true := by
  obtain ⟨v, hv, hmem, hcheck⟩ := defaultStands_eq_true_iff.mp h
  refine defaultStands_eq_true_iff.mpr ⟨v, hv, hsub _ hmem, ?_⟩
  refine check_mono hR (fun full' g hg hstands => ?_) (hR.field hf) hcheck
  refine defaultStands_mono hR (fun σ hσ => ?_) hg hstands
  obtain ⟨hσ, hne⟩ := Slot.mem_without_iff.mp hσ
  exact Slot.mem_without_iff.mpr ⟨hsub σ hσ, hne⟩
termination_by available.length
decreasing_by exact Slot.length_without_lt hmem

/-- **Cutting a detour.**  Where the default of `f` does not stand, no other default needs it: what
stands with it at hand does so without it. -/
theorem defaultStands_without (hR : R.Closed) {available : List Slot} {full : String} {f : Field}
    (hf : R.HasField full f) (hnot : defaultStands R available full f = false) {full' : String}
    {g : Field} (hg : R.HasField full' g) (h : defaultStands R available full' g = true) :
    defaultStands R (Slot.without (full, f.name) available) full' g = true := by
  obtain ⟨v, hv, hmem, hcheck⟩ := defaultStands_eq_true_iff.mp h
  have hne : (full', g.name) ≠ (full, f.name) := by
    intro heq
    obtain ⟨rfl, hname⟩ := Prod.mk.inj heq
    obtain rfl := hR.field_ext hg hf hname
    rw [h] at hnot
    cases hnot
  -- with the slot of `g` used up, the default of `f` stands even less
  have hnot' : defaultStands R (Slot.without (full', g.name) available) full f = false := by
    refine Bool.eq_false_iff.mpr fun hstands => ?_
    have hstands' : defaultStands R available full f = true :=
      defaultStands_mono hR (fun σ hσ => (Slot.mem_without_iff.mp hσ).1) hf hstands
    rw [hnot] at hstands'
    cases hstands'
  refine defaultStands_eq_true_iff.mpr ⟨v, hv, Slot.mem_without_iff.mpr ⟨hmem, hne⟩, ?_⟩
  refine check_mono hR (fun full₁ g₁ hg₁ hstands => ?_) (hR.field hg) hcheck
  rw [Slot.without_comm]
  exact defaultStands_without hR hf hnot' hg₁ hstands
termination_by available.length
decreasing_by exact Slot.length_without_lt hmem

/-- **A default stands as soon as it passes with itself at hand.**  If it did not stand it would be
of no use to the check, which would then pass without it. -/
theorem defaultStands_of_check (hR : R.Closed) {available : List Slot} {full : String} {f : Field}
    (hf : R.HasField full f) (hmem : (full, f.name) ∈ available) {v : Json}
    (hv : f.default = some v)
    (h : check R (defaultStands R available) (.ofJson v) f.type = .ok ()) :
    defaultStands R available full f = true := by
  refine Decidable.byContradiction fun hnot => hnot ?_
  rw [Bool.not_eq_true] at hnot
  refine defaultStands_eq_true_iff.mpr ⟨v, hv, hmem, ?_⟩
  exact check_mono hR (fun _ _ hg hstands => defaultStands_without hR hf hnot hg hstands)
    (hR.field hf) h

/-- The defaults of the fields that the registry has are at hand when a whole datum is checked. -/
theorem Registry.Closed.mem_slots (hR : R.Closed) {full : String} {f : Field}
    (hf : R.HasField full f) (hdefault : f.default.isSome = true) : (full, f.name) ∈ R.slots := by
  obtain ⟨d, hd, hmem⟩ := hf
  obtain ⟨rfl, -⟩ := hR full d hd
  have hentry : (d.full, Entry.defined d) ∈ R.entries :=
    Entries.mem_of_lookup_eq_some (Registry.get?_eq_some_iff.mp hd)
  refine List.mem_flatMap.mpr ⟨_, hentry, List.mem_flatMap.mpr ⟨.named d, ?_, ?_⟩⟩
  · exact Schema.mem_nodes_self _
  · exact List.mem_map.mpr ⟨f, List.mem_filter.mpr ⟨hmem, hdefault⟩, rfl⟩

end Defaults

/-! ## 5. Validity is conformance -/

section Conformance

variable {R : Registry}

/-- A datum that passes conforms.  Each default that the check has let stand has passed a check of
its own, with fewer defaults at hand. -/
theorem conforms_of_check (hR : R.Closed) {available : List Slot} {d : Datum} {s : Schema}
    (hs : R.Covers s) (h : check R (defaultStands R available) d s = .ok ()) : Conforms R d s := by
  suffices hall : R.Covers s → Conforms R d s from hall hs
  refine check_induction (P := fun d s => R.Covers s → Conforms R d s)
    ?primitive ?enum ?fixed ?record ?request ?array ?map ?union ?reference d s h
  case primitive =>
    intro p d hp _
    exact .primitive hp
  case enum =>
    intro name doc symbols s hs _
    exact .enum hs
  case fixed =>
    intro name doc size d hd _
    cases d with
    | bytes b => exact .fixed (Option.some.inj hd)
    | string s => exact .fixedOfString (Option.some.inj hd)
    | _ => cases hd
  case record =>
    intro name doc kind fields entries hpresent habsent hcovers
    refine .record (fun f hf d hd => hpresent f hf d hd (hcovers.field hf))
      (fun f hf hnone => (habsent f hf hnone).1) (fun f hf v hnone hv => ?_)
    obtain ⟨w, hw, hmem, hcheck⟩ := defaultStands_eq_true_iff.mp (habsent f hf hnone).2
    rw [hv] at hw
    cases hw
    exact conforms_of_check hR (hcovers.field hf) hcheck
  case request =>
    intro fields entries _ _ hcovers
    exact absurd hcovers.schema (by simp [Schema.isRequest])
  case array =>
    intro items ds hall hcovers
    exact .array fun d hd => hall d hd (hcovers.of_child List.mem_cons_self)
  case map =>
    intro values entries hall hcovers
    exact .map fun e he => hall e he (hcovers.of_child List.mem_cons_self)
  case union =>
    intro branches b d hb hall hcovers
    exact .union hb (hall (hcovers.of_child hb))
  case reference =>
    intro full tag t d ht hall _
    exact .reference ht (hall (hR full t ht).2)
termination_by available.length
decreasing_by exact Slot.length_without_lt hmem

/-- A datum that conforms passes, if every default that the registry has is at hand. -/
theorem check_of_conforms (hR : R.Closed) {available : List Slot}
    (havailable : ∀ σ ∈ R.slots, σ ∈ available) {d : Datum} {s : Schema} (h : Conforms R d s) :
    R.Covers s → check R (defaultStands R available) d s = .ok () := by
  induction h with
  | primitive hp =>
    intro _
    exact check_primitive_eq_ok_iff.mpr (checkPrimitive_eq_ok_iff.mpr hp)
  | enum hs =>
    intro _
    exact check_enum_eq_ok_iff.mpr (checkSymbol_eq_ok_iff.mpr ⟨_, rfl, hs⟩)
  | fixed hsize =>
    intro _
    exact check_fixed_eq_ok_iff.mpr (checkSize_eq_ok_iff.mpr (congrArg some hsize))
  | fixedOfString hsize =>
    intro _
    exact check_fixed_eq_ok_iff.mpr (checkSize_eq_ok_iff.mpr (congrArg some hsize))
  | @record name doc kind fields entries _ hdefault _ ihpresent ihabsent =>
    intro hcovers
    refine check_record_eq_ok_iff.mpr ⟨entries, rfl, fun f hf => checkField_eq_ok_iff.mpr ?_⟩
    cases hlookup : entries.lookup f.name with
    | some d => exact .inl ⟨d, rfl, ihpresent f hf d hlookup (hcovers.field hf)⟩
    | none =>
      have hsome : f.default.isSome = true := hdefault f hf hlookup
      obtain ⟨v, hv⟩ := Option.isSome_iff_exists.mp hsome
      have hfield : R.HasField name.full f := hcovers.hasField hf
      have hmem : (name.full, f.name) ∈ available := havailable _ (hR.mem_slots hfield hsome)
      refine .inr ⟨rfl, hsome, defaultStands_of_check hR hfield hmem hv ?_⟩
      exact ihabsent f hf v hlookup hv (hcovers.field hf)
  | array _ ih =>
    intro hcovers
    refine check_array_eq_ok_iff.mpr ⟨_, rfl, fun d hd => ih d hd (hcovers.of_child ?_)⟩
    exact List.mem_cons_self
  | map _ ih =>
    intro hcovers
    refine check_map_eq_ok_iff.mpr ⟨_, rfl, fun e he => ih e he (hcovers.of_child ?_)⟩
    exact List.mem_cons_self
  | union hb _ ih =>
    intro hcovers
    exact check_union_eq_ok_iff.mpr ⟨_, hb, ih (hcovers.of_child hb)⟩
  | reference ht _ ih =>
    intro _
    exact check_reference_eq_ok_iff.mpr ⟨_, ht, ih (hR _ _ ht).2⟩

/-- In a closed registry, a datum is valid for a schema that is covered exactly if it conforms. -/
theorem isValid_eq_true_iff (hR : R.Closed) {s : Schema} (hs : R.Covers s) {d : Datum} :
    isValid R s d = true ↔ Conforms R d s := by
  rw [isValid, Verdict.accepts_iff, validate]
  constructor
  · exact fun h => conforms_of_check hR hs h
  · exact fun h => check_of_conforms hR (fun σ hσ => List.mem_append_right _ hσ) h hs

end Conformance

/-- **Validity is conformance.**  After any row of calls that read schemas, a datum is valid for one
of the schemas read exactly if it conforms to it: refusing a default on the way to itself loses no
datum. -/
theorem isValid_iff_conforms (calls : List Call)
    (hcalls : ∀ call ∈ calls, call.isRequest = false) (s : Schema)
    (hs : s ∈ (Session.run calls).schemas) (d : Datum) :
    isValid (Session.run calls).registry s d = true ↔
      Conforms (Session.run calls).registry d s := by
  have hschema : s.isRequest = false := Session.isRequest_run hcalls s hs
  exact isValid_eq_true_iff (Session.closed_run calls) (Session.covers_run hs hschema)

namespace Example

/-- A record whose one default leads back to itself or, in a later branch, to a map, and a record
whose one default only leads back to itself. -/
def detourCalls : List Call :=
  [.value 64 none (.obj [
      ("fields", .arr [.obj [("default", .obj []), ("name", .str "next"),
        ("type", .arr [.str "Node", .obj [("type", .str "map"), ("values", .str "null")]])]]),
      ("name", .str "Node"), ("type", .str "record")]),
    .value 64 none (.obj [
      ("fields", .arr [.obj [("default", .obj []), ("name", .str "next"),
        ("type", .str "Loop")]]),
      ("name", .str "Loop"), ("type", .str "record")])]

def node : Definition :=
  ⟨⟨"Node", by decide⟩, none, .record .record [
    ⟨"next", .union [.reference "Node" .record, .map (.primitive .null)], some (.obj []), none,
      none⟩]⟩

def loop : Definition :=
  ⟨⟨"Loop", by decide⟩, none, .record .record [
    ⟨"next", .reference "Loop" .record, some (.obj []), none, none⟩]⟩

theorem schemas_detourCalls :
    (Session.run detourCalls).schemas = [.named node, .named loop] := by
  rfl

/-- The default of the node conforms as a map. -/
theorem conforms_node (R : Registry) : Conforms R (.map []) (.named node) := by
  refine .record (by simp) (fun f hf _ => ?_) (fun f hf v _ hv => ?_)
  · rw [List.mem_singleton.mp hf]
    rfl
  · obtain rfl := List.mem_singleton.mp hf
    cases hv
    exact .union (List.mem_cons_of_mem _ List.mem_cons_self) (.map (by simp [Datum.ofMembers]))

/-- The default of the loop would have to conform before it conforms. -/
theorem not_conforms_loop {R : Registry} (hR : R.get? "Loop" = some loop) {d : Datum} {s : Schema}
    (h : Conforms R d s) :
    d = .map [] → s ≠ .named loop ∧ ∀ tag, s ≠ .reference "Loop" tag := by
  induction h with
  | record _ _ _ _ ihabsent =>
    intro hd
    obtain rfl := Datum.map.inj hd
    refine ⟨fun hs => ?_, by simp⟩
    cases hs
    obtain ⟨-, hreference⟩ := ihabsent _ List.mem_cons_self (.obj []) rfl rfl rfl
    exact hreference .record rfl
  | @reference full tag t d ht _ ih =>
    intro hd
    refine ⟨by simp, fun tag' hs => ?_⟩
    cases hs
    rw [hR] at ht
    cases ht
    exact (ih hd).1 rfl
  | _ => simp [loop]

end Example

/-- In the session of `Example.detourCalls` the empty map is a node, though the check refuses the
first branch of its default, and it is no loop. -/
theorem isValid_iff_conforms_detour :
    isValid (Session.run Example.detourCalls).registry (.named Example.node) (.map []) = true ∧
    isValid (Session.run Example.detourCalls).registry (.named Example.loop) (.map []) = false := by
  have hcalls : ∀ call ∈ Example.detourCalls, call.isRequest = false := by decide
  have hnode : .named Example.node ∈ (Session.run Example.detourCalls).schemas := by
    rw [Example.schemas_detourCalls]
    exact List.mem_cons_self
  have hloop : .named Example.loop ∈ (Session.run Example.detourCalls).schemas := by
    rw [Example.schemas_detourCalls]
    exact List.mem_cons_of_mem _ List.mem_cons_self
  have hget : (Session.run Example.detourCalls).registry.get? "Loop" = some Example.loop := rfl
  refine ⟨?_, Bool.eq_false_iff.mpr fun h => ?_⟩
  · exact (isValid_iff_conforms Example.detourCalls hcalls _ hnode (.map [])).mpr
      (Example.conforms_node _)
  · have hconforms : Conforms _ (.map []) (.named Example.loop) :=
      (isValid_iff_conforms Example.detourCalls hcalls _ hloop (.map [])).mp h
    exact (Example.not_conforms_loop hget hconforms rfl).1 rfl

end Avro
