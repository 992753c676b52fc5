/-
# Location: where a rejection is, and that nothing before it fails

A rejection has a path into the datum and a path into the schema.  `Leads` follows the two in lock
step, from the datum and the schema to a `Site`: a part of the datum with the schema for it, or a
field that a record lacks.  A reference is followed to its definition and takes no segment of either
path.  On the way `Leads` notes what is passed by: the items, entries and fields that come first.

`Site.Rejects` says what each violation says of the site that it is about.  It speaks of validity
only, not of a check on the way: a branch of a union rejects what is not valid for it, and a default
is invalid if it is not valid for the type of its field.

* `Leads.of_absent`: the last segment of the way to an absent field is its name.
* `Rejection.Located`: the paths of a rejection lead to a site that rejects, past accepted ones.
* `located_of_check`, `check_of_leads`: a check fails exactly with the rejection that is located.
* `Document.validate_eq_error_iff`: the same of whole data, for every document that is read.
-/
import Mathlib
import Avro.Proofs.Defaults

namespace Avro

/-! ## 1. Sites -/

/-- What a check comes to on its way. -/
inductive Site
  /-- A part of the datum, and the schema for it. -/
  | part (d : Datum) (s : Schema)
  /-- A field of the record `t` for which there is no entry. -/
  | absent (entries : List (String × Datum)) (t : Definition) (f : Field)

/-- What a check comes to for a field of the record `t`. -/
def Field.site (entries : List (String × Datum)) (t : Definition) (f : Field) : Site :=
  match entries.lookup f.name with
  | some d => .part d f.type
  | none => .absent entries t f

/-- The segment of a schema in a schema path.  A reference has none. -/
def Schema.segment? : Schema → Option String
  | .primitive p => some p.name
  | .named t => some t.segment
  | .array _ => some "array"
  | .map _ => some "map"
  | .union _ => some "union"
  | .request _ => some "request"
  | .reference _ _ => none

/-- **The way along two paths in lock step.**  From the datum and the schema the instance path and
the schema path lead to a site, past those listed, in order. -/
inductive Leads (R : Registry) :
    Datum → Schema → InstancePath → SchemaPath → List Site → Site → Prop
  | here {d : Datum} {s : Schema} {segment : String} :
    s.segment? = some segment → Leads R d s [] [segment] [] (.part d s)
  | item {before after : List Datum} {d : Datum} {items : Schema} {path : InstancePath}
      {schemaPath : SchemaPath} {passed : List Site} {site : Site} :
    Leads R d items path schemaPath passed site →
    Leads R (.array (before ++ d :: after)) (.array items) (.index before.length :: path)
      ("array" :: schemaPath) (before.map (.part · items) ++ passed) site
  | value {before after : List (String × Datum)} {key : String} {d : Datum} {values : Schema}
      {path : InstancePath} {schemaPath : SchemaPath} {passed : List Site} {site : Site} :
    Leads R d values path schemaPath passed site →
    Leads R (.map (before ++ (key, d) :: after)) (.map values) (.key key :: path)
      ("map" :: schemaPath) (before.map (fun e => .part e.2 values) ++ passed) site
  | field {entries : List (String × Datum)} {t : Definition} {before after : List Field} {f : Field}
      {d : Datum} {path : InstancePath} {schemaPath : SchemaPath} {passed : List Site}
      {site : Site} :
    t.fields = before ++ f :: after → entries.lookup f.name = some d →
    Leads R d f.type path schemaPath passed site →
    Leads R (.map entries) (.named t) (.key f.name :: path) (t.segment :: f.segment :: schemaPath)
      (before.map (Field.site entries t) ++ passed) site
  /-- The last segments name a field that is not there. -/
  | absent {entries : List (String × Datum)} {t : Definition} {before after : List Field}
      {f : Field} :
    t.fields = before ++ f :: after → entries.lookup f.name = none →
    Leads R (.map entries) (.named t) [.key f.name] [t.segment, f.segment]
      (before.map (Field.site entries t)) (.absent entries t f)
  | reference {full : String} {tag : Tag} {t : Definition} {d : Datum} {path : InstancePath}
      {schemaPath : SchemaPath} {passed : List Site} {site : Site} :
    R.get? full = some t → Leads R d (.named t) path schemaPath passed site →
    Leads R d (.reference full tag) path schemaPath passed site

/-- A field that is absent is named by the last segment, and without it the way leads to the map
that lacks the field, and to its record. -/
theorem Leads.of_absent {R : Registry} {d : Datum} {s : Schema} {path : InstancePath}
    {schemaPath : SchemaPath} {passed : List Site} {entries : List (String × Datum)}
    {t : Definition} {f : Field}
    (h : Leads R d s path schemaPath passed (.absent entries t f)) :
    f ∈ t.fields ∧ entries.lookup f.name = none ∧
      ∃ path' schemaPath' passed', path = path' ++ [.key f.name] ∧
        schemaPath = schemaPath' ++ [f.segment] ∧
        Leads R d s path' schemaPath' passed' (.part (.map entries) (.named t)) := by
  generalize hsite : Site.absent entries t f = site at h
  induction h with
  | here => cases hsite
  | item _ ih =>
    obtain ⟨hf, hnone, _, _, _, rfl, rfl, hleads⟩ := ih hsite
    exact ⟨hf, hnone, _, _, _, rfl, rfl, .item hleads⟩
  | value _ ih =>
    obtain ⟨hf, hnone, _, _, _, rfl, rfl, hleads⟩ := ih hsite
    exact ⟨hf, hnone, _, _, _, rfl, rfl, .value hleads⟩
  | field hfields hlookup _ ih =>
    obtain ⟨hf, hnone, _, _, _, rfl, rfl, hleads⟩ := ih hsite
    exact ⟨hf, hnone, _, _, _, rfl, rfl, .field hfields hlookup hleads⟩
  | absent hfields hlookup =>
    cases hsite
    have hf : f ∈ t.fields := hfields ▸ List.mem_append_right _ List.mem_cons_self
    exact ⟨hf, hlookup, [], [t.segment], [], rfl, rfl, .here rfl⟩
  | reference ht _ ih =>
    obtain ⟨hf, hnone, _, _, _, rfl, rfl, hleads⟩ := ih hsite
    exact ⟨hf, hnone, _, _, _, rfl, rfl, .reference ht hleads⟩

/-! ## 2. What a violation says of its site -/

/-- The types of the data that a primitive type takes, by name. -/
def Primitive.typeNames : Primitive → List String
  | .null => ["null"]
  | .boolean => ["boolean"]
  | .int | .long => ["integer"]
  | .float | .double => ["float", "integer"]
  | .bytes | .string => ["bytes", "string"]

/-- The least and the greatest integer of a type. -/
def Primitive.range? : Primitive → Option (Int × Int)
  | .int => some (-2147483648, 2147483647)
  | .long => some (-4611686018427387904, 4611686018427387903)
  | _ => none

/-- What a schema is said to expect, and the types of the data that it takes.  A union takes
whatever a branch does, and a reference what its definition does. -/
def Schema.expects? : Schema → Option (String × List String)
  | .primitive p => some (p.name, p.typeNames)
  | .named t =>
    match t.body with
    | .record _ _ => some ("record", ["map"])
    | .enum _ => some ("enum symbol", ["string"])
    | .fixed _ => some ("bytes", ["bytes", "string"])
  | .array _ => some ("array", ["array"])
  | .map _ => some ("map", ["map"])
  | .request _ => some ("record", ["map"])
  | .union _ | .reference _ _ => none

namespace Site

/-- The part is valid, or the default that stands in for the field is. -/
def Accepted (R : Registry) : Site → Prop
  | .part d s => isValid R s d = true
  | .absent _ _ f => f.default.isSome = true ∧ f.defaultIsValid R = true

/-- **What a violation says of the site** at which it is found. -/
inductive Rejects (R : Registry) : Site → Violation → Prop
  | typeMismatch {d : Datum} {s : Schema} {expected : String} {types : List String} :
    s.expects? = some (expected, types) → d.typeName ∉ types →
    Rejects R (.part d s) (.typeMismatch expected d.typeName)
  | integerOutOfRange {n minimum maximum : Int} {p : Primitive} :
    p.range? = some (minimum, maximum) → ¬ (minimum ≤ n ∧ n ≤ maximum) →
    Rejects R (.part (.int n) (.primitive p)) (.integerOutOfRange n minimum maximum)
  | invalidSymbol {name : Name} {doc : Option String} {symbols : List String} {s : String} :
    s ∉ symbols →
    Rejects R (.part (.string s) (.named ⟨name, doc, .enum symbols⟩)) (.invalidSymbol s symbols)
  | fixedSizeMismatch {name : Name} {doc : Option String} {size : UInt64} {d : Datum} {n : Nat} :
    byteLength? d = some n → n ≠ size.toNat →
    Rejects R (.part d (.named ⟨name, doc, .fixed size⟩)) (.fixedSizeMismatch size.toNat n)
  | noMatchingBranch {d : Datum} {branches : List Schema} :
    (∀ b ∈ branches, isValid R b d = false) →
    Rejects R (.part d (.union branches)) (.noMatchingBranch (branches.map Schema.label))
  | missingField {entries : List (String × Datum)} {t : Definition} {f : Field} :
    f.default = none → Rejects R (.absent entries t f) (.missingField f.name)
  | invalidDefault {entries : List (String × Datum)} {t : Definition} {f : Field} :
    f.default.isSome = true → f.defaultIsValid R = false →
    Rejects R (.absent entries t f) (.invalidDefault f.name)

end Site

/-- **A rejection is located faithfully**: its paths lead to a site that it is true of, and past
sites that are accepted. -/
def Rejection.Located (R : Registry) (d : Datum) (s : Schema) (r : Rejection) : Prop :=
  ∃ passed site, Leads R d s r.instancePath r.schemaPath passed site ∧
    site.Rejects R r.violation ∧ ∀ p ∈ passed, p.Accepted R

namespace Rejection.Located

variable {R : Registry} {r : Rejection} {d : Datum}

theorem here {s : Schema} {segment : String} {v : Violation} (hsegment : s.segment? = some segment)
    (hv : Site.Rejects R (.part d s) v) : Located R d s ((Rejection.here v).inSchema segment) :=
  ⟨[], _, .here hsegment, hv, by simp⟩

theorem item {before after : List Datum} {items : Schema}
    (hbefore : ∀ x ∈ before, isValid R items x = true) (h : r.Located R d items) :
    Located R (.array (before ++ d :: after)) (.array items)
      ((r.inInstance (.index before.length)).inSchema "array") := by
  obtain ⟨passed, site, hleads, hv, hpassed⟩ := h
  refine ⟨_, site, .item hleads, hv, List.forall_mem_append.mpr ⟨?_, hpassed⟩⟩
  exact List.forall_mem_map.mpr hbefore

theorem value {before after : List (String × Datum)} {key : String} {values : Schema}
    (hbefore : ∀ e ∈ before, isValid R values e.2 = true) (h : r.Located R d values) :
    Located R (.map (before ++ (key, d) :: after)) (.map values)
      ((r.inInstance (.key key)).inSchema "map") := by
  obtain ⟨passed, site, hleads, hv, hpassed⟩ := h
  refine ⟨_, site, .value hleads, hv, List.forall_mem_append.mpr ⟨?_, hpassed⟩⟩
  exact List.forall_mem_map.mpr hbefore

section Fields

variable {entries : List (String × Datum)} {t : Definition} {before after : List Field} {f : Field}

theorem field (hfields : t.fields = before ++ f :: after)
    (hbefore : ∀ g ∈ before, (g.site entries t).Accepted R)
    (hlookup : entries.lookup f.name = some d) (h : r.Located R d f.type) :
    Located R (.map entries) (.named t)
      (((r.inInstance (.key f.name)).inSchema f.segment).inSchema t.segment) := by
  obtain ⟨passed, site, hleads, hv, hpassed⟩ := h
  refine ⟨_, site, .field hfields hlookup hleads, hv, List.forall_mem_append.mpr ⟨?_, hpassed⟩⟩
  exact List.forall_mem_map.mpr hbefore

theorem absent {v : Violation} (hfields : t.fields = before ++ f :: after)
    (hbefore : ∀ g ∈ before, (g.site entries t).Accepted R)
    (hlookup : entries.lookup f.name = none) (hv : Site.Rejects R (.absent entries t f) v) :
    Located R (.map entries) (.named t)
      ((((Rejection.here v).inInstance (.key f.name)).inSchema f.segment).inSchema t.segment) :=
  ⟨_, _, .absent hfields hlookup, hv, List.forall_mem_map.mpr hbefore⟩

end Fields

theorem reference {full : String} {tag : Tag} {t : Definition} (ht : R.get? full = some t)
    (h : r.Located R d (.named t)) : r.Located R d (.reference full tag) := by
  obtain ⟨passed, site, hleads, hv, hpassed⟩ := h
  exact ⟨passed, site, .reference ht hleads, hv, hpassed⟩

end Rejection.Located

/-! ## 3. Data without parts -/

section Leaves

variable {R : Registry}

theorem checkRange_eq_error_iff {minimum maximum n : Int} {r : Rejection} :
    checkRange minimum maximum n = .error r ↔
      ¬ (minimum ≤ n ∧ n ≤ maximum) ∧ r = .here (.integerOutOfRange n minimum maximum) := by
  unfold checkRange
  split
  · next h => simp [h]
  · next h => simp [h, Verdict.reject, eq_comm]

theorem mismatch_eq_error_iff {expected : String} {d : Datum} {r : Rejection} :
    mismatch expected d = .error r ↔ r = .here (.typeMismatch expected d.typeName) := by
  simp [mismatch, Verdict.reject, eq_comm]

theorem checkPrimitive_of_not_mem {p : Primitive} {d : Datum} (h : d.typeName ∉ p.typeNames) :
    checkPrimitive p d = mismatch p.name d := by
  cases p <;> cases d <;> first | rfl | simp [Primitive.typeNames, Datum.typeName] at h

/-- Of the data that a primitive type takes only an integer can be wrong. -/
theorem checkPrimitive_of_mem {p : Primitive} {d : Datum} (h : d.typeName ∈ p.typeNames) :
    checkPrimitive p d = .ok () ∨
      ∃ n minimum maximum, d = .int n ∧ p.range? = some (minimum, maximum) ∧
        checkPrimitive p d = checkRange minimum maximum n := by
  cases p <;> cases d <;> simp [Primitive.typeNames, Datum.typeName] at h <;>
    simp [checkPrimitive, Primitive.range?]

theorem rejects_of_checkPrimitive {p : Primitive} {d : Datum} {r : Rejection}
    (h : checkPrimitive p d = .error r) :
    ∃ v, Site.Rejects R (.part d (.primitive p)) v ∧ r = .here v := by
  by_cases htype : d.typeName ∈ p.typeNames
  · rcases checkPrimitive_of_mem htype with hok | ⟨n, minimum, maximum, rfl, hrange, heq⟩
    · rw [hok] at h
      cases h
    · rw [heq, checkRange_eq_error_iff] at h
      obtain ⟨hn, rfl⟩ := h
      exact ⟨_, .integerOutOfRange hrange hn, rfl⟩
  · rw [checkPrimitive_of_not_mem htype, mismatch_eq_error_iff] at h
    exact ⟨_, .typeMismatch rfl htype, h⟩

theorem checkPrimitive_of_rejects {p : Primitive} {d : Datum} {v : Violation}
    (h : Site.Rejects R (.part d (.primitive p)) v) : checkPrimitive p d = .error (.here v) := by
  cases h with
  | typeMismatch hexpects htype =>
    cases hexpects
    exact checkPrimitive_of_not_mem htype
  | integerOutOfRange hrange hn =>
    cases p with
    | int =>
      cases hrange
      exact checkRange_eq_error_iff.mpr ⟨hn, rfl⟩
    | long =>
      cases hrange
      exact checkRange_eq_error_iff.mpr ⟨hn, rfl⟩
    | _ => cases hrange

section Named

variable {name : Name} {doc : Option String} {d : Datum}

theorem rejects_of_checkSymbol {symbols : List String} {r : Rejection}
    (h : checkSymbol symbols d = .error r) :
    ∃ v, Site.Rejects R (.part d (.named ⟨name, doc, .enum symbols⟩)) v ∧ r = .here v := by
  unfold checkSymbol at h
  split at h
  · split at h
    · cases h
    · next s hs =>
      cases h
      exact ⟨_, .invalidSymbol hs, rfl⟩
  · next hstring =>
    refine ⟨_, .typeMismatch rfl fun htype => ?_, mismatch_eq_error_iff.mp h⟩
    cases d with
    | string s => exact hstring s rfl
    | _ => simp [Datum.typeName] at htype

theorem checkSymbol_of_rejects {symbols : List String} {v : Violation}
    (h : Site.Rejects R (.part d (.named ⟨name, doc, .enum symbols⟩)) v) :
    checkSymbol symbols d = .error (.here v) := by
  cases h with
  | typeMismatch hexpects htype =>
    cases hexpects
    cases d with
    | string s => exact absurd List.mem_cons_self htype
    | _ => rfl
  | invalidSymbol hs => exact if_neg hs

theorem byteLength?_eq_none_iff : byteLength? d = none ↔ d.typeName ∉ ["bytes", "string"] := by
  cases d <;> simp [byteLength?, Datum.typeName]

theorem rejects_of_checkSize {size : UInt64} {r : Rejection}
    (h : checkSize size.toNat d = .error r) :
    ∃ v, Site.Rejects R (.part d (.named ⟨name, doc, .fixed size⟩)) v ∧ r = .here v := by
  unfold checkSize at h
  split at h
  · next n hn =>
    split at h
    · cases h
    · next hne =>
      cases h
      exact ⟨_, .fixedSizeMismatch hn hne, rfl⟩
  · next hnone =>
    exact ⟨_, .typeMismatch rfl (byteLength?_eq_none_iff.mp hnone), mismatch_eq_error_iff.mp h⟩

theorem checkSize_of_rejects {size : UInt64} {v : Violation}
    (h : Site.Rejects R (.part d (.named ⟨name, doc, .fixed size⟩)) v) :
    checkSize size.toNat d = .error (.here v) := by
  cases h with
  | typeMismatch hexpects htype =>
    cases hexpects
    rw [checkSize, byteLength?_eq_none_iff.mpr htype]
    rfl
  | fixedSizeMismatch hn hne =>
    rw [checkSize, hn]
    exact if_neg hne

end Named

end Leaves

/-! ## 4. Checks in a row -/

namespace Verdict

theorem all_map_eq_error_iff {α : Type} {g : α → Verdict} {as : List α} {r : Rejection} :
    all (as.map g) = .error r ↔
      ∃ before a after, as = before ++ a :: after ∧ (∀ x ∈ before, g x = .ok ()) ∧
        g a = .error r := by
  rw [all_eq_error_iff]
  constructor
  · rintro ⟨before, after, heq, hbefore⟩
    obtain ⟨before, rest, rfl, rfl, hrest⟩ := List.map_eq_append_iff.mp heq
    obtain ⟨a, after, rfl, ha, -⟩ := List.map_eq_cons_iff.mp hrest
    exact ⟨before, a, after, rfl, List.forall_mem_map.mp hbefore, ha⟩
  · rintro ⟨before, a, after, rfl, hbefore, ha⟩
    refine ⟨before.map g, after.map g, ?_, List.forall_mem_map.mpr hbefore⟩
    rw [List.map_append, List.map_cons, ha]

end Verdict

section Rows

variable {R : Registry} {stands : String → Field → Bool} {r : Rejection}

theorem checkItems_eq_error_iff {index : Nat} {ds : List Datum} {items : Schema} :
    checkItems R stands index ds items = .error r ↔
      ∃ before d after r', ds = before ++ d :: after ∧
        (∀ x ∈ before, check R stands x items = .ok ()) ∧
        check R stands d items = .error r' ∧
        r = r'.inInstance (.index (index + before.length)) := by
  induction ds generalizing index with
  | nil => simp [checkItems]
  | cons d ds ih =>
    rw [checkItems, Verdict.andThen_eq_error_iff, Verdict.inInstance_eq_error_iff,
      Verdict.inInstance_eq_ok_iff, ih]
    constructor
    · rintro (⟨r', hd, rfl⟩ | ⟨hd, before, x, after, r', rfl, hbefore, hx, rfl⟩)
      · exact ⟨[], d, ds, r', rfl, by simp, hd, rfl⟩
      · refine ⟨d :: before, x, after, r', rfl, by simpa using ⟨hd, hbefore⟩, hx, ?_⟩
        rw [List.length_cons, Nat.add_assoc, Nat.add_comm 1]
    · rintro ⟨before, x, after, r', heq, hbefore, hx, rfl⟩
      cases before with
      | nil =>
        obtain ⟨rfl, rfl⟩ := List.cons.inj heq
        exact .inl ⟨r', hx, rfl⟩
      | cons y before =>
        obtain ⟨rfl, rfl⟩ := List.cons.inj heq
        refine .inr ⟨hbefore d List.mem_cons_self, before, x, after, r', rfl, fun z hz => ?_, hx,
          ?_⟩
        · exact hbefore z (List.mem_cons_of_mem _ hz)
        · rw [List.length_cons, Nat.add_assoc, Nat.add_comm 1]

theorem checkEntries_eq_error_iff {entries : List (String × Datum)} {values : Schema} :
    checkEntries R stands entries values = .error r ↔
      ∃ before e after r', entries = before ++ e :: after ∧
        (∀ x ∈ before, check R stands x.2 values = .ok ()) ∧
        check R stands e.2 values = .error r' ∧ r = r'.inInstance (.key e.1) := by
  simp only [checkEntries_eq_all, Verdict.all_map_eq_error_iff, Verdict.inInstance_eq_ok_iff,
    Verdict.inInstance_eq_error_iff, exists_and_left]

theorem checkFields_eq_error_iff {entries : List (String × Datum)} {owner : String}
    {fields : List Field} :
    checkFields R stands entries owner fields = .error r ↔
      ∃ before f after r', fields = before ++ f :: after ∧
        (∀ x ∈ before, checkField R stands entries owner x = .ok ()) ∧
        checkField R stands entries owner f = .error r' ∧
        r = (r'.inInstance (.key f.name)).inSchema f.segment := by
  simp only [checkFields_eq_all, Verdict.all_map_eq_error_iff, Verdict.inSchema_eq_ok_iff,
    Verdict.inInstance_eq_ok_iff, Verdict.inSchema_eq_error_iff, Verdict.inInstance_eq_error_iff]
  constructor
  · rintro ⟨before, f, after, heq, hbefore, _, ⟨r', hf, rfl⟩, rfl⟩
    exact ⟨before, f, after, r', heq, hbefore, hf, rfl⟩
  · rintro ⟨before, f, after, r', heq, hbefore, hf, rfl⟩
    exact ⟨before, f, after, heq, hbefore, _, ⟨r', hf, rfl⟩, rfl⟩

theorem check_array {ds : List Datum} {items : Schema} :
    check R stands (.array ds) (.array items) =
      (checkItems R stands 0 ds items).inSchema "array" := by
  simp only [check]

theorem check_map {entries : List (String × Datum)} {values : Schema} :
    check R stands (.map entries) (.map values) =
      (checkEntries R stands entries values).inSchema "map" := by
  simp only [check]

theorem check_record {name : Name} {doc : Option String} {kind : RecordKind}
    {fields : List Field} {entries : List (String × Datum)} :
    check R stands (.map entries) (.named ⟨name, doc, .record kind fields⟩) =
      (checkFields R stands entries name.full fields).inSchema
        (Definition.segment ⟨name, doc, .record kind fields⟩) := by
  simp only [check, checkDefinition, Definition.full]

end Rows

/-! ## 5. Sites in a closed registry -/

section Closed

variable {R : Registry} {available : List Slot}

theorem isValid_eq_true_iff_check (hR : R.Closed) (havailable : ∀ σ ∈ R.slots, σ ∈ available)
    {s : Schema} (hs : R.Covers s) {d : Datum} :
    isValid R s d = true ↔ check R (defaultStands R available) d s = .ok () :=
  (isValid_eq_true_iff hR hs).trans (check_eq_ok_iff hR havailable hs).symm

/-- For a field that is absent the check asks whether the default is valid on its own. -/
theorem checkAbsent_defaultStands (hR : R.Closed) (havailable : ∀ σ ∈ R.slots, σ ∈ available)
    {full : String} {f : Field} (hf : R.HasField full f) :
    checkAbsent f (defaultStands R available full f) = checkAbsent f (f.defaultIsValid R) := by
  cases hdefault : f.default with
  | none => rw [checkAbsent, checkAbsent, hdefault]
  | some v =>
    rw [defaultStands_eq_defaultIsValid hR havailable hf (by rw [hdefault]; rfl)]

theorem rejects_of_checkAbsent {entries : List (String × Datum)} {t : Definition} {f : Field}
    {r : Rejection} (h : checkAbsent f (f.defaultIsValid R) = .error r) :
    ∃ v, Site.Rejects R (.absent entries t f) v ∧ r = .here v := by
  unfold checkAbsent at h
  split at h
  · next hnone =>
    cases h
    exact ⟨_, .missingField hnone, rfl⟩
  · next v hsome =>
    split at h
    · cases h
    · next hinvalid =>
      cases h
      exact ⟨_, .invalidDefault (by rw [hsome]; rfl) (Bool.eq_false_iff.mpr hinvalid), rfl⟩

theorem checkAbsent_of_rejects {entries : List (String × Datum)} {t : Definition} {f : Field}
    {v : Violation} (h : Site.Rejects R (.absent entries t f) v) :
    checkAbsent f (f.defaultIsValid R) = .error (.here v) := by
  cases h with
  | missingField hnone =>
    rw [checkAbsent, hnone]
    rfl
  | invalidDefault hsome hinvalid =>
    obtain ⟨w, hw⟩ := Option.isSome_iff_exists.mp hsome
    rw [checkAbsent, hw, hinvalid]
    rfl

/-- A site is accepted exactly if the check finds nothing at it. -/
theorem accepted_site_iff (hR : R.Closed) (havailable : ∀ σ ∈ R.slots, σ ∈ available)
    {t : Definition} (ht : R.Covers (.named t)) {f : Field} (hf : f ∈ t.fields)
    {entries : List (String × Datum)} :
    (f.site entries t).Accepted R ↔
      checkField R (defaultStands R available) entries t.full f = .ok () := by
  rw [Field.site, checkField]
  cases entries.lookup f.name with
  | some d => exact isValid_eq_true_iff_check hR havailable (ht.field hf)
  | none =>
    rw [checkAbsent_defaultStands hR havailable (ht.hasField hf), checkAbsent_eq_ok_iff]
    exact Iff.rfl

/-! ## 6. Where a check fails -/

/-- A schema at whose site a violation is found is where the check ends. -/
theorem check_of_rejects (hR : R.Closed) (havailable : ∀ σ ∈ R.slots, σ ∈ available) {d : Datum}
    {s : Schema} (hs : R.Covers s) {segment : String} (hsegment : s.segment? = some segment)
    {v : Violation} (h : Site.Rejects R (.part d s) v) :
    check R (defaultStands R available) d s = .error ⟨v, [], [segment]⟩ := by
  cases s with
  | primitive p =>
    cases hsegment
    rw [check, checkPrimitive_of_rejects h]
    rfl
  | named t =>
    cases hsegment
    obtain ⟨name, doc, body⟩ := t
    rw [check, checkDefinition]
    cases body with
    | enum symbols =>
      simp only [checkSymbol_of_rejects h]
      rfl
    | fixed size =>
      simp only [checkSize_of_rejects h]
      rfl
    | record kind fields =>
      cases h with
      | typeMismatch hexpects htype =>
        cases hexpects
        cases d with
        | map entries => exact absurd List.mem_cons_self htype
        | _ => rfl
  | array items =>
    cases hsegment
    cases h with
    | typeMismatch hexpects htype =>
      cases hexpects
      cases d with
      | array ds => exact absurd List.mem_cons_self htype
      | _ => simp only [check]; rfl
  | map values =>
    cases hsegment
    cases h with
    | typeMismatch hexpects htype =>
      cases hexpects
      cases d with
      | map entries => exact absurd List.mem_cons_self htype
      | _ => simp only [check]; rfl
  | union branches =>
    cases hsegment
    cases h with
    | typeMismatch hexpects _ => cases hexpects
    | noMatchingBranch hinvalid =>
      have hnone : (firstAccepting? R (defaultStands R available) d branches).isSome = false := by
        rw [Bool.eq_false_iff, Ne, isSome_firstAccepting?_iff]
        rintro ⟨b, hb, hcheck⟩
        rw [← isValid_eq_true_iff_check hR havailable (hs.of_child hb), hinvalid b hb] at hcheck
        cases hcheck
      rw [check, hnone]
      rfl
  | request fields => exact absurd hs.schema (by simp [Schema.isRequest])
  | reference full tag => cases hsegment

/-- What a violation at the site of a schema makes of the check. -/
theorem located_of_rejects (hR : R.Closed) (havailable : ∀ σ ∈ R.slots, σ ∈ available)
    {d : Datum} {s : Schema} (hs : R.Covers s) {segment : String}
    (hsegment : s.segment? = some segment) {v : Violation} (hv : Site.Rejects R (.part d s) v)
    {r : Rejection} (h : check R (defaultStands R available) d s = .error r) :
    r.Located R d s := by
  rw [check_of_rejects hR havailable hs hsegment hv] at h
  cases h
  exact .here hsegment hv

/-- The step for a definition, whose fields are smaller. -/
theorem located_of_check_named (hR : R.Closed) (havailable : ∀ σ ∈ R.slots, σ ∈ available)
    {d : Datum} {t : Definition} (ht : R.Covers (.named t))
    (ih : ∀ f ∈ t.fields, ∀ e r, sizeOf e < sizeOf d →
      check R (defaultStands R available) e f.type = .error r → r.Located R e f.type)
    {r : Rejection} (h : check R (defaultStands R available) d (.named t) = .error r) :
    r.Located R d (.named t) := by
  obtain ⟨name, doc, body⟩ := t
  cases body with
  | enum symbols =>
    rw [check, checkDefinition, Verdict.inSchema_eq_error_iff] at h
    obtain ⟨_, h, rfl⟩ := h
    obtain ⟨v, hv, rfl⟩ := rejects_of_checkSymbol h
    exact .here rfl hv
  | fixed size =>
    rw [check, checkDefinition, Verdict.inSchema_eq_error_iff] at h
    obtain ⟨_, h, rfl⟩ := h
    obtain ⟨v, hv, rfl⟩ := rejects_of_checkSize h
    exact .here rfl hv
  | record kind fields =>
    cases d with
    | map entries =>
      rw [check_record, Verdict.inSchema_eq_error_iff] at h
      obtain ⟨_, h, rfl⟩ := h
      obtain ⟨before, f, after, r', rfl, hbefore, hf, rfl⟩ := checkFields_eq_error_iff.mp h
      have hmem : f ∈ before ++ f :: after := List.mem_append_right _ List.mem_cons_self
      have hpassed : ∀ g ∈ before,
          (g.site entries ⟨name, doc, .record kind (before ++ f :: after)⟩).Accepted R :=
        fun g hg => (accepted_site_iff hR havailable ht (List.mem_append_left _ hg)).mpr
          (hbefore g hg)
      rw [checkField] at hf
      split at hf
      · next e he =>
        have hlt : sizeOf e < sizeOf (Datum.map entries) :=
          Datum.sizeOf_lt_map (Entries.mem_of_lookup_eq_some he)
        exact .field rfl hpassed he (ih f hmem e r' hlt hf)
      · next hnone =>
        have hdefault := checkAbsent_defaultStands hR havailable (ht.hasField hmem)
        obtain ⟨v, hv, rfl⟩ := rejects_of_checkAbsent (hdefault.symm.trans hf)
        exact .absent rfl hpassed hnone hv
    | _ =>
      exact located_of_rejects hR havailable ht rfl
        (.typeMismatch rfl (by simp [Datum.typeName])) h

/-- **A rejection is located faithfully.** -/
theorem located_of_check (hR : R.Closed)
    (hresolves : ∀ full t, R.get? full = some t → R.Resolves (.named t))
    (havailable : ∀ σ ∈ R.slots, σ ∈ available) {d : Datum} {s : Schema} (hs : R.Covers s)
    (hreferences : R.Resolves s) {r : Rejection}
    (h : check R (defaultStands R available) d s = .error r) : r.Located R d s := by
  induction d, s using walk_induction generalizing r with
  | step d s ihd ihs =>
    cases s with
    | primitive p =>
      rw [check, Verdict.inSchema_eq_error_iff] at h
      obtain ⟨r', h, rfl⟩ := h
      obtain ⟨v, hv, rfl⟩ := rejects_of_checkPrimitive h
      exact .here rfl hv
    | named t =>
      refine located_of_check_named hR havailable hs (fun f hf e r hlt he => ?_) h
      exact ihd e f.type hlt (hs.field hf) (hreferences.of_child (List.mem_map.mpr ⟨f, hf, rfl⟩)) he
    | array items =>
      have hitems : items ∈ (Schema.array items).children := List.mem_cons_self
      cases d with
      | array ds =>
        rw [check_array, Verdict.inSchema_eq_error_iff] at h
        obtain ⟨_, h, rfl⟩ := h
        obtain ⟨before, e, after, r', rfl, hbefore, he, rfl⟩ := checkItems_eq_error_iff.mp h
        have hlt : sizeOf e < sizeOf (Datum.array (before ++ e :: after)) :=
          Datum.sizeOf_lt_array (List.mem_append_right _ List.mem_cons_self)
        have hlocated : r'.Located R e items :=
          ihd e items hlt (hs.of_child hitems) (hreferences.of_child hitems) he
        rw [Nat.zero_add]
        refine .item (fun x hx => ?_) hlocated
        exact (isValid_eq_true_iff_check hR havailable (hs.of_child hitems)).mpr (hbefore x hx)
      | _ =>
        exact located_of_rejects hR havailable hs rfl
          (.typeMismatch rfl (by simp [Datum.typeName])) h
    | map values =>
      have hvalues : values ∈ (Schema.map values).children := List.mem_cons_self
      cases d with
      | map entries =>
        rw [check_map, Verdict.inSchema_eq_error_iff] at h
        obtain ⟨_, h, rfl⟩ := h
        obtain ⟨before, e, after, r', rfl, hbefore, he, rfl⟩ := checkEntries_eq_error_iff.mp h
        have hlt : sizeOf e.2 < sizeOf (Datum.map (before ++ e :: after)) :=
          Datum.sizeOf_lt_map (List.mem_append_right _ List.mem_cons_self)
        have hlocated : r'.Located R e.2 values :=
          ihd e.2 values hlt (hs.of_child hvalues) (hreferences.of_child hvalues) he
        refine .value (fun x hx => ?_) hlocated
        exact (isValid_eq_true_iff_check hR havailable (hs.of_child hvalues)).mpr (hbefore x hx)
      | _ =>
        exact located_of_rejects hR havailable hs rfl
          (.typeMismatch rfl (by simp [Datum.typeName])) h
    | union branches =>
      refine located_of_rejects hR havailable hs rfl (.noMatchingBranch fun b hb => ?_) h
      rw [Bool.eq_false_iff, Ne, isValid_eq_true_iff_check hR havailable (hs.of_child hb)]
      intro hok
      rw [check_union_eq_ok_iff.mpr ⟨b, hb, hok⟩] at h
      cases h
    | request fields => exact absurd hs.schema (by simp [Schema.isRequest])
    | reference full tag =>
      obtain ⟨t, ht, -, -⟩ := hreferences full tag (Schema.mem_nodes_self _)
      rw [check, ht] at h
      have hnamed : check R (defaultStands R available) d (.named t) = .error r := by
        rw [check]
        exact h
      have hcovers : R.Covers (.named t) := (hR full t ht).2
      have hdefinition : R.Resolves (.named t) := hresolves full t ht
      refine .reference ht (located_of_check_named hR havailable hcovers ?_ hnamed)
      intro f hf e r hlt he
      exact ihd e f.type hlt (hcovers.field hf)
        (hdefinition.of_child (List.mem_map.mpr ⟨f, hf, rfl⟩)) he

/-- A definition fails with the first of its fields that does. -/
theorem check_of_field (hR : R.Closed) (havailable : ∀ σ ∈ R.slots, σ ∈ available)
    {entries : List (String × Datum)} {t : Definition} {before after : List Field} {f : Field}
    {v : Violation} {path : InstancePath} {schemaPath : SchemaPath} (ht : R.Covers (.named t))
    (hfields : t.fields = before ++ f :: after)
    (hbefore : ∀ g ∈ before, (g.site entries t).Accepted R)
    (hf : checkField R (defaultStands R available) entries t.full f =
      .error ⟨v, path, schemaPath⟩) :
    check R (defaultStands R available) (.map entries) (.named t) =
      .error ⟨v, .key f.name :: path, t.segment :: f.segment :: schemaPath⟩ := by
  obtain ⟨name, doc, body⟩ := t
  cases body with
  | record kind fields =>
    obtain rfl : fields = before ++ f :: after := hfields
    rw [check_record, Verdict.inSchema_eq_error_iff]
    refine ⟨_, checkFields_eq_error_iff.mpr
      ⟨before, f, after, _, rfl, fun g hg => ?_, hf, rfl⟩, rfl⟩
    exact (accepted_site_iff hR havailable ht (List.mem_append_left _ hg)).mp (hbefore g hg)
  | _ => simp [Definition.fields, Body.fields] at hfields

/-- The site of a violation, reached past accepted ones, is where the check ends. -/
theorem check_of_leads (hR : R.Closed) (havailable : ∀ σ ∈ R.slots, σ ∈ available) {d : Datum}
    {s : Schema} {path : InstancePath} {schemaPath : SchemaPath} {passed : List Site} {site : Site}
    (hleads : Leads R d s path schemaPath passed site) {v : Violation} (hv : site.Rejects R v)
    (hpassed : ∀ p ∈ passed, p.Accepted R) (hs : R.Covers s) :
    check R (defaultStands R available) d s = .error ⟨v, path, schemaPath⟩ := by
  induction hleads with
  | here hsegment => exact check_of_rejects hR havailable hs hsegment hv
  | item _ ih =>
    obtain ⟨hbefore, hrest⟩ := List.forall_mem_append.mp hpassed
    have hitems := hs.of_child List.mem_cons_self
    rw [check_array, Verdict.inSchema_eq_error_iff]
    refine ⟨_, checkItems_eq_error_iff.mpr ⟨_, _, _, _, rfl, fun x hx => ?_,
      ih hv hrest hitems, rfl⟩, ?_⟩
    · exact (isValid_eq_true_iff_check hR havailable hitems).mp
        (List.forall_mem_map.mp hbefore x hx)
    · rw [Nat.zero_add]
      rfl
  | value _ ih =>
    obtain ⟨hbefore, hrest⟩ := List.forall_mem_append.mp hpassed
    have hvalues := hs.of_child List.mem_cons_self
    rw [check_map, Verdict.inSchema_eq_error_iff]
    refine ⟨_, checkEntries_eq_error_iff.mpr ⟨_, _, _, _, rfl, fun x hx => ?_,
      ih hv hrest hvalues, rfl⟩, rfl⟩
    exact (isValid_eq_true_iff_check hR havailable hvalues).mp (List.forall_mem_map.mp hbefore x hx)
  | field hfields hlookup _ ih =>
    obtain ⟨hbefore, hrest⟩ := List.forall_mem_append.mp hpassed
    have htype := hs.field (hfields ▸ List.mem_append_right _ List.mem_cons_self)
    refine check_of_field hR havailable hs hfields (List.forall_mem_map.mp hbefore) ?_
    rw [checkField, hlookup]
    exact ih hv hrest htype
  | absent hfields hlookup =>
    have hfield := hs.hasField (hfields ▸ List.mem_append_right _ List.mem_cons_self)
    refine check_of_field hR havailable hs hfields (List.forall_mem_map.mp hpassed) ?_
    rw [checkField, hlookup, checkAbsent_defaultStands hR havailable hfield]
    exact checkAbsent_of_rejects hv
  | reference ht _ ih =>
    have hnamed := ih hv hpassed (hR _ _ ht).2
    rw [check] at hnamed
    rw [check, ht]
    exact hnamed

end Closed

/-! ## 7. Documents -/

theorem Document.read_of_ofText {options : Options} {text : String} {doc : Document}
    (h : Document.ofText options text = .ok doc) :
    (Call.text options.maxDepth text).read .empty = .ok (doc.root, doc.registry) := by
  rw [Call.read]
  rw [Document.ofText] at h
  cases hread : Schema.ofText options.maxDepth text .empty with
  | ok r =>
    rw [hread] at h
    cases h
    rfl
  | error e =>
    rw [hread] at h
    cases h

/-- A document is a session of one call. -/
theorem Document.run_of_ofText {options : Options} {text : String} {doc : Document}
    (h : Document.ofText options text = .ok doc) :
    Session.run [.text options.maxDepth text] = ⟨[doc.root], doc.registry⟩ :=
  @Session.run_concat [] _ _ _ (Document.read_of_ofText h)

/-- **A document rejects a datum exactly with the rejection that is located faithfully.** -/
theorem Document.validate_eq_error_iff {options : Options} {text : String} {doc : Document}
    (hdoc : Document.ofText options text = .ok doc) (d : Datum) (r : Rejection) :
    doc.validate d = .error r ↔ r.Located doc.registry d doc.root := by
  have hrun := Document.run_of_ofText hdoc
  have hroot : doc.root ∈ (Session.run [.text options.maxDepth text]).schemas := by
    rw [hrun]
    exact List.mem_cons_self
  have hcomplete := Session.complete_run [.text options.maxDepth text]
  have hclosed := Session.closed_run [.text options.maxDepth text]
  have hcovers := Session.covers_run hroot
    (Session.isRequest_run (by simp [Call.isRequest]) _ hroot)
  have hreferences := hcomplete.resolves_schema hroot
  have hresolves := fun full t => @Session.Complete.resolves_definition _ hcomplete full t
  rw [hrun] at hclosed hcovers hreferences hresolves
  have havailable : ∀ σ ∈ doc.registry.slots, σ ∈ doc.root.slots ++ doc.registry.slots :=
    fun σ hσ => List.mem_append_right _ hσ
  constructor
  · exact located_of_check hclosed hresolves havailable hcovers hreferences
  · rintro ⟨passed, site, hleads, hv, hpassed⟩
    exact check_of_leads hclosed havailable hleads hv hpassed hcovers

namespace Example

/-- A folder has a size, and folders inside. -/
def folderText : String :=
  "\x7b\"name\":\"Folder\",\"type\":\"record\",\"fields\":[" ++
    "\x7b\"name\":\"size\",\"type\":\"int\"\x7d," ++
    "\x7b\"name\":\"folders\"," ++
      "\"type\":\x7b\"type\":\"array\",\"items\":\"Folder\"\x7d\x7d]\x7d"

def folder : Definition :=
  ⟨⟨"Folder", by decide⟩, none, .record .record [
    ⟨"size", .primitive .int, none, none, none⟩,
    ⟨"folders", .array (.reference "Folder" .record), none, none, none⟩]⟩

def folderDocument : Document :=
  ⟨.named folder, Registry.empty.define folder⟩

theorem ofText_folderText : Document.ofText .standard folderText = .ok folderDocument :=
  toOption_eq_some_iff.mp (by decide +kernel)

/-- A folder with two folders inside, the second of which has a size that is too large. -/
def oversizedDatum : Datum :=
  .map [
    ("folders", .array [
      .map [("folders", .array []), ("size", .int 1)],
      .map [("folders", .array []), ("size", .int 2147483648)]]),
    ("size", .int 3)]

/-- The size of the second one, and the way there through the reference. -/
def oversizedRejection : Rejection :=
  ⟨.integerOutOfRange 2147483648 (-2147483648) 2147483647,
    [.key "folders", .index 1, .key "size"],
    ["record:Folder", "field:folders", "array", "record:Folder", "field:size", "int"]⟩

end Example

/-- The second folder inside has a size that is too large; the first one has been accepted, and so
has the size of the root. -/
theorem Document.validate_eq_error_iff_oversized :
    Example.folderDocument.validate Example.oversizedDatum = .error Example.oversizedRejection ∧
    Example.oversizedRejection.Located Example.folderDocument.registry Example.oversizedDatum
      Example.folderDocument.root := by
  have hvalidate :
      Example.folderDocument.validate Example.oversizedDatum =
        .error Example.oversizedRejection := by
    cbv
  exact ⟨hvalidate, (Document.validate_eq_error_iff Example.ofText_folderText _ _).mp hvalidate⟩

end Avro
