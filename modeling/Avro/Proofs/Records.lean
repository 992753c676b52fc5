/-
# Records: a record is decided field by field

The check of a record goes through its fields in the order of the schema.  For a value that is there
it has more defaults at hand than a check of the value by itself, namely those of the other fields,
and for a default it has one less than a check of the default by itself, namely this very one.
Neither makes a difference: the check of the value does not ask for the others
(`check_eq_validate`), and a default that conforms does so without leading back to itself
(`checkAbsent_defaultStands`).

* `Field.passes`: a field is in order, by the predicates that a caller has.
* `Field.verdict`: what a field comes to by itself.
* `validate_record_eq`: the fields in turn, each by itself.
* `validate_record`: a record conforms if every field passes, and else fails at the first that does
  not.
-/
import Avro.Proofs.Likeness
import Avro.Proofs.Location

namespace Avro

/-! ## 1. A field by itself -/

namespace Field

/-- The value of the field is there and valid, or it is absent and there is a valid default. -/
def passes (R : Registry) (entries : List (String × Datum)) (f : Field) : Bool :=
  match entries.lookup f.name with
  | some d => isValid R f.type d
  | none => f.default.isSome && f.defaultIsValid R

/-- What the field comes to by itself, with paths that start at its value. -/
def verdict (R : Registry) (entries : List (String × Datum)) (f : Field) : Verdict :=
  match entries.lookup f.name with
  | some d => validate R f.type d
  | none => checkAbsent f (f.defaultIsValid R)

variable {R : Registry} {entries : List (String × Datum)} {f : Field}

theorem verdict_eq_ok_iff : f.verdict R entries = .ok () ↔ f.passes R entries = true := by
  rw [verdict, passes]
  cases entries.lookup f.name with
  | some d => exact Verdict.accepts_iff.symm
  | none => simp only [checkAbsent_eq_ok_iff, Bool.and_eq_true]

/-- A value that does not pass has been rejected. -/
theorem exists_verdict_eq_error (h : f.passes R entries = false) :
    ∃ r, f.verdict R entries = .error r := by
  cases hverdict : f.verdict R entries with
  | ok => rw [verdict_eq_ok_iff.mp hverdict] at h; cases h
  | error r => exact ⟨r, rfl⟩

/-- An absent field that does not pass has a default that is not valid, or none. -/
theorem verdict_of_absent (h : f.passes R entries = false)
    (hlookup : entries.lookup f.name = none) :
    f.verdict R entries = .error
      (.here (if f.default.isSome then .invalidDefault f.name else .missingField f.name)) := by
  rw [passes, hlookup] at h
  rw [verdict, hlookup]
  cases hdefault : f.default with
  | none => rw [checkAbsent, hdefault]; rfl
  | some v =>
    have hinvalid : f.defaultIsValid R = false := by simpa [hdefault] using h
    rw [checkAbsent, hdefault, hinvalid]
    rfl

end Field

/-! ## 2. The fields of a record -/

section Closed

variable {R : Registry}

/-- A field of the registry comes to the same in its record and by itself. -/
theorem checkField_eq_verdict (hR : R.Closed) {available : List Slot} {full : String} {f : Field}
    (hf : R.HasField full f) (havailable : ∀ σ ∈ f.type.slots ++ R.slots, σ ∈ available)
    {entries : List (String × Datum)} :
    checkField R (defaultStands R available) entries full f = f.verdict R entries := by
  rw [checkField, Field.verdict]
  cases entries.lookup f.name with
  | some d => exact check_eq_validate havailable d
  | none =>
    exact checkAbsent_defaultStands hR (fun σ hσ => havailable σ (List.mem_append_right _ hσ)) hf

/-- **The fields of a record are checked in turn**, each by itself. -/
theorem validate_record_eq (hR : R.Closed) {full : String} {name : Name} {doc : Option String}
    {kind : RecordKind} {fields : List Field}
    (ht : R.get? full = some ⟨name, doc, .record kind fields⟩) {entries : List (String × Datum)} :
    validate R (.named ⟨name, doc, .record kind fields⟩) (.map entries) =
      (Verdict.all (fields.map fun f =>
        ((f.verdict R entries).inInstance (.key f.name)).inSchema f.segment)).inSchema
          (Definition.segment ⟨name, doc, .record kind fields⟩) := by
  obtain ⟨hfull, hcovers⟩ := hR full _ ht
  rw [validate, check_record, checkFields_eq_all]
  refine congrArg (fun vs => Verdict.inSchema _ (.all vs)) (List.map_congr_left fun f hf => ?_)
  have hfield : R.HasField name.full f := hcovers.hasField hf
  -- the slots of a type of a field are slots of the record
  rw [checkField_eq_verdict hR hfield fun σ hσ => ?_]
  rcases List.mem_append.mp hσ with hσ | hσ
  · exact List.mem_append_left _ (Schema.mem_slots_of_child (List.mem_map.mpr ⟨f, hf, rfl⟩) hσ)
  · exact List.mem_append_right _ hσ

/-- The first field that does not pass is what a record is rejected for. -/
theorem validate_record_of_find? (hR : R.Closed) {full : String} {name : Name}
    {doc : Option String} {kind : RecordKind} {fields : List Field}
    (ht : R.get? full = some ⟨name, doc, .record kind fields⟩) {entries : List (String × Datum)}
    {f : Field} (hfind : fields.find? (fun f => !f.passes R entries) = some f) {r : Rejection}
    (hr : f.verdict R entries = .error r) :
    validate R (.named ⟨name, doc, .record kind fields⟩) (.map entries) =
      .error ((r.inInstance (.key f.name)).inSchema f.segment |>.inSchema
        (Definition.segment ⟨name, doc, .record kind fields⟩)) := by
  obtain ⟨-, before, after, heq, hbefore⟩ := List.find?_eq_some_iff_append.mp hfind
  rw [validate_record_eq hR ht, Verdict.inSchema_eq_error_iff]
  refine ⟨_, Verdict.all_map_eq_error_iff.mpr ⟨before, f, after, heq, fun g hg => ?_, ?_⟩, rfl⟩
  · have hpasses : g.passes R entries = true := by simpa using hbefore g hg
    rw [Field.verdict_eq_ok_iff.mpr hpasses]
    rfl
  · rw [hr]
    rfl

end Closed

/-! ## 3. Records of a session -/

/-- **A record is decided field by field.**  After any row of calls, a map conforms to a record of
the registry exactly if every field passes.  Otherwise take the first field, in the order of the
schema, that does not.  If its value is there, the rejection is that of the value by itself, seen
from the record; if it is absent, the default is what is not valid, or there is none. -/
theorem validate_record (calls : List Call) {full : String} {name : Name} {doc : Option String}
    {kind : RecordKind} {fields : List Field} {t : Definition}
    (hrecord : t = ⟨name, doc, .record kind fields⟩)
    (ht : (Session.run calls).registry.get? full = some t) (entries : List (String × Datum)) :
    (validate (Session.run calls).registry (.named t) (.map entries) = .ok () ↔
      ∀ f ∈ fields, f.passes (Session.run calls).registry entries = true) ∧
    ∀ f, fields.find? (fun f => !f.passes (Session.run calls).registry entries) = some f →
      (∀ d, entries.lookup f.name = some d →
        ∃ r, validate (Session.run calls).registry f.type d = .error r ∧
          validate (Session.run calls).registry (.named t) (.map entries) =
            .error ⟨r.violation, .key f.name :: r.instancePath,
              t.segment :: f.segment :: r.schemaPath⟩) ∧
      (entries.lookup f.name = none →
        validate (Session.run calls).registry (.named t) (.map entries) =
          .error ⟨if f.default.isSome then .invalidDefault f.name else .missingField f.name,
            [.key f.name], [t.segment, f.segment]⟩) := by
  subst hrecord
  have hR : (Session.run calls).registry.Closed := Session.closed_run calls
  refine ⟨?_, fun f hfind => ?_⟩
  · rw [validate_record_eq hR ht, Verdict.inSchema_eq_ok_iff, Verdict.all_eq_ok_iff]
    simp only [List.forall_mem_map, Verdict.inSchema_eq_ok_iff, Verdict.inInstance_eq_ok_iff,
      Field.verdict_eq_ok_iff]
  · have hfails : f.passes (Session.run calls).registry entries = false := by
      simpa using List.find?_some hfind
    refine ⟨fun d hlookup => ?present, fun hlookup => ?absent⟩
    case present =>
      obtain ⟨r, hr⟩ := Field.exists_verdict_eq_error hfails
      refine ⟨r, ?_, validate_record_of_find? hR ht hfind hr⟩
      rw [← hr, Field.verdict, hlookup]
    case absent =>
      exact validate_record_of_find? hR ht hfind (Field.verdict_of_absent hfails hlookup)

namespace Example

/-- The one field of `node`. -/
def nodeField : Field :=
  ⟨"next", .union [.reference "Node" .record, .map (.primitive .null)], some (.obj []), none, none⟩

/-- The one field of `loop`. -/
def loopField : Field :=
  ⟨"next", .reference "Loop" .record, some (.obj []), none, none⟩

theorem registry_detourCalls :
    (Session.run detourCalls).registry = (Registry.empty.define node).define loop := by
  rfl

end Example

/-- In the session of `Example.detourCalls` the default of a node passes, though it leads back to
its own field in the first branch; that of a loop leads nowhere else.  A value that is no node is
rejected as by itself. -/
theorem validate_record_detour :
    validate (Session.run Example.detourCalls).registry (.named Example.node) (.map []) = .ok () ∧
    validate (Session.run Example.detourCalls).registry (.named Example.loop) (.map []) =
      .error ⟨.invalidDefault "next", [.key "next"], ["record:Loop", "field:next"]⟩ ∧
    validate (Session.run Example.detourCalls).registry (.named Example.node)
      (.map [("next", .int 1)]) =
      .error ⟨.noMatchingBranch ["Node", "map"], [.key "next"],
        ["record:Node", "field:next", "union"]⟩ := by
  have hnode : (Session.run Example.detourCalls).registry.get? "Node" = some Example.node := rfl
  have hloop : (Session.run Example.detourCalls).registry.get? "Loop" = some Example.loop := rfl
  have hpasses : Example.nodeField.passes (Session.run Example.detourCalls).registry [] = true := by
    rw [Example.registry_detourCalls]
    cbv
  have hloopFails :
      Example.loopField.passes (Session.run Example.detourCalls).registry [] = false := by
    rw [Example.registry_detourCalls]
    cbv
  have hvalue :
      validate (Session.run Example.detourCalls).registry Example.nodeField.type (.int 1) =
        .error ⟨.noMatchingBranch ["Node", "map"], [], ["union"]⟩ := by
    rw [Example.registry_detourCalls]
    cbv
  have hnodeFails : Example.nodeField.passes (Session.run Example.detourCalls).registry
      [("next", .int 1)] = false := by
    rw [Example.registry_detourCalls]
    cbv
  refine ⟨?_, ?_, ?_⟩
  · exact (validate_record _ rfl hnode []).1.mpr (List.forall_mem_singleton.mpr hpasses)
  · exact ((validate_record _ rfl hloop []).2 Example.loopField
      (List.find?_cons_of_pos (Bool.not_eq_eq_eq_not.mpr hloopFails))).2 rfl
  · obtain ⟨r, hr, hresult⟩ := ((validate_record _ rfl hnode [("next", .int 1)]).2 Example.nodeField
      (List.find?_cons_of_pos (Bool.not_eq_eq_eq_not.mpr hnodeFails))).1 (.int 1) rfl
    obtain rfl := Except.error.inj (hvalue.symm.trans hr)
    exact hresult

end Avro
