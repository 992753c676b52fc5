/-
# Requests: a parameter list checks data like a record, but for one name

A request has fields and no name, and where the check has to say whose default it is using it puts
`Schema.requestOwner` for the owner.  That text is a full name that a record may have as well.  So
while the default of a field of the request is checked, the default of the field of this name in a
record called `request` counts as used up, though it never was.

* `isValid_record_iff_filled`: under a name that is new, the fields make a record whose data have a
  conforming value for each of them.
* `filled_of_isValid_request`, `isValid_request_iff_filled`: the same of the request, in one
  direction always, and in the other if no record called `request` has a default for a field of the
  same name.
* `isValid_request_eq_record`: what this comes to after any row of calls.
* `isValid_request_ne_record`: where the names meet, the request refuses what the record accepts.
-/
import Mathlib
import Avro.Proofs.Defaults

namespace Avro

/-! ## 1. Fields of any owner -/

section Closed

variable {R : Registry} {fields : List Field} {d : Datum}

/-- The data of a record are the maps that have a conforming value for each field.  The registry
does not know the record. -/
theorem isValid_record_iff_filled (hR : R.Closed) (htypes : ∀ f ∈ fields, R.Covers f.type)
    {name : Name} {doc : Option String} {kind : RecordKind} (hname : R.contains name.full = false) :
    isValid R (.named ⟨name, doc, .record kind fields⟩) d = true ↔
      ∃ entries, d = .map entries ∧ ∀ f ∈ fields, f.Filled R entries := by
  rw [isValid, Verdict.accepts_iff, validate, check_record_eq_ok_iff]
  refine exists_congr fun entries => and_congr_right fun _ => forall₂_congr fun f hf => ?_
  refine checkField_eq_ok_iff_filled hR (fun σ hσ => List.mem_append_right _ hσ) (htypes f hf) ?_
  intro hdefault
  refine .inr ⟨hR.not_mem_slots hname f.name, List.mem_append_left _ ?_⟩
  exact Schema.mem_slots_of_own (Field.mem_slots_iff.mpr ⟨f, hf, hdefault, rfl⟩)

/-- A datum that is valid for a request has a conforming value for each field. -/
theorem filled_of_isValid_request (hR : R.Closed) (htypes : ∀ f ∈ fields, R.Covers f.type)
    (h : isValid R (.request fields) d = true) :
    ∃ entries, d = .map entries ∧ ∀ f ∈ fields, f.Filled R entries := by
  rw [isValid, Verdict.accepts_iff, validate, check_request_eq_ok_iff] at h
  obtain ⟨entries, rfl, hall⟩ := h
  exact ⟨entries, rfl, fun f hf => filled_of_checkField hR (htypes f hf) (hall f hf)⟩

/-- **The data of a request** are the maps that have a conforming value for each field, unless a
record that is named like the owner of the request has a default for a field of the same name. -/
theorem isValid_request_iff_filled (hR : R.Closed) (htypes : ∀ f ∈ fields, R.Covers f.type)
    (hapart : ∀ f ∈ fields, f.default.isSome = true → (Schema.requestOwner, f.name) ∉ R.slots) :
    isValid R (.request fields) d = true ↔
      ∃ entries, d = .map entries ∧ ∀ f ∈ fields, f.Filled R entries := by
  rw [isValid, Verdict.accepts_iff, validate, check_request_eq_ok_iff]
  refine exists_congr fun entries => and_congr_right fun _ => forall₂_congr fun f hf => ?_
  refine checkField_eq_ok_iff_filled hR (fun σ hσ => List.mem_append_right _ hσ) (htypes f hf) ?_
  intro hdefault
  refine .inr ⟨hapart f hf hdefault, List.mem_append_left _ ?_⟩
  exact Schema.mem_slots_of_own (Field.mem_slots_iff.mpr ⟨f, hf, hdefault, rfl⟩)

end Closed

/-! ## 2. Sessions -/

/-- After any row of calls the registry covers what stands directly below a schema that has been
read, a request included. -/
theorem Session.covers_child_run {calls : List Call} {s c : Schema}
    (hs : s ∈ (Session.run calls).schemas) (hc : c ∈ s.children) :
    (Session.run calls).registry.Covers c where
  held := fun d hd => Registry.get?_eq_some_iff.mpr ((Session.complete_run calls).held s hs d
    (Schema.mem_definitions_iff.mpr (Schema.mem_nodes_of_child hc hd)))
  lawful := (Session.lawful_run calls s hs).of_mem
    (Schema.mem_nodes_of_child hc (Schema.mem_nodes_self c))
  schema := (Session.lawful_run calls s hs).requests s (Schema.mem_nodes_self s) c hc

/-- **Requests check data like records.**  After any row of calls, read a parameter list and make a
record of its fields under a name that the registry does not have.  Whatever is valid for the
request is valid for the record; and the two agree on every datum if no field with a default has the
name of a field with a default of a record called `request`. -/
theorem isValid_request_eq_record (calls : List Call) (limit : Nat) (scope : Option String)
    (v : Json) {fields : List Field} {R : Registry}
    (hread : Schema.readRequest limit scope v (Session.run calls).registry =
      .ok (.request fields, R))
    (name : Name) (hname : R.contains name.full = false) :
    ∃ t, Definition.recordOf name none .record fields = .ok t ∧
      (∀ d, isValid R (.request fields) d = true → isValid R (.named t) d = true) ∧
      ((∀ f ∈ fields, f.default.isSome = true → (Schema.requestOwner, f.name) ∉ R.slots) →
        ∀ d, isValid R (.request fields) d = isValid R (.named t) d) := by
  have hrun : Session.run (calls ++ [.request limit scope v]) =
      ⟨(Session.run calls).schemas ++ [.request fields], R⟩ := Session.run_concat hread
  have hR : R.Closed := by
    have hclosed := Session.closed_run (calls ++ [.request limit scope v])
    rwa [hrun] at hclosed
  have htypes : ∀ f ∈ fields, R.Covers f.type := by
    intro f hf
    have hcovers : (Session.run (calls ++ [.request limit scope v])).registry.Covers f.type := by
      refine Session.covers_child_run (s := .request fields) ?_ (List.mem_map.mpr ⟨f, hf, rfl⟩)
      rw [hrun]
      exact List.mem_append_right _ List.mem_cons_self
    rwa [hrun] at hcovers
  obtain ⟨_, _, -, heq, -, hfault⟩ := Schema.readRequest_eq_ok_iff.mp hread
  obtain rfl := Schema.request.inj heq
  -- the rule for fields does not ask for their owner
  have hnodup : (fields.map Field.name).Nodup := Field.firstFault?_eq_none_iff.mp hfault
  refine ⟨⟨name, none, .record .record fields⟩,
    orFault_eq_ok_iff.mpr ⟨Field.firstFault?_eq_none_iff.mpr hnodup, rfl⟩, fun d hd => ?_,
    fun hapart d => ?_⟩
  · exact (isValid_record_iff_filled hR htypes hname).mpr (filled_of_isValid_request hR htypes hd)
  · rw [Bool.eq_iff_iff, isValid_request_iff_filled hR htypes hapart,
      isValid_record_iff_filled hR htypes hname]

namespace Example

/-- A record called `request` with a default for its one field. -/
def requestJson : Json :=
  .obj [
    ("fields", .arr [.obj [("default", .num (.int 1)), ("name", .str "a"), ("type", .str "int")]]),
    ("name", .str "request"), ("type", .str "record")]

/-- The parameter list with one field, whose default is such a record without its field. -/
def parametersJson (name : String) : Json :=
  .arr [.obj [("default", .obj []), ("name", .str name), ("type", .str "request")]]

def requestRecord : Definition :=
  ⟨⟨"request", by decide⟩, none, .record .record [
    ⟨"a", .primitive .int, some (.num (.int 1)), none, none⟩]⟩

def parameters (name : String) : List Field :=
  [⟨name, .reference "request" .record, some (.obj []), none, none⟩]

def requestRegistry : Registry :=
  Registry.empty.define requestRecord

/-- A name that `requestRegistry` does not have. -/
def freshName : Name :=
  ⟨"N", by decide⟩

/-- The record of the same fields as the request. -/
def parametersRecord (name : String) : Definition :=
  ⟨freshName, none, .record .record (parameters name)⟩

end Example

/-- The field `b` of the request has not the name of the field of the record, and the two agree on
the map without it. -/
theorem isValid_request_eq_record_apart :
    Schema.readRequest 64 none (Example.parametersJson "b")
      (Session.run [.value 64 none Example.requestJson]).registry =
        .ok (.request (Example.parameters "b"), Example.requestRegistry) ∧
    isValid Example.requestRegistry (.request (Example.parameters "b")) (.map []) =
      isValid Example.requestRegistry (.named (Example.parametersRecord "b")) (.map []) := by
  have hread : Schema.readRequest 64 none (Example.parametersJson "b")
      (Session.run [.value 64 none Example.requestJson]).registry =
        .ok (.request (Example.parameters "b"), Example.requestRegistry) := by rfl
  obtain ⟨t, ht, -, hagree⟩ := isValid_request_eq_record
    [.value 64 none Example.requestJson] 64 none (Example.parametersJson "b") hread
    Example.freshName (by rfl)
  obtain rfl : Example.parametersRecord "b" = t := by cases ht; rfl
  refine ⟨hread, hagree (fun f hf _ => ?_) (.map [])⟩
  obtain rfl := List.mem_singleton.mp hf
  decide

/-- **Where the names meet, a request refuses what the record accepts.**  The default of the field
`a` of the request is a record called `request` without its own field `a`.  The default of that one
does stand in for it, but not while that of the request is checked. -/
theorem isValid_request_ne_record :
    Schema.readRequest 64 none (Example.parametersJson "a")
      (Session.run [.value 64 none Example.requestJson]).registry =
        .ok (.request (Example.parameters "a"), Example.requestRegistry) ∧
    Example.requestRegistry.names = ["request"] ∧
    Definition.recordOf Example.freshName none .record (Example.parameters "a") =
      .ok (Example.parametersRecord "a") ∧
    isValid Example.requestRegistry (.request (Example.parameters "a")) (.map []) = false ∧
    isValid Example.requestRegistry (.named (Example.parametersRecord "a")) (.map []) = true := by
  refine ⟨by rfl, by rfl, by rfl, by cbv, by cbv⟩

end Avro
