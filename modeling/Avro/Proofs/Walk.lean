/-
# Walk: one step of a check

`check` and its companions call each other.  Here each of them is opened once, so that what they do
can be used without their recursion:

* `checkItems_eq_all`, `checkEntries_eq_all`, `checkFields_eq_all`: the parts of a datum are checked
  in a row, and the first rejection is the one given (`Verdict.all_eq_error_iff`).
* `check_array_eq_ok_iff` and its fellows: when a datum passes, shape by shape.
* `walk_induction`: a claim about all data and schemas may use itself for smaller data under every
  schema, and for the same datum under smaller schemas.
-/
import Avro.Validation

namespace Avro

/-! ## 1. Checks in a row -/

namespace Verdict

/-- The first rejection among these, if there is one. -/
def all (vs : List Verdict) : Verdict :=
  vs.foldr (fun v w => do v; w) (.ok ())

theorem all_cons (v : Verdict) (vs : List Verdict) : all (v :: vs) = (do v; all vs) := rfl

theorem all_eq_ok_iff {vs : List Verdict} : all vs = .ok () ↔ ∀ v ∈ vs, v = .ok () := by
  induction vs with
  | nil => simp [all]
  | cons v vs ih => rw [all_cons, andThen_eq_ok_iff, ih, List.forall_mem_cons]

theorem andThen_eq_error_iff {v w : Verdict} {r : Rejection} :
    (do v; w) = .error r ↔ v = .error r ∨ v = .ok () ∧ w = .error r := by
  cases v <;> simp [bind, Except.bind]

/-- A rejection by checks in a row is that of one of them, and those before it found nothing. -/
theorem all_eq_error_iff {vs : List Verdict} {r : Rejection} :
    all vs = .error r ↔
      ∃ before after, vs = before ++ .error r :: after ∧ ∀ v ∈ before, v = .ok () := by
  induction vs with
  | nil => simp [all]
  | cons v vs ih =>
    rw [all_cons, andThen_eq_error_iff, ih]
    constructor
    · rintro (rfl | ⟨rfl, before, after, rfl, hbefore⟩)
      · exact ⟨[], vs, rfl, by simp⟩
      · exact ⟨.ok () :: before, after, rfl, by simpa using hbefore⟩
    · rintro ⟨before, after, heq, hbefore⟩
      match before with
      | [] =>
        obtain ⟨rfl, rfl⟩ := List.cons.inj heq
        exact .inl rfl
      | w :: before =>
        obtain ⟨rfl, rfl⟩ := List.cons.inj heq
        refine .inr ⟨hbefore v List.mem_cons_self, before, after, rfl, fun w hw => ?_⟩
        exact hbefore w (List.mem_cons_of_mem _ hw)

theorem mapError_eq_error_iff {g : Rejection → Rejection} {v : Verdict} {r : Rejection} :
    v.mapError g = .error r ↔ ∃ r', v = .error r' ∧ r = g r' := by
  cases v with
  | ok =>
    constructor
    · intro h
      cases h
    · rintro ⟨r', h, -⟩
      cases h
  | error r' =>
    constructor
    · intro h
      cases h
      exact ⟨r', rfl, rfl⟩
    · rintro ⟨r', h, rfl⟩
      cases h
      rfl

theorem inInstance_eq_error_iff {segment : Segment} {v : Verdict} {r : Rejection} :
    v.inInstance segment = .error r ↔ ∃ r', v = .error r' ∧ r = r'.inInstance segment :=
  mapError_eq_error_iff

theorem inSchema_eq_error_iff {segment : String} {v : Verdict} {r : Rejection} :
    v.inSchema segment = .error r ↔ ∃ r', v = .error r' ∧ r = r'.inSchema segment :=
  mapError_eq_error_iff

end Verdict

section Walk

variable (R : Registry) (stands : String → Field → Bool)

/-- The verdict on one field of a record with these entries. -/
def checkField (entries : List (String × Datum)) (owner : String) (f : Field) : Verdict :=
  match entries.lookup f.name with
  | some d => check R stands d f.type
  | none => checkAbsent f (stands owner f)

variable {R stands}

theorem checkItems_eq_all {index : Nat} {ds : List Datum} {items : Schema} :
    checkItems R stands index ds items =
      .all (ds.mapIdx fun i d => (check R stands d items).inInstance (.index (index + i))) := by
  induction ds generalizing index with
  | nil => rw [checkItems]; rfl
  | cons d ds ih =>
    rw [checkItems, ih, List.mapIdx_cons, Verdict.all_cons]
    simp only [Nat.add_zero, Nat.add_assoc, Nat.add_comm 1]

theorem checkEntries_eq_all {entries : List (String × Datum)} {values : Schema} :
    checkEntries R stands entries values =
      .all (entries.map fun e => (check R stands e.2 values).inInstance (.key e.1)) := by
  induction entries with
  | nil => rw [checkEntries]; rfl
  | cons e entries ih => rw [checkEntries, ih, List.map_cons, Verdict.all_cons]

theorem checkFields_eq_all {entries : List (String × Datum)} {owner : String}
    {fields : List Field} :
    checkFields R stands entries owner fields =
      .all (fields.map fun f =>
        ((checkField R stands entries owner f).inInstance (.key f.name)).inSchema f.segment) := by
  induction fields with
  | nil => rw [checkFields]; rfl
  | cons f fields ih =>
    rw [checkFields, ih, List.map_cons, Verdict.all_cons, checkField]
    -- the two look-ups differ in the proof that the first one keeps
    cases entries.lookup f.name <;> rfl

theorem checkFields_eq_ok_iff {entries : List (String × Datum)} {owner : String}
    {fields : List Field} :
    checkFields R stands entries owner fields = .ok () ↔
      ∀ f ∈ fields, checkField R stands entries owner f = .ok () := by
  rw [checkFields_eq_all, Verdict.all_eq_ok_iff]
  simp only [List.forall_mem_map, Verdict.inSchema_eq_ok_iff, Verdict.inInstance_eq_ok_iff]

theorem checkAbsent_eq_ok_iff {f : Field} {b : Bool} :
    checkAbsent f b = .ok () ↔ f.default.isSome = true ∧ b = true := by
  cases h : f.default <;> cases b <;> simp [checkAbsent, h, Verdict.reject]

theorem checkField_eq_ok_iff {entries : List (String × Datum)} {owner : String} {f : Field} :
    checkField R stands entries owner f = .ok () ↔
      (∃ d, entries.lookup f.name = some d ∧ check R stands d f.type = .ok ()) ∨
      (entries.lookup f.name = none ∧ f.default.isSome = true ∧ stands owner f = true) := by
  rw [checkField]
  split
  · next d h => simp [h]
  · next h => simp [h, checkAbsent_eq_ok_iff]

/-! ## 2. When a datum passes -/

theorem check_primitive_eq_ok_iff {p : Primitive} {d : Datum} :
    check R stands d (.primitive p) = .ok () ↔ checkPrimitive p d = .ok () := by
  rw [check, Verdict.inSchema_eq_ok_iff]

theorem check_enum_eq_ok_iff {name : Name} {doc : Option String} {symbols : List String}
    {d : Datum} :
    check R stands d (.named ⟨name, doc, .enum symbols⟩) = .ok () ↔
      checkSymbol symbols d = .ok () := by
  rw [check, checkDefinition, Verdict.inSchema_eq_ok_iff]

theorem check_fixed_eq_ok_iff {name : Name} {doc : Option String} {size : UInt64} {d : Datum} :
    check R stands d (.named ⟨name, doc, .fixed size⟩) = .ok () ↔
      checkSize size.toNat d = .ok () := by
  rw [check, checkDefinition, Verdict.inSchema_eq_ok_iff]

theorem check_record_eq_ok_iff {name : Name} {doc : Option String} {kind : RecordKind}
    {fields : List Field} {d : Datum} :
    check R stands d (.named ⟨name, doc, .record kind fields⟩) = .ok () ↔
      ∃ entries, d = .map entries ∧
        ∀ f ∈ fields, checkField R stands entries name.full f = .ok () := by
  rw [check, checkDefinition, Verdict.inSchema_eq_ok_iff]
  cases d <;> simp [mismatch, Verdict.reject, checkFields_eq_ok_iff, Definition.full]

theorem check_request_eq_ok_iff {fields : List Field} {d : Datum} :
    check R stands d (.request fields) = .ok () ↔
      ∃ entries, d = .map entries ∧
        ∀ f ∈ fields, checkField R stands entries Schema.requestOwner f = .ok () := by
  cases d <;> simp [check, Verdict.inSchema_eq_ok_iff, mismatch, Verdict.reject,
    checkFields_eq_ok_iff]

theorem check_array_eq_ok_iff {items : Schema} {d : Datum} :
    check R stands d (.array items) = .ok () ↔
      ∃ ds, d = .array ds ∧ ∀ x ∈ ds, check R stands x items = .ok () := by
  cases d <;> simp [check, Verdict.inSchema_eq_ok_iff, mismatch, Verdict.reject,
    checkItems_eq_ok_iff]

theorem check_map_eq_ok_iff {values : Schema} {d : Datum} :
    check R stands d (.map values) = .ok () ↔
      ∃ entries, d = .map entries ∧ ∀ e ∈ entries, check R stands e.2 values = .ok () := by
  cases d <;> simp [check, Verdict.inSchema_eq_ok_iff, mismatch, Verdict.reject,
    checkEntries_eq_ok_iff]

theorem check_union_eq_ok_iff {branches : List Schema} {d : Datum} :
    check R stands d (.union branches) = .ok () ↔
      ∃ b ∈ branches, check R stands d b = .ok () := by
  rw [check, Verdict.inSchema_eq_ok_iff, ← isSome_firstAccepting?_iff]
  split
  · next h => simp [h]
  · next h => simp [h, Verdict.reject]

theorem check_reference_eq_ok_iff {full : String} {tag : Tag} {d : Datum} :
    check R stands d (.reference full tag) = .ok () ↔
      ∃ t, R.get? full = some t ∧ check R stands d (.named t) = .ok () := by
  rw [check]
  cases R.get? full with
  | none => simp [Verdict.reject]
  | some t => simp only [Option.some.injEq, exists_eq_left', check]

/-! ## 3. Induction -/

/-- What stands in an array is smaller. -/
theorem Datum.sizeOf_lt_array {d : Datum} {ds : List Datum} (h : d ∈ ds) :
    sizeOf d < sizeOf (Datum.array ds) := by
  have hlt : sizeOf d < sizeOf ds := List.sizeOf_lt_of_mem h
  rw [Datum.array.sizeOf_spec]
  omega

/-- What stands in a map is smaller. -/
theorem Datum.sizeOf_lt_map {e : String × Datum} {entries : List (String × Datum)}
    (h : e ∈ entries) : sizeOf e.2 < sizeOf (Datum.map entries) := by
  have hlt : sizeOf e < sizeOf entries := List.sizeOf_lt_of_mem h
  obtain ⟨key, d⟩ := e
  rw [Prod.mk.sizeOf_spec] at hlt
  rw [Datum.map.sizeOf_spec]
  show sizeOf d < 1 + sizeOf entries
  omega

theorem Schema.sizeOf_lt_union {b : Schema} {branches : List Schema} (h : b ∈ branches) :
    sizeOf b < sizeOf (Schema.union branches) := by
  have hlt : sizeOf b < sizeOf branches := List.sizeOf_lt_of_mem h
  rw [Schema.union.sizeOf_spec]
  omega

/-- **Induction along a walk.**  Each step of a check goes to a smaller datum, or it keeps the datum
and goes to a smaller schema. -/
theorem walk_induction {P : Datum → Schema → Prop}
    (step : ∀ d s, (∀ d' s', sizeOf d' < sizeOf d → P d' s') →
      (∀ s', sizeOf s' < sizeOf s → P d s') → P d s) (d : Datum) (s : Schema) : P d s :=
  step d s (fun d' s' _ => walk_induction step d' s') (fun s' _ => walk_induction step d s')
termination_by (sizeOf d, sizeOf s)

end Walk
end Avro
