/-
# Blame: which schema an error is about

A reading stops at its first fault.  The fault of a nested schema goes out through the schemas
around it: the first of them puts it inside an excerpt, the others leave it as it is, and an object
that stands for its `type` is not around it at all.  So what comes out names the innermost schema
that the fault is in, however deep that stands, and says of it what reading it alone would say.

* `Reading.Enters`, `Reading.Reaches`: the readings of nested schemas that a reading enters.
* `Reading.Fails`, `Reading.Blames`: a fault of the value itself, and that of one schema inside.
* `Reading.result_eq_error_cases`: there is no other but the limit of the nesting.
* `Reading.eq_or_reaches_of_fails`: the schemas that fail stand inside one another.
* `Schema.reader_eq_error_cases`: an error is the limit, or is about the value itself, or about one
  schema nested in it; these exclude each other.
-/
import Mathlib
import Avro.Proofs.Faults
import Avro.Proofs.Nesting

namespace Avro

/-! ## 1. Readings inside one another -/

/-- The reading of a value: how many levels are left, and what is known where it begins. -/
structure Reading where
  levels : Nat
  scope : Option String
  value : Json
  registry : Registry

namespace Reading

variable {limit : Nat} {p q u : Reading} {e e' source : SchemaError}

def result (limit : Nat) (p : Reading) : Except SchemaError (Schema × Registry) :=
  Schema.readerAt limit p.levels p.scope p.value p.registry

/-- In the course of a reading, the reading of a schema directly inside is entered.  An object that
stands for its `type` is not around the schemas in that. -/
inductive Enters (limit : Nat) : Reading → Reading → Prop
  | inside {levels : Nat} {scope inside : Option String} {v w : Json} {R R₁ : Registry} :
    Schema.Inside (Schema.readerAt limit levels) scope v R inside w R₁ →
    Enters limit ⟨levels + 1, scope, v, R⟩ ⟨levels, inside, w, R₁⟩
  | wrapped {levels : Nat} {scope : Option String} {members : List (String × Json)} {w : Json}
      {R : Registry} {q : Reading} :
    Attribute.type.find? members = some w → Schema.isCompound w = true →
    Enters limit ⟨levels, scope, w, R⟩ q →
    Enters limit ⟨levels + 1, scope, .obj members, R⟩ q

/-- In the course of a reading, the reading of a schema anywhere inside is entered. -/
abbrev Reaches (limit : Nat) : Reading → Reading → Prop :=
  Relation.TransGen (Enters limit)

/-- A reading fails by a fault of the value itself: all that it enters succeeds. -/
structure Fails (limit : Nat) (p : Reading) (e : SchemaError) : Prop where
  result : p.result limit = .error e
  own : e.isOwn = true
  inside : ∀ q, p.Reaches limit q → ∃ r, q.result limit = .ok r

theorem result_wrapped {levels : Nat} {scope : Option String} {members : List (String × Json)}
    {w : Json} {R : Registry} (hw : Attribute.type.find? members = some w)
    (hcompound : Schema.isCompound w = true) :
    result limit ⟨levels + 1, scope, .obj members, R⟩ = result limit ⟨levels, scope, w, R⟩ :=
  congrFun (Schema.readWith_wrapped hw hcompound) R

theorem Enters.levels_lt (h : p.Enters limit q) : q.levels < p.levels := by
  induction h with
  | inside => exact Nat.lt_succ_self _
  | wrapped _ _ _ ih => exact Nat.lt_succ_of_lt ih

theorem Reaches.levels_lt (h : p.Reaches limit q) : q.levels < p.levels := by
  induction h with
  | single h => exact h.levels_lt
  | tail _ h ih => exact h.levels_lt.trans ih

/-- **A reading fails with those that it enters**, and puts the fault inside an excerpt. -/
theorem Enters.result_eq_error (h : p.Enters limit q) (hq : q.result limit = .error e) :
    p.result limit = .error (e.within q.value) := by
  induction h with
  | inside h => exact Schema.readWith_eq_error_of_inside h hq
  | wrapped hw hcompound _ ih =>
    rw [result_wrapped hw hcompound]
    exact ih hq

/-- So the fault that comes out is not the own fault of the value around. -/
theorem Reaches.result_eq_error (h : p.Reaches limit q) (hq : q.result limit = .error e) :
    ∃ e', p.result limit = .error e' ∧ e'.isOwn = false := by
  induction h using Relation.TransGen.head_induction_on with
  | single h => exact ⟨_, h.result_eq_error hq, e.isOwn_within _⟩
  | head h _ ih =>
    obtain ⟨e', he', -⟩ := ih
    exact ⟨_, h.result_eq_error he', e'.isOwn_within _⟩

theorem exists_error_of_entered (h : Relation.ReflTransGen (Enters limit) p q)
    (hq : q.result limit = .error e) : ∃ e', p.result limit = .error e' := by
  rcases Relation.reflTransGen_iff_eq_or_transGen.mp h with rfl | h
  · exact ⟨e, hq⟩
  · obtain ⟨e', he', -⟩ := Reaches.result_eq_error h hq
    exact ⟨e', he'⟩

/-- A fault that is the value's own is not that of a schema inside. -/
theorem fails_of_isOwn (h : p.result limit = .error e) (hown : e.isOwn = true) :
    p.Fails limit e := by
  refine ⟨h, hown, fun q hq => ?_⟩
  cases hresult : q.result limit with
  | ok r => exact ⟨r, rfl⟩
  | error e' =>
    obtain ⟨e'', he'', hforeign⟩ := hq.result_eq_error hresult
    obtain rfl : e = e'' := Except.error.inj (h.symm.trans he'')
    rw [hown] at hforeign
    cases hforeign

/-- **A reading that fails** reports the limit, or a fault of its own, or that of one schema which
it has come to, inside an excerpt of that one. -/
theorem result_eq_error_cases (h : p.result limit = .error e) :
    e = .nestingTooDeep limit ∨ p.Fails limit e ∨
      ∃ q source, p.Reaches limit q ∧ q.Fails limit source ∧
        e = .invalidSubSchema q.value.excerpt source := by
  obtain ⟨levels, scope, v, R⟩ := p
  induction levels generalizing scope v R e with
  | zero => exact .inl (ReadM.throw_eq_error_iff.mp h).symm
  | succ levels ih =>
    rcases Schema.readWith_eq_error_cases h with
      (hown | ⟨inside, w, R₁, source, hinside, hsource, rfl⟩) | ⟨members, w, rfl, hw, hcompound, hr⟩
    · exact .inr (.inl (fails_of_isOwn h hown))
    · have henters : Enters limit ⟨levels + 1, scope, v, R⟩ ⟨levels, inside, w, R₁⟩ :=
        .inside hinside
      rcases ih inside w R₁ hsource with rfl | hfails | ⟨q, source', hq, hfails, rfl⟩
      · exact .inl rfl
      · exact .inr (.inr ⟨_, source, .single henters, hfails,
          SchemaError.within_of_isOwn hfails.own w⟩)
      · exact .inr (.inr ⟨q, source', hq.head henters, hfails, rfl⟩)
    · have hwrapped : ∀ q, Reaches limit ⟨levels, scope, w, R⟩ q →
          Reaches limit ⟨levels + 1, scope, .obj members, R⟩ q := by
        intro q hq
        obtain ⟨x, hx, hxq⟩ := Relation.TransGen.head'_iff.mp hq
        exact Relation.TransGen.head'_iff.mpr ⟨x, .wrapped hw hcompound hx, hxq⟩
      rcases ih scope w R hr with rfl | hfails | ⟨q, source, hq, hfails, rfl⟩
      · exact .inl rfl
      · exact .inr (.inl (fails_of_isOwn h hfails.own))
      · exact .inr (.inr ⟨q, source, hwrapped q hq, hfails, rfl⟩)

/-- **Only one of the readings that are entered fails.** -/
theorem Enters.failing_unique (hq : p.Enters limit q) (hu : p.Enters limit u)
    (hfail : q.result limit = .error e) (hfail' : u.result limit = .error e') : q = u := by
  induction hq with
  | inside h =>
    cases hu with
    | inside h' =>
      obtain ⟨rfl, rfl, rfl⟩ := h.failing_unique h' hfail hfail'
      rfl
    | wrapped hw hcompound =>
      rw [h.not_isCompound hw] at hcompound
      cases hcompound
  | wrapped hw hcompound _ ih =>
    cases hu with
    | inside h' =>
      rw [h'.not_isCompound hw] at hcompound
      cases hcompound
    | wrapped hw' _ h' =>
      obtain rfl := Option.some.inj (hw.symm.trans hw')
      exact ih h' hfail

/-- So those that fail stand inside one another, the one with a fault of its own inside the rest. -/
theorem eq_or_reaches_of_fails (hq : Relation.ReflTransGen (Enters limit) p q)
    (hfails : q.Fails limit source) (hu : Relation.ReflTransGen (Enters limit) p u)
    (hfail : u.result limit = .error e) : u = q ∨ u.Reaches limit q := by
  induction hu using Relation.ReflTransGen.head_induction_on with
  | refl => exact (Relation.reflTransGen_iff_eq_or_transGen.mp hq).imp Eq.symm id
  | @head p x hx hxu ih =>
    have hreach : p.Reaches limit u := Relation.TransGen.head'_iff.mpr ⟨x, hx, hxu⟩
    rcases Relation.ReflTransGen.cases_head hq with rfl | ⟨y, hy, hyq⟩
    · obtain ⟨r, hr⟩ := hfails.inside u hreach
      rw [hr] at hfail
      cases hfail
    · -- two ways down from `p` are one, since only one of the readings that `p` enters fails
      obtain ⟨ex, hex⟩ := exists_error_of_entered hxu hfail
      obtain ⟨ey, hey⟩ := exists_error_of_entered hyq hfails.result
      obtain rfl := hx.failing_unique hy hex hey
      exact ih hyq

/-- The fault of a reading is that of the schema read by `q`: the innermost one that fails.  Read by
itself, with what is known there, this schema has the same fault. -/
structure Blames (limit : Nat) (p q : Reading) (source : SchemaError) : Prop where
  reached : p.Reaches limit q
  fails : q.Fails limit source
  around : ∀ u, p.Reaches limit u →
    (∃ r, u.result limit = .ok r) ∨ u = q ∨ u.Reaches limit q
  alone : Schema.reader limit q.scope q.value q.registry = .error source

/-- A reading with the levels that are left for it comes to what it comes to with all of them. -/
theorem Fails.reader_eq_error (h : q.Fails limit source) (hle : q.levels ≤ limit) :
    Schema.reader limit q.scope q.value q.registry = .error source := by
  obtain ⟨more, hmore⟩ := Nat.exists_eq_add_of_le hle
  have hresult := h.result
  rcases Schema.readerAt_agrees limit limit q.levels more q.scope q.value q.registry with
    hdeep | hagree
  · obtain rfl : SchemaError.nestingTooDeep limit = source :=
      Except.error.inj (hdeep.symm.trans hresult)
    cases h.own
  · rw [← hmore] at hagree
    exact hagree.symm.trans hresult

theorem blames_of_fails (hlevels : p.levels = limit) (hq : p.Reaches limit q)
    (hfails : q.Fails limit source) : p.Blames limit q source where
  reached := hq
  fails := hfails
  around := by
    intro u hu
    cases hresult : u.result limit with
    | ok r => exact .inl ⟨r, rfl⟩
    | error e =>
      exact .inr (eq_or_reaches_of_fails hq.to_reflTransGen hfails hu.to_reflTransGen hresult)
  alone := hfails.reader_eq_error (hlevels ▸ hq.levels_lt.le)

/-- A reading fails by the fault of one schema that it has come to, inside an excerpt of that. -/
def FailsNested (limit : Nat) (p : Reading) (e : SchemaError) : Prop :=
  ∃ q source, p.Blames limit q source ∧ e = .invalidSubSchema q.value.excerpt source ∧
    e.rootCause = source

theorem Fails.ne_nestingTooDeep (h : p.Fails limit e) : e ≠ .nestingTooDeep limit := by
  rintro rfl
  cases h.own

theorem FailsNested.ne_nestingTooDeep (h : p.FailsNested limit e) : e ≠ .nestingTooDeep limit := by
  obtain ⟨q, source, -, rfl, -⟩ := h
  exact nofun

theorem FailsNested.not_fails (h : p.FailsNested limit e) : ¬p.Fails limit e := by
  obtain ⟨q, source, -, rfl, -⟩ := h
  intro hfails
  cases hfails.own

end Reading

/-- **What an error of a reading is about.**  It reports the limit of the nesting; or it is a fault
of the value itself, and all schemas in it that the reading has come to are read; or it puts, inside
an excerpt, the fault of one of these schemas: of the innermost one that the fault is in, which has
this very fault if it is read by itself, where its namespace is in scope and with the registry that
is there by then.  One of the three holds, and only one; an error is put inside an excerpt once, if
at all. -/
theorem Schema.reader_eq_error_cases {limit : Nat} {scope : Option String} {v : Json} {R : Registry}
    {e : SchemaError} (h : reader limit scope v R = .error e) :
    let p : Reading := ⟨limit, scope, v, R⟩
    (e = .nestingTooDeep limit ∧ ¬p.Fails limit e ∧ ¬p.FailsNested limit e ∨
      e ≠ .nestingTooDeep limit ∧ p.Fails limit e ∧ ¬p.FailsNested limit e ∨
      e ≠ .nestingTooDeep limit ∧ ¬p.Fails limit e ∧ p.FailsNested limit e) ∧
    (¬p.FailsNested limit e → e.rootCause = e) := by
  intro p
  rcases Reading.result_eq_error_cases (p := p) h with hdeep | hown | ⟨q, source, hq, hfails, he⟩
  · refine ⟨.inl ⟨hdeep, fun hown => hown.ne_nestingTooDeep hdeep,
      fun hnested => hnested.ne_nestingTooDeep hdeep⟩, fun _ => ?_⟩
    rw [hdeep]
    rfl
  · exact ⟨.inr (.inl ⟨hown.ne_nestingTooDeep, hown, fun hnested => hnested.not_fails hown⟩),
      fun _ => SchemaError.rootCause_of_isOwn hown.own⟩
  · have hcause : e.rootCause = source := by
      rw [he]
      exact SchemaError.rootCause_of_isOwn hfails.own
    have hnested : p.FailsNested limit e :=
      ⟨q, source, Reading.blames_of_fails rfl hq hfails, he, hcause⟩
    exact ⟨.inr (.inr ⟨hnested.ne_nestingTooDeep, hnested.not_fails, hnested⟩),
      fun hnot => absurd hnested hnot⟩

namespace Example

/-- A record with a field whose type stands for an array of a union, of which one branch is the name
of no type. -/
def danglingJson : Json :=
  .obj [
    ("fields", .arr [
      .obj [("name", .str "size"), ("type", .str "int")],
      .obj [("name", .str "parts"),
        ("type", .obj [("type",
          .obj [("items", .arr [.str "null", .str "Part"]), ("type", .str "array")])])]]),
    ("name", .str "Box"), ("namespace", .str "a"), ("type", .str "record")]

def danglingError : SchemaError :=
  .invalidSubSchema "\"Part\"" (.unknownSchema "\"Part\"")

end Example

/-- The name that is no type's stands in a union, in an array, behind an object, and in a record.
The error is about the name alone. -/
theorem Schema.reader_eq_error_cases_dangling :
    reader 64 none Example.danglingJson .empty = .error Example.danglingError ∧
    (Reading.mk 64 none Example.danglingJson .empty).FailsNested 64 Example.danglingError := by
  have h : reader 64 none Example.danglingJson .empty = .error Example.danglingError := by
    rfl
  rcases (reader_eq_error_cases h).1 with ⟨hdeep, -, -⟩ | ⟨-, hown, -⟩ | ⟨-, -, hnested⟩
  · cases hdeep
  · cases hown.own
  · exact ⟨h, hnested⟩

end Avro
