/-
# Session: readings that share a registry

A program reads one document after another into the same registry.  A reading that fails leaves the
registry as it was, and one that succeeds gives a schema and puts the registry that it ends with in
the place of the old one.

* `Call`: one reading, of a text, a value or the parameters of a message.
* `Session.run`: the schemas and the registry after a row of calls.
* `Session.run_induction`: what every successful call keeps holds of the whole run.
* `Registry.Reachable`: the registries that the operations of this library lead to.
-/
import Avro.Proofs.Reading

namespace Avro

/-! ## 1. Calls -/

/-- One reading. -/
inductive Call
  /-- A schema, from its text. -/
  | text (limit : Nat) (text : String)
  /-- A schema, from a value, where a namespace may be in scope. -/
  | value (limit : Nat) (scope : Option String) (v : Json)
  /-- The parameter list of a message. -/
  | request (limit : Nat) (scope : Option String) (v : Json)

namespace Call

def read : Call → ReadM Schema
  | text limit t => Schema.ofText limit t
  | value limit scope v => Schema.reader limit scope v
  | request limit scope v => Schema.readRequest limit scope v

/-- Whether a call reads a parameter list and no schema. -/
def isRequest : Call → Bool
  | request .. => true
  | _ => false

end Call

theorem Schema.ofText_eq_ok_iff {limit : Nat} {t : String} {R : Registry}
    {r : Schema × Registry} :
    ofText limit t R = .ok r ↔
      ∃ v, documentOfText t = .ok v ∧ reader limit none v R = .ok r := by
  obtain ⟨s, R'⟩ := r
  simp only [ofText, ReadM.bind_eq_ok_iff, ReadM.lift_eq_ok_iff]
  constructor
  · rintro ⟨v, _, ⟨hv, rfl⟩, h⟩
    exact ⟨v, hv, h⟩
  · rintro ⟨v, hv, h⟩
    exact ⟨v, R, ⟨hv, rfl⟩, h⟩

theorem Schema.readRequest_eq_ok_iff {limit : Nat} {scope : Option String} {v : Json}
    {q : Schema} {R R' : Registry} :
    readRequest limit scope v R = .ok (q, R') ↔
      ∃ items fields, v = .arr items ∧ q = .request fields ∧
        Chain (readField (reader limit) scope) items R fields R' ∧
        firstFault? (Field.fault requestOwner) [] fields = none := by
  simp only [readRequest, requestOf, ReadM.bind_eq_ok_iff, ReadM.lift_eq_ok_iff,
    readFields_eq_ok_iff, orFault_eq_ok_iff]
  constructor
  · rintro ⟨fields, _, ⟨items, rfl, hchain⟩, ⟨hfault, rfl⟩, rfl⟩
    exact ⟨items, fields, rfl, rfl, hchain, hfault⟩
  · rintro ⟨items, fields, rfl, rfl, hchain, hfault⟩
    exact ⟨fields, R', ⟨items, rfl, hchain⟩, ⟨hfault, rfl⟩, rfl⟩

/-- **The two shapes of a successful call.**  It is the reading of a schema, or it reads a row of
fields and makes a request of them. -/
theorem Call.read_cases {call : Call} {R R' : Registry} {s : Schema}
    (h : call.read R = .ok (s, R')) :
    (∃ limit levels scope v, Schema.readerAt limit levels scope v R = .ok (s, R')) ∨
      call.isRequest = true ∧ ∃ limit scope items fields, s = .request fields ∧
        Chain (Schema.readField (Schema.reader limit) scope) items R fields R' ∧
        firstFault? (Field.fault Schema.requestOwner) [] fields = none := by
  cases call with
  | text limit t =>
    obtain ⟨v, -, hread⟩ := Schema.ofText_eq_ok_iff.mp h
    exact .inl ⟨limit, limit, none, v, hread⟩
  | value limit scope v => exact .inl ⟨limit, limit, scope, v, h⟩
  | request limit scope v =>
    obtain ⟨items, fields, rfl, rfl, hchain, hfault⟩ := Schema.readRequest_eq_ok_iff.mp h
    exact .inr ⟨rfl, limit, scope, items, fields, rfl, hchain, hfault⟩

/-! ## 2. Sessions -/

/-- What a row of calls has led to. -/
structure Session where
  /-- The schemas read so far, in order. -/
  schemas : List Schema
  registry : Registry

namespace Session

def start : Session :=
  ⟨[], .empty⟩

/-- One call.  One that fails changes nothing, as there is no registry to go on with but the one
that the call has started from. -/
def step (c : Session) (call : Call) : Session :=
  match call.read c.registry with
  | .ok (s, R) => ⟨c.schemas ++ [s], R⟩
  | .error _ => c

/-- A row of calls, from a registry with nothing in it. -/
def run (calls : List Call) : Session :=
  calls.foldl step start

/-- **What a run keeps.**  A property of the start that every successful call preserves holds after
any row of calls. -/
theorem run_induction {P : Session → Prop} {calls : List Call} (hstart : P start)
    (hstep : ∀ c call s R, call ∈ calls → P c → call.read c.registry = .ok (s, R) →
      P ⟨c.schemas ++ [s], R⟩) : P (run calls) := by
  suffices h : ∀ c, P c → P (calls.foldl step c) from h start hstart
  induction calls with
  | nil => exact fun c hc => hc
  | cons call calls ih =>
    intro c hc
    refine ih (fun c call s R hmem => hstep c call s R (List.mem_cons_of_mem _ hmem)) _ ?_
    cases hr : call.read c.registry with
    | ok r => simpa only [step, hr] using hstep c call r.1 r.2 List.mem_cons_self hc hr
    | error e => simpa only [step, hr] using hc

/-- One more call, which succeeds. -/
theorem run_concat {calls : List Call} {call : Call} {s : Schema} {R : Registry}
    (h : call.read (run calls).registry = .ok (s, R)) :
    run (calls ++ [call]) = ⟨(run calls).schemas ++ [s], R⟩ := by
  have hstep : run (calls ++ [call]) = (run calls).step call := by simp [run]
  rw [hstep, step, h]

end Session

/-- The registries that the operations of this library lead to.  An operation that fails leaves the
registry as it was. -/
inductive Registry.Reachable : Registry → Prop
  | empty : Reachable .empty
  | read {R R' : Registry} {call : Call} {s : Schema} :
    Reachable R → call.read R = .ok (s, R') → Reachable R'
  | declare {R R' : Registry} {name : Name} {tag : Tag} :
    Reachable R → R.declare name tag = .ok R' → Reachable R'
  | register {R R' : Registry} {s : Schema} :
    Reachable R → R.register s = .ok R' → Reachable R'

end Avro
