/-
# Stacks: a walk that carries its place along

`check` writes a path from the inside out: what a part comes to is put behind one more segment on
the way back.  A walk may as well keep a path for the datum, one for the schema, and the slots in
use, as three stacks that all parts of the walk share.  Then a segment is pushed before a part is
walked and popped when that is done, whatever it has come to; a violation is reported with the paths
as they stand at the moment; and a union goes on with its next branch from where the last one has
left the stacks.

* `WalkM`: a walk, which may run out of calls, and keeps the stacks whether it accepts or not.
* `walkWithin`: the check of a datum as such a walk.
* `Follows`: a walk comes to what an attempt comes to, with its place in front, and leaves the
  stacks as it has found them.
* `Follows.within`: what is pushed before a walk and popped after it moves the place, and no more.
* `walkWithin_follows`: every walk follows the attempt of the same check.
* `walkWithin_eq_validate`: from the root a walk gives what `validate` gives.
-/
import Mathlib
import Avro.Proofs.Termination

namespace Avro

open Verdict (reject)

/-! ## 1. Stacks -/

/-- What a walk carries along. -/
structure Context where
  instancePath : InstancePath
  schemaPath : SchemaPath
  /-- The slots whose defaults are being checked, the innermost first. -/
  used : List Slot
deriving DecidableEq

/-- A path without its last segment, if it has one. -/
def Path.popped {α : Type} (path : List α) : List α :=
  (pop? path).elim path Prod.snd

theorem Path.popped_push {α : Type} (path : List α) (segment : α) :
    popped (push path segment) = path := by
  rw [popped, pop?_push, Option.elim_some]

namespace Context

/-- The root, with no slot in use. -/
def start : Context :=
  ⟨[], [], []⟩

/-- A rejection that is found at this place, seen from the root. -/
def locate (c : Context) (r : Rejection) : Rejection :=
  ⟨r.violation, c.instancePath ++ r.instancePath, c.schemaPath ++ r.schemaPath⟩

def pushInstance (segment : Segment) (c : Context) : Context :=
  { c with instancePath := Path.push c.instancePath segment }

def popInstance (c : Context) : Context :=
  { c with instancePath := Path.popped c.instancePath }

def pushSchema (segment : String) (c : Context) : Context :=
  { c with schemaPath := Path.push c.schemaPath segment }

def popSchema (c : Context) : Context :=
  { c with schemaPath := Path.popped c.schemaPath }

def pushSlot (slot : Slot) (c : Context) : Context :=
  { c with used := slot :: c.used }

def popSlot (c : Context) : Context :=
  { c with used := c.used.tail }

variable (c : Context) (r : Rejection)

theorem popInstance_pushInstance (segment : Segment) :
    (c.pushInstance segment).popInstance = c := by
  rw [popInstance, pushInstance, Path.popped_push]

theorem popSchema_pushSchema (segment : String) : (c.pushSchema segment).popSchema = c := by
  rw [popSchema, pushSchema, Path.popped_push]

/-- One segment more at the end of a place is one more at the beginning of the path from there. -/
theorem locate_pushInstance (segment : Segment) :
    (c.pushInstance segment).locate r = c.locate (r.inInstance segment) := by
  simp only [locate, pushInstance, Rejection.inInstance, Path.push, List.append_assoc,
    List.singleton_append]

theorem locate_pushSchema (segment : String) :
    (c.pushSchema segment).locate r = c.locate (r.inSchema segment) := by
  simp only [locate, pushSchema, Rejection.inSchema, Path.push, List.append_assoc,
    List.singleton_append]

theorem locate_here (v : Violation) : c.locate (.here v) = ⟨v, c.instancePath, c.schemaPath⟩ := by
  simp only [locate, Rejection.here, List.append_nil]

end Context

/-- A walk.  It gives nothing if it runs out of calls, and else a result and the stacks as they are
then. -/
abbrev WalkM (α : Type) := StateT Context Option α

namespace WalkM

/-- Reports a verdict on what is here, with the paths as they are. -/
def report (v : Verdict) : WalkM Verdict := do
  let c ← get
  return v.mapError fun r => ⟨r.violation, c.instancePath, c.schemaPath⟩

/-- Walks a part: something is pushed before, and popped after, whatever the part comes to. -/
def within (push pop : Context → Context) (w : WalkM Verdict) : WalkM Verdict := do
  modify push
  let v ← w
  modify pop
  return v

/-- Walks a part that the datum has under `segment`. -/
def inInstance (segment : Segment) : WalkM Verdict → WalkM Verdict :=
  within (Context.pushInstance segment) Context.popInstance

/-- Walks a part that the schema has under `segment`. -/
def inSchema (segment : String) : WalkM Verdict → WalkM Verdict :=
  within (Context.pushSchema segment) Context.popSchema

/-- Walks a default, unless its slot is in use. -/
def inSlot (slot : Slot) (w : WalkM Verdict) : WalkM Verdict := do
  if (← get).used.contains slot then report (reject (.invalidDefault slot.2))
  else within (Context.pushSlot slot) Context.popSlot w

/-- Walks one part after another, until one rejects. -/
def inTurn : List (WalkM Verdict) → WalkM Verdict
  | [] => return .ok ()
  | w :: ws => do
    match ← w with
    | .ok () => inTurn ws
    | .error r => return .error r

/-- Walks one branch after another, until one accepts. -/
def someAccepts : List (WalkM Verdict) → WalkM Bool
  | [] => return false
  | w :: ws => do
    if (← w).accepts then return true else someAccepts ws

section Level

variable (below : Datum → Schema → WalkM Verdict)

/-- A field.  Whatever is wrong with the default of one that is absent, it is the default that is
reported. -/
def field (entries : List (String × Datum)) (owner : String) (f : Field) : WalkM Verdict :=
  match entries.lookup f.name with
  | some d => below d f.type
  | none =>
    match f.default with
    | none => report (reject (.missingField f.name))
    | some v => do
      match ← inSlot (owner, f.name) (below (.ofJson v) f.type) with
      | .ok () => return .ok ()
      | .error _ => report (reject (.invalidDefault f.name))

def fields (d : Datum) (owner : String) (fields : List Field) : WalkM Verdict :=
  match d with
  | .map entries =>
    inTurn <| fields.map fun f =>
      inSchema f.segment (inInstance (.key f.name) (field below entries owner f))
  | d => report (mismatch "record" d)

/-- One call, which makes the calls directly inside it by `below`. -/
def level (R : Registry) (d : Datum) (s : Schema) : WalkM Verdict :=
  match s with
  | .primitive p => inSchema p.name (report (checkPrimitive p d))
  | .named t =>
    inSchema t.segment <| match t.body with
      | .enum symbols => report (checkSymbol symbols d)
      | .fixed size => report (checkSize size.toNat d)
      | .record _ fs => fields below d t.full fs
  | .array items =>
    inSchema "array" <| match d with
      | .array ds => inTurn (ds.zipIdx.map fun e => inInstance (.index e.2) (below e.1 items))
      | d => report (mismatch "array" d)
  | .map values =>
    inSchema "map" <| match d with
      | .map entries => inTurn (entries.map fun e => inInstance (.key e.1) (below e.2 values))
      | d => report (mismatch "map" d)
  | .union branches =>
    inSchema "union" do
      if ← someAccepts (branches.map fun b => inSchema b.label (below d b)) then return .ok ()
      else report (reject (.noMatchingBranch (branches.map Schema.label)))
  | .request fs => inSchema "request" (fields below d Schema.requestOwner fs)
  | .reference full _ =>
    match R.get? full with
    | some t => below d (.named t)
    | none => report (reject (.unresolvedReference full))

end Level

theorem bind_apply {α β : Type} (x : WalkM α) (f : α → WalkM β) (c : Context) :
    (x >>= f) c = (x c).bind fun p => f p.1 p.2 := rfl

theorem within_apply (push pop : Context → Context) (w : WalkM Verdict) (c : Context) :
    within push pop w c = (w (push c)).map fun p => (p.1, pop p.2) := by
  change (w (push c)).bind _ = _
  cases w (push c) <;> rfl

end WalkM

/-- The check of a datum as a walk, by at most so many calls inside one another. -/
def walkWithin (R : Registry) : Nat → Datum → Schema → WalkM Verdict
  | 0, _, _ => fun _ => none
  | calls + 1, d, s => WalkM.level (walkWithin R calls) R d s

/-! ## 2. Verdicts at the root -/

/-- What is wrong, if anything is, is wrong at the root of the part that is checked. -/
def Verdict.AtRoot (v : Verdict) : Prop :=
  ∀ r, v = .error r → ∃ violation, r = .here violation

namespace Verdict.AtRoot

theorem ok : AtRoot (.ok ()) :=
  nofun

theorem reject (v : Violation) : AtRoot (reject v) := by
  rintro r ⟨⟩
  exact ⟨v, rfl⟩

theorem checkRange (minimum maximum n : Int) : AtRoot (checkRange minimum maximum n) := by
  unfold Avro.checkRange
  split
  · exact ok
  · exact reject _

theorem checkPrimitive (p : Primitive) (d : Datum) : AtRoot (checkPrimitive p d) := by
  cases p <;> cases d <;> first | exact ok | exact checkRange _ _ _ | exact reject _

theorem checkSymbol (symbols : List String) (d : Datum) : AtRoot (checkSymbol symbols d) := by
  unfold Avro.checkSymbol
  split
  · split
    · exact ok
    · exact reject _
  · exact reject _

theorem checkSize (size : Nat) (d : Datum) : AtRoot (checkSize size d) := by
  unfold Avro.checkSize
  split
  · split
    · exact ok
    · exact reject _
  · exact reject _

end Verdict.AtRoot

/-! ## 3. Walks that follow attempts -/

/-- Wherever it starts, a walk comes to what an attempt comes to, with its place in front, and
leaves the stacks as it has found them. -/
def Follows (w : WalkM Verdict) (a : List Slot → Attempt) : Prop :=
  ∀ c, w c = (a c.used).map fun v => (v.mapError c.locate, c)

namespace Follows

variable {w : WalkM Verdict} {a : List Slot → Attempt}

theorem report {v : Verdict} (h : v.AtRoot) : Follows (.report v) fun _ => some v := by
  intro c
  cases v with
  | ok u => rfl
  | error r =>
    obtain ⟨violation, rfl⟩ := h r rfl
    rw [Option.map_some]
    change some (Except.error _, c) = some (Except.error (c.locate (.here violation)), c)
    rw [c.locate_here]
    rfl

/-- **What is pushed before a walk and popped after it moves its place**, by as much as `move` puts
in front of a rejection, and is left on no stack. -/
theorem within {push pop : Context → Context} {move : Rejection → Rejection} (h : Follows w a)
    (use : List Slot → List Slot) (hpop : ∀ c, pop (push c) = c)
    (huse : ∀ c, (push c).used = use c.used)
    (hmove : ∀ c r, (push c).locate r = c.locate (move r)) :
    Follows (.within push pop w) fun used => (a (use used)).map (Except.mapError move) := by
  intro c
  rw [WalkM.within_apply, h, huse, Option.map_map, Option.map_map]
  refine congrArg (Option.map · (a (use c.used))) (funext fun v => ?_)
  simp only [Function.comp_apply, hpop]
  cases v with
  | ok u => rfl
  | error r => exact congrArg (fun r => (Except.error r, c)) (hmove c r)

theorem inInstance (h : Follows w a) (segment : Segment) :
    Follows (.inInstance segment w) fun used => (a used).map (Verdict.inInstance segment) :=
  h.within id (fun c => c.popInstance_pushInstance segment) (fun _ => rfl)
    fun c r => c.locate_pushInstance r segment

theorem inSchema (h : Follows w a) (segment : String) :
    Follows (.inSchema segment w) fun used => (a used).map (Verdict.inSchema segment) :=
  h.within id (fun c => c.popSchema_pushSchema segment) (fun _ => rfl)
    fun c r => c.locate_pushSchema r segment

/-- A default whose slot is in use is refused, and any other is walked with its slot in use. -/
theorem inSlot (h : Follows w a) (slot : Slot) :
    Follows (.inSlot slot w) fun used =>
      if used.contains slot then some (reject (.invalidDefault slot.2)) else a (slot :: used) := by
  intro c
  have hpushed : Follows (.within (Context.pushSlot slot) Context.popSlot w)
      fun used => (a (slot :: used)).map (Except.mapError id) :=
    h.within (slot :: ·) (fun _ => rfl) (fun _ => rfl) fun _ _ => rfl
  have hid : (Except.mapError id : Verdict → Verdict) = id := by
    funext v
    cases v <;> rfl
  rw [hid] at hpushed
  simp only [Option.map_id_fun, id_eq] at hpushed
  change (if c.used.contains slot then WalkM.report _ else WalkM.within _ _ _) c = _
  beta_reduce
  split
  · exact report (.reject _) c
  · exact hpushed c

section Rows

variable {α : Type} {xs : List α} {w : α → WalkM Verdict} {a : α → List Slot → Attempt}

theorem inTurn (xs : List α) (h : ∀ x ∈ xs, Follows (w x) (a x)) :
    Follows (.inTurn (xs.map w)) fun used => .inTurn (xs.map fun x => a x used) := by
  intro c
  beta_reduce
  induction xs with
  | nil => rfl
  | cons x xs ih =>
    obtain ⟨hx, hxs⟩ := List.forall_mem_cons.mp h
    rw [List.map_cons, List.map_cons, WalkM.inTurn, WalkM.bind_apply, hx c]
    rcases a x c.used with _ | _ | u
    · rfl
    · rfl
    · exact ih hxs

/-- Branches are walked under a segment each, but that does not show, as their rejections are
forgotten. -/
theorem someAccepts (h : ∀ x ∈ xs, Follows (w x) (a x)) (label : α → String) (c : Context) :
    WalkM.someAccepts (xs.map fun x => .inSchema (label x) (w x)) c =
      (Attempt.someAccepts (xs.map fun x => a x c.used)).map fun accepted => (accepted, c) := by
  induction xs with
  | nil => rfl
  | cons x xs ih =>
    obtain ⟨hx, hxs⟩ := List.forall_mem_cons.mp h
    rw [List.map_cons, List.map_cons, WalkM.someAccepts, WalkM.bind_apply, hx.inSchema (label x) c]
    beta_reduce
    rcases a x c.used with _ | _ | u
    · rfl
    · exact ih hxs
    · rfl

end Rows

section Level

variable {below : Datum → Schema → WalkM Verdict} {below' : List Slot → Datum → Schema → Attempt}
  {R : Registry}

/-- A default that is refused is reported as such, with nothing of what its walk has found. -/
theorem field (h : ∀ d s, Follows (below d s) fun used => below' used d s)
    (entries : List (String × Datum)) (owner : String) (f : Field) :
    Follows (.field below entries owner f) fun used => .field below' used entries owner f := by
  intro c
  rw [WalkM.field]
  beta_reduce
  rw [Attempt.field]
  cases entries.lookup f.name with
  | some d => exact h d f.type c
  | none =>
    cases f.default with
    | none => exact report (.reject _) c
    | some v =>
      have hreject := report (.reject (.invalidDefault f.name)) c
      dsimp only
      rw [WalkM.bind_apply, (h (.ofJson v) f.type).inSlot (owner, f.name) c]
      beta_reduce
      split
      · exact hreject
      · rcases below' ((owner, f.name) :: c.used) (.ofJson v) f.type with _ | _ | u
        · rfl
        · exact hreject
        · rfl

theorem fields (h : ∀ d s, Follows (below d s) fun used => below' used d s) (d : Datum)
    (owner : String) (fs : List Field) :
    Follows (.fields below d owner fs) fun used => .fields below' used d owner fs := by
  cases d with
  | map entries =>
    have hrow := inTurn fs fun f _ =>
      ((field h entries owner f).inInstance (.key f.name)).inSchema f.segment
    simp only [Option.map_map] at hrow
    exact hrow
  | _ => exact report (.reject _)

theorem union (h : ∀ d s, Follows (below d s) fun used => below' used d s) (d : Datum)
    (branches : List Schema) :
    Follows (.level below R d (.union branches)) fun used =>
      .level below' used R d (.union branches) := by
  have hbranches : Follows
      (do
        if ← WalkM.someAccepts (branches.map fun b => .inSchema b.label (below d b)) then
          return .ok ()
        else .report (reject (.noMatchingBranch (branches.map Schema.label))))
      fun used => (Attempt.someAccepts (branches.map (below' used d))).map fun accepted =>
        if accepted then .ok () else reject (.noMatchingBranch (branches.map Schema.label)) := by
    intro c
    rw [WalkM.bind_apply, someAccepts (fun b _ => h d b) Schema.label c]
    beta_reduce
    rcases Attempt.someAccepts (branches.map (below' c.used d)) with _ | _ | _
    · rfl
    · exact report (.reject _) c
    · rfl
  have hunion := hbranches.inSchema "union"
  simp only [Option.map_map] at hunion
  exact hunion

/-- **One call as a walk follows one call as an attempt**, if the calls directly inside do. -/
theorem level (h : ∀ d s, Follows (below d s) fun used => below' used d s) (d : Datum)
    (s : Schema) : Follows (.level below R d s) fun used => .level below' used R d s := by
  cases s with
  | primitive p => exact (report (.checkPrimitive p d)).inSchema p.name
  | named t =>
    obtain ⟨name, doc, body⟩ := t
    cases body with
    | enum symbols => exact (report (.checkSymbol symbols d)).inSchema _
    | fixed size => exact (report (.checkSize size.toNat d)).inSchema _
    | record kind fs => exact (fields h d name.full fs).inSchema _
  | array items =>
    cases d with
    | array ds =>
      have hrow := inTurn ds.zipIdx fun e _ => (h e.1 items).inInstance (.index e.2)
      simp only [Attempt.level, List.mapIdx_eq_zipIdx_map]
      exact hrow.inSchema "array"
    | _ => exact (report (.reject _)).inSchema "array"
  | map values =>
    cases d with
    | map entries =>
      exact (inTurn entries fun e _ => (h e.2 values).inInstance (.key e.1)).inSchema "map"
    | _ => exact (report (.reject _)).inSchema "map"
  | union branches => exact union h d branches
  | request fs => exact (fields h d Schema.requestOwner fs).inSchema "request"
  | reference full tag =>
    intro c
    simp only [WalkM.level, Attempt.level]
    cases R.get? full with
    | some t => exact h d (.named t) c
    | none => exact report (.reject _) c

end Level
end Follows

/-! ## 4. Whole walks -/

/-- **Every walk follows the attempt of the same check**, from wherever it starts. -/
theorem walkWithin_follows (R : Registry) (calls : Nat) (d : Datum) (s : Schema) :
    Follows (walkWithin R calls d s) fun used => checkWithin R calls used d s := by
  induction calls generalizing d s with
  | zero => exact fun c => rfl
  | succ calls ih => exact .level ih d s

/-- **A walk with shared stacks gives what `validate` gives.**  For whatever schema and registry can
be made and every datum, a walk from the root that may nest its calls as deep as a check comes to
the same verdict, with the same paths, and is back at the root with no slot in use: each push has
had its pop, also in the branches and the defaults that were refused on the way. -/
theorem walkWithin_eq_validate {R : Registry} (hR : R.Built) {s : Schema} (hs : s.Built) (d : Datum)
    {calls : Nat} (hcalls : 3 * (greatestNesting R s d + 1) * (slotCount R s + 1) ≤ calls) :
    walkWithin R calls d s .start = some (validate R s d, .start) := by
  have hcheck : checkWithin R calls Context.start.used d s = some (validate R s d) :=
    checkWithin_of_le hR hs d hcalls
  have hlocate : (validate R s d).mapError Context.start.locate = validate R s d := by
    cases validate R s d <;> rfl
  rw [walkWithin_follows R calls d s .start]
  beta_reduce
  rw [hcheck, Option.map_some, hlocate]

end Avro
