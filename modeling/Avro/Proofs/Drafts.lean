/-
# Drafts: a reading that fails half-way

A definition takes its name before its body is read, so a reading that fails may have written into
the registry by then.  `ReadM` has no registry to show for a failure.  Here a reading keeps the
registry that it writes into, whatever it comes to, and what becomes of that is decided outside: the
reading is made on a copy of the registry, which takes the place of the registry if the reading
succeeds and is dropped if it fails.  A name is declared, and a schema registered, in the registry
itself, as nothing is written there before everything has been checked.

* `DraftM`: a reading that has a registry in the end, whether it succeeds or fails.
* `DraftM.commit`: what is left of it if a failure drops the registry.  `DraftM.commit_bind` and its
  companions say so for each way to put a reading together.
* `Draft.readerAt`, `Call.draft`: the reader and the calls as drafts.  What is left of a call is the
  reading of `Call.read` (`Call.commit_draft`).
* `DraftM.onCopy`, `Operation.execute`: a reading on a copy, and the operations on a registry that
  is written in place.
* `Operation.outcome_execute`: an operation comes to what `Operation.perform` gives, and one that
  fails has left the registry as it was.
* `Session.registry_after`: so a session follows one registry.
-/
import Mathlib
import Avro.Proofs.Growth

namespace Avro

/-! ## 1. Readings that keep their registry -/

/-- A reading that may add to the registry.  A reading that fails leaves the registry as it stands
at the moment. -/
abbrev DraftM (α : Type) := ExceptT SchemaError (StateM Registry) α

namespace DraftM

variable {α β : Type}

/-- What a reading comes to, and the registry that it leaves. -/
def outcome (x : DraftM α) (R : Registry) : Except SchemaError α × Registry :=
  x.run R

/-- The reading without the registry that it leaves when it fails. -/
def commit (x : DraftM α) : ReadM α := fun R =>
  (x.outcome R).1.map fun a => (a, (x.outcome R).2)

theorem commit_pure (a : α) : (pure a : DraftM α).commit = pure a := rfl

theorem commit_get : (get : DraftM Registry).commit = get := rfl

theorem commit_set (R : Registry) : (set R : DraftM PUnit).commit = set R := rfl

theorem commit_lift (x : Except SchemaError α) : (liftM x : DraftM α).commit = liftM x := by
  cases x <;> rfl

theorem outcome_bind (x : DraftM α) (f : α → DraftM β) (R : Registry) :
    (x >>= f).outcome R = match x.outcome R with
      | (.ok a, S) => (f a).outcome S
      | (.error e, S) => (.error e, S) := by
  change ExceptT.bindCont f (x.outcome R).1 (x.outcome R).2 = _
  rcases x.outcome R with ⟨_ | _, _⟩ <;> rfl

/-- **What a failure drops is not missed**, as nothing is read after it. -/
theorem commit_bind (x : DraftM α) (f : α → DraftM β) :
    (x >>= f).commit = x.commit >>= fun a => (f a).commit := by
  funext R
  change _ = (x.commit R).bind fun r => (f r.1).commit r.2
  simp only [commit, outcome_bind]
  rcases x.outcome R with ⟨_ | _, _⟩ <;> rfl

theorem commit_mapM (f : α → DraftM β) (as : List α) :
    (as.mapM f).commit = as.mapM fun a => (f a).commit := by
  induction as with
  | nil => rfl
  | cons a as ih => simp only [List.mapM_cons, commit_bind, commit_pure, ih]

end DraftM

abbrev DraftReader := Option String → Json → DraftM Schema

/-- What is left of a reader. -/
def DraftReader.commit (read : DraftReader) : SchemaReader := fun scope v =>
  (read scope v).commit

/-! ## 2. The reader -/

namespace Draft

def readNested (read : DraftReader) : DraftReader := fun scope v =>
  (read scope v).adapt (SchemaError.within v)

def readReference (name : String) (scope : Option String) (unknown : SchemaError) :
    DraftM Schema := do
  match (← get).reference? name scope with
  | some s => return s
  | none => throw unknown

def declare (name : Name) (tag : Tag) : DraftM Unit := do
  set (← (← get).declare name tag)

def define (d : Definition) : DraftM Schema := do
  modify (·.define d)
  return .named d

def readField (read : DraftReader) (scope : Option String) : Json → DraftM Field
  | .obj members => do
    let name ← Attribute.name.requireString members
    let type ← readNested read scope (← Attribute.type.require members)
    let field ← Field.of name type
    let default := Attribute.default.find? members
    let order ← Attribute.fieldOrder? members
    let doc ← Attribute.doc.string? members
    return { field with default, order, doc }
  | v => throw (.invalidAttribute .fields (.notField v.excerpt))

def readFields (read : DraftReader) (scope : Option String) : Json → DraftM (List Field)
  | .arr items => items.mapM (readField read scope)
  | v => throw (.invalidAttribute .fields (.notArray v.excerpt))

/-- The name of a definition is taken, and then its body is read. -/
def readDefinition (tag : Tag) (scope : Option String) (members : List (String × Json))
    (body : Name → Option String → DraftM Definition) : DraftM Schema := do
  let name ← Attribute.definedName members scope
  let doc ← Attribute.doc.string? members
  declare name tag
  define (← body name doc)

def readRecord (read : DraftReader) (kind : RecordKind) (scope : Option String)
    (members : List (String × Json)) : DraftM Schema :=
  readDefinition kind.tag scope members fun name doc => do
    let fields ← readFields read name.space? (← Attribute.fields.require members)
    Definition.recordOf name doc kind fields

def readTagged (read : DraftReader) (tag : Tag) (scope : Option String)
    (members : List (String × Json)) : DraftM Schema := do
  match tag with
  | .primitive p => return .primitive p
  | .record => readRecord read .record scope members
  | .error => readRecord read .error scope members
  | .enum => readDefinition .enum scope members fun name doc => do
    Definition.enumOf name doc (← Attribute.symbols.requireStrings members)
  | .fixed => readDefinition .fixed scope members fun name doc => do
    return Definition.fixedOf name doc (← Attribute.size.requireSize members)
  | .array => return .array (← readNested read scope (← Attribute.items.require members))
  | .map => return .map (← readNested read scope (← Attribute.values.require members))
  | .union => throw (.notAnObject tag)
  | .errorUnion | .request => throw (.notStandalone tag)

def readWith (read : DraftReader) : DraftReader := fun scope v =>
  match v with
  | .str name =>
    match Primitive.ofName? name with
    | some p => return .primitive p
    | none => readReference name scope (.unknownSchema ("\"" ++ name ++ "\""))
  | .arr branches => do Schema.unionOf (← branches.mapM (readNested read scope))
  | .obj members =>
    match Attribute.type.find? members with
    | some (.str name) =>
      match Tag.ofName? name with
      | some tag => readTagged read tag scope members
      | none => readReference name scope (.undefinedType name)
    | some v@(.obj _) | some v@(.arr _) => read scope v
    | some v => throw (.undefinedType v.excerpt)
    | none => throw (.undefinedType v.excerpt)
  | v => throw (.unknownSchema v.excerpt)

def readerAt (limit : Nat) : Nat → DraftReader
  | 0 => fun _ _ => throw (.nestingTooDeep limit)
  | levels + 1 => readWith (readerAt limit levels)

end Draft

/-! ## 3. What is left of a draft -/

namespace Draft

open DraftM

theorem commit_readNested (read : DraftReader) (scope : Option String) (v : Json) :
    (readNested read scope v).commit = Schema.readNested read.commit scope v := by
  funext R
  have hrun : (readNested read scope v).outcome R =
      (((read scope v).outcome R).1.mapError (SchemaError.within v),
        ((read scope v).outcome R).2) := rfl
  rw [Schema.readNested, DraftReader.commit, DraftM.commit, DraftM.commit, hrun]
  rcases (read scope v).outcome R with ⟨_ | _, _⟩ <;> rfl

theorem commit_readReference (name : String) (scope : Option String) (unknown : SchemaError) :
    (readReference name scope unknown).commit = Schema.readReference name scope unknown := by
  rw [readReference, Schema.readReference, commit_bind, commit_get]
  refine congrArg _ (funext fun R => ?_)
  cases R.reference? name scope <;> rfl

theorem commit_declare (name : Name) (tag : Tag) :
    (declare name tag).commit = Schema.declare name tag := by
  simp only [declare, Schema.declare, commit_bind, commit_get, commit_lift, commit_set]

theorem commit_define (d : Definition) : (define d).commit = Schema.define d := rfl

theorem commit_readField (read : DraftReader) (scope : Option String) (v : Json) :
    (readField read scope v).commit = Schema.readField read.commit scope v := by
  cases v with
  | obj members =>
    simp only [readField, Schema.readField, commit_bind, commit_lift, commit_pure,
      commit_readNested]
  | _ => rfl

theorem commit_readFields (read : DraftReader) (scope : Option String) (v : Json) :
    (readFields read scope v).commit = Schema.readFields read.commit scope v := by
  cases v with
  | arr items => simp only [readFields, Schema.readFields, commit_mapM, commit_readField]
  | _ => rfl

theorem commit_readRecord (read : DraftReader) (kind : RecordKind) (scope : Option String)
    (members : List (String × Json)) :
    (readRecord read kind scope members).commit =
      Schema.readRecord read.commit kind scope members := by
  simp only [readRecord, readDefinition, Schema.readRecord, commit_bind, commit_lift,
    commit_declare, commit_readFields, commit_define, bind_assoc]

theorem commit_readTagged (read : DraftReader) (tag : Tag) (scope : Option String)
    (members : List (String × Json)) :
    (readTagged read tag scope members).commit =
      Schema.readTagged read.commit tag scope members := by
  cases tag with
  | record => exact commit_readRecord read .record scope members
  | error => exact commit_readRecord read .error scope members
  | enum =>
    simp only [readTagged, Schema.readTagged, readDefinition, Schema.readEnum, commit_bind,
      commit_lift, commit_declare, commit_define, bind_assoc]
  | fixed =>
    simp only [readTagged, Schema.readTagged, readDefinition, Schema.readFixed, commit_bind,
      commit_lift, commit_declare, commit_define, bind_assoc, pure_bind]
  | array | map =>
    simp only [readTagged, Schema.readTagged, commit_bind, commit_lift, commit_pure,
      commit_readNested]
  | _ => rfl

/-- **One level of drafts leaves one level of readings.** -/
theorem commit_readWith (read : DraftReader) (scope : Option String) (v : Json) :
    (readWith read scope v).commit = Schema.readWith read.commit scope v := by
  cases v with
  | str name =>
    rw [readWith, Schema.readWith]
    cases Primitive.ofName? name with
    | some p => rfl
    | none => exact commit_readReference name scope _
  | arr branches =>
    simp only [readWith, Schema.readWith, commit_bind, commit_mapM, commit_lift, commit_readNested]
  | obj members =>
    rw [readWith, Schema.readWith]
    cases Attribute.type.find? members with
    | none => rfl
    | some w =>
      cases w with
      | str name =>
        dsimp only
        cases Tag.ofName? name with
        | some tag => exact commit_readTagged read tag scope members
        | none => exact commit_readReference name scope _
      | _ => rfl
  | _ => rfl

theorem commit_readerAt (limit levels : Nat) :
    (readerAt limit levels).commit = Schema.readerAt limit levels := by
  induction levels with
  | zero => rfl
  | succ levels ih =>
    funext scope v
    rw [readerAt, Schema.readerAt, ← ih]
    exact commit_readWith (readerAt limit levels) scope v

end Draft

/-- A call as a draft. -/
def Call.draft : Call → DraftM Schema
  | text limit t => do Draft.readerAt limit limit none (← Schema.documentOfText t)
  | value limit scope v => Draft.readerAt limit limit scope v
  | request limit scope v => do
    Schema.requestOf (← Draft.readFields (Draft.readerAt limit limit) scope v)

/-- **A call is what is left of its draft.** -/
theorem Call.commit_draft (call : Call) : call.draft.commit = call.read := by
  cases call with
  | text limit t =>
    simp only [draft, read, Schema.ofText, Schema.reader, DraftM.commit_bind, DraftM.commit_lift,
      ← Draft.commit_readerAt, DraftReader.commit]
  | value limit scope v =>
    simp only [draft, read, Schema.reader, ← Draft.commit_readerAt, DraftReader.commit]
  | request limit scope v =>
    simp only [draft, read, Schema.readRequest, Schema.reader, DraftM.commit_bind,
      DraftM.commit_lift, ← Draft.commit_readerAt, Draft.commit_readFields]

/-! ## 4. Operations -/

namespace DraftM

variable {α : Type}

/-- Makes a reading on a copy of the registry, which takes the place of the registry if the reading
succeeds. -/
def onCopy (x : DraftM α) : DraftM α := do
  let (r, copy) := x.outcome (← get)
  let a ← r
  set copy
  return a

/-- The outcome of a reading, where a failure leaves the registry `R`. -/
def settle (R : Registry) : Except SchemaError (α × Registry) → Except SchemaError α × Registry
  | .ok (a, S) => (.ok a, S)
  | .error e => (.error e, R)

/-- **A reading on a copy leaves the registry alone if it fails**, whatever it has written until
then. -/
theorem outcome_onCopy (x : DraftM α) (R : Registry) :
    x.onCopy.outcome R = settle R (x.commit R) := by
  rw [onCopy, outcome_bind, commit]
  change DraftM.outcome _ R = _
  rcases x.outcome R with ⟨_ | _, _⟩ <;> rfl

end DraftM

namespace Draft

open DraftM (settle)

/-- Takes a name and completes it at once. -/
def register : Schema → DraftM Unit
  | .named d => do
    declare d.name d.tag
    modify (·.define d)
  | s => throw (.invalidAttribute .name (.notNamed s.tag))

/-- A name is not taken before it is known to be free. -/
theorem outcome_declare (name : Name) (tag : Tag) (R : Registry) :
    (declare name tag).outcome R = settle R ((R.declare name tag).map fun S => ((), S)) := by
  change DraftM.outcome (do set (← liftM (R.declare name tag))) R = _
  cases R.declare name tag <;> rfl

theorem outcome_register (s : Schema) (R : Registry) :
    (register s).outcome R = settle R ((R.register s).map fun S => ((), S)) := by
  cases s with
  | named d =>
    rw [register, DraftM.outcome_bind, outcome_declare, Registry.register]
    cases R.declare d.name d.tag <;> rfl
  | _ => rfl

end Draft

namespace Operation

/-- An operation on a registry that is written in place.  A reading is made on a copy. -/
def execute : Operation → DraftM (Option Schema)
  | read call => do return some (← call.draft.onCopy)
  | declare name tag => do
    Draft.declare name tag
    return none
  | register s => do
    Draft.register s
    return none

/-- **What is executed is what is performed**, and a failure leaves the registry as it was: a
reading as it was made on a copy, and the other operations as they fail before they write. -/
theorem outcome_execute (op : Operation) (R : Registry) :
    op.execute.outcome R = DraftM.settle R (op.perform R) := by
  cases op with
  | read call =>
    rw [execute, perform, DraftM.outcome_bind, DraftM.outcome_onCopy, call.commit_draft]
    rcases call.read R with _ | ⟨_, _⟩ <;> rfl
  | declare name tag =>
    rw [execute, perform, DraftM.outcome_bind, Draft.outcome_declare]
    cases R.declare name tag <;> rfl
  | register s =>
    rw [execute, perform, DraftM.outcome_bind, Draft.outcome_register]
    cases R.register s <;> rfl

/-- A record without fields has taken its name by the time that its fields are missed. -/
example :
    let call := Call.value 1 none (.obj [("name", .str "a"), ("type", .str "record")])
    (call.draft.outcome .empty).2 = Registry.empty.put "a" (.declared .record) ∧
      ((read call).execute.outcome .empty).2 = .empty := by
  cbv

end Operation

namespace Session

/-- An operation adds what it has read, if anything, and leaves the registry that it is executed
on. -/
theorem act_eq_execute (c : Session) (op : Operation) :
    c.act op = ⟨c.schemas ++ (op.execute.outcome c.registry).1.toOption.join.toList,
      (op.execute.outcome c.registry).2⟩ := by
  rw [act, op.outcome_execute]
  cases op.perform c.registry with
  | ok r => rfl
  | error e => exact congrArg (Session.mk · c.registry) (List.append_nil c.schemas).symm

/-- **A session follows one registry, on which its operations are executed one after another.** -/
theorem registry_after (c : Session) (ops : List Operation) :
    (c.after ops).registry = ops.foldl (fun R op => (op.execute.outcome R).2) c.registry := by
  induction ops generalizing c with
  | nil => rfl
  | cons op ops ih =>
    have hop : (c.act op).registry = (op.execute.outcome c.registry).2 := by rw [act_eq_execute]
    rw [List.foldl_cons, ← hop]
    exact ih (c.act op)

end Session

end Avro
