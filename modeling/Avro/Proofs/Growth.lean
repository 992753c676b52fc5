/-
# Growth: a registry gains names and loses nothing

A registry is written in three ways: by reading a document, by declaring a name, and by registering
a schema.  In between, a reading takes names for definitions that are not complete and completes
them later, in place.  None of this can be seen from outside.  An operation that fails leaves the
registry as it was, and one that succeeds has kept every entry: it takes only names that were free,
and a name that was taken and not completed stays that way.

* `Operation`, `Session.act`: the operations, and what each of them does to a session.
* `Registry.Grows R R'`: each entry of `R` is an entry of `R'`.  An operation makes the registry
  grow (`Operation.Performs.grows`), and so does a row of them (`Session.grows_after`).
* `Registry.Reachable.full_eq`: a definition stands under its own full name.
* `Session.entry_after`: all of this, for any row of operations and each one that comes next.
-/
import Avro.Proofs.Names
import Avro.Proofs.References

namespace Avro

/-! ## 1. Operations -/

/-- What can be done with a registry. -/
inductive Operation
  /-- A schema or a parameter list is read. -/
  | read (call : Call)
  | declare (name : Name) (tag : Tag)
  | register (s : Schema)

namespace Operation

/-- The schema that an operation reads, if it reads one, and the registry that it leads to. -/
def perform (op : Operation) (R : Registry) : Except SchemaError (Option Schema × Registry) :=
  match op with
  | read call => do
    let (s, R') ← call.read R
    return (some s, R')
  | declare name tag => return (none, ← R.declare name tag)
  | register s => return (none, ← R.register s)

def isRegister : Operation → Bool
  | register _ => true
  | _ => false

/-- The ways in which an operation succeeds. -/
inductive Performs (R : Registry) : Operation → Option Schema → Registry → Prop
  | read {call : Call} {s : Schema} {R' : Registry} :
    call.read R = .ok (s, R') → Performs R (.read call) (some s) R'
  | declare {name : Name} {tag : Tag} {R' : Registry} :
    R.declare name tag = .ok R' → Performs R (.declare name tag) none R'
  | register {s : Schema} {R' : Registry} :
    R.register s = .ok R' → Performs R (.register s) none R'

theorem performs_of_perform {op : Operation} {R R' : Registry} {s? : Option Schema}
    (h : op.perform R = .ok (s?, R')) : Performs R op s? R' := by
  cases op with
  | read call =>
    obtain ⟨⟨s, S⟩, hread, h⟩ := bind_eq_ok_iff.mp h
    cases h
    exact .read hread
  | declare name tag =>
    obtain ⟨S, hdeclare, h⟩ := bind_eq_ok_iff.mp h
    cases h
    exact .declare hdeclare
  | register s =>
    obtain ⟨S, hregister, h⟩ := bind_eq_ok_iff.mp h
    cases h
    exact .register hregister

end Operation

namespace Session

/-- One operation.  One that fails changes nothing, by construction.  `Session.act_eq_execute` shows
the same of a registry that is written in place. -/
def act (c : Session) (op : Operation) : Session :=
  match op.perform c.registry with
  | .ok (s?, R) => ⟨c.schemas ++ s?.toList, R⟩
  | .error _ => c

/-- A row of operations. -/
def after (c : Session) (ops : List Operation) : Session :=
  ops.foldl act c

theorem after_append (c : Session) (ops later : List Operation) :
    c.after (ops ++ later) = (c.after ops).after later :=
  List.foldl_append

theorem after_concat (c : Session) (ops : List Operation) (op : Operation) :
    c.after (ops ++ [op]) = (c.after ops).act op :=
  after_append c ops [op]

/-- **What a row of operations keeps.**  A property that every operation preserves when it succeeds
holds afterwards if it held before. -/
theorem after_induction {P : Session → Prop} {ops : List Operation}
    (hstep : ∀ c op s? R, op ∈ ops → P c → Operation.Performs c.registry op s? R →
      P ⟨c.schemas ++ s?.toList, R⟩) {c : Session} (hc : P c) : P (c.after ops) := by
  induction ops generalizing c with
  | nil => exact hc
  | cons op ops ih =>
    refine ih (fun c op s? R hop => hstep c op s? R (List.mem_cons_of_mem _ hop)) ?_
    rw [act]
    split
    · next s? R h =>
      exact hstep c op s? R List.mem_cons_self hc (Operation.performs_of_perform h)
    · exact hc

end Session

/-! ## 2. Growth -/

namespace Registry

/-- Each entry of a registry is an entry of the other one, under the same name. -/
def Grows (R R' : Registry) : Prop :=
  ∀ full e, R.find? full = some e → R'.find? full = some e

namespace Grows

variable {R R₁ R' : Registry}

theorem refl (R : Registry) : R.Grows R :=
  fun _ _ h => h

theorem trans (h : R.Grows R₁) (h' : R₁.Grows R') : R.Grows R' :=
  fun full e he => h' full e (h full e he)

theorem get? (h : R.Grows R') {full : String} {t : Definition} (ht : R.get? full = some t) :
    R'.get? full = some t :=
  get?_eq_some_iff.mpr (h full _ (get?_eq_some_iff.mp ht))

/-- An entry under a name that is known is the same in both. -/
theorem find?_eq (h : R.Grows R') {full : String} (hfull : R.contains full = true) :
    R'.find? full = R.find? full := by
  obtain ⟨e, he⟩ := contains_eq_true_iff.mp hfull
  rw [he, h full e he]

/-- What is known stays known. -/
theorem knows (h : R.Grows R') {s : Schema} (hs : R.Knows s) : R'.Knows s := by
  intro full tag hmem
  have htag := hs full tag hmem
  rw [tag?, Option.map_eq_some_iff] at htag ⊢
  obtain ⟨e, he, htag⟩ := htag
  exact ⟨e, h full e he, htag⟩

end Grows

/-- A name that is free can be given any entry. -/
theorem grows_put {R : Registry} {full : String} (hfree : R.find? full = none) (e : Entry) :
    R.Grows (R.put full e) := by
  intro full' e' he
  rw [find?_put, if_neg, he]
  rintro rfl
  rw [hfree] at he
  cases he

/-- To register a definition is to put it under its name, which was free. -/
theorem register_eq_put {R R' : Registry} {s : Schema} (h : R.register s = .ok R') :
    ∃ d, s = .named d ∧ R.find? d.full = none ∧ R' = R.put d.full (.defined d) := by
  obtain ⟨d, rfl, hfree, rfl⟩ := register_eq_ok_iff.mp h
  refine ⟨d, rfl, hfree, ext_find? fun full => ?_⟩
  rw [find?_define, find?_put, find?_put]
  split <;> rfl

end Registry

open Registry (Grows)

/-- Whatever succeeds has kept every entry. -/
theorem Operation.Performs.grows {op : Operation} {R R' : Registry} {s? : Option Schema}
    (h : Performs R op s? R') : R.Grows R' := by
  cases h with
  | read hread => exact fun full e he => (Call.read_adds hread).find?_of_some he
  | declare hdeclare =>
    obtain ⟨hfree, rfl⟩ := Registry.declare_eq_ok_iff.mp hdeclare
    exact Registry.grows_put hfree _
  | register hregister =>
    obtain ⟨d, -, hfree, rfl⟩ := Registry.register_eq_put hregister
    exact Registry.grows_put hfree _

namespace Session

/-- **A registry only grows.** -/
theorem grows_after (c : Session) (ops : List Operation) :
    c.registry.Grows (c.after ops).registry :=
  after_induction (P := fun c' => c.registry.Grows c'.registry)
    (fun _ _ _ _ _ hc h => hc.trans h.grows) (Grows.refl _)

end Session

/-! ## 3. What stands under a name -/

/-- The operations lead to registries that can be reached. -/
theorem Session.reachable_after (ops : List Operation) :
    (start.after ops).registry.Reachable := by
  refine after_induction (P := fun c => c.registry.Reachable) (fun c op s? R _ hc h => ?_) .empty
  cases h with
  | read hread => exact .read hc hread
  | declare hdeclare => exact .declare hc hdeclare
  | register hregister => exact .register hc hregister

namespace Registry

/-- **A definition stands under its own full name**, whatever the registry has been through. -/
theorem Reachable.full_eq {R : Registry} (h : R.Reachable) {full : String} {t : Definition}
    (ht : R.get? full = some t) : t.full = full := by
  rw [get?_eq_some_iff] at ht
  induction h with
  | empty => cases ht
  | @read R R' call s _ hread ih =>
    have hadds : R.Adds s.definitions R' := Call.read_adds hread
    by_cases hnew : full ∈ s.definitions.map Definition.full
    · obtain ⟨d, hd, rfl⟩ := List.mem_map.mp hnew
      rw [hadds.defined d hd] at ht
      cases ht
      rfl
    · rw [hadds.kept full hnew] at ht
      exact ih ht
  | declare _ hdeclare ih =>
    obtain ⟨-, rfl⟩ := declare_eq_ok_iff.mp hdeclare
    rw [find?_put] at ht
    split at ht
    · cases ht
    · exact ih ht
  | register _ hregister ih =>
    obtain ⟨d, -, -, rfl⟩ := register_eq_put hregister
    rw [find?_put] at ht
    split at ht
    · next heq =>
      cases ht
      exact heq.symm
    · exact ih ht

/-- What a text stands for is a name that is known. -/
theorem contains_of_resolve? {R : Registry} {text full : String} {scope : Option String}
    (h : R.resolve? text scope = some full) : R.contains full = true := by
  simp only [resolve?] at h
  split at h
  · next hcontains =>
    cases h
    exact hcontains
  · split at h
    · next hcontains =>
      cases h
      exact hcontains
    · cases h

end Registry

/-! ## 4. Sessions -/

/-- **No entry is ever changed.**  Take the registry after any row of operations.  A further
operation that fails leaves it as it is; the steps of an operation on the registry itself are those
of `Operation.execute`.  One that succeeds keeps every name with its entry, so that the name has the
same definition, or none, and the same tag; and so does any row of further operations.  Each name
consists of identifiers between dots and is not that of a primitive type, each definition is that of
a type with a name and stands under its own full name, and a text stands only for names of the
registry. -/
theorem Session.entry_after (ops : List Operation) :
    (∀ op e, op.perform (start.after ops).registry = .error e →
      (start.after (ops ++ [op])).registry = (start.after ops).registry) ∧
    (∀ op s? R', op.perform (start.after ops).registry = .ok (s?, R') →
      (start.after (ops ++ [op])).registry = R' ∧
      ∀ full, (start.after ops).registry.contains full = true →
        R'.contains full = true ∧
        R'.find? full = (start.after ops).registry.find? full ∧
        R'.get? full = (start.after ops).registry.get? full ∧
        R'.tag? full = (start.after ops).registry.tag? full) ∧
    (∀ later full, (start.after ops).registry.contains full = true →
      (start.after (ops ++ later)).registry.find? full = (start.after ops).registry.find? full) ∧
    (∀ full, (start.after ops).registry.contains full = true →
      (∀ cs ∈ splitAtDots full.toList, isIdentifierChars cs = true) ∧
        Primitive.ofName? full = none) ∧
    (∀ full t, (start.after ops).registry.get? full = some t →
      t.full = full ∧ t.tag.isNamed = true) ∧
    (∀ text scope full, (start.after ops).registry.resolve? text scope = some full →
      (start.after ops).registry.contains full = true) := by
  have hreachable : (start.after ops).registry.Reachable := reachable_after ops
  refine ⟨fun op e h => ?failed, fun op s? R' h => ?succeeded, fun later full hfull => ?later,
    fun full hfull => ?name, fun full t ht => ⟨hreachable.full_eq ht, t.isNamed_tag⟩,
    fun text scope full h => Registry.contains_of_resolve? h⟩
  case failed => rw [after_concat, act, h]
  case succeeded =>
    refine ⟨by rw [after_concat, act, h], fun full hfull => ?_⟩
    have hentry : R'.find? full = (start.after ops).registry.find? full :=
      (Operation.performs_of_perform h).grows.find?_eq hfull
    rw [Registry.contains, Registry.get?, Registry.tag?, hentry]
    exact ⟨hfull, rfl, rfl, rfl⟩
  case later =>
    rw [after_append]
    exact (grows_after _ later).find?_eq hfull
  case name =>
    obtain ⟨e, he⟩ := Registry.contains_eq_true_iff.mp hfull
    exact nameFault?_eq_none_iff.mp (hreachable.wellNamed full e he)

end Avro
