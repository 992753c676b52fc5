/-
# References: every reference of a session resolves

A reference may be made while its target has only taken its name, and it copies the tag that the
name was taken with.  That it leads to a finished definition afterwards is a matter of the whole
call: whatever is open is closed by a definition with the same tag before the call returns.

* `Registry.Knows R s`: each reference in `s` is a name of `R`, with the tag it has there.  A
  reading ends in a registry that knows its schema (`readerAt_knows`), open names included.
* `Registry.Resolves R s`: each reference in `s` leads to a finished definition of this name and
  tag.  In a session the names are all finished between the calls, so knowing is resolving
  (`Session.complete_run`).
* `check_resolved`: a check that meets only such references never reports one as unresolved.

`references_resolve` puts these together.
-/
import Avro.Document
import Avro.Proofs.Registration
import Avro.Proofs.Walk

namespace Avro

open Registry (Adds)

/-! ## 1. Known references -/

namespace Registry

/-- Every reference in a tree is the name of an entry that has the tag of the reference. -/
def Knows (R : Registry) (s : Schema) : Prop :=
  ∀ full tag, .reference full tag ∈ s.nodes → R.tag? full = some tag

theorem knows_reference {R : Registry} {full : String} {tag : Tag} (h : R.tag? full = some tag) :
    R.Knows (.reference full tag) := by
  intro full' tag' hmem
  cases List.mem_singleton.mp hmem
  exact h

theorem knows_of_children {R : Registry} {s : Schema} (hroot : ∀ full tag, s ≠ .reference full tag)
    (hchildren : ∀ c ∈ s.children, R.Knows c) : R.Knows s := by
  intro full tag hmem
  rcases Schema.mem_nodes_iff.mp hmem with hs | ⟨c, hc, hmem⟩
  · exact absurd hs.symm (hroot full tag)
  · exact hchildren c hc full tag hmem

theorem Knows.of_mem {R : Registry} {s t : Schema} (h : R.Knows s) (ht : t ∈ s.nodes) :
    R.Knows t :=
  fun full tag hmem => h full tag (Schema.mem_nodes_trans ht hmem)

/-- A reference is known as soon as it is made. -/
theorem knows_of_reference? {R : Registry} {text : String} {scope : Option String} {s : Schema}
    (h : R.reference? text scope = some s) : R.Knows s := by
  obtain ⟨full, tag, -, htag, rfl⟩ := reference?_eq_some_iff.mp h
  exact knows_reference htag

/-- What is known stays known, since no entry is changed. -/
theorem Adds.knows {R R' : Registry} {ds : List Definition} (h : Adds R ds R') {s : Schema}
    (hs : R.Knows s) : R'.Knows s := by
  intro full tag hmem
  have htag := hs full tag hmem
  rw [tag?, Option.map_eq_some_iff] at htag ⊢
  obtain ⟨e, he, htag⟩ := htag
  exact ⟨e, h.find?_of_some he, htag⟩

/-- Completing a name with a definition that has the tag of the name changes no tag. -/
theorem Knows.define {R : Registry} {d : Definition} (htag : R.tag? d.full = some d.tag)
    {s : Schema} (h : R.Knows s) : (R.define d).Knows s := by
  intro full tag hmem
  have hfull := h full tag hmem
  rw [tag?, find?_define]
  split
  · next heq =>
    rw [heq, htag] at hfull
    exact hfull
  · exact hfull

end Registry

open Registry (Knows)

/-! ## 2. A reading ends in a registry that knows its schema -/

/-- What each item of a row establishes of its own result, and keeps of the results before it, holds
of all of them at the end. -/
theorem Chain.forall_mem {α β : Type} {read : α → ReadM β} {P : Registry → β → Prop}
    (hread : ∀ a R b R', read a R = .ok (b, R') → P R' b)
    (hkeep : ∀ a R b R', read a R = .ok (b, R') → ∀ c, P R c → P R' c)
    {as : List α} {bs : List β} {R R' : Registry} (h : Chain read as R bs R') :
    (∀ b ∈ bs, P R' b) ∧ ∀ c, P R c → P R' c := by
  induction h with
  | nil R => exact ⟨by simp, fun _ hc => hc⟩
  | cons hb _ ih =>
    obtain ⟨hall, hlater⟩ := ih
    refine ⟨fun c hc => ?_, fun c hc => hlater c (hkeep _ _ _ _ hb c hc)⟩
    rcases List.mem_cons.mp hc with rfl | hc
    · exact hlater _ (hread _ _ _ _ hb)
    · exact hall c hc

namespace Schema

/-- The types of a row of fields are known at its end. -/
theorem chain_readField_knows {limit levels : Nat} {scope : Option String}
    (hread : ∀ scope v R s R', readerAt limit levels scope v R = .ok (s, R') → R'.Knows s)
    {items : List Json} {fields : List Field} {R R' : Registry}
    (h : Chain (readField (readerAt limit levels) scope) items R fields R') :
    ∀ f ∈ fields, R'.Knows f.type := by
  refine (h.forall_mem (P := fun R f => R.Knows f.type) (fun v R f R' hr => ?_)
    (fun v R f R' hr g hg => ?_)).1
  · obtain ⟨members, rfl, hfield⟩ := readField_eq_ok_iff.mp hr
    obtain ⟨v, -, htype⟩ := hfield.type
    exact hread _ _ _ _ _ htype
  · obtain ⟨members, rfl, hfield⟩ := readField_eq_ok_iff.mp hr
    obtain ⟨v, -, htype⟩ := hfield.type
    exact (readerAt_adds htype).knows hg

/-- **A reading ends in a registry that knows its schema.**  The names of the definitions around it
are among those known, though they are still open. -/
theorem readerAt_knows {limit levels : Nat} {scope : Option String} {v : Json} {s : Schema}
    {R R' : Registry} (h : readerAt limit levels scope v R = .ok (s, R')) : R'.Knows s := by
  refine readerAt_induction (P := fun _ _ _ _ s R' => R'.Knows s) ?_ h
  intro levels scope v R s R' ih hreads
  cases hreads with
  | bare => exact Registry.knows_of_children (by simp) (by simp [children])
  | bareReference _ href => exact Registry.knows_of_reference? href
  | union hchain =>
    refine Registry.knows_of_children (by simp) ?_
    exact (hchain.forall_mem (ih scope) fun _ _ _ _ hr _ hc => (readerAt_adds hr).knows hc).1
  | wrapped _ _ hs => exact ih _ _ _ _ _ hs
  | reference _ _ href => exact Registry.knows_of_reference? href
  | primitive => exact Registry.knows_of_children (by simp) (by simp [children])
  | array _ _ hs =>
    have hitems := ih _ _ _ _ _ hs
    exact Registry.knows_of_children (by simp) (by simpa [children] using hitems)
  | map _ _ hs =>
    have hvalues := ih _ _ _ _ _ hs
    exact Registry.knows_of_children (by simp) (by simpa [children] using hvalues)
  | @leaf members name doc body _ _ _ _ hleaf =>
    refine Registry.knows_of_children (by simp) ?_
    cases hleaf <;> simp [children, Definition.fields, Body.fields]
  | @record members kind name doc items fields _ R₁ _ _ _ _ hchain =>
    -- the name is still open, with the tag of its kind, when the fields have been read
    have hopen : R₁.find? name.full = some (.declared kind.tag) :=
      (chain_readField_adds (fun _ _ _ _ _ hr => readerAt_adds hr) hchain).find?_of_some
        (by rw [Registry.find?_put, if_pos rfl])
    refine Registry.knows_of_children (by simp) fun c hc => ?_
    obtain ⟨f, hf, rfl⟩ := List.mem_map.mp hc
    refine (chain_readField_knows ih hchain f hf).define ?_
    rw [Registry.tag?, Definition.full, hopen]
    rfl

end Schema

theorem Call.read_knows {call : Call} {R R' : Registry} {s : Schema}
    (h : call.read R = .ok (s, R')) : R'.Knows s := by
  rcases Call.read_cases h with ⟨limit, levels, scope, v, hread⟩ |
    ⟨-, limit, scope, items, fields, rfl, hchain, -⟩
  · exact Schema.readerAt_knows hread
  · refine Registry.knows_of_children (by simp) fun c hc => ?_
    obtain ⟨f, hf, rfl⟩ := List.mem_map.mp hc
    exact Schema.chain_readField_knows (fun _ _ _ _ _ hr => Schema.readerAt_knows hr) hchain f hf

/-! ## 3. Between the calls every name is finished -/

/-- What every call of a session keeps.  Each entry is a finished definition under its own name, and
the definition stands in a schema that has been read; the registry has each definition that stands
in one, and knows each reference. -/
structure Session.Complete (c : Session) : Prop where
  finished : ∀ full e, c.registry.find? full = some e →
    ∃ d, e = .defined d ∧ d.full = full ∧ ∃ s ∈ c.schemas, d ∈ s.definitions
  held : ∀ s ∈ c.schemas, ∀ d ∈ s.definitions, c.registry.find? d.full = some (.defined d)
  known : ∀ s ∈ c.schemas, c.registry.Knows s

theorem Session.complete_run (calls : List Call) : (Session.run calls).Complete := by
  refine Session.run_induction ⟨nofun, nofun, nofun⟩ fun c call s R _ hc hread => ?_
  have hadds : Adds c.registry s.definitions R := Call.read_adds hread
  refine ⟨fun full e he => ?_, fun t ht d hd => ?_, fun t ht => ?_⟩
  · by_cases hnew : full ∈ s.definitions.map Definition.full
    · obtain ⟨d, hd, rfl⟩ := List.mem_map.mp hnew
      rw [hadds.defined d hd] at he
      cases he
      exact ⟨d, rfl, rfl, s, List.mem_append_right _ List.mem_cons_self, hd⟩
    · rw [hadds.kept full hnew] at he
      obtain ⟨d, rfl, hfull, t, ht, hd⟩ := hc.finished full e he
      exact ⟨d, rfl, hfull, t, List.mem_append_left _ ht, hd⟩
  · rcases List.mem_append.mp ht with ht | ht
    · exact hadds.find?_of_some (hc.held t ht d hd)
    · rw [List.mem_singleton.mp ht] at hd
      exact hadds.defined d hd
  · rcases List.mem_append.mp ht with ht | ht
    · exact hadds.knows (hc.known t ht)
    · rw [List.mem_singleton.mp ht]
      exact Call.read_knows hread

namespace Registry

/-- Every reference in a tree leads to a finished definition that has its name and its tag. -/
def Resolves (R : Registry) (s : Schema) : Prop :=
  ∀ full tag, .reference full tag ∈ s.nodes →
    ∃ d, R.get? full = some d ∧ d.full = full ∧ d.tag = tag

theorem Resolves.of_mem {R : Registry} {s t : Schema} (h : R.Resolves s) (ht : t ∈ s.nodes) :
    R.Resolves t :=
  fun full tag hmem => h full tag (Schema.mem_nodes_trans ht hmem)

theorem Resolves.of_child {R : Registry} {s c : Schema} (h : R.Resolves s)
    (hc : c ∈ s.children) : R.Resolves c :=
  h.of_mem (Schema.mem_nodes_of_child hc (Schema.mem_nodes_self c))

end Registry

namespace Session.Complete

variable {c : Session} (h : c.Complete)
include h

theorem resolves_of_knows {s : Schema} (hs : c.registry.Knows s) : c.registry.Resolves s := by
  intro full tag hmem
  have htag := hs full tag hmem
  rw [Registry.tag?, Option.map_eq_some_iff] at htag
  obtain ⟨e, he, htag⟩ := htag
  obtain ⟨d, rfl, hfull, -⟩ := h.finished full e he
  exact ⟨d, Registry.get?_eq_some_iff.mpr he, hfull, htag⟩

theorem resolves_schema {s : Schema} (hs : s ∈ c.schemas) : c.registry.Resolves s :=
  h.resolves_of_knows (h.known s hs)

/-- A definition of the registry stands in a schema that has been read, so its references are among
those of that schema. -/
theorem resolves_definition {full : String} {d : Definition}
    (hd : c.registry.get? full = some d) : c.registry.Resolves (.named d) := by
  obtain ⟨d', heq, -, s, hs, hmem⟩ := h.finished full _ (Registry.get?_eq_some_iff.mp hd)
  cases heq
  exact (h.resolves_schema hs).of_mem (Schema.mem_definitions_iff.mp hmem)

end Session.Complete

/-! ## 4. Checks that meet only references that resolve -/

namespace Verdict

/-- The verdict does not blame a reference that leads nowhere. -/
def Resolved (v : Verdict) : Prop :=
  ∀ r, v = .error r → ∀ name, r.violation ≠ .unresolvedReference name

theorem resolved_ok : Resolved (.ok ()) := nofun

theorem resolved_reject {v : Violation} (h : ∀ name, v ≠ .unresolvedReference name) :
    Resolved (reject v) := by
  intro r hr name
  cases hr
  exact h name

theorem Resolved.inInstance {segment : Segment} {v : Verdict} (h : v.Resolved) :
    (v.inInstance segment).Resolved := by
  intro r hr name
  obtain ⟨r', hv, rfl⟩ := inInstance_eq_error_iff.mp hr
  exact h r' hv name

theorem Resolved.inSchema {segment : String} {v : Verdict} (h : v.Resolved) :
    (v.inSchema segment).Resolved := by
  intro r hr name
  obtain ⟨r', hv, rfl⟩ := inSchema_eq_error_iff.mp hr
  exact h r' hv name

theorem resolved_all {vs : List Verdict} (h : ∀ v ∈ vs, v.Resolved) : (all vs).Resolved := by
  intro r hr name
  obtain ⟨before, after, rfl, -⟩ := all_eq_error_iff.mp hr
  exact h (.error r) (by simp) r rfl name

end Verdict

open Verdict (Resolved resolved_ok resolved_reject)

theorem mismatch_resolved (expected : String) (d : Datum) : (mismatch expected d).Resolved :=
  resolved_reject (by simp)

theorem checkRange_resolved (minimum maximum n : Int) :
    (checkRange minimum maximum n).Resolved := by
  unfold checkRange
  split
  · exact resolved_ok
  · exact resolved_reject (by simp)

theorem checkPrimitive_resolved (p : Primitive) (d : Datum) : (checkPrimitive p d).Resolved := by
  unfold checkPrimitive
  split <;> first
    | exact resolved_ok
    | exact checkRange_resolved _ _ _
    | exact mismatch_resolved _ _

theorem checkSymbol_resolved (symbols : List String) (d : Datum) :
    (checkSymbol symbols d).Resolved := by
  unfold checkSymbol
  split
  · split
    · exact resolved_ok
    · exact resolved_reject (by simp)
  · exact mismatch_resolved _ _

theorem checkSize_resolved (size : Nat) (d : Datum) : (checkSize size d).Resolved := by
  unfold checkSize
  split
  · split
    · exact resolved_ok
    · exact resolved_reject (by simp)
  · exact mismatch_resolved _ _

theorem checkAbsent_resolved (f : Field) (b : Bool) : (checkAbsent f b).Resolved := by
  unfold checkAbsent
  split
  · exact resolved_reject (by simp)
  · split
    · exact resolved_ok
    · exact resolved_reject (by simp)

section Walk

variable {R : Registry} {stands : String → Field → Bool}

/-- The fields of a record are checked on parts of the datum, or on nothing. -/
theorem checkFields_resolved {entries : List (String × Datum)} {owner : String}
    {fields : List Field}
    (hparts : ∀ f ∈ fields, ∀ e ∈ entries, (check R stands e.2 f.type).Resolved) :
    (checkFields R stands entries owner fields).Resolved := by
  rw [checkFields_eq_all]
  refine Verdict.resolved_all fun v hv => ?_
  obtain ⟨f, hf, rfl⟩ := List.mem_map.mp hv
  refine Resolved.inSchema (Resolved.inInstance ?_)
  rw [checkField]
  split
  · next d hd => exact hparts f hf (f.name, d) (Entries.mem_of_lookup_eq_some hd)
  · exact checkAbsent_resolved _ _

/-- **No check that starts from references that resolve comes to one that does not**, as long as the
definitions of the registry have only such references too. -/
theorem check_resolved (hR : ∀ full t, R.get? full = some t → R.Resolves (.named t)) (d : Datum)
    (s : Schema) : R.Resolves s → (check R stands d s).Resolved := by
  induction d, s using walk_induction with
  | step d s ihd _ =>
    intro hs
    -- a definition, at the root or behind a reference, only goes on to smaller data
    have hdefinition : ∀ t, R.Resolves (.named t) → (checkDefinition R stands d t).Resolved := by
      intro t ht
      obtain ⟨name, doc, body⟩ := t
      rw [checkDefinition]
      refine Resolved.inSchema ?_
      cases body with
      | enum symbols => exact checkSymbol_resolved symbols d
      | fixed size => exact checkSize_resolved size.toNat d
      | record kind fields =>
        cases d with
        | map entries =>
          refine checkFields_resolved fun f hf e he => ?_
          exact ihd e.2 f.type (Datum.sizeOf_lt_map he)
            (ht.of_child (List.mem_map.mpr ⟨f, hf, rfl⟩))
        | _ => exact mismatch_resolved _ _
    cases s with
    | primitive p =>
      rw [check]
      exact (checkPrimitive_resolved p d).inSchema
    | named t =>
      rw [check]
      exact hdefinition t hs
    | array items =>
      cases d with
      | array ds =>
        rw [check, checkItems_eq_all]
        refine Resolved.inSchema (Verdict.resolved_all fun v hv => ?_)
        obtain ⟨i, hi, rfl⟩ := List.mem_mapIdx.mp hv
        have hlt : sizeOf ds[i] < sizeOf (Datum.array ds) :=
          Datum.sizeOf_lt_array (List.getElem_mem hi)
        exact Resolved.inInstance (ihd ds[i] items hlt (hs.of_child List.mem_cons_self))
      | _ =>
        simp only [check]
        exact (mismatch_resolved _ _).inSchema
    | map values =>
      cases d with
      | map entries =>
        rw [check, checkEntries_eq_all]
        refine Resolved.inSchema (Verdict.resolved_all fun v hv => ?_)
        obtain ⟨e, he, rfl⟩ := List.mem_map.mp hv
        have hlt : sizeOf e.2 < sizeOf (Datum.map entries) := Datum.sizeOf_lt_map he
        exact Resolved.inInstance (ihd e.2 values hlt (hs.of_child List.mem_cons_self))
      | _ =>
        simp only [check]
        exact (mismatch_resolved _ _).inSchema
    | union branches =>
      rw [check]
      refine Resolved.inSchema ?_
      split
      · exact resolved_ok
      · exact resolved_reject (by simp)
    | request fields =>
      cases d with
      | map entries =>
        rw [check]
        refine Resolved.inSchema (checkFields_resolved fun f hf e he => ?_)
        exact ihd e.2 f.type (Datum.sizeOf_lt_map he)
          (hs.of_child (List.mem_map.mpr ⟨f, hf, rfl⟩))
      | _ =>
        simp only [check]
        exact (mismatch_resolved _ _).inSchema
    | reference full tag =>
      obtain ⟨t, ht, -, -⟩ := hs full tag (Schema.mem_nodes_self _)
      rw [check, ht]
      exact hdefinition t (hR full t ht)

end Walk

/-! ## 5. Sessions -/

theorem Definition.isNamed_tag (d : Definition) : d.tag.isNamed = true := by
  obtain ⟨name, doc, body⟩ := d
  match body with
  | .record .record _ => rfl
  | .record .error _ => rfl
  | .enum _ => rfl
  | .fixed _ => rfl

/-- **References resolve.**  After any row of calls, take a schema that one of them has given, or a
definition of the registry.  Each reference in it is the name of a finished definition, which has
the full name and the tag of the reference and is what the reference is followed to; and no datum is
rejected by it for an unresolved reference. -/
theorem references_resolve (calls : List Call) (s : Schema)
    (hs : s ∈ (Session.run calls).schemas ∨
      ∃ full d, (Session.run calls).registry.get? full = some d ∧ s = .named d) :
    (∀ full tag, .reference full tag ∈ s.nodes →
      ∃ d, (Session.run calls).registry.get? full = some d ∧ d.full = full ∧ d.tag = tag ∧
        d.tag.isNamed = true ∧
        ∀ root, Document.resolve? ⟨root, (Session.run calls).registry⟩ (.reference full tag) =
          some (.named d)) ∧
    (∀ d r name, validate (Session.run calls).registry s d = .error r →
      r.violation ≠ .unresolvedReference name) := by
  have hcomplete : (Session.run calls).Complete := Session.complete_run calls
  have hresolves : (Session.run calls).registry.Resolves s := by
    rcases hs with hs | ⟨full, d, hd, rfl⟩
    · exact hcomplete.resolves_schema hs
    · exact hcomplete.resolves_definition hd
  refine ⟨fun full tag hmem => ?_, fun d r name hr => ?_⟩
  · obtain ⟨d, hd, hfull, htag⟩ := hresolves full tag hmem
    refine ⟨d, hd, hfull, htag, d.isNamed_tag, fun root => ?_⟩
    rw [Document.resolve?, hd]
    rfl
  · exact check_resolved (fun _ _ ht => hcomplete.resolves_definition ht) d s hresolves r hr name

namespace Example

/-- Two records that lead to each other, a call that fails after it has taken a name, and an array
of one of the records. -/
def cycleCalls : List Call :=
  [.value 64 none (.obj [
      ("fields", .arr [.obj [("name", .str "right"),
        ("type", .obj [
          ("fields", .arr [.obj [("name", .str "left"), ("type", .str "Left")]]),
          ("name", .str "Right"), ("type", .str "error")])]]),
      ("name", .str "Left"), ("type", .str "record")]),
    .value 64 none (.obj [
      ("fields", .arr [.obj [("name", .str "f"), ("type", .str "Nowhere")]]),
      ("name", .str "Third"), ("type", .str "record")]),
    .value 64 (some "a") (.obj [("items", .str "Right"), ("type", .str "array")])]

end Example

/-- In the session of `Example.cycleCalls` the reference from the later array reaches the definition
inside the first record. -/
theorem references_resolve_cycle :
    .array (.reference "Right" .error) ∈ (Session.run Example.cycleCalls).schemas ∧
    ∃ d, (Session.run Example.cycleCalls).registry.get? "Right" = some d ∧ d.tag = .error := by
  have hmem : .array (.reference "Right" .error) ∈ (Session.run Example.cycleCalls).schemas := by
    have hschemas : ((Session.run Example.cycleCalls).schemas)[1]? =
      some (.array (.reference "Right" .error)) := by rfl
    exact List.mem_of_getElem? hschemas
  obtain ⟨d, hd, -, htag, -⟩ :=
    (references_resolve Example.cycleCalls _ (.inl hmem)).1 "Right" .error
      (Schema.mem_nodes_of_child List.mem_cons_self (Schema.mem_nodes_self _))
  exact ⟨hmem, d, hd, htag⟩

end Avro
