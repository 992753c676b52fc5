/-
# Scoping: which schemas a document can say

A document writes a definition with its simple name, and with its namespace if it has one; it writes
a reference as a full name.  Both are read where a namespace may be in scope, that of the record
closest around them, and there is no way to write that there is none.  So two things that a tree can
say are lost in its document: a name without a namespace where one is in scope, and a reference to
such a name where the namespace completes it to the name of another type.

* `Schema.places`: the schemas in a tree in document order, each with the namespace in scope there.
* `Schema.depth`: how many schemas stand inside one another.
* `Schema.WellScoped`: a reference leads to a definition around it or before it.
* `Schema.Unambiguous`: neither of the two things above happens.
* `Place.Writable`: the two together, place by place (`writableInOrder_iff`).
-/
import Avro.Proofs.Grammar
import Avro.Proofs.Rules

namespace Avro

/-! ## 1. Places -/

/-- A place where a schema stands, and the namespace in scope there. -/
structure Place where
  scope : Option String
  schema : Schema

namespace Schema

theorem sizeOf_lt_of_mem_children {s c : Schema} (h : c ∈ s.children) : sizeOf c < sizeOf s := by
  have hfields : ∀ fields : List Field, c ∈ fields.map Field.type → sizeOf c < sizeOf fields := by
    intro fields hc
    obtain ⟨f, hf, rfl⟩ := List.mem_map.mp hc
    have hlt : sizeOf f < sizeOf fields := List.sizeOf_lt_of_mem hf
    obtain ⟨name, type, default, order, doc⟩ := f
    rw [Field.mk.sizeOf_spec] at hlt
    simp only
    omega
  cases s with
  | named d =>
    obtain ⟨name, doc, body⟩ := d
    cases body with
    | record kind fields =>
      have hlt := hfields fields h
      rw [named.sizeOf_spec, Definition.mk.sizeOf_spec, Body.record.sizeOf_spec]
      omega
    | enum symbols => cases h
    | fixed size => cases h
  | array items =>
    rw [List.mem_singleton.mp h, array.sizeOf_spec]
    omega
  | map values =>
    rw [List.mem_singleton.mp h, map.sizeOf_spec]
    omega
  | union branches =>
    have hlt : sizeOf c < sizeOf branches := List.sizeOf_lt_of_mem h
    rw [union.sizeOf_spec]
    omega
  | request fields =>
    have hlt := hfields fields h
    rw [request.sizeOf_spec]
    omega
  | _ => cases h

/-- The namespace that is in scope inside: that of a definition, in its fields. -/
def scopeInside (scope : Option String) : Schema → Option String
  | named d => d.name.space?
  | _ => scope

/-- The places in a tree, in document order. -/
def places (scope : Option String) (s : Schema) : List Place :=
  ⟨scope, s⟩ :: s.children.attach.flatMap fun c => places (s.scopeInside scope) c.1
termination_by sizeOf s
decreasing_by exact sizeOf_lt_of_mem_children c.2

theorem places_eq (scope : Option String) (s : Schema) :
    s.places scope = ⟨scope, s⟩ :: s.children.flatMap (places (s.scopeInside scope)) := by
  rw [places, List.flatMap_subtype (g := places (s.scopeInside scope)) (fun _ _ => rfl),
    List.unattach_attach]

/-- Without their namespaces the places are the nodes. -/
theorem map_schema_places (scope : Option String) (s : Schema) :
    (s.places scope).map Place.schema = s.nodes := by
  induction s using children_induction generalizing scope with
  | step s ih =>
    rw [places_eq, nodes_eq_cons, List.map_cons, List.map_flatMap, List.flatMap_def,
      List.flatMap_def, List.map_congr_left fun c hc => ih c hc _]

/-- How many schemas stand inside one another. -/
def depth (s : Schema) : Nat :=
  (s.children.attach.map fun c => depth c.1).foldr max 0 + 1
termination_by sizeOf s
decreasing_by exact sizeOf_lt_of_mem_children c.2

theorem depth_eq (s : Schema) : s.depth = (s.children.map depth).foldr max 0 + 1 := by
  rw [depth, List.map_attach_eq_pmap, List.pmap_eq_map]

theorem depth_le_succ_iff {s : Schema} {levels : Nat} :
    s.depth ≤ levels + 1 ↔ ∀ c ∈ s.children, c.depth ≤ levels := by
  rw [depth_eq, Nat.add_le_add_iff_right, foldr_max_le_iff, List.forall_mem_map]

end Schema

/-- The definition at a place, if there is one. -/
def Place.definitions (p : Place) : List Definition :=
  p.schema.root?.toList

theorem Place.mem_definitions_iff {p : Place} {d : Definition} :
    d ∈ p.definitions ↔ p.schema = .named d := by
  obtain ⟨scope, s⟩ := p
  cases s <;> simp [definitions, Schema.root?, eq_comm]

theorem Schema.definitions_places (scope : Option String) (s : Schema) :
    (s.places scope).flatMap Place.definitions = s.definitions := by
  induction s using children_induction generalizing scope with
  | step s ih =>
    rw [places_eq, definitions_eq, List.flatMap_cons, List.flatMap_assoc, List.flatMap_def,
      List.flatMap_def, List.map_congr_left fun c hc => ih c hc _]
    rfl

/-! ## 2. Rules -/

namespace Schema

/-- **The references of a tree are in order.**  There are no requests in it, the definitions have
distinct names, and each reference has the name and the tag of a definition that is around it or
before it. -/
structure WellScoped (s : Schema) : Prop where
  requests : ∀ t ∈ s.nodes, t.isRequest = false
  distinct : (s.definitions.map Definition.full).Nodup
  references : ∀ before full tag after, s.nodes = before ++ .reference full tag :: after →
    ∃ d, .named d ∈ before ∧ d.full = full ∧ d.tag = tag

/-- **A document can say the names of a tree.**  Where a definition without a namespace stands none
is in scope; and no definition around or before a reference has the name that the namespace in scope
makes of the reference, if that is another name. -/
structure Unambiguous (s : Schema) : Prop where
  definitions : ∀ p ∈ s.places none, ∀ d, p.schema = .named d → d.name.space? = none →
    Name.present p.scope = none
  references : ∀ before p after, s.places none = before ++ p :: after →
    ∀ full tag, p.schema = .reference full tag →
      ∀ q ∈ before, ∀ d, q.schema = .named d → d.full = Name.qualify full p.scope → d.full = full

end Schema

/-- Both rules for one place, where these definitions are around it or before it. -/
structure Place.Writable (known : List Definition) (p : Place) : Prop where
  request : p.schema.isRequest = false
  fresh : ∀ d, p.schema = .named d → d.full ∉ known.map Definition.full
  space : ∀ d, p.schema = .named d → d.name.space? = none → Name.present p.scope = none
  target : ∀ full tag, p.schema = .reference full tag → ∃ d ∈ known, d.full = full ∧ d.tag = tag
  clear : ∀ full tag, p.schema = .reference full tag →
    ∀ d ∈ known, d.full = Name.qualify full p.scope → d.full = full

/-- The places of a tree are writable one after the other, where these definitions are around
them or before them. -/
abbrev Place.WritableInOrder (known : List Definition) (ps : List Place) : Prop :=
  Successively Place.Writable Place.definitions known ps

/-- **The rules hold of a tree if they hold place by place.** -/
theorem writableInOrder_iff {s : Schema} :
    Place.WritableInOrder [] (s.places none) ↔ s.WellScoped ∧ s.Unambiguous := by
  have hmem : ∀ {before : List Place} {d : Definition},
      d ∈ before.flatMap Place.definitions ↔ ∃ q ∈ before, q.schema = .named d := by
    intro before d
    rw [List.mem_flatMap]
    exact exists_congr fun q => and_congr_right fun _ => Place.mem_definitions_iff
  have hnodes : (s.places none).map Place.schema = s.nodes := s.map_schema_places none
  constructor
  · intro h
    have hplace : ∀ p ∈ s.places none, ∃ known, p.Writable known := by
      intro p hp
      obtain ⟨before, after, heq⟩ := List.append_of_mem hp
      exact ⟨_, successively_iff.mp h before p after heq⟩
    refine ⟨⟨fun t ht => ?requests, ?distinct, fun before full tag after heq => ?references⟩,
      fun p hp => ?spaces, fun before p after heq full tag hp q hq d hd => ?clear⟩
    case requests =>
      rw [← hnodes] at ht
      obtain ⟨p, hp, rfl⟩ := List.mem_map.mp ht
      obtain ⟨_, hwritable⟩ := hplace p hp
      exact hwritable.request
    case distinct =>
      rw [← s.definitions_places none]
      refine (h.nodup Definition.full fun known p hp => ⟨?_, fun d hd => ?_⟩).1
      · rw [Place.definitions]
        cases p.schema.root? <;> simp
      · exact hp.fresh d (Place.mem_definitions_iff.mp hd)
    case references =>
      rw [← hnodes] at heq
      obtain ⟨front, rest, hplaces, rfl, hrest⟩ := List.map_eq_append_iff.mp heq
      obtain ⟨p, rest, rfl, hp, rfl⟩ := List.map_eq_cons_iff.mp hrest
      obtain ⟨d, hd, hfull, htag⟩ := (successively_iff.mp h front p rest hplaces).target full tag hp
      obtain ⟨q, hq, hqd⟩ := hmem.mp hd
      exact ⟨d, List.mem_map.mpr ⟨q, hq, hqd⟩, hfull, htag⟩
    case spaces =>
      obtain ⟨_, hwritable⟩ := hplace p hp
      exact hwritable.space
    case clear =>
      exact (successively_iff.mp h before p after heq).clear full tag hp d (hmem.mpr ⟨q, hq, hd⟩)
  · rintro ⟨hscoped, hclear⟩
    refine successively_iff.mpr fun before p after heq => ?_
    have hp : p ∈ s.places none := heq ▸ List.mem_append_right _ List.mem_cons_self
    have hsplit : s.nodes = before.map Place.schema ++ p.schema :: after.map Place.schema := by
      rw [← hnodes, heq, List.map_append, List.map_cons]
    refine ⟨hscoped.requests _ ?_, fun d hd hknown => ?_, hclear.definitions p hp,
      fun full tag href => ?_, fun full tag href d hd => ?_⟩
    · rw [hsplit]
      exact List.mem_append_right _ List.mem_cons_self
    · have hdistinct := hscoped.distinct
      rw [← s.definitions_places none, heq, List.flatMap_append, List.map_append,
        List.nodup_append] at hdistinct
      refine hdistinct.2.2 d.full (by simpa using hknown) d.full ?_ rfl
      exact List.mem_map.mpr ⟨d, hmem.mpr ⟨p, List.mem_cons_self, hd⟩, rfl⟩
    · rw [href] at hsplit
      obtain ⟨d, hd, hfull, htag⟩ := hscoped.references _ full tag _ hsplit
      obtain ⟨q, hq, hqd⟩ := List.mem_map.mp hd
      exact ⟨d, hmem.mpr ⟨q, hq, hqd⟩, hfull, htag⟩
    · obtain ⟨q, hq, hqd⟩ := hmem.mp hd
      exact hclear.references before p after heq full tag href q hq d hqd

/-! ## 3. One place -/

section Writable

variable {known : List Definition} {scope : Option String}

theorem writableInOrder_places_iff {s : Schema} :
    Place.WritableInOrder known (s.places scope) ↔
      Place.Writable known ⟨scope, s⟩ ∧
        Place.WritableInOrder (known ++ s.root?.toList)
          (s.children.flatMap (Schema.places (s.scopeInside scope))) := by
  rw [Schema.places_eq]
  exact Iff.rfl

/-- A place that names nothing is writable, unless it is that of a request. -/
theorem writable_of_unnamed {s : Schema} (hrequest : s.isRequest = false)
    (hfull : s.full? = none) : Place.Writable known ⟨scope, s⟩ := by
  cases s with
  | named d => cases hfull
  | reference full tag => cases hfull
  | request fields => cases hrequest
  | _ => exact ⟨rfl, nofun, nofun, nofun, nofun⟩

theorem writable_named_iff {d : Definition} :
    Place.Writable known ⟨scope, .named d⟩ ↔
      d.full ∉ known.map Definition.full ∧
        (d.name.space? = none → Name.present scope = none) := by
  constructor
  · exact fun h => ⟨h.fresh d rfl, h.space d rfl⟩
  · rintro ⟨hfresh, hspace⟩
    refine ⟨rfl, ?_, ?_, nofun, nofun⟩
    · rintro _ ⟨⟩
      exact hfresh
    · rintro _ ⟨⟩
      exact hspace

theorem writable_reference_iff {full : String} {tag : Tag} :
    Place.Writable known ⟨scope, .reference full tag⟩ ↔
      (∃ d ∈ known, d.full = full ∧ d.tag = tag) ∧
        ∀ d ∈ known, d.full = Name.qualify full scope → d.full = full := by
  constructor
  · exact fun h => ⟨h.target full tag rfl, h.clear full tag rfl⟩
  · rintro ⟨htarget, hclear⟩
    refine ⟨rfl, nofun, nofun, ?_, ?_⟩
    · rintro _ _ ⟨⟩
      exact htarget
    · rintro _ _ ⟨⟩
      exact hclear

end Writable

end Avro
