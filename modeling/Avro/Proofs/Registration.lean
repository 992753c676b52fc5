/-
# Registration: a reading adds the definitions of its schema, and nothing else

A definition takes its name before its body is read and is completed afterwards, with any number of
other definitions in between.  `Registry.Adds R ds R'` says what is left of this once the body is
closed: the names of `ds` were free in `R` and are distinct, `R'` holds each of `ds` under its name,
and every other name is as it was.

* `Adds.trans`, `Adds.close`: one reading after another, and a definition around what its body adds.
* `readerAt_adds`: a schema that is read has added exactly the definitions in its tree.
* `read_registers`: so no entry is lost or changed, and no name is left without its definition.
-/
import Avro.Proofs.Session
import Avro.Proofs.Tree

namespace Avro

/-! ## 1. What a reading adds -/

namespace Registry

/-- `R'` is `R` with the definitions `ds` added under names that were free. -/
structure Adds (R : Registry) (ds : List Definition) (R' : Registry) : Prop where
  nodup : (ds.map Definition.full).Nodup
  free : ∀ d ∈ ds, R.find? d.full = none
  defined : ∀ d ∈ ds, R'.find? d.full = some (.defined d)
  kept : ∀ full, full ∉ ds.map Definition.full → R'.find? full = R.find? full

namespace Adds

variable {R R₁ R' : Registry} {ds es : List Definition}

theorem refl (R : Registry) : Adds R [] R where
  nodup := List.nodup_nil
  free := by simp
  defined := by simp
  kept := fun _ _ => rfl

/-- An entry that was there is there still. -/
theorem find?_of_some (h : Adds R ds R') {full : String} {e : Entry}
    (hf : R.find? full = some e) : R'.find? full = some e := by
  rw [h.kept full, hf]
  intro hmem
  obtain ⟨d, hd, rfl⟩ := List.mem_map.mp hmem
  exact absurd (h.free d hd) (by simp [hf])

/-- One addition after another. -/
theorem trans (h : Adds R ds R₁) (h' : Adds R₁ es R') : Adds R (ds ++ es) R' where
  nodup := by
    rw [List.map_append, List.nodup_append]
    refine ⟨h.nodup, h'.nodup, ?_⟩
    -- what the first addition has defined is no longer free for the second
    intro full hds full' hes heq
    subst heq
    obtain ⟨d, hd, rfl⟩ := List.mem_map.mp hds
    obtain ⟨e, he, hfull⟩ := List.mem_map.mp hes
    have hfree := h'.free e he
    rw [hfull, h.defined d hd] at hfree
    cases hfree
  free := by
    intro d hd
    rcases List.mem_append.mp hd with hd | hd
    · exact h.free d hd
    · have hfree := h'.free d hd
      cases hf : R.find? d.full with
      | none => rfl
      | some e => rw [h.find?_of_some hf] at hfree; cases hfree
  defined := by
    intro d hd
    rcases List.mem_append.mp hd with hd | hd
    · exact h'.find?_of_some (h.defined d hd)
    · exact h'.defined d hd
  kept := by
    intro full hfull
    rw [List.map_append, List.mem_append, not_or] at hfull
    rw [h'.kept full hfull.2, h.kept full hfull.1]

/-- **Closing a definition.**  Around what its body adds, a definition that has taken its name and
now completes it adds itself, in front. -/
theorem close {tag : Tag} {d : Definition} (hfree : R.find? d.full = none)
    (h : Adds (R.put d.full (.declared tag)) ds R₁) : Adds R (d :: ds) (R₁.define d) := by
  -- while the body is read the name is taken, so nothing in the body has it
  have hopen : ∀ e ∈ ds, e.full ≠ d.full := by
    intro e he heq
    have hfe := h.free e he
    rw [find?_put, if_pos heq] at hfe
    cases hfe
  refine ⟨?_, ?_, ?_, ?_⟩
  · refine List.nodup_cons.mpr ⟨?_, h.nodup⟩
    intro hmem
    obtain ⟨e, he, heq⟩ := List.mem_map.mp hmem
    exact hopen e he heq
  · intro e he
    rcases List.mem_cons.mp he with rfl | he
    · exact hfree
    · have hfe := h.free e he
      rwa [find?_put, if_neg (hopen e he)] at hfe
  · intro e he
    rw [find?_define]
    rcases List.mem_cons.mp he with rfl | he
    · rw [if_pos rfl]
    · rw [if_neg (hopen e he), h.defined e he]
  · intro full hfull
    rw [List.map_cons, List.mem_cons, not_or] at hfull
    rw [find?_define, if_neg hfull.1, h.kept full hfull.2, find?_put, if_neg hfull.1]

end Adds
end Registry

theorem Registry.reference?_eq_some_iff {R : Registry} {text : String} {scope : Option String}
    {s : Schema} :
    R.reference? text scope = some s ↔
      ∃ full tag, R.resolve? text scope = some full ∧ R.tag? full = some tag ∧
        s = .reference full tag := by
  simp only [reference?, Option.bind_eq_bind, Option.bind_eq_some_iff, Option.pure_def,
    Option.some.injEq]
  constructor
  · rintro ⟨full, hfull, tag, htag, rfl⟩
    exact ⟨full, tag, hfull, htag, rfl⟩
  · rintro ⟨full, tag, hfull, htag, rfl⟩
    exact ⟨full, hfull, tag, htag, rfl⟩

open Registry (Adds)

/-- A row of readings adds what each of them does, in turn. -/
theorem Chain.adds {α β : Type} {read : α → ReadM β} {parts : β → List Definition}
    (hread : ∀ a R b R', read a R = .ok (b, R') → Adds R (parts b) R') {as : List α} {bs : List β}
    {R R' : Registry} (h : Chain read as R bs R') : Adds R (bs.flatMap parts) R' := by
  induction h with
  | nil R => exact .refl R
  | cons hb _ ih => exact (hread _ _ _ _ hb).trans ih

namespace Schema

/-- The fields of a list add the definitions in their types. -/
theorem chain_readField_adds {read : SchemaReader} {scope : Option String}
    (hread : ∀ scope v R s R', read scope v R = .ok (s, R') → Adds R s.definitions R')
    {items : List Json} {fields : List Field} {R R' : Registry}
    (h : Chain (readField read scope) items R fields R') :
    Adds R (fields.flatMap fun f => f.type.definitions) R' := by
  refine h.adds fun v R f R' hr => ?_
  obtain ⟨members, rfl, hfield⟩ := readField_eq_ok_iff.mp hr
  obtain ⟨v, -, htype⟩ := hfield.type
  exact hread _ _ _ _ _ htype

/-- One level of a reading adds the definitions in its tree if the levels below do. -/
theorem Reads.adds {read : SchemaReader} {scope : Option String} {v : Json} {s : Schema}
    {R R' : Registry}
    (hread : ∀ scope v R s R', read scope v R = .ok (s, R') → Adds R s.definitions R')
    (h : Reads read scope v R s R') : Adds R s.definitions R' := by
  cases h with
  | bare => exact .refl R
  | bareReference _ href =>
    obtain ⟨full, tag, -, -, rfl⟩ := Registry.reference?_eq_some_iff.mp href
    exact .refl R
  | union hchain =>
    rw [definitions_union]
    exact hchain.adds (hread scope)
  | wrapped _ _ hs => exact hread _ _ _ _ _ hs
  | reference _ _ href =>
    obtain ⟨full, tag, -, -, rfl⟩ := Registry.reference?_eq_some_iff.mp href
    exact .refl R
  | primitive => exact .refl R
  | array _ _ hs =>
    rw [definitions_array]
    exact hread _ _ _ _ _ hs
  | map _ _ hs =>
    rw [definitions_map]
    exact hread _ _ _ _ _ hs
  | @leaf members name doc body _ _ _ hfree hleaf =>
    have hfields : (Definition.mk name doc body).fields = [] := by cases hleaf <;> rfl
    rw [definitions_named, hfields]
    exact (Adds.refl _).close hfree
  | record _ _ hfree _ hchain =>
    rw [definitions_named]
    exact (chain_readField_adds hread hchain).close hfree

/-- **A schema that is read has added exactly the definitions in its tree.** -/
theorem readerAt_adds {limit levels : Nat} {scope : Option String} {v : Json} {s : Schema}
    {R R' : Registry} (h : readerAt limit levels scope v R = .ok (s, R')) :
    Adds R s.definitions R' :=
  readerAt_induction (P := fun _ _ _ R s R' => Adds R s.definitions R')
    (fun _ _ _ _ _ _ ih hreads => hreads.adds ih) h

end Schema

theorem Call.read_adds {call : Call} {R R' : Registry} {s : Schema}
    (h : call.read R = .ok (s, R')) : Adds R s.definitions R' := by
  rcases Call.read_cases h with ⟨limit, levels, scope, v, hread⟩ |
    ⟨-, limit, scope, items, fields, rfl, hchain, -⟩
  · exact Schema.readerAt_adds hread
  · rw [Schema.definitions_request]
    exact Schema.chain_readField_adds (fun _ _ _ _ _ hr => Schema.readerAt_adds hr) hchain

/-! ## 2. The registry after a call -/

theorem Registry.register_eq_ok_iff {R R' : Registry} {s : Schema} :
    R.register s = .ok R' ↔
      ∃ d, s = .named d ∧ R.find? d.full = none ∧
        R' = (R.put d.full (.declared d.tag)).define d := by
  cases s with
  | named d =>
    simp only [register, bind_eq_ok_iff, declare_eq_ok_iff]
    constructor
    · rintro ⟨_, ⟨hfree, rfl⟩, h⟩
      cases h
      exact ⟨d, rfl, hfree, rfl⟩
    · rintro ⟨_, ⟨⟩, hfree, rfl⟩
      exact ⟨_, ⟨hfree, rfl⟩, rfl⟩
  | _ => simp [register]

theorem Registry.contains_eq_true_iff {R : Registry} {full : String} :
    R.contains full = true ↔ ∃ e, R.find? full = some e := by
  rw [contains, Option.isSome_iff_exists]

theorem Registry.contains_eq_false_iff {R : Registry} {full : String} :
    R.contains full = false ↔ R.find? full = none := by
  rw [contains, Option.isSome_eq_false_iff, Option.isNone_iff_eq_none]

theorem Registry.get?_eq_some_iff {R : Registry} {full : String} {d : Definition} :
    R.get? full = some d ↔ R.find? full = some (.defined d) := by
  rw [get?]
  cases h : R.find? full with
  | none => simp
  | some e => cases e <;> simp [Entry.definition?]

/-- The names that are new in a registry are those of the definitions added. -/
theorem Registry.Adds.new_iff {R R' : Registry} {ds : List Definition} (h : Adds R ds R')
    {full : String} :
    (R'.contains full = true ∧ R.contains full = false) ↔ full ∈ ds.map Definition.full := by
  rw [contains_eq_true_iff, contains_eq_false_iff]
  constructor
  · rintro ⟨⟨e, he⟩, hfree⟩
    refine Decidable.byContradiction fun hmem => ?_
    rw [h.kept full hmem, hfree] at he
    cases he
  · intro hmem
    obtain ⟨d, hd, rfl⟩ := List.mem_map.mp hmem
    exact ⟨⟨_, h.defined d hd⟩, h.free d hd⟩

/-- A name that is taken and not completed after a call was so before it. -/
theorem Registry.Adds.declared_before {R R' : Registry} {ds : List Definition} (h : Adds R ds R')
    {full : String} {tag : Tag} (hf : R'.find? full = some (.declared tag)) :
    R.find? full = some (.declared tag) := by
  by_cases hmem : full ∈ ds.map Definition.full
  · obtain ⟨d, hd, rfl⟩ := List.mem_map.mp hmem
    rw [h.defined d hd] at hf
    cases hf
  · rwa [h.kept full hmem] at hf

/-- **A successful call registers the definitions of its schema.**  Every entry stays as it was; the
definitions in the tree have distinct names, all of them free before; these names and no others are
new; each stands for the very definition in the tree; and no name is left merely declared that was
not so before. -/
theorem read_registers {call : Call} {R₀ R₁ : Registry} {s : Schema}
    (h : call.read R₀ = .ok (s, R₁)) :
    (∀ full e, R₀.find? full = some e → R₁.find? full = some e) ∧
    ((s.definitions.map Definition.full).Nodup ∧
      ∀ d ∈ s.definitions, R₀.contains d.full = false) ∧
    (∀ full, (R₁.contains full = true ∧ R₀.contains full = false) ↔
      full ∈ s.definitions.map Definition.full) ∧
    (∀ d ∈ s.definitions, R₁.get? d.full = some d) ∧
    (∀ full tag, R₁.find? full = some (.declared tag) → R₀.find? full = some (.declared tag)) := by
  have hadds : Adds R₀ s.definitions R₁ := Call.read_adds h
  refine ⟨fun full e he => hadds.find?_of_some he, ⟨hadds.nodup, fun d hd => ?_⟩,
    fun full => hadds.new_iff, fun d hd => ?_, fun full tag hf => hadds.declared_before hf⟩
  · exact Registry.contains_eq_false_iff.mpr (hadds.free d hd)
  · exact Registry.get?_eq_some_iff.mpr (hadds.defined d hd)

namespace Example

/-- A record that holds an enum, leads back to itself, and uses a type that is only declared. -/
def treeJson : Json :=
  .obj [
    ("fields", .arr [
      .obj [("name", .str "kind"),
        ("type", .obj [("name", .str "Kind"), ("symbols", .arr [.str "LEAF"]),
          ("type", .str "enum")])],
      .obj [("name", .str "digest"), ("type", .str "Digest")],
      .obj [("name", .str "children"),
        ("type", .obj [("items", .str "Tree"), ("type", .str "array")])]]),
    ("name", .str "Tree"), ("namespace", .str "a"), ("type", .str "record")]

def treeBefore : Registry :=
  Registry.empty.put "a.Digest" (.declared .fixed)

def kind : Definition :=
  ⟨⟨"a.Kind", by decide⟩, none, .enum ["LEAF"]⟩

def tree : Definition :=
  ⟨⟨"a.Tree", by decide⟩, none, .record .record [
    ⟨"kind", .named kind, none, none, none⟩,
    ⟨"digest", .reference "a.Digest" .fixed, none, none, none⟩,
    ⟨"children", .array (.reference "a.Tree" .record), none, none, none⟩]⟩

theorem read_treeJson : (Call.value 64 none treeJson).read treeBefore =
    .ok (.named tree, (treeBefore.define kind).define tree) := by
  rfl

end Example

/-- Reading `Example.treeJson` registers the tree and the enum in it, and leaves the name that was
only declared as it was. -/
theorem read_registers_tree :
    (Call.value 64 none Example.treeJson).read Example.treeBefore =
      .ok (.named Example.tree, (Example.treeBefore.define Example.kind).define Example.tree) ∧
    (Schema.named Example.tree).definitions = [Example.tree, Example.kind] ∧
    ((Example.treeBefore.define Example.kind).define Example.tree).get? "a.Kind" =
      some Example.kind ∧
    ((Example.treeBefore.define Example.kind).define Example.tree).find? "a.Digest" =
      some (.declared .fixed) := by
  obtain ⟨hkept, -, -, hdefined, -⟩ := read_registers Example.read_treeJson
  have hdefinitions : (Schema.named Example.tree).definitions = [Example.tree, Example.kind] := rfl
  refine ⟨Example.read_treeJson, hdefinitions, ?_, ?_⟩
  · refine hdefined Example.kind ?_
    rw [hdefinitions]
    exact List.mem_cons_of_mem _ List.mem_cons_self
  · exact hkept "a.Digest" (.declared .fixed) rfl

/-! ## 3. The names of a registry -/

namespace Registry

/-- Every name of the registry is the full name of some definition. -/
def WellNamed (R : Registry) : Prop :=
  ∀ full e, R.find? full = some e → nameFault? full = none

theorem WellNamed.put {R : Registry} (h : R.WellNamed) (name : Name) (e : Entry) :
    (R.put name.full e).WellNamed := by
  intro full e' he
  rw [find?_put] at he
  split at he
  · next heq =>
    rw [heq]
    exact name.wellFormed
  · exact h full e' he

theorem Adds.wellNamed {R R' : Registry} {ds : List Definition} (h : Adds R ds R')
    (hR : R.WellNamed) : R'.WellNamed := by
  intro full e he
  by_cases hmem : full ∈ ds.map Definition.full
  · obtain ⟨d, -, rfl⟩ := List.mem_map.mp hmem
    exact d.name.wellFormed
  · rw [h.kept full hmem] at he
    exact hR full e he

theorem Reachable.wellNamed {R : Registry} (h : R.Reachable) : R.WellNamed := by
  induction h with
  | empty => exact nofun
  | read _ hread ih => exact (Call.read_adds hread).wellNamed ih
  | @declare _ _ name tag _ hdeclare ih =>
    obtain ⟨-, rfl⟩ := declare_eq_ok_iff.mp hdeclare
    exact ih.put name (.declared tag)
  | register _ hregister ih =>
    obtain ⟨d, -, -, rfl⟩ := register_eq_ok_iff.mp hregister
    exact (ih.put d.name (.declared d.tag)).put d.name (.defined d)

end Registry
end Avro
