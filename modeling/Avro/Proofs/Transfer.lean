/-
# Transfer: a definition in a registry of its own

A definition that has been read can be registered where nothing is known.  This takes its own name
and no other: the definitions inside it stay out.  What it accepts by itself is accepted where it
was read, but a reference to one of the definitions inside leads nowhere.

* `Registry.Adds.foldlM_register`: to register the definitions of a schema one by one, each with the
  others inside it, comes to the same registry as to read the schema.
* `validate_registered_iff`: to register the outermost one only comes to the same results
  exactly where it has no references but to itself.
* `validate_registered_ne`: a document that accepts a datum, which its root, registered by
  itself, rejects.
-/
import Avro.Proofs.Location
import Avro.Proofs.Stability

namespace Avro

open Registry (Adds Grows)

/-! ## 1. Registering what has been read -/

namespace Registry

theorem register_of_free {R : Registry} {d : Definition} (hfree : R.find? d.full = none) :
    R.register (.named d) = .ok (R.define d) := by
  have hregister := register_eq_ok_iff.mpr ⟨d, rfl, hfree, rfl⟩
  obtain ⟨_, heq, -, hput⟩ := register_eq_put hregister
  cases heq
  rw [hregister, hput, define]

namespace Adds

variable {R R' : Registry} {d : Definition} {ds : List Definition}

/-- The first definition that is added, by itself, and the rest. -/
theorem tail (h : R.Adds (d :: ds) R') : (R.define d).Adds ds R' := by
  obtain ⟨hfirst, hnodup⟩ := List.nodup_cons.mp h.nodup
  refine ⟨hnodup, fun e he => ?_, fun e he => h.defined e (List.mem_cons_of_mem _ he),
    fun full hfull => ?_⟩
  · have hne : e.full ≠ d.full := fun heq => hfirst (List.mem_map.mpr ⟨e, he, heq⟩)
    rw [find?_define, if_neg hne, h.free e (List.mem_cons_of_mem _ he)]
  · rw [find?_define]
    split
    · next heq => rw [heq, h.defined d List.mem_cons_self]
    · next hne =>
      refine h.kept full ?_
      rw [List.map_cons, List.mem_cons]
      exact fun hmem => hmem.elim hne hfull

/-- **Registering one by one.**  Definitions that a reading adds can be registered in their order,
and this comes to the registry of the reading. -/
theorem foldlM_register (h : R.Adds ds R') :
    ds.foldlM (fun R d => R.register (.named d)) R = .ok R' := by
  induction ds generalizing R with
  | nil =>
    have hkept : R' = R := ext_find? fun full => h.kept full (by simp)
    rw [hkept]
    rfl
  | cons d ds ih =>
    rw [List.foldlM_cons, register_of_free (h.free d List.mem_cons_self)]
    exact ih h.tail

/-- The first definition that is added, where nothing else is known, is part of what is added. -/
theorem grows_of_define (h : Registry.empty.Adds (d :: ds) R') :
    (Registry.empty.define d).Grows R' := by
  intro full e he
  exact h.tail.find?_of_some he

end Adds

/-- A registry with one definition only knows a schema whose references are all to that one. -/
theorem knows_define {R : Registry} {t : Definition} {s : Schema}
    (hname : ∀ full tag, .reference full tag ∈ s.nodes → full = t.full)
    (hgrows : (Registry.empty.define t).Grows R) (hknows : R.Knows s) :
    (Registry.empty.define t).Knows s := by
  intro full tag hmem
  obtain rfl := hname full tag hmem
  have hcontains : (Registry.empty.define t).contains t.full = true := by
    rw [contains, find?_define, if_pos rfl, Option.isSome_some]
  rw [tag?, ← hgrows.find?_eq hcontains]
  exact hknows t.full tag hmem

end Registry

/-! ## 2. Documents -/

/-- A document blames none of the schemas in it for a reference that leads nowhere. -/
theorem Document.resolved_of_ofText {options : Options} {text : String} {doc : Document}
    (h : Document.ofText options text = .ok doc) {s : Schema} (hs : s ∈ doc.root.nodes)
    (d : Datum) :
    (Avro.validate doc.registry s d).Resolved := by
  have hrun := Document.run_of_ofText h
  have hcomplete := Session.complete_run [.text options.maxDepth text]
  have hroot : doc.root ∈ (Session.run [.text options.maxDepth text]).schemas := by
    rw [hrun]
    exact List.mem_cons_self
  have hresolves := hcomplete.resolves_schema hroot
  have hdefinitions := fun full t => @Session.Complete.resolves_definition _ hcomplete full t
  rw [hrun] at hresolves hdefinitions
  exact check_resolved hdefinitions d s (hresolves.of_mem hs)

/-- **A definition by itself.**  Take a document whose root is a definition.  The root can be
registered where nothing is known.  Then whatever is accepted by the root, by a reference to it or
by any schema inside it, the document accepts too.  All of these come to the same results in both
registries if the root has no references but to itself, and only then.  And the registry of the
document is what comes of registering all the definitions in it, in their order. -/
theorem validate_registered_iff {options : Options} {text : String} {t : Definition}
    {R : Registry} (h : Document.ofText options text = .ok ⟨.named t, R⟩) :
    ∃ R₁, Registry.empty.register (.named t) = .ok R₁ ∧
      (∀ s ∈ .reference t.full t.tag :: (Schema.named t).nodes, ∀ d,
        isValid R₁ s d = true → isValid R s d = true) ∧
      ((∀ s ∈ .reference t.full t.tag :: (Schema.named t).nodes, ∀ d,
          validate R₁ s d = validate R s d) ↔
        ∀ full tag, .reference full tag ∈ (Schema.named t).nodes → full = t.full) ∧
      (Schema.named t).definitions.foldlM (fun R d => R.register (.named d)) Registry.empty =
        .ok R := by
  have hread := Document.read_of_ofText h
  have hadds : Registry.empty.Adds (Schema.named t).definitions R := Call.read_adds hread
  have hknows : R.Knows (.named t) := Call.read_knows hread
  have hgrows : (Registry.empty.define t).Grows R := by
    rw [Schema.definitions_named] at hadds
    exact hadds.grows_of_define
  refine ⟨Registry.empty.define t, Registry.register_of_free rfl,
    fun s _ d hd => isValid_of_grows hgrows hd,
    ⟨fun hsame full tag hmem => ?only, fun hname s hs d => ?same⟩, hadds.foldlM_register⟩
  case only =>
    -- a reference to another definition leads nowhere, and that is not what the document says
    by_contra hne
    have hget : (Registry.empty.define t).get? full = none := by
      rw [Registry.get?, Registry.find?_define, if_neg hne]
      rfl
    have hreference := hsame _ (List.mem_cons_of_mem _ hmem) .null
    rw [validate, check, hget] at hreference
    exact Document.resolved_of_ofText h hmem .null _ hreference.symm full rfl
  case same =>
    have hroot : (Registry.empty.define t).Knows (.named t) :=
      Registry.knows_define hname hgrows hknows
    have hown : (Registry.empty.define t).KnowsOwn := by
      intro full u hu
      rw [Registry.get?_eq_some_iff, Registry.find?_define] at hu
      split at hu
      · cases hu
        exact hroot
      · cases hu
    have hs : (Registry.empty.define t).Knows s := by
      rcases List.mem_cons.mp hs with rfl | hs
      · refine Registry.knows_reference ?_
        rw [Registry.tag?, Registry.find?_define, if_pos rfl]
        rfl
      · exact hroot.of_mem hs
    exact (validate_eq_of_grows hgrows hown hs d).symm

/-- A folder refers only to itself, so it says the same of every datum in a registry of its own. -/
theorem validate_registered_iff_folder :
    Document.ofText .standard Example.folderText = .ok Example.folderDocument ∧
    Registry.empty.register (.named Example.folder) = .ok (Registry.empty.define Example.folder) ∧
    ∀ d, validate (Registry.empty.define Example.folder) (.reference "Folder" .record) d =
      validate Example.folderDocument.registry (.reference "Folder" .record) d := by
  obtain ⟨R₁, hregister, -, hsame, -⟩ := validate_registered_iff Example.ofText_folderText
  have hfolder : Registry.empty.register (.named Example.folder) =
      .ok (Registry.empty.define Example.folder) := by rfl
  obtain rfl : Registry.empty.define Example.folder = R₁ := by
    rw [hfolder] at hregister
    exact Except.ok.inj hregister
  have hname : ∀ full tag, .reference full tag ∈ (Schema.named Example.folder).nodes →
      full = Example.folder.full := by
    intro full tag hmem
    have hnodes : (Schema.named Example.folder).nodes = [.named Example.folder, .primitive .int,
      .array (.reference "Folder" .record), .reference "Folder" .record] := by rfl
    rw [hnodes] at hmem
    obtain ⟨rfl, -⟩ : full = "Folder" ∧ tag = .record := by simpa using hmem
    rfl
  exact ⟨Example.ofText_folderText, hfolder, hsame.mpr hname _ List.mem_cons_self⟩

namespace Example

/-- Two fields of one type, which is defined in the first of them. -/
def pairText : String :=
  "\x7b\"name\":\"Pair\",\"type\":\"record\",\"fields\":[" ++
    "\x7b\"name\":\"a\"," ++
      "\"type\":\x7b\"name\":\"Byte\",\"type\":\"fixed\",\"size\":1\x7d\x7d," ++
    "\x7b\"name\":\"b\",\"type\":\"Byte\"\x7d]\x7d"

def byte : Definition :=
  ⟨⟨"Byte", by decide⟩, none, .fixed 1⟩

def pair : Definition :=
  ⟨⟨"Pair", by decide⟩, none, .record .record [
    ⟨"a", .named byte, none, none, none⟩,
    ⟨"b", .reference "Byte" .fixed, none, none, none⟩]⟩

def pairDocument : Document :=
  ⟨.named pair, (Registry.empty.define pair).define byte⟩

theorem ofText_pairText : Document.ofText .standard pairText = .ok pairDocument :=
  toOption_eq_some_iff.mp (by decide +kernel)

end Example

/-- **The definitions inside stay out.**  The document accepts the pair of two bytes.  Its root,
registered by itself, rejects it at the second one, and so does a reference to it. -/
theorem validate_registered_ne :
    Document.ofText .standard Example.pairText = .ok Example.pairDocument ∧
    Registry.empty.register (.named Example.pair) = .ok (Registry.empty.define Example.pair) ∧
    ∀ s ∈ [.named Example.pair, .reference "Pair" .record],
      validate Example.pairDocument.registry s (.map [("a", .string "x"), ("b", .string "y")]) =
        .ok () ∧
      validate (Registry.empty.define Example.pair) s
          (.map [("a", .string "x"), ("b", .string "y")]) =
        .error ⟨.unresolvedReference "Byte", [.key "b"], ["record:Pair", "field:b"]⟩ := by
  refine ⟨Example.ofText_pairText, by rfl, ?_⟩
  rw [List.forall_mem_cons, List.forall_mem_singleton]
  exact ⟨⟨by cbv, by cbv⟩, ⟨by cbv, by cbv⟩⟩

end Avro
