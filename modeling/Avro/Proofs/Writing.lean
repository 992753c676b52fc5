/-
# Writing: which schemas are read back from their documents

A schema that has been read is read again from its document (`Avro.Proofs.RoundTrip`).  One that was
put together by hand need not be: its references may lead nowhere, its definitions may share a name,
and its document may say less than the tree does.  This module tells exactly when it is.

A reading goes through the places of the tree in their order, and what it knows at a place are the
definitions around it and before it: `Registry.Marks R known` says that the registry has these names
with their tags, and no others.  Under this, each shape is read back from its document exactly if
its place is writable and the schemas directly below are read back.

* `reads_array_iff` and others: what it takes to read a shape back, whatever is known.
* `Registry.Marks.reference?_full_iff`: when a full name stands for itself.
* `exists_chain_iff`: a row is read back item by item.
* `readsBack_readerAt`: the induction.
* `exists_reader_toJson_iff`: a schema that can be made is read back exactly if the limit allows for
  its depth, it is well scoped and its names are unambiguous.
* `reader_toJson_ne`: two that are well scoped and are not read back.
-/
import Avro.Proofs.Built
import Avro.Proofs.Recognition
import Avro.Proofs.RoundTrip
import Avro.Proofs.Scoping

namespace Avro

open Registry (Adds)

/-! ## 1. One level -/

namespace Schema

section Level

variable {read : SchemaReader} {scope : Option String} {R R' : Registry}

theorem reads_array_iff {items : Schema} :
    Reads read scope (array items).nestedJson R (.array items) R' ↔
      read scope items.nestedJson R = .ok (items, R') := by
  rw [nestedJson, Json.ofMembers]
  constructor
  · intro h
    cases h with
    | wrapped hv hcompound => simp at hv; simp [← hv, isCompound] at hcompound
    | reference _ _ href => simp [Registry.reference?_eq_some_iff] at href
    | array _ hv hread =>
      obtain rfl : items.nestedJson = _ := by simpa using hv
      exact hread
  · exact .array (by simp) (by simp)

theorem reads_map_iff {values : Schema} :
    Reads read scope (map values).nestedJson R (.map values) R' ↔
      read scope values.nestedJson R = .ok (values, R') := by
  rw [nestedJson, Json.ofMembers]
  constructor
  · intro h
    cases h with
    | wrapped hv hcompound => simp at hv; simp [← hv, isCompound] at hcompound
    | reference _ _ href => simp [Registry.reference?_eq_some_iff] at href
    | map _ hv hread =>
      obtain rfl : values.nestedJson = _ := by simpa using hv
      exact hread
  · exact .map (by simp) (by simp)

theorem reads_union_iff {branches : List Schema}
    (hfault : firstFault? branchFault [] branches = none) :
    Reads read scope (union branches).nestedJson R (.union branches) R' ↔
      Chain (read scope) (branches.map nestedJson) R branches R' := by
  rw [nestedJson, branchesJson_eq_map]
  constructor
  · intro h
    cases h with
    | union hchain => exact hchain
  · exact fun hchain => .union hchain hfault

theorem reads_reference_iff {full : String} {tag : Tag} :
    Reads read scope (reference full tag).nestedJson R (.reference full tag) R' ↔
      Primitive.ofName? full = none ∧ R.reference? full scope = some (.reference full tag) ∧
        R' = R := by
  rw [nestedJson]
  constructor
  · intro h
    cases h with
    | bareReference hprimitive href => exact ⟨hprimitive, href, rfl⟩
  · rintro ⟨hprimitive, href, rfl⟩
    exact .bareReference hprimitive href

/-- The document of a definition is an object with the tag of the definition. -/
theorem find?_type_definitionJson (t : Definition) :
    ∃ members, (named t).nestedJson = .obj members ∧
      Attribute.type.find? members = some (.str t.tag.name) := by
  obtain ⟨name, doc, body⟩ := t
  rw [nestedJson, definitionJson, Json.ofMembers]
  refine ⟨_, rfl, ?_⟩
  cases body <;> simp [heading, bodyJson, Definition.tag]

/-- A definition without schemas in it is read back unless its name is taken, or has no namespace
where one is in scope. -/
theorem reads_leaf_iff {name : Name} {doc : Option String} {body : Body}
    (hleaf : ∃ members, LeafRead members name.full body) :
    Reads read scope (named ⟨name, doc, body⟩).nestedJson R (.named ⟨name, doc, body⟩) R' ↔
      R.find? name.full = none ∧ (name.space? = none → Name.present scope = none) ∧
        R' = (R.put name.full (.declared body.tag)).define ⟨name, doc, body⟩ := by
  obtain ⟨_, hleaf⟩ := hleaf
  constructor
  · intro h
    obtain ⟨members, hjson, htype⟩ := find?_type_definitionJson ⟨name, doc, body⟩
    rw [hjson] at h
    cases h with
    | wrapped hv hcompound =>
      rw [htype] at hv
      cases hv
      cases hcompound
    | reference _ _ href => simp [Registry.reference?_eq_some_iff] at href
    | leaf _ hhead hfree => exact ⟨hfree, hhead.not_present (.inl rfl), rfl⟩
    | record => cases hleaf
  · rintro ⟨hfree, hscope, rfl⟩
    exact reads_leaf hleaf hfree hscope

/-- A record is read back if besides this its fields are, inside its own namespace. -/
theorem reads_record_iff {name : Name} {doc : Option String} {kind : RecordKind}
    {fields : List Field} (hfault : firstFault? (Field.fault name.full) [] fields = none) :
    Reads read scope (named ⟨name, doc, .record kind fields⟩).nestedJson R
        (.named ⟨name, doc, .record kind fields⟩) R' ↔
      R.find? name.full = none ∧ (name.space? = none → Name.present scope = none) ∧
        ∃ R₁, Chain (readField read name.space?) (fields.map fieldJson)
            (R.put name.full (.declared kind.tag)) fields R₁ ∧
          R' = R₁.define ⟨name, doc, .record kind fields⟩ := by
  rw [nestedJson, definitionJson, Json.ofMembers, bodyJson, fieldsJson_eq_map]
  constructor
  · intro h
    cases h with
    | wrapped hv hcompound => simp [heading] at hv; simp [← hv, isCompound] at hcompound
    | reference _ _ href => simp [Registry.reference?_eq_some_iff] at href
    | leaf _ _ _ hleaf => cases hleaf
    | record _ hhead hfree hitems hchain =>
      obtain rfl : fields.map fieldJson = _ := by simpa [heading] using hitems
      exact ⟨hfree, hhead.not_present (.inl rfl), _, hchain, rfl⟩
  · rintro ⟨hfree, hscope, R₁, hchain, rfl⟩
    obtain ⟨htype, hheading, hfields⟩ := headingRead_heading kind.tag doc .fields
      (.arr (fields.map fieldJson)) (by decide) hscope
    exact .record htype hheading hfree hfields hchain hfault

end Level

end Schema

/-! ## 2. What is known at a place -/

namespace Registry

/-- The registry has the names of these definitions, with their tags, and no others. -/
structure Marks (R : Registry) (known : List Definition) : Prop where
  lists : R.Lists (known.map Definition.full)
  tags : ∀ d ∈ known, R.tag? d.full = some d.tag

namespace Marks

variable {R R' : Registry} {known ds : List Definition}

theorem empty : Registry.empty.Marks [] where
  lists := by simp [Lists, contains, find?_empty]
  tags := by simp

/-- A definition that begins is known. -/
theorem put (h : R.Marks known) (d : Definition) (hfresh : d.full ∉ known.map Definition.full) :
    (R.put d.full (.declared d.tag)).Marks (known ++ [d]) where
  lists := by
    rw [List.map_append]
    exact h.lists.put d.full _
  tags := by
    intro e he
    rw [tag?, find?_put]
    rcases List.mem_append.mp he with he | he
    · have hne : e.full ≠ d.full := fun heq => hfresh (heq ▸ List.mem_map_of_mem he)
      rw [if_neg hne]
      exact h.tags e he
    · obtain rfl := List.mem_singleton.mp he
      rw [if_pos rfl]
      rfl

/-- What a reading has added is known. -/
theorem adds (h : R.Marks known) (hadds : R.Adds ds R') : R'.Marks (known ++ ds) where
  lists := by
    rw [List.map_append]
    exact h.lists.adds hadds
  tags := by
    intro e he
    rcases List.mem_append.mp he with he | he
    · have htag := h.tags e he
      rw [tag?, Option.map_eq_some_iff] at htag ⊢
      obtain ⟨entry, hentry, htag⟩ := htag
      exact ⟨entry, hadds.find?_of_some hentry, htag⟩
    · rw [tag?, hadds.defined e he]
      rfl

/-- A name is known exactly if some definition has it, whose tag it has. -/
theorem tag?_eq_some_iff (h : R.Marks known) {full : String} {tag : Tag} :
    R.tag? full = some tag ↔ ∃ d ∈ known, d.full = full ∧ d.tag = tag := by
  constructor
  · intro htag
    have hcontains : R.contains full = true := by
      rw [tag?, Option.map_eq_some_iff] at htag
      obtain ⟨e, he, -⟩ := htag
      exact contains_eq_true_iff.mpr ⟨e, he⟩
    obtain ⟨d, hd, rfl⟩ := List.mem_map.mp ((h.lists full).mp hcontains)
    rw [h.tags d hd] at htag
    exact ⟨d, hd, rfl, Option.some.inj htag⟩
  · rintro ⟨d, hd, rfl, rfl⟩
    exact h.tags d hd

/-- **A full name stands for itself** exactly if it is known and the namespace in scope does not
complete it to another name that is known. -/
theorem reference?_full_iff (h : R.Marks known) {full : String} {tag : Tag}
    {scope : Option String} :
    R.reference? full scope = some (.reference full tag) ↔
      (∃ d ∈ known, d.full = full ∧ d.tag = tag) ∧
        ∀ d ∈ known, d.full = Name.qualify full scope → d.full = full := by
  rw [h.lists.reference?_eq_some_iff, ← h.tag?_eq_some_iff]
  constructor
  · rintro ⟨full', tag', hdenoted, htag, heq⟩
    cases heq
    refine ⟨htag, fun d hd hqualify => ?_⟩
    rw [denoted?, if_pos (hqualify ▸ List.mem_map_of_mem hd)] at hdenoted
    rw [hqualify]
    exact Option.some.inj hdenoted
  · rintro ⟨htag, hclear⟩
    refine ⟨full, tag, ?_, htag, rfl⟩
    obtain ⟨d, hd, rfl, -⟩ := h.tag?_eq_some_iff.mp htag
    rw [denoted?]
    split
    · next hmem =>
      obtain ⟨e, he, hqualify⟩ := List.mem_map.mp hmem
      rw [← hqualify, hclear e he hqualify]
    · rw [if_pos (List.mem_map_of_mem hd)]

end Marks
end Registry

/-! ## 3. Rows -/

/-- A schema is read back by so many levels exactly if it is not deeper and its places are
writable. -/
def ReadsBack (levels : Nat) (read : SchemaReader) (s : Schema) : Prop :=
  ∀ {known scope R}, R.Marks known →
    ((∃ R', read scope s.nestedJson R = .ok (s, R')) ↔
      s.depth ≤ levels ∧ Place.WritableInOrder known (s.places scope))

/-- **A row is read back item by item.**  Here `type` is the schema in an item, and `read` reads an
item from its document exactly if `readSchema` reads the schema. -/
theorem exists_chain_iff {β : Type} (render : β → Json) (type : β → Schema)
    {read : Json → ReadM β} {readSchema : SchemaReader} {levels : Nat} {scope : Option String}
    {known : List Definition} {R : Registry} (hR : R.Marks known) {bs : List β}
    (hread : ∀ b ∈ bs, ∀ R R', read (render b) R = .ok (b, R') ↔
      readSchema scope (type b).nestedJson R = .ok (type b, R'))
    (hadds : ∀ v R s R', readSchema scope v R = .ok (s, R') → Adds R s.definitions R')
    (hback : ∀ b ∈ bs, ReadsBack levels readSchema (type b)) :
    (∃ R', Chain read (bs.map render) R bs R') ↔
      (∀ b ∈ bs, (type b).depth ≤ levels) ∧
        Place.WritableInOrder known (bs.flatMap fun b => (type b).places scope) := by
  induction bs generalizing known R with
  | nil => exact ⟨fun _ => ⟨by simp, trivial⟩, fun _ => ⟨R, .nil R⟩⟩
  | cons b bs ih =>
    obtain ⟨hb, hbs⟩ := List.forall_mem_cons.mp hread
    obtain ⟨hbackb, hbackbs⟩ := List.forall_mem_cons.mp hback
    have hnext : ∀ R₁, readSchema scope (type b).nestedJson R = .ok (type b, R₁) →
        R₁.Marks (known ++ ((type b).places scope).flatMap Place.definitions) := by
      intro R₁ hr
      rw [Schema.definitions_places]
      exact hR.adds (hadds _ _ _ _ hr)
    rw [List.flatMap_cons, Place.WritableInOrder, successively_append, List.forall_mem_cons]
    constructor
    · rintro ⟨R', hchain⟩
      cases hchain with
      | cons hfirst hrest =>
        have hr := (hb _ _).mp hfirst
        obtain ⟨hdepth, hwritable⟩ := (hbackb hR).mp ⟨_, hr⟩
        obtain ⟨hdepths, hothers⟩ := (ih (hnext _ hr) hbs hbackbs).mp ⟨R', hrest⟩
        exact ⟨⟨hdepth, hdepths⟩, hwritable, hothers⟩
    · rintro ⟨⟨hdepth, hdepths⟩, hwritable, hothers⟩
      obtain ⟨R₁, hr⟩ := (hbackb hR).mpr ⟨hdepth, hwritable⟩
      obtain ⟨R', hrest⟩ := (ih (hnext R₁ hr) hbs hbackbs).mpr ⟨hdepths, hothers⟩
      exact ⟨R', .cons ((hb _ _).mpr hr) hrest⟩

namespace Schema

/-! ## 4. Definitions -/

section Definition

variable {read : SchemaReader} {scope : Option String} {R : Registry} {known : List Definition}
  {name : Name} {doc : Option String}

/-- The body of a definition without schemas in it can be written. -/
theorem exists_leafRead {body : Body} (hbody : ∀ kind fields, body ≠ .record kind fields)
    (hfault : (named ⟨name, doc, body⟩).fault? = none) :
    ∃ members, LeafRead members name.full body := by
  cases body with
  | record kind fields => exact absurd rfl (hbody kind fields)
  | enum symbols =>
    refine ⟨Entries.ofList [Attribute.symbols.member (.arr (symbols.map .str))], .enum ?_ hfault⟩
    simp
  | fixed size =>
    have hleaf : LeafRead (Entries.ofList [Attribute.size.member (.num (.int size.toNat))])
        name.full (.fixed (.ofNat size.toNat)) := .fixed (by simp) (toUnsigned?_size size)
    rw [UInt64.ofNat_toNat] at hleaf
    exact ⟨_, hleaf⟩

theorem exists_reads_leaf_iff (hR : R.Marks known) {body : Body}
    (hleaf : ∃ members, LeafRead members name.full body) :
    (∃ R', Reads read scope (named ⟨name, doc, body⟩).nestedJson R (.named ⟨name, doc, body⟩) R') ↔
      Place.Writable known ⟨scope, .named ⟨name, doc, body⟩⟩ := by
  simp only [reads_leaf_iff hleaf, hR.lists.find?_eq_none_iff]
  rw [writable_named_iff]
  constructor
  · rintro ⟨R', hfresh, hspace, -⟩
    exact ⟨hfresh, hspace⟩
  · rintro ⟨hfresh, hspace⟩
    exact ⟨_, hfresh, hspace, rfl⟩

theorem exists_reads_record_iff (hR : R.Marks known) {kind : RecordKind} {fields : List Field}
    {levels : Nat} (hfault : firstFault? (Field.fault name.full) [] fields = none)
    (hnames : ∀ f ∈ fields, isIdentifier f.name = true)
    (hadds : ∀ scope v R s R', read scope v R = .ok (s, R') → Adds R s.definitions R')
    (hback : ∀ f ∈ fields, ReadsBack levels read f.type) :
    (∃ R', Reads read scope (named ⟨name, doc, .record kind fields⟩).nestedJson R
        (.named ⟨name, doc, .record kind fields⟩) R') ↔
      Place.Writable known ⟨scope, .named ⟨name, doc, .record kind fields⟩⟩ ∧
        (∀ f ∈ fields, f.type.depth ≤ levels) ∧
        Place.WritableInOrder (known ++ [⟨name, doc, .record kind fields⟩])
          (fields.flatMap fun f => f.type.places name.space?) := by
  -- the record is known in its fields, though it is not complete
  have hfields : name.full ∉ known.map Definition.full →
      ((∃ R₁, Chain (readField read name.space?) (fields.map fieldJson)
          (R.put name.full (.declared kind.tag)) fields R₁) ↔
        (∀ f ∈ fields, f.type.depth ≤ levels) ∧
          Place.WritableInOrder (known ++ [⟨name, doc, .record kind fields⟩])
            (fields.flatMap fun f => f.type.places name.space?)) := by
    intro hfresh
    have hopen := hR.put ⟨name, doc, .record kind fields⟩ hfresh
    exact exists_chain_iff fieldJson Field.type hopen
      (fun f hf _ _ => readField_fieldJson_iff (hnames f hf)) (hadds name.space?) hback
  simp only [reads_record_iff hfault, hR.lists.find?_eq_none_iff]
  rw [writable_named_iff]
  constructor
  · rintro ⟨R', hfresh, hspace, R₁, hchain, -⟩
    exact ⟨⟨hfresh, hspace⟩, (hfields hfresh).mp ⟨R₁, hchain⟩⟩
  · rintro ⟨⟨hfresh, hspace⟩, hrest⟩
    obtain ⟨R₁, hchain⟩ := (hfields hfresh).mpr hrest
    exact ⟨_, hfresh, hspace, R₁, hchain, rfl⟩

end Definition

/-! ## 5. All levels -/

/-- **A schema that the constructors have seen to is read back exactly if its places are writable**,
by as many levels as it is deep.  The induction is on the levels, which go down with the depth. -/
theorem readsBack_readerAt {limit levels : Nat} {s : Schema} (hs : s.Regular) :
    ReadsBack levels (readerAt limit levels) s := by
  induction levels generalizing s with
  | zero =>
    intro known scope R _
    refine iff_of_false (fun ⟨R', h⟩ => readerAt_zero.mp h) fun h => ?_
    have hdepth := h.1
    rw [depth_eq] at hdepth
    omega
  | succ levels ih =>
    intro known scope R hR
    have hback : ∀ c ∈ s.children, ReadsBack levels (readerAt limit levels) c :=
      fun c hc => ih (hs.of_child hc)
    have hadds : ∀ scope v R s R', readerAt limit levels scope v R = .ok (s, R') →
        Adds R s.definitions R' := fun _ _ _ _ _ h => readerAt_adds h
    have hfault : s.fault? = none := hs.rules s s.mem_nodes_self
    simp only [readerAt_succ_eq_ok_iff]
    rw [depth_le_succ_iff, writableInOrder_places_iff]
    cases s with
    | primitive p =>
      exact iff_of_true ⟨R, .bare (Primitive.ofName?_name p)⟩
        ⟨by simp [children], writable_of_unnamed rfl rfl, trivial⟩
    | array items =>
      have hplace : Place.Writable known ⟨scope, array items⟩ := writable_of_unnamed rfl rfl
      simp only [reads_array_iff, hback items List.mem_cons_self hR]
      simp [children, scopeInside, root?, hplace]
    | map values =>
      have hplace : Place.Writable known ⟨scope, map values⟩ := writable_of_unnamed rfl rfl
      simp only [reads_map_iff, hback values List.mem_cons_self hR]
      simp [children, scopeInside, root?, hplace]
    | union branches =>
      have hplace : Place.Writable known ⟨scope, union branches⟩ := writable_of_unnamed rfl rfl
      have hbranches : ∀ b ∈ branches, ReadsBack levels (readerAt limit levels) b := hback
      simp only [reads_union_iff hfault, exists_chain_iff nestedJson id hR
        (fun b _ R R' => Iff.rfl) (hadds scope) hbranches]
      simp [children, scopeInside, root?, hplace]
    | request fields =>
      refine iff_of_false (fun hread => ?_) fun h => ?_
      · obtain ⟨R', h⟩ := hread
        cases (readerAt_lawful (readerAt_succ_eq_ok_iff.mpr h)).1
      · cases h.2.1.request
    | reference full tag =>
      simp only [reads_reference_iff, hR.reference?_full_iff, writable_reference_iff]
      constructor
      · rintro ⟨R', -, hreference, -⟩
        exact ⟨by simp [children], hreference, trivial⟩
      · rintro ⟨-, hreference, -⟩
        obtain ⟨d, -, hfull, -⟩ := hreference.1
        refine ⟨R, ?_, hreference, rfl⟩
        rw [← hfull]
        exact (nameFault?_eq_none_iff.mp d.name.wellFormed).2
    | named d =>
      obtain ⟨name, doc, body⟩ := d
      by_cases hbody : ∃ kind fields, body = .record kind fields
      · obtain ⟨kind, fields, rfl⟩ := hbody
        have hnames : ∀ f ∈ fields, isIdentifier f.name = true :=
          hs.spelled _ (mem_nodes_self _)
        have hfields : ∀ f ∈ fields, ReadsBack levels (readerAt limit levels) f.type :=
          fun f hf => hback f.type (List.mem_map_of_mem hf)
        rw [exists_reads_record_iff hR hfault hnames hadds hfields]
        simp only [children, scopeInside, root?, Definition.fields, Body.fields, List.flatMap_map,
          List.forall_mem_map, Option.toList_some]
        exact and_left_comm
      · simp only [not_exists] at hbody
        rw [exists_reads_leaf_iff hR (exists_leafRead hbody hfault)]
        have hchildren : (named ⟨name, doc, body⟩).children = [] := by
          cases body with
          | record kind fields => exact absurd rfl (hbody kind fields)
          | _ => rfl
        rw [hchildren]
        exact ⟨fun h => ⟨by simp, h, trivial⟩, fun h => h.2.1⟩

/-- On its own a primitive type is an object, and any other schema is written as it is inside
another one. -/
theorem exists_reader_iff_writable {limit : Nat} {s : Schema} (hs : s.Regular) :
    (∃ R', reader limit none s.toJson .empty = .ok (s, R')) ↔
      s.depth ≤ limit ∧ Place.WritableInOrder [] (s.places none) := by
  cases s with
  | primitive p =>
    rw [writableInOrder_places_iff]
    have hplace : Place.Writable [] ⟨none, primitive p⟩ := writable_of_unnamed rfl rfl
    cases limit with
    | zero =>
      refine iff_of_false (fun ⟨R', h⟩ => readerAt_zero.mp h) fun h => ?_
      have hdepth := h.1
      rw [depth_eq] at hdepth
      omega
    | succ levels =>
      refine iff_of_true ⟨.empty, readerAt_succ_eq_ok_iff.mpr (.primitive ?_)⟩
        ⟨depth_le_succ_iff.mpr (by simp [children]), hplace, trivial⟩
      simp [Tag.name]
  | _ => exact readsBack_readerAt hs .empty

end Schema

/-! ## 6. Documents -/

/-- **Which schemas are read back from their documents.**  Take a schema that can be made, and read
its document where nothing is known and no namespace is in scope.  The reading succeeds and gives
this very schema exactly if the limit allows for its depth, its references are in order and a
document can say its names. -/
theorem Schema.exists_reader_toJson_iff {s : Schema} (hs : s.Built) (limit : Nat) :
    (∃ R', reader limit none s.toJson .empty = .ok (s, R')) ↔
      s.depth ≤ limit ∧ s.WellScoped ∧ s.Unambiguous := by
  rw [exists_reader_iff_writable hs.regular, writableInOrder_iff]

namespace Example

def size : Definition :=
  ⟨⟨"c.Size", by decide⟩, none, .fixed 8⟩

def inner : Definition :=
  ⟨⟨"b.Inner", by decide⟩, none, .record .error [
    ⟨"size", .named size, none, none, none⟩,
    ⟨"outer", .reference "Outer" .record, none, none, none⟩]⟩

/-- A record without a namespace, which a record in a namespace refers to, and a type from a third
namespace. -/
def outer : Definition :=
  ⟨⟨"Outer", by decide⟩, none, .record .record [
    ⟨"inner", .named inner, none, none, none⟩,
    ⟨"sizes", .array (.reference "c.Size" .fixed), none, none, none⟩]⟩

theorem built_outer : (Schema.named outer).Built := by
  have hinner : (Schema.named inner).Built := by
    refine .of_fields (by decide) ?_ (by decide)
    exact List.forall_mem_cons.mpr
      ⟨.fixed _ _ _, List.forall_mem_singleton.mpr (.reference _ _)⟩
  refine .of_fields (by decide) ?_ (by decide)
  exact List.forall_mem_cons.mpr
    ⟨hinner, List.forall_mem_singleton.mpr (.array (.reference _ _))⟩

end Example

/-- The document of `Example.outer` leads back to it where three schemas may stand inside one
another, and to nothing where they may not. -/
theorem Schema.exists_reader_toJson_iff_outer :
    (Schema.named Example.outer).Built ∧ (Schema.named Example.outer).depth = 3 ∧
    ∀ limit, (∃ R', Schema.reader limit none (Schema.named Example.outer).toJson .empty =
      .ok (.named Example.outer, R')) ↔ 3 ≤ limit := by
  have hdepth : (Schema.named Example.outer).depth = 3 := by
    simp [Schema.depth_eq, Schema.children, Example.outer, Example.inner, Example.size,
      Definition.fields, Body.fields]
  have hread : ∃ R', Schema.reader 3 none (Schema.named Example.outer).toJson .empty =
      .ok (.named Example.outer, R') := by
    have hmap : (Schema.reader 3 none (Schema.named Example.outer).toJson .empty).map Prod.fst =
        .ok (.named Example.outer) := toOption_eq_some_iff.mp (by decide +kernel)
    cases hreader : Schema.reader 3 none (Schema.named Example.outer).toJson .empty with
    | ok r =>
      rw [hreader] at hmap
      obtain ⟨s, R'⟩ := r
      obtain rfl : s = _ := Except.ok.inj hmap
      exact ⟨R', rfl⟩
    | error e =>
      rw [hreader] at hmap
      cases hmap
  have hiff := fun limit => Schema.exists_reader_toJson_iff Example.built_outer limit
  refine ⟨Example.built_outer, hdepth, fun limit => ?_⟩
  rw [hiff limit, hdepth]
  exact and_iff_left ((hiff 3).mp hread).2

namespace Example

def lone : Definition :=
  ⟨⟨"F", by decide⟩, none, .fixed 1⟩

def namesake : Definition :=
  ⟨⟨"a.F", by decide⟩, none, .fixed 1⟩

/-- A type without a namespace inside a record that has one. -/
def lost : Schema :=
  .named ⟨⟨"a.R", by decide⟩, none, .record .record [⟨"f", .named lone, none, none, none⟩]⟩

def captor : Definition :=
  ⟨⟨"a.R", by decide⟩, none, .record .record [
    ⟨"x", .named namesake, none, none, none⟩,
    ⟨"y", .reference "F" .fixed, none, none, none⟩]⟩

/-- A reference to a type without a namespace, inside a record with a namespace that has a type of
this name too. -/
def captured : Schema :=
  .union [.named lone, .named captor]

theorem built_lost : lost.Built :=
  .of_fields (by decide) (List.forall_mem_singleton.mpr (.fixed _ _ _)) (by decide)

theorem built_captured : captured.Built := by
  have hcaptor : (Schema.named captor).Built := by
    refine .of_fields (by decide) ?_ (by decide)
    exact List.forall_mem_cons.mpr
      ⟨.fixed _ _ _, List.forall_mem_singleton.mpr (.reference _ _)⟩
  have hunion : Schema.unionOf [.named lone, .named captor] = .ok captured := by rfl
  refine .union ?_ hunion
  exact List.forall_mem_cons.mpr ⟨.fixed _ _ _, List.forall_mem_singleton.mpr hcaptor⟩

theorem places_lost : lost.places none = [⟨none, lost⟩, ⟨some "a", .named lone⟩] := by
  have hspace : Name.space? ⟨"a.R", by decide⟩ = some "a" := by decide
  simp [Schema.places_eq, Schema.children, Schema.scopeInside, lost, lone, hspace,
    Definition.fields, Body.fields]

theorem places_captured : captured.places none =
    [⟨none, captured⟩, ⟨none, .named lone⟩, ⟨none, .named captor⟩, ⟨some "a", .named namesake⟩,
      ⟨some "a", .reference "F" .fixed⟩] := by
  have hspace : Name.space? ⟨"a.R", by decide⟩ = some "a" := by decide
  simp [Schema.places_eq, Schema.children, Schema.scopeInside, captured, lone, captor, namesake,
    hspace, Definition.fields, Body.fields]

theorem wellScoped_lost : lost.WellScoped := by
  refine ⟨by decide, by decide, fun before full tag after heq => ?_⟩
  have hmem : .reference full tag ∈ lost.nodes := heq ▸ List.mem_append_right _ List.mem_cons_self
  simp [lost, Schema.nodes, Schema.nodesOfDefinition, Schema.nodesOfBody, Schema.nodesOfFields,
    lone] at hmem

theorem wellScoped_captured : captured.WellScoped := by
  refine ⟨by decide, by decide, fun before full tag after heq => ?_⟩
  have hnodes : captured.nodes = [captured, .named lone, .named captor, .named namesake,
      .reference "F" .fixed] := by rfl
  rw [hnodes] at heq
  obtain ⟨rfl, ⟨rfl, rfl⟩, -⟩ : before = [captured, .named lone, .named captor, .named namesake] ∧
      (full = "F" ∧ tag = .fixed) ∧ after = [] := by
    simpa [List.cons_eq_append_iff, captured] using heq
  exact ⟨lone, by simp, rfl, rfl⟩

end Example

/-- **A document cannot say that a name has no namespace.**  Both schemas are made by the
constructors and their references are in order.  But inside the record `a.R` the name `F` is read as
`a.F`, as the name of a definition and as a reference, and neither schema is read back with any
limit. -/
theorem Schema.reader_toJson_ne :
    (Example.lost.Built ∧ Example.lost.WellScoped ∧
      ∀ limit R', Schema.reader limit none Example.lost.toJson .empty ≠ .ok (Example.lost, R')) ∧
    (Example.captured.Built ∧ Example.captured.WellScoped ∧
      ∀ limit R',
        Schema.reader limit none Example.captured.toJson .empty ≠ .ok (Example.captured, R')) := by
  refine ⟨⟨Example.built_lost, Example.wellScoped_lost, fun limit R' h => ?_⟩,
    ⟨Example.built_captured, Example.wellScoped_captured, fun limit R' h => ?_⟩⟩
  · have hwritable := ((exists_reader_iff_writable Example.built_lost.regular).mp ⟨R', h⟩).2
    have hspaces := (writableInOrder_iff.mp hwritable).2.definitions
    rw [Example.places_lost] at hspaces
    exact absurd (hspaces ⟨some "a", .named Example.lone⟩ (by simp) Example.lone rfl (by decide))
      (by decide)
  · have hwritable := ((exists_reader_iff_writable Example.built_captured.regular).mp ⟨R', h⟩).2
    have hclear := (writableInOrder_iff.mp hwritable).2.references
    rw [Example.places_captured] at hclear
    -- the definition of `a.F` stands right before the reference
    exact absurd (hclear [⟨none, Example.captured⟩, ⟨none, .named Example.lone⟩,
      ⟨none, .named Example.captor⟩, ⟨some "a", .named Example.namesake⟩] _ [] rfl "F" .fixed rfl
      ⟨some "a", .named Example.namesake⟩ (by simp) Example.namesake rfl (by decide)) (by decide)

end Avro
