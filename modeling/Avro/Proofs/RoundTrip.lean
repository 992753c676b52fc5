/-
# RoundTrip: reading what has been written

The document of a schema drops the wrappers of the document that it was read from, splits each full
name into its parts and writes each reference as a full name.  Read against the same registry it
gives the schema back, and leaves the registry as the first reading did:

* a reference stood for a name that was known, so its full name stands for the same one
  (`Registry.reference?_full`), whether it could be completed by the namespace in scope or not;
* a name is made of its parts (`Name.resolve_parts`), and where a name has no namespace there was
  none in scope;
* what is read in between adds the same definitions, so that each position meets the same registry.

The names of the registry matter for one thing only: none of them is the name of a primitive type.

`readerAt_again` is the induction, and `read_toJson` what it comes to for whole documents.
-/
import Avro.Schema.ToJson
import Avro.Proofs.Names
import Avro.Proofs.Registration

namespace Avro

/-! ## 1. Attributes of a document -/

namespace Attribute

variable {a : Attribute}

@[simp] theorem find?_ofList_nil : a.find? (Entries.ofList []) = none := rfl

@[simp] theorem find?_ofList_append (xs ys : List (String × Json)) :
    a.find? (Entries.ofList (xs ++ ys)) =
      (a.find? (Entries.ofList ys)).or (a.find? (Entries.ofList xs)) := by
  simp only [find?, Entries.lookup_ofList, List.reverse_append, List.lookup_append]

theorem find?_ofList_singleton (b : Attribute) (v : Json) :
    a.find? (Entries.ofList [b.member v]) = if a = b then some v else none := by
  simp only [find?, Entries.lookup_ofList, List.reverse_singleton, member,
    Entries.lookup_cons_ite, List.lookup_nil]
  by_cases h : a = b
  · rw [if_pos h, if_pos (congrArg key h)]
  · rw [if_neg h, if_neg fun hkey => h (key_injective hkey)]

@[simp] theorem find?_ofList_cons (b : Attribute) (v : Json) (members : List (String × Json)) :
    a.find? (Entries.ofList (b.member v :: members)) =
      (a.find? (Entries.ofList members)).or (if a = b then some v else none) := by
  rw [← List.singleton_append, find?_ofList_append, find?_ofList_singleton]

@[simp] theorem find?_ofList_member? (b : Attribute) (v : Option Json) :
    a.find? (Entries.ofList (b.member? v)) = if a = b then v else none := by
  cases v with
  | none => exact (ite_self none).symm
  | some v => exact find?_ofList_singleton b v

end Attribute

/-! ## 2. References -/

namespace Registry

variable {R : Registry} {scope scope' : Option String}

/-- A name that stands for a full name is known, and the full name stands for itself, in the same
namespace or in none. -/
theorem resolve?_full {text full : String} (hscope : scope' = scope ∨ scope' = none)
    (h : R.resolve? text scope = some full) :
    R.contains full = true ∧ R.resolve? full scope' = some full := by
  have hself : R.contains full = true → Name.qualify full scope' = full →
      R.resolve? full scope' = some full := by
    intro hcontains heq
    rw [resolve?, heq, if_pos hcontains]
  have hnone : Name.qualify full none = full := Name.qualify_of_not_present rfl
  have htext := h
  simp only [resolve?] at h
  split at h
  · next hcontains =>
    obtain rfl := Option.some.inj h
    refine ⟨hcontains, hself hcontains ?_⟩
    rcases hscope with rfl | rfl
    · exact Name.qualify_qualify text scope'
    · exact hnone
  · split at h
    · next hcontains =>
      obtain rfl := Option.some.inj h
      refine ⟨hcontains, ?_⟩
      rcases hscope with rfl | rfl
      · exact htext
      · exact hself hcontains hnone
    · cases h

/-- **A reference is read again from its full name**, which is not the name of a primitive type. -/
theorem reference?_full (hR : R.WellNamed) (hscope : scope' = scope ∨ scope' = none)
    {text : String} {s : Schema} (h : R.reference? text scope = some s) :
    ∃ full tag, s = .reference full tag ∧ Primitive.ofName? full = none ∧
      R.reference? full scope' = some (.reference full tag) := by
  obtain ⟨full, tag, hfull, htag, rfl⟩ := reference?_eq_some_iff.mp h
  obtain ⟨hcontains, hagain⟩ := resolve?_full hscope hfull
  obtain ⟨e, he⟩ := contains_eq_true_iff.mp hcontains
  have hprimitive : Primitive.ofName? full = none := (nameFault?_eq_none_iff.mp (hR full e he)).2
  exact ⟨full, tag, rfl, hprimitive, reference?_eq_some_iff.mpr ⟨full, tag, hagain, htag, rfl⟩⟩

end Registry

/-! ## 3. Definitions -/

namespace Schema

/-- A heading that stands before the body is read as the name and the documentation that it was made
of. -/
theorem headingRead_heading {scope : Option String} {name : Name} (tag : Tag)
    (doc : Option String) (b : Attribute) (v : Json)
    (hb : b ≠ .type ∧ b ≠ .name ∧ b ≠ .space ∧ b ≠ .doc)
    (hscope : name.space? = none → Name.present scope = none) :
    Attribute.type.find? (Entries.ofList (heading tag name doc ++ [b.member v])) =
        some (.str tag.name) ∧
      HeadingRead scope (Entries.ofList (heading tag name doc ++ [b.member v])) name doc ∧
      b.find? (Entries.ofList (heading tag name doc ++ [b.member v])) = some v := by
  obtain ⟨htype, hname, hspace, hdoc⟩ := hb
  refine ⟨?_, ⟨Attribute.definedName_eq_ok_iff.mpr ⟨name.simple, name.space?, ?_, ?_, ?_⟩, ?_⟩, ?_⟩
  · simp [heading, htype.symm]
  · simp [heading, hname.symm]
  · simp [heading, hspace.symm]
  · exact Name.resolve_parts hscope
  · simp [heading, hdoc.symm]
  · simp

/-- A definition whose name has no namespace was read where none is in scope. -/
theorem HeadingRead.not_present {scope scope' : Option String} {members : List (String × Json)}
    {name : Name} {doc : Option String} (h : HeadingRead scope members name doc)
    (hscope : scope' = scope ∨ scope' = none) (hspace : name.space? = none) :
    Name.present scope' = none := by
  rcases hscope with rfl | rfl
  · obtain ⟨text, space, -, -, hresolve⟩ := Attribute.definedName_eq_ok_iff.mp h.name
    exact Name.not_present_of_resolve hresolve hspace
  · rfl

/-- A size of 64 bits is written as it is read. -/
theorem toUnsigned?_size (size : UInt64) :
    Json.toUnsigned? (.num (.int size.toNat)) = some size.toNat := by
  have hlt : size.toNat < 18446744073709551616 := size.toNat_lt
  have hsize : isUnsigned size.toNat = true := by
    simp only [isUnsigned, decide_eq_true_eq]
    omega
  rw [Json.toUnsigned?, if_pos hsize, Int.toNat_natCast]

/-- A definition without schemas in it is read again. -/
theorem reads_leaf {read : SchemaReader} {scope : Option String} {name : Name}
    {doc : Option String} {body : Body} {R : Registry} {members : List (String × Json)}
    (hleaf : LeafRead members name.full body) (hfree : R.find? name.full = none)
    (hscope : name.space? = none → Name.present scope = none) :
    Reads read scope (nestedJson (.named ⟨name, doc, body⟩)) R (.named ⟨name, doc, body⟩)
      ((R.put name.full (.declared body.tag)).define ⟨name, doc, body⟩) := by
  rw [nestedJson, definitionJson, Json.ofMembers]
  cases hleaf with
  | @enum symbols _ hfault =>
    obtain ⟨htype, hheading, hsymbols⟩ :=
      headingRead_heading .enum doc .symbols (.arr (symbols.map .str)) (by decide) hscope
    exact .leaf htype hheading hfree (.enum hsymbols hfault)
  | @fixed v n =>
    obtain ⟨htype, hheading, hsize⟩ :=
      headingRead_heading .fixed doc .size (.num (.int (UInt64.ofNat n).toNat)) (by decide) hscope
    have hleaf : LeafRead _ name.full (.fixed (.ofNat (UInt64.ofNat n).toNat)) :=
      .fixed hsize (toUnsigned?_size (.ofNat n))
    rw [UInt64.ofNat_toNat] at hleaf
    exact .leaf htype hheading hfree hleaf

/-! ## 4. Fields -/

/-- A field is read from its document exactly where its type is. -/
theorem readField_fieldJson_iff {read : SchemaReader} {scope : Option String} {f : Field}
    {R R' : Registry} (hname : isIdentifier f.name = true) :
    readField read scope (fieldJson f) R = .ok (f, R') ↔
      read scope f.type.nestedJson R = .ok (f.type, R') := by
  rw [readField_eq_ok_iff]
  constructor
  · rintro ⟨members, hjson, hfield⟩
    obtain ⟨v, hv, htype⟩ := hfield.type
    obtain rfl := Json.obj.inj hjson
    obtain rfl : f.type.nestedJson = v := by simpa using hv
    exact htype
  · intro htype
    refine ⟨_, rfl, ?_, hname, ⟨f.type.nestedJson, ?_, htype⟩, ?_, ?_, ?_⟩
    all_goals simp

/-- A field is read again where its type is. -/
theorem readField_fieldJson {read : SchemaReader} {scope scope' : Option String} {v : Json}
    {f : Field} {R R' : Registry}
    (hread : ∀ v, read scope v R = .ok (f.type, R') →
      read scope' f.type.nestedJson R = .ok (f.type, R'))
    (h : readField read scope v R = .ok (f, R')) :
    readField read scope' (fieldJson f) R = .ok (f, R') := by
  obtain ⟨members, rfl, hfield⟩ := readField_eq_ok_iff.mp h
  obtain ⟨v, -, htype⟩ := hfield.type
  exact (readField_fieldJson_iff hfield.identifier).mpr (hread v htype)

end Schema

/-- Readings in a row are done again, where each of them keeps what the next one needs of the
registry. -/
theorem Chain.again {α β : Type} {read read' : α → ReadM β} {render : β → α}
    {P : Registry → Prop}
    (hread : ∀ a R b R', P R → read a R = .ok (b, R') →
      read' (render b) R = .ok (b, R') ∧ P R')
    {as : List α} {bs : List β} {R R' : Registry} (h : Chain read as R bs R') :
    P R → Chain read' (bs.map render) R bs R' := by
  induction h with
  | nil R => exact fun _ => .nil R
  | cons hb _ ih =>
    intro hR
    obtain ⟨hagain, hR₁⟩ := hread _ _ _ _ hR hb
    exact .cons hagain (ih hR₁)

namespace Schema

/-- Whatever is read is read again from its document, in the same namespace or in none. -/
def ReadsAgain (read : SchemaReader) : Prop :=
  ∀ scope v R s R', read scope v R = .ok (s, R') → R.WellNamed →
    ∀ scope', scope' = scope ∨ scope' = none → read scope' s.nestedJson R = .ok (s, R')

theorem chain_readField_again {limit levels : Nat} (hread : ReadsAgain (readerAt limit levels))
    {scope scope' : Option String} (hscope : scope' = scope ∨ scope' = none)
    {items : List Json} {fields : List Field} {R R' : Registry} (hR : R.WellNamed)
    (h : Chain (readField (readerAt limit levels) scope) items R fields R') :
    Chain (readField (readerAt limit levels) scope') (fields.map fieldJson) R fields R' := by
  refine h.again (P := Registry.WellNamed) (fun v R f R' hR hf => ⟨?_, ?_⟩) hR
  · refine readField_fieldJson (fun v htype => ?_) hf
    exact hread scope v R f.type R' htype hR scope' hscope
  · obtain ⟨members, rfl, hfield⟩ := readField_eq_ok_iff.mp hf
    obtain ⟨v, -, htype⟩ := hfield.type
    exact (readerAt_adds htype).wellNamed hR

/-! ## 5. Schemas -/

/-- **A schema that has been read is read again from its document.**  The induction is on the levels
of the first reading; where that went through a wrapper, the second one needs a level less. -/
theorem readerAt_again {limit levels : Nat} : ReadsAgain (readerAt limit levels) := by
  intro scope v R s R' h
  refine readerAt_induction (P := fun levels scope v R s R' => R.WellNamed →
    ∀ scope', scope' = scope ∨ scope' = none →
      readerAt limit levels scope' s.nestedJson R = .ok (s, R')) ?_ h
  intro levels scope v R s R' ih hreads hR scope' hscope
  have hreference : ∀ text, R.reference? text scope = some s →
      Reads (readerAt limit levels) scope' s.nestedJson R s R := by
    intro text href
    obtain ⟨full, tag, rfl, hprimitive, hagain⟩ := Registry.reference?_full hR hscope href
    exact .bareReference hprimitive hagain
  cases hreads with
  | bare => exact readerAt_succ_eq_ok_iff.mpr (.bare (Primitive.ofName?_name _))
  | bareReference _ href => exact readerAt_succ_eq_ok_iff.mpr (hreference _ href)
  | union hchain hfault =>
    refine readerAt_succ_eq_ok_iff.mpr ?_
    rw [nestedJson, branchesJson_eq_map]
    refine .union (hchain.again (P := Registry.WellNamed) (fun v R b R' hR hb => ?_) hR) hfault
    exact ⟨ih scope v R b R' hb hR scope' hscope, (readerAt_adds hb).wellNamed hR⟩
  | wrapped _ _ hs => exact readerAt_succ (ih scope _ R s R' hs hR scope' hscope)
  | reference _ _ href => exact readerAt_succ_eq_ok_iff.mpr (hreference _ href)
  | primitive => exact readerAt_succ_eq_ok_iff.mpr (.bare (Primitive.ofName?_name _))
  | array _ _ hitems =>
    refine readerAt_succ_eq_ok_iff.mpr ?_
    rw [nestedJson, Json.ofMembers]
    exact .array (by simp) (by simp) (ih scope _ R _ R' hitems hR scope' hscope)
  | map _ _ hvalues =>
    refine readerAt_succ_eq_ok_iff.mpr ?_
    rw [nestedJson, Json.ofMembers]
    exact .map (by simp) (by simp) (ih scope _ R _ R' hvalues hR scope' hscope)
  | leaf _ hhead hfree hleaf =>
    exact readerAt_succ_eq_ok_iff.mpr (reads_leaf hleaf hfree (hhead.not_present hscope))
  | @record members kind name doc items fields _ R₁ _ hhead hfree _ hchain hfault =>
    refine readerAt_succ_eq_ok_iff.mpr ?_
    rw [nestedJson, definitionJson, Json.ofMembers, bodyJson, fieldsJson_eq_map]
    obtain ⟨htype, hheading, hfields⟩ := headingRead_heading kind.tag doc .fields
      (.arr (fields.map fieldJson)) (by decide) (hhead.not_present hscope)
    -- the fields are read in the namespace of the record, whatever is in scope around it
    have hagain := chain_readField_again ih (.inl rfl) (hR.put name _) hchain
    exact .record htype hheading hfree hfields hagain hfault

/-- On its own a primitive type is an object. -/
theorem reader_toJson {limit : Nat} {scope scope' : Option String} {v : Json} {s : Schema}
    {R R' : Registry} (hR : R.WellNamed) (hscope : scope' = scope ∨ scope' = none)
    (h : reader limit scope v R = .ok (s, R')) : reader limit scope' s.toJson R = .ok (s, R') := by
  have hagain : readerAt limit limit scope' s.nestedJson R = .ok (s, R') :=
    readerAt_again scope v R s R' h hR scope' hscope
  cases s with
  | primitive p =>
    obtain ⟨levels, rfl⟩ : ∃ levels, limit = levels + 1 := by
      refine Nat.exists_eq_succ_of_ne_zero ?_
      rintro rfl
      exact readerAt_zero.mp h
    have hregistry : R' = R := by
      cases readerAt_succ_eq_ok_iff.mp hagain with
      | bare => rfl
      | bareReference => rfl
    rw [hregistry]
    refine readerAt_succ_eq_ok_iff.mpr (.primitive ?_)
    simp [Tag.name]
  | _ => exact hagain

end Schema

/-! ## 6. Round trips -/

/-- **A schema that has been read is read again from its document**, and so are the parameters of a
message: against the same registry, with as many levels, in the same namespace or in none, the
second reading gives the same schema and the same registry. -/
theorem read_toJson (R₀ : Registry) (hR₀ : R₀.Reachable) (limit : Nat)
    (scope scope' : Option String) (hscope : scope' = scope ∨ scope' = none) (v : Json) (s : Schema)
    (R₁ : Registry) :
    (Schema.reader limit scope v R₀ = .ok (s, R₁) →
      Schema.reader limit scope' s.toJson R₀ = .ok (s, R₁)) ∧
    (Schema.readRequest limit scope v R₀ = .ok (s, R₁) →
      Schema.readRequest limit scope' s.toJson R₀ = .ok (s, R₁)) := by
  have hnames : R₀.WellNamed := hR₀.wellNamed
  refine ⟨Schema.reader_toJson hnames hscope, fun h => ?_⟩
  obtain ⟨items, fields, rfl, rfl, hchain, hfault⟩ := Schema.readRequest_eq_ok_iff.mp h
  have hagain := Schema.chain_readField_again Schema.readerAt_again hscope hnames hchain
  refine Schema.readRequest_eq_ok_iff.mpr ⟨_, fields, ?_, rfl, hagain, hfault⟩
  simp only [Schema.toJson, Schema.nestedJson, Schema.fieldsJson_eq_map]

namespace Example

def color : Definition :=
  ⟨⟨"Color", by decide⟩, none, .enum ["RED"]⟩

def colors : Registry :=
  (Registry.empty.put "Color" (.declared .enum)).define color

/-- A type without a namespace, one with a namespace, and one that has the name of a tag. -/
def palette : Registry :=
  (colors.put "a.Hash" (.declared .fixed)).put "map" (.declared .record)

theorem reachable_palette : palette.Reachable := by
  have hcolor : Registry.empty.register (.named color) = .ok colors := rfl
  have hhash : colors.declare ⟨"a.Hash", by decide⟩ .fixed =
      .ok (colors.put "a.Hash" (.declared .fixed)) := rfl
  have hmap : (colors.put "a.Hash" (.declared .fixed)).declare ⟨"map", by decide⟩ .record =
      .ok palette := rfl
  exact .declare (.declare (.register .empty hcolor) hhash) hmap

/-- A record inside a wrapper, which uses the three types by names that are as short as can be. -/
def pictureJson : Json :=
  .obj [("type", .obj [
    ("fields", .arr [
      .obj [("name", .str "color"), ("type", .str "Color")],
      .obj [("name", .str "hashes"),
        ("type", .obj [("items", .obj [("type", .str "Hash")]), ("type", .str "array")])],
      .obj [("name", .str "index"), ("type", .str "map")]]),
    ("name", .str "Picture"), ("namespace", .str "a"), ("type", .str "record")])]

def picture : Definition :=
  ⟨⟨"a.Picture", by decide⟩, none, .record .record [
    ⟨"color", .reference "Color" .enum, none, none, none⟩,
    ⟨"hashes", .array (.reference "a.Hash" .fixed), none, none, none⟩,
    ⟨"index", .reference "map" .record, none, none, none⟩]⟩

theorem reader_pictureJson : Schema.reader 4 (some "b") pictureJson palette =
    .ok (.named picture, (palette.put "a.Picture" (.declared .record)).define picture) := by
  rfl

end Example

/-- The document of `Example.picture` has no wrapper and full names, and is read in no namespace
like `Example.pictureJson` in another one. -/
theorem read_toJson_picture :
    Example.palette.Reachable ∧
    Schema.reader 4 (some "b") Example.pictureJson Example.palette =
      .ok (.named Example.picture,
        (Example.palette.put "a.Picture" (.declared .record)).define Example.picture) ∧
    Schema.reader 4 none (Schema.named Example.picture).toJson Example.palette =
      .ok (.named Example.picture,
        (Example.palette.put "a.Picture" (.declared .record)).define Example.picture) := by
  obtain ⟨hagain, -⟩ := read_toJson Example.palette Example.reachable_palette 4 (some "b") none
    (.inr rfl) Example.pictureJson (.named Example.picture) _
  exact ⟨Example.reachable_palette, Example.reader_pictureJson, hagain Example.reader_pictureJson⟩

end Avro
