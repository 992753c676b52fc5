/-
# Spelling: different documents for the same schema

A primitive type can be written as a text or as an object, and so can a reference; a schema can be
put inside an object that says nothing else; and what is said beside the attributes that are read is
not read.  Each of these can be done at any place where a schema stands.  None of it changes what is
read, or which names the values after it find in the registry.

A step that changes the spelling may change the nesting, so a reading of the one value takes another
number of levels than a reading of the other one.

* `Tag.attributes`: the attributes that are read of an object with a tag.
* `Json.Respelled`: the values that such steps lead to, forwards and backwards.
* `Carries`: what is read of the one value is read of the other, with enough levels.
* `Schema.reader_respelled`: two spellings of a schema are read alike, where no limit is reached.
-/
import Avro.Proofs.Nesting

namespace Avro

/-! ## 1. Spellings -/

/-- What an object with this tag is read for, beside the tag. -/
def Tag.attributes : Tag → List Attribute
  | .record | .error => [.name, .space, .doc, .fields]
  | .enum => [.name, .space, .doc, .symbols]
  | .fixed => [.name, .space, .doc, .size]
  | .array => [.items]
  | .map => [.values]
  | .primitive _ | .union | .errorUnion | .request => []

/-- Two objects say the same of these attributes. -/
def Agree (attributes : List Attribute) (members members' : List (String × Json)) : Prop :=
  ∀ a ∈ attributes, a.find? members' = a.find? members

/-- The objects of two records of the same heading and with the same fields, except that the object
of one field is `field` in the first and `field'` in the second. -/
structure OneFieldApart (members members' field field' : List (String × Json)) : Prop where
  tag : ∃ kind : RecordKind, Attribute.type.find? members = some (.str kind.tag.name) ∧
    Attribute.type.find? members' = some (.str kind.tag.name)
  heading : Agree [.name, .space, .doc] members members'
  fields : ∃ before after,
    Attribute.fields.find? members = some (.arr (before ++ .obj field :: after)) ∧
    Attribute.fields.find? members' = some (.arr (before ++ .obj field' :: after))

/-- Two values that are spellings of one schema: the least equivalence with these steps, each of
which may be taken at any place where a schema stands. -/
inductive Json.Respelled : Json → Json → Prop
  | refl (v : Json) : Respelled v v
  | symm {v w : Json} : Respelled v w → Respelled w v
  | trans {v w u : Json} : Respelled v w → Respelled w u → Respelled v u
  /-- A primitive type as a text and as an object. -/
  | primitive {p : Primitive} {members : List (String × Json)} :
    Attribute.type.find? members = some (.str p.name) → Respelled (.str p.name) (.obj members)
  /-- A reference as a text and as an object. -/
  | reference {text : String} {members : List (String × Json)} :
    Tag.ofName? text = none → Attribute.type.find? members = some (.str text) →
    Respelled (.str text) (.obj members)
  /-- An object or an array by itself and in an object. -/
  | wrapped {v : Json} {members : List (String × Json)} :
    Schema.isCompound v = true → Attribute.type.find? members = some v →
    Respelled v (.obj members)
  /-- Objects that say the same of all that is read. -/
  | tagged {tag : Tag} {members members' : List (String × Json)} :
    Attribute.type.find? members = some (.str tag.name) →
    Attribute.type.find? members' = some (.str tag.name) →
    Agree tag.attributes members members' → Respelled (.obj members) (.obj members')
  | element {before after : List Json} {v v' : Json} :
    Respelled v v' → Respelled (.arr (before ++ v :: after)) (.arr (before ++ v' :: after))
  | items {members members' : List (String × Json)} {v v' : Json} :
    Attribute.type.find? members = some (.str Tag.array.name) →
    Attribute.type.find? members' = some (.str Tag.array.name) →
    Attribute.items.find? members = some v → Attribute.items.find? members' = some v' →
    Respelled v v' → Respelled (.obj members) (.obj members')
  | values {members members' : List (String × Json)} {v v' : Json} :
    Attribute.type.find? members = some (.str Tag.map.name) →
    Attribute.type.find? members' = some (.str Tag.map.name) →
    Attribute.values.find? members = some v → Attribute.values.find? members' = some v' →
    Respelled v v' → Respelled (.obj members) (.obj members')
  | nested {members members' : List (String × Json)} {v v' : Json} :
    Attribute.type.find? members = some v → Attribute.type.find? members' = some v' →
    Schema.isCompound v = true → Schema.isCompound v' = true →
    Respelled v v' → Respelled (.obj members) (.obj members')
  /-- Objects of records with a field of which they say the same, as far as it is read. -/
  | field {members members' field field' : List (String × Json)} :
    OneFieldApart members members' field field' →
    Agree [.name, .type, .default, .order, .doc] field field' →
    Respelled (.obj members) (.obj members')
  | fieldType {members members' field field' : List (String × Json)} {v v' : Json} :
    OneFieldApart members members' field field' →
    Agree [.name, .default, .order, .doc] field field' →
    Attribute.type.find? field = some v → Attribute.type.find? field' = some v' →
    Respelled v v' → Respelled (.obj members) (.obj members')

/-! ## 2. One level -/

/-- A row in which one item is replaced is read by a reading that reads the others as before, and
the new item as the old one was read. -/
theorem Chain.replace {α β : Type} {read read' : α → ReadM β} {before after : List α} {a a' : α}
    {bs : List β} {R R' : Registry} (h : Chain read (before ++ a :: after) R bs R')
    (hread : ∀ a R r, read a R = .ok r → read' a R = .ok r)
    (ha : ∀ R r, read a R = .ok r → read' a' R = .ok r) :
    Chain read' (before ++ a' :: after) R bs R' := by
  induction before generalizing R bs with
  | nil =>
    cases h with
    | cons hb hbs => exact .cons (ha _ _ hb) (hbs.mono hread)
  | cons c before ih =>
    cases h with
    | cons hb hbs => exact .cons (hread _ _ _ hb) (ih hbs)

theorem Agree.symm {attributes : List Attribute} {members members' : List (String × Json)}
    (h : Agree attributes members members') : Agree attributes members' members :=
  fun a ha => (h a ha).symm

/-- Objects that say the same of some attributes do so of fewer. -/
theorem Agree.mono {attributes attributes' : List Attribute}
    {members members' : List (String × Json)}
    (h : Agree attributes members members') (hsub : ∀ a ∈ attributes', a ∈ attributes) :
    Agree attributes' members members' :=
  fun a ha => h a (hsub a ha)

theorem Agree.find?_eq {attributes : List Attribute} {members members' : List (String × Json)}
    (h : Agree attributes members members') {a : Attribute} (ha : a ∈ attributes) {v : Option Json}
    (hv : a.find? members = v) : a.find? members' = v :=
  (h a ha).trans hv

theorem OneFieldApart.symm {members members' field field' : List (String × Json)}
    (h : OneFieldApart members members' field field') :
    OneFieldApart members' members field' field where
  tag := by
    obtain ⟨kind, htag, htag'⟩ := h.tag
    exact ⟨kind, htag', htag⟩
  heading := h.heading.symm
  fields := by
    obtain ⟨before, after, hfields, hfields'⟩ := h.fields
    exact ⟨before, after, hfields', hfields⟩

namespace Schema

variable {read read' : SchemaReader} {scope : Option String} {R R' : Registry} {s : Schema}
  {members members' field field' : List (String × Json)}

theorem HeadingRead.of_agree {name : Name} {doc : Option String}
    (h : HeadingRead scope members name doc)
    (hagree : Agree [.name, .space, .doc] members members') :
    HeadingRead scope members' name doc where
  name := by
    obtain ⟨text, space, htext, hspace, hname⟩ := Attribute.definedName_eq_ok_iff.mp h.name
    exact Attribute.definedName_eq_ok_iff.mpr ⟨text, space, hagree.find?_eq (by decide) htext,
      hagree.find?_eq (by decide) hspace, hname⟩
  doc := hagree.find?_eq (by decide) h.doc

/-- A field is read from an object that says the same, if its type is. -/
theorem FieldRead.of_agree {f : Field} (h : FieldRead read scope field R f R')
    (hagree : Agree [.name, .default, .order, .doc] field field')
    (htype : ∀ v, Attribute.type.find? field = some v → read scope v R = .ok (f.type, R') →
      ∃ v', Attribute.type.find? field' = some v' ∧ read' scope v' R = .ok (f.type, R')) :
    FieldRead read' scope field' R f R' where
  name := hagree.find?_eq (by decide) h.name
  identifier := h.identifier
  type := by
    obtain ⟨v, hv, hr⟩ := h.type
    exact htype v hv hr
  default := hagree.find?_eq (by decide) h.default
  order := hagree.find?_eq (by decide) h.order
  doc := hagree.find?_eq (by decide) h.doc

theorem LeafRead.of_agree {full : String} {body : Body} (h : LeafRead members full body)
    (hagree : Agree body.tag.attributes members members') : LeafRead members' full body := by
  cases h with
  | enum hsymbols hfault =>
    have hread : Attribute.symbols ∈ Tag.enum.attributes := by decide
    exact .enum (hagree.find?_eq hread hsymbols) hfault
  | fixed hsize hn =>
    have hread : Attribute.size ∈ Tag.fixed.attributes := by decide
    exact .fixed (hagree.find?_eq hread hsize) hn

theorem readRecord_of_agree {kind : RecordKind}
    (hagree : Agree [.name, .space, .doc, .fields] members members')
    (h : readRecord read kind scope members R = .ok (s, R')) :
    readRecord read kind scope members' R = .ok (s, R') := by
  obtain ⟨name, doc, items, fields, R₁, hheading, hfree, hitems, hrest⟩ :=
    readRecord_eq_ok_iff.mp h
  exact readRecord_eq_ok_iff.mpr ⟨name, doc, items, fields, R₁,
    hheading.of_agree (hagree.mono (by decide)), hfree, hagree.find?_eq (by decide) hitems, hrest⟩

/-- An object is read as another one that says the same of all that is read. -/
theorem readTagged_of_agree {tag : Tag} (hagree : Agree tag.attributes members members')
    (h : readTagged read tag scope members R = .ok (s, R')) :
    readTagged read tag scope members' R = .ok (s, R') := by
  cases tag with
  | primitive p => exact h
  | record => exact readRecord_of_agree (hagree.mono (by decide)) h
  | error => exact readRecord_of_agree (hagree.mono (by decide)) h
  | enum =>
    obtain ⟨name, doc, symbols, hheading, hfree, hleaf, hrest⟩ := readEnum_eq_ok_iff.mp h
    exact readEnum_eq_ok_iff.mpr ⟨name, doc, symbols,
      hheading.of_agree (hagree.mono (by decide)), hfree, hleaf.of_agree hagree, hrest⟩
  | fixed =>
    obtain ⟨name, doc, size, hheading, hfree, hleaf, hrest⟩ := readFixed_eq_ok_iff.mp h
    exact readFixed_eq_ok_iff.mpr ⟨name, doc, size,
      hheading.of_agree (hagree.mono (by decide)), hfree, hleaf.of_agree hagree, hrest⟩
  | array =>
    obtain ⟨v, items, hv, hrest⟩ := readTagged_array_eq_ok_iff.mp h
    exact readTagged_array_eq_ok_iff.mpr ⟨v, items, hagree.find?_eq (by decide) hv, hrest⟩
  | map =>
    obtain ⟨v, values, hv, hrest⟩ := readTagged_map_eq_ok_iff.mp h
    exact readTagged_map_eq_ok_iff.mpr ⟨v, values, hagree.find?_eq (by decide) hv, hrest⟩
  | _ => exact h

/-- A record is read as another one if its one field that differs is. -/
theorem readRecord_of_oneFieldApart {kind : RecordKind} (hread : ∀ scope v R r,
      read scope v R = .ok r → read' scope v R = .ok r)
    (hapart : OneFieldApart members members' field field')
    (hfield : ∀ scope R f R', FieldRead read scope field R f R' →
      FieldRead read' scope field' R f R')
    (h : readRecord read kind scope members R = .ok (s, R')) :
    readRecord read' kind scope members' R = .ok (s, R') := by
  obtain ⟨name, doc, items, fields, R₁, hheading, hfree, hitems, hchain, hrest⟩ :=
    readRecord_eq_ok_iff.mp h
  obtain ⟨before, after, hitems', hreplaced⟩ := hapart.fields
  obtain rfl : items = before ++ .obj field :: after := by
    rw [hitems] at hitems'
    cases hitems'
    rfl
  refine readRecord_eq_ok_iff.mpr ⟨name, doc, _, fields, R₁, hheading.of_agree hapart.heading,
    hfree, hreplaced, hchain.replace (fun v R r hr => ?_) (fun R r hr => ?_), hrest⟩
  · obtain ⟨f, S⟩ := r
    obtain ⟨members, rfl, hf⟩ := readField_eq_ok_iff.mp hr
    exact readField_eq_ok_iff.mpr ⟨members, rfl, hf.mono hread⟩
  · obtain ⟨f, S⟩ := r
    obtain ⟨_, heq, hf⟩ := readField_eq_ok_iff.mp hr
    cases heq
    exact readField_eq_ok_iff.mpr ⟨field', rfl, hfield _ _ _ _ hf⟩

/-! ## 3. All levels -/

/-- What is read of the one value is read of the other, with enough levels. -/
def Carries (v w : Json) : Prop :=
  ∀ limit levels, ∃ levels', levels ≤ levels' ∧ ∀ scope R r,
    readerAt limit levels scope v R = .ok r → readerAt limit levels' scope w R = .ok r

theorem readerAt_of_le {limit levels levels' : Nat} (hle : levels ≤ levels') {v : Json}
    {r : Schema × Registry} (h : readerAt limit levels scope v R = .ok r) :
    readerAt limit levels' scope v R = .ok r := by
  obtain ⟨more, rfl⟩ := Nat.exists_eq_add_of_le hle
  rcases readerAt_agrees limit limit levels more scope v R with hdeep | hsame
  · rw [hdeep] at h
    cases h
  · rw [← hsame, h]

theorem Carries.trans {v w u : Json} (h : Carries v w) (h' : Carries w u) : Carries v u := by
  intro limit levels
  obtain ⟨levels', hle, hread⟩ := h limit levels
  obtain ⟨levels'', hle', hread'⟩ := h' limit levels'
  exact ⟨levels'', Nat.le_trans hle hle', fun scope R r hr => hread' scope R r (hread scope R r hr)⟩

/-- Values that are read alike by each level. -/
theorem carries_of_readWith {v w : Json}
    (h : ∀ read scope R s R', readWith read scope v R = .ok (s, R') →
      readWith read scope w R = .ok (s, R')) : Carries v w := by
  intro limit levels
  refine ⟨levels, Nat.le_refl _, fun scope R r hr => ?_⟩
  cases levels with
  | zero => exact (readerAt_zero.mp hr).elim
  | succ levels => exact h _ scope R r.1 r.2 hr

/-- Values around others: each level reads the one as another reader, which carries what is inside,
reads the other one. -/
theorem Carries.around {v v' w w' : Json} (hv : Carries v v')
    (h : ∀ read read' : SchemaReader, (∀ scope u R r, read scope u R = .ok r →
        read' scope u R = .ok r) →
      (∀ scope R r, read scope v R = .ok r → read' scope v' R = .ok r) →
      ∀ scope R s R', readWith read scope w R = .ok (s, R') →
        readWith read' scope w' R = .ok (s, R')) : Carries w w' := by
  intro limit levels
  cases levels with
  | zero => exact ⟨0, Nat.le_refl _, fun scope R r hr => (readerAt_zero.mp hr).elim⟩
  | succ levels =>
    obtain ⟨levels', hle, hread⟩ := hv limit levels
    refine ⟨levels' + 1, Nat.succ_le_succ hle, fun scope R r hr => ?_⟩
    exact h _ _ (fun _ _ _ _ => readerAt_of_le hle) hread scope R r.1 r.2 hr

variable {v v' : Json}

theorem carries_primitive {p : Primitive}
    (htag : Attribute.type.find? members = some (.str p.name)) :
    Carries (.str p.name) (.obj members) ∧ Carries (.obj members) (.str p.name) := by
  have hsame : ∀ read scope,
      readWith read scope (.obj members) = readWith read scope (.str p.name) := fun read scope => by
    rw [readWith_obj (.primitive p) htag]
    simp only [readWith, readTagged, Primitive.ofName?_name]
  exact ⟨carries_of_readWith fun read scope R s R' hr => by rwa [hsame],
    carries_of_readWith fun read scope R s R' hr => by rwa [← hsame]⟩

theorem carries_reference {text : String} (htag : Tag.ofName? text = none)
    (htext : Attribute.type.find? members = some (.str text)) :
    Carries (.str text) (.obj members) ∧ Carries (.obj members) (.str text) := by
  have hprimitive : Primitive.ofName? text = none := by
    cases hp : Primitive.ofName? text with
    | none => rfl
    | some p =>
      obtain rfl := Primitive.ofName?_eq_some_iff.mp hp
      rw [← Tag.name, Tag.ofName?_name] at htag
      cases htag
  have hsame : ∀ read scope R s R', readWith read scope (.str text) R = .ok (s, R') ↔
      readWith read scope (.obj members) R = .ok (s, R') := fun read scope R s R' => by
    simp only [readWith, hprimitive, htext, htag, readReference_eq_ok_iff]
  exact ⟨carries_of_readWith fun read scope R s R' hr => (hsame read scope R s R').mp hr,
    carries_of_readWith fun read scope R s R' hr => (hsame read scope R s R').mpr hr⟩

theorem carries_wrapped (hcompound : isCompound v = true)
    (hv : Attribute.type.find? members = some v) :
    Carries v (.obj members) ∧ Carries (.obj members) v := by
  have hsucc : ∀ limit levels scope,
      readerAt limit (levels + 1) scope (.obj members) = readerAt limit levels scope v :=
    fun limit levels scope => readWith_wrapped hv hcompound
  constructor
  · intro limit levels
    exact ⟨levels + 1, Nat.le_succ _, fun scope R r hr => by rwa [hsucc]⟩
  · intro limit levels
    refine ⟨levels, Nat.le_refl _, fun scope R r hr => ?_⟩
    cases levels with
    | zero => exact (readerAt_zero.mp hr).elim
    | succ levels =>
      rw [hsucc] at hr
      exact readerAt_of_le (Nat.le_succ _) hr

theorem carries_tagged {tag : Tag} (htag : Attribute.type.find? members = some (.str tag.name))
    (htag' : Attribute.type.find? members' = some (.str tag.name))
    (hagree : Agree tag.attributes members members') : Carries (.obj members) (.obj members') := by
  refine carries_of_readWith fun read scope R s R' hr => ?_
  rw [readWith_obj tag htag] at hr
  rw [readWith_obj tag htag']
  exact readTagged_of_agree hagree hr

theorem Carries.element (h : Carries v v') (before after : List Json) :
    Carries (.arr (before ++ v :: after)) (.arr (before ++ v' :: after)) := by
  refine h.around fun read read' hread hv scope R s R' hr => ?_
  cases readWith_eq_ok_iff.mp hr with
  | union hchain hfault =>
    exact readWith_eq_ok_iff.mpr (.union (hchain.replace (hread scope) (hv scope)) hfault)

theorem Carries.items (h : Carries v v')
    (htag : Attribute.type.find? members = some (.str Tag.array.name))
    (htag' : Attribute.type.find? members' = some (.str Tag.array.name))
    (hitems : Attribute.items.find? members = some v)
    (hitems' : Attribute.items.find? members' = some v') :
    Carries (.obj members) (.obj members') := by
  refine h.around fun read read' _ hv scope R s R' hr => ?_
  rw [readWith_obj .array htag] at hr
  rw [readWith_obj .array htag']
  obtain ⟨w, items, hw, hread, rfl⟩ := readTagged_array_eq_ok_iff.mp hr
  rw [hitems] at hw
  cases hw
  exact readTagged_array_eq_ok_iff.mpr ⟨v', items, hitems', hv _ _ _ hread, rfl⟩

theorem Carries.values (h : Carries v v')
    (htag : Attribute.type.find? members = some (.str Tag.map.name))
    (htag' : Attribute.type.find? members' = some (.str Tag.map.name))
    (hvalues : Attribute.values.find? members = some v)
    (hvalues' : Attribute.values.find? members' = some v') :
    Carries (.obj members) (.obj members') := by
  refine h.around fun read read' _ hv scope R s R' hr => ?_
  rw [readWith_obj .map htag] at hr
  rw [readWith_obj .map htag']
  obtain ⟨w, values, hw, hread, rfl⟩ := readTagged_map_eq_ok_iff.mp hr
  rw [hvalues] at hw
  cases hw
  exact readTagged_map_eq_ok_iff.mpr ⟨v', values, hvalues', hv _ _ _ hread, rfl⟩

/-- The type of a field is read again from the object that says the same. -/
theorem carries_field (hapart : OneFieldApart members members' field field')
    (hagree : Agree [.name, .type, .default, .order, .doc] field field') :
    Carries (.obj members) (.obj members') := by
  obtain ⟨kind, htag, htag'⟩ := hapart.tag
  have hothers : Agree [.name, .default, .order, .doc] field field' := hagree.mono (by decide)
  refine carries_of_readWith fun read scope R s R' hr => ?_
  rw [readWith_obj kind.tag htag, readTagged_record] at hr
  rw [readWith_obj kind.tag htag', readTagged_record]
  refine readRecord_of_oneFieldApart (fun _ _ _ _ hr => hr) hapart (fun scope R f R' hf => ?_) hr
  exact hf.of_agree hothers fun v hv hread => ⟨v, hagree.find?_eq (by decide) hv, hread⟩

theorem Carries.fieldType (h : Carries v v')
    (hapart : OneFieldApart members members' field field')
    (hagree : Agree [.name, .default, .order, .doc] field field')
    (htype : Attribute.type.find? field = some v)
    (htype' : Attribute.type.find? field' = some v') : Carries (.obj members) (.obj members') := by
  obtain ⟨kind, htag, htag'⟩ := hapart.tag
  refine h.around fun read read' hread hv scope R s R' hr => ?_
  rw [readWith_obj kind.tag htag, readTagged_record] at hr
  rw [readWith_obj kind.tag htag', readTagged_record]
  refine readRecord_of_oneFieldApart hread hapart (fun scope R f R' hf => ?_) hr
  refine hf.of_agree hagree fun w hw hreadType => ⟨v', htype', ?_⟩
  rw [htype] at hw
  cases hw
  exact hv _ _ _ hreadType

end Schema

open Schema (Carries)

/-- **A spelling carries another one**, and the other way round. -/
theorem Json.Respelled.carries {v w : Json} (h : v.Respelled w) : Carries v w ∧ Carries w v := by
  induction h with
  | refl v =>
    have hrefl : Carries v v := Schema.carries_of_readWith fun _ _ _ _ _ hr => hr
    exact ⟨hrefl, hrefl⟩
  | symm _ ih => exact ih.symm
  | trans _ _ ih ih' => exact ⟨ih.1.trans ih'.1, ih'.2.trans ih.2⟩
  | primitive htag => exact Schema.carries_primitive htag
  | reference htag htext => exact Schema.carries_reference htag htext
  | wrapped hcompound hv => exact Schema.carries_wrapped hcompound hv
  | tagged htag htag' hagree =>
    exact ⟨Schema.carries_tagged htag htag' hagree, Schema.carries_tagged htag' htag hagree.symm⟩
  | element _ ih => exact ⟨ih.1.element _ _, ih.2.element _ _⟩
  | items htag htag' hitems hitems' _ ih =>
    exact ⟨ih.1.items htag htag' hitems hitems', ih.2.items htag' htag hitems' hitems⟩
  | values htag htag' hvalues hvalues' _ ih =>
    exact ⟨ih.1.values htag htag' hvalues hvalues', ih.2.values htag' htag hvalues' hvalues⟩
  | nested hv hv' hcompound hcompound' _ ih =>
    obtain ⟨hinto, hout⟩ := Schema.carries_wrapped hcompound hv
    obtain ⟨hinto', hout'⟩ := Schema.carries_wrapped hcompound' hv'
    exact ⟨(hout.trans ih.1).trans hinto', (hout'.trans ih.2).trans hinto⟩
  | field hapart hagree =>
    exact ⟨Schema.carries_field hapart hagree, Schema.carries_field hapart.symm hagree.symm⟩
  | fieldType hapart hagree htype htype' _ ih =>
    exact ⟨ih.1.fieldType hapart hagree htype htype',
      ih.2.fieldType hapart.symm hagree.symm htype' htype⟩

namespace Schema

/-- What is carried is read, where the limit is not reached. -/
theorem Carries.reader {v w : Json} (h : Carries v w) {limit limit' : Nat} {scope : Option String}
    {R : Registry} {r : Schema × Registry} (hr : reader limit scope v R = .ok r)
    (hlimit : reader limit' scope w R ≠ .error (.nestingTooDeep limit')) :
    reader limit' scope w R = .ok r := by
  obtain ⟨levels, -, hread⟩ := h limit limit
  -- levels enough for both
  have hmore : readerAt limit (limit' + levels) scope w R = .ok r :=
    readerAt_of_le (Nat.le_add_left _ _) (hread scope R r hr)
  exact ((readerAt_agrees limit' limit limit' levels scope w R).resolve_left hlimit).trans hmore

/-- **A schema is read alike however it is spelled.**  Take two spellings, any registry, and two
limits that the readings do not reach.  Either both readings fail, or both succeed with the same
schema and leave the same registry. -/
theorem reader_respelled {v w : Json} (h : v.Respelled w) {limit limit' : Nat}
    {scope : Option String} {R : Registry}
    (hlimit : reader limit scope v R ≠ .error (.nestingTooDeep limit))
    (hlimit' : reader limit' scope w R ≠ .error (.nestingTooDeep limit')) :
    (∃ e e', reader limit scope v R = .error e ∧ reader limit' scope w R = .error e') ∨
    ∃ s R', reader limit scope v R = .ok (s, R') ∧ reader limit' scope w R = .ok (s, R') := by
  cases hv : reader limit scope v R with
  | ok r => exact .inr ⟨r.1, r.2, rfl, h.carries.1.reader hv hlimit'⟩
  | error e =>
    cases hw : reader limit' scope w R with
    | ok r =>
      rw [h.carries.2.reader hw hlimit] at hv
      cases hv
    | error e' => exact .inl ⟨e, e', rfl, rfl⟩

end Schema

namespace Example

/-- A record that may lead to another one of its kind. -/
def link : Definition :=
  ⟨⟨"Link", by decide⟩, none, .record .record [
    ⟨"next", .union [.primitive .null, .reference "Link" .record], none, none, none⟩]⟩

def linkField : List (String × Json) :=
  [("name", .str "next"), ("type", .arr [.str "null", .str "Link"])]

def linkMembers : List (String × Json) :=
  [("fields", .arr [.obj linkField]), ("name", .str "Link"), ("type", .str "record")]

/-- The same field with the branches written as objects, and with an attribute that is not read. -/
def respelledField : List (String × Json) :=
  [("name", .str "next"), ("position", .num (.int 0)),
    ("type", .arr [.obj [("type", .str "null")], .obj [("type", .str "Link")]])]

def respelledMembers : List (String × Json) :=
  [("aliases", .arr [.str "Node"]), ("fields", .arr [.obj respelledField]), ("name", .str "Link"),
    ("type", .str "record")]

/-- The same record in an object of its own. -/
def respelledJson : Json :=
  .obj [("type", .obj respelledMembers)]

theorem respelled_link : (Json.obj linkMembers).Respelled respelledJson := by
  have hnull : Json.Respelled (.str "null") (.obj [("type", .str "null")]) :=
    @Json.Respelled.primitive .null _ rfl
  have hlink : Json.Respelled (.str "Link") (.obj [("type", .str "Link")]) :=
    .reference (by decide) rfl
  have hbranches : Json.Respelled (.arr [.str "null", .str "Link"])
      (.arr [.obj [("type", .str "null")], .obj [("type", .str "Link")]]) :=
    (@Json.Respelled.element [] _ _ _ hnull).trans (@Json.Respelled.element [_] [] _ _ hlink)
  have hheading : Agree [.name, .space, .doc] linkMembers respelledMembers := by
    simp only [Agree, List.forall_mem_cons]
    exact ⟨rfl, rfl, rfl, nofun⟩
  have hfield : Agree [.name, .default, .order, .doc] linkField respelledField := by
    simp only [Agree, List.forall_mem_cons]
    exact ⟨rfl, rfl, rfl, rfl, nofun⟩
  have hapart : OneFieldApart linkMembers respelledMembers linkField respelledField :=
    ⟨⟨.record, rfl, rfl⟩, hheading, [], [], rfl, rfl⟩
  have hrecord : (Json.obj linkMembers).Respelled (.obj respelledMembers) :=
    .fieldType hapart hfield rfl rfl hbranches
  exact hrecord.trans (.wrapped rfl rfl)

end Example

/-- One record in two spellings. -/
theorem Schema.reader_respelled_link :
    Schema.reader 64 none (.obj Example.linkMembers) .empty =
      .ok (.named Example.link, Registry.empty.define Example.link) ∧
    Schema.reader 64 none Example.respelledJson .empty =
      .ok (.named Example.link, Registry.empty.define Example.link) := by
  have hread : Schema.reader 64 none (.obj Example.linkMembers) .empty =
      .ok (.named Example.link, Registry.empty.define Example.link) := by
    rfl
  have hlimit : Schema.reader 64 none (.obj Example.linkMembers) .empty ≠
      .error (.nestingTooDeep 64) := by
    intro hdeep
    rw [hread] at hdeep
    cases hdeep
  have hlimit' : Schema.reader 64 none Example.respelledJson .empty ≠
      .error (.nestingTooDeep 64) := by
    intro hdeep
    cases hdeep
  rcases Schema.reader_respelled Example.respelled_link hlimit hlimit' with
    ⟨e, e', hfail, -⟩ | ⟨s, R', hok, hok'⟩
  · rw [hread] at hfail
    cases hfail
  · rw [hread] at hok
    cases hok
    exact ⟨hread, hok'⟩

end Avro
