/-
# Parameters: a parameter list is read like the fields of a record

A request is read off a list of fields and takes no name.  A record with the same fields, read with
one more level for the record itself, reads them where the same namespace is in scope, but with one
more name in the registry, its own.  That name is out of the reach of the fields unless they mention
it; so both readings come to the same fields, or fail alike.

* `Json.recordOf`: the record of a parameter list.
* `SchemaError.asRecord`: what becomes of the error of a request.
* `Schema.readFields_eq_or_deep`: the limit that a reader reports makes no difference to a list of
  fields, up to the report itself.
* `Schema.readFields_settles_declared`: nor does a name that the list does not mention.
* `Schema.readRequest_eq_record`: the request and the record succeed together, with the same fields
  and the same registry but for the name of the record, and each error has its counterpart.
-/
import Avro.Proofs.Isolation
import Avro.Proofs.RoundTrip
import Avro.Proofs.Blame

namespace Avro

/-! ## 1. The record of a parameter list -/

/-- The document of a record with these fields, without a documentation. -/
def Json.recordOf (text : String) (space : Option String) (fields : Json) : Json :=
  .ofMembers ([Attribute.type.member (.str Tag.record.name), Attribute.name.member (.str text)]
    ++ Attribute.space.member? (space.map .str) ++ [Attribute.fields.member fields])

/-- The error of a record for that of a request with the same fields.  The owner of the fields is
another one, and so is the limit. -/
def SchemaError.asRecord (full : String) (limit : Nat) : SchemaError → SchemaError
  | duplicateField _ field => duplicateField full field
  | nestingTooDeep _ => nestingTooDeep limit
  | e => e

theorem SchemaError.asRecord_of_isOfAttribute {e : SchemaError} (h : e.isOfAttribute = true)
    (full : String) (limit : Nat) : e.asRecord full limit = e := by
  cases e with
  | missingAttribute | invalidAttribute | invalidName => rfl
  | _ => cases h

/-- A name that is made of a text and a namespace has these for its parts. -/
theorem Name.parts_of_resolve {text : String} {space : Option String} {name : Name}
    (hsimple : '.' ∉ text.toList) (hspace : space ≠ some "")
    (h : Name.resolve text space none = .ok name) :
    name.space? = space ∧ lastComponent name.full = text := by
  obtain ⟨-, hfull⟩ := Name.resolve_eq_ok_iff.mp h
  constructor
  · cases space with
    | none =>
      rw [Name.qualify_of_not_present rfl] at hfull
      exact Name.space?_eq_none_iff.mpr (hfull ▸ hsimple)
    | some s =>
      have hpresent : Name.present (some s) = some s :=
        Name.present_eq_some_iff.mpr ⟨rfl, fun hs => hspace (congrArg some hs)⟩
      rw [hpresent, Option.some_or, Name.qualify_of_present hsimple hpresent] at hfull
      exact (Name.simple_space?_of_full hsimple hfull).2
  · rw [hfull, lastComponent_qualify, lastComponent_of_not_mem hsimple]

namespace Registry

/-- Putting in one entry is putting in the registry of this entry. -/
theorem put_eq_plus (R : Registry) (full : String) (entry : Entry) :
    R.put full entry = R.plus (empty.put full entry) := by
  refine ext_find? fun full' => ?_
  rw [find?_put, find?_plus, find?_put, find?_empty]
  split
  · rw [Option.some_or]
  · rw [Option.none_or]

/-- A definition takes the place of the entry that its name had. -/
theorem define_put (R : Registry) (d : Definition) (entry : Entry) :
    (R.put d.full entry).define d = R.define d := by
  refine ext_find? fun full => ?_
  rw [find?_define, find?_define, find?_put]
  split <;> rfl

theorem foreign_put {full : String} {entry : Entry} {v : Json}
    (h : ∀ text ∈ v.texts, lastComponent text ≠ lastComponent full) :
    (empty.put full entry).Foreign v := by
  intro full' hfull'
  obtain ⟨e, he⟩ := contains_eq_true_iff.mp hfull'
  rw [find?_put, find?_empty] at he
  split at he
  · next heq =>
    rw [heq]
    exact h
  · cases he

end Registry

/-! ## 2. Two readers -/

/-- The fault of a record's fields is that of the request's, of another owner. -/
theorem Field.firstFault?_asRecord (full : String) (limit : Nat) (fields : List Field) :
    firstFault? (Field.fault full) [] fields =
      (firstFault? (Field.fault Schema.requestOwner) [] fields).map
        (SchemaError.asRecord full limit) := by
  generalize ([] : List Field) = before
  induction fields generalizing before with
  | nil => rfl
  | cons f fields ih =>
    rw [firstFault?, firstFault?, Field.fault, Field.fault]
    by_cases hmem : f.name ∈ before.map Field.name
    · rw [if_pos hmem, if_pos hmem]
      rfl
    · rw [if_neg hmem, if_neg hmem]
      exact ih (before ++ [f])

namespace Schema

variable {limit : Nat} {scope : Option String} {R : Registry} {e : SchemaError}

/-- An error of a list of fields reports the limit, or says the same of a record as of a request. -/
theorem asRecord_of_readFields {levels : Nat} {v : Json}
    (h : readFields (readerAt limit levels) scope v R = .error e) :
    e = .nestingTooDeep limit ∨ ∀ full limit', e.asRecord full limit' = e := by
  rcases readFields_eq_error_cases h with hattribute | ⟨w, R₁, source, -, hsource, rfl⟩
  · exact .inr (SchemaError.asRecord_of_isOfAttribute hattribute)
  · rcases Reading.result_eq_error_cases (p := ⟨levels, scope, w, R₁⟩) hsource with
      rfl | hfails | ⟨q, cause, -, -, rfl⟩
    · exact .inl rfl
    · rw [SchemaError.within_of_isOwn hfails.own]
      exact .inr fun _ _ => rfl
    · exact .inr fun _ _ => rfl

/-- Two readers that differ in the limit which they report read a list of fields alike, or both
report their limit. -/
theorem readFields_eq_or_deep (limit limit' levels : Nat) (scope : Option String) (v : Json)
    (R : Registry) :
    readFields (readerAt limit levels) scope v R = readFields (readerAt limit' levels) scope v R ∨
      readFields (readerAt limit levels) scope v R = .error (.nestingTooDeep limit) ∧
        readFields (readerAt limit' levels) scope v R = .error (.nestingTooDeep limit') := by
  have hagrees : ∀ limit limit', (readFields (readerAt limit levels) scope v).Agrees limit
      (readFields (readerAt limit' levels) scope v) := fun limit limit' =>
    readFields_agrees (readerAt_agrees limit limit' levels 0) scope v
  rcases hagrees limit limit' R with h | h
  · rcases hagrees limit' limit R with h' | h'
    · exact .inr ⟨h, h'⟩
    · exact .inl h'.symm
  · exact .inl h

/-! ## 3. The request and the record -/

section Record

variable {text : String} {space : Option String} {name : Name} {params : Json}

/-- The record is read with one level less left for its fields, and with its own name declared. -/
theorem reader_recordOf (hname : Name.resolve text space none = .ok name)
    (hfree : R.find? name.full = none) :
    reader (limit + 1) none (.recordOf text space params) R =
      (do
        let fs ← readFields (readerAt (limit + 1) limit) name.space? params
        define (← Definition.recordOf name none .record fs) : ReadM Schema)
        (R.put name.full (.declared .record)) := by
  obtain ⟨members, hmembers, htype, htext, hspace, hdoc, hfields⟩ :
      ∃ members, Json.recordOf text space params = .obj members ∧
        Attribute.type.find? members = some (.str Tag.record.name) ∧
        Attribute.name.find? members = some (.str text) ∧
        Attribute.space.find? members = space.map .str ∧
        Attribute.doc.find? members = none ∧ Attribute.fields.find? members = some params :=
    ⟨_, rfl, by simp, by simp, by simp, by simp, by simp⟩
  have hhead : HeadingRead none members name none :=
    ⟨Attribute.definedName_eq_ok_iff.mpr ⟨text, space, htext, hspace, hname⟩, hdoc⟩
  rw [hmembers]
  show readWith (readerAt (limit + 1) limit) none (.obj members) R = _
  rw [readWith_obj .record htype]
  exact readRecord_eq .record hhead hfree hfields

/-- A list of fields that does not mention a name leaves it free. -/
theorem find?_of_readFields {read : SchemaReader} {E R' : Registry} {fields : List Field}
    (hread : ∀ scope v R s R', read scope v R = .ok (s, R') → R.Adds s.definitions R')
    (hignores : (readFields read scope params).Ignores E) {full : String}
    (hE : E.contains full = true) (hfree : R.find? full = none)
    (h : readFields read scope params R = .ok (fields, R')) : R'.find? full = none := by
  have hplus : readFields read scope params (R.plus E) = .ok (fields, R'.plus E) := by
    rw [hignores R, h]
    rfl
  obtain ⟨items, rfl, hchain⟩ := readFields_eq_ok_iff.mp h
  obtain ⟨_, heq, hchain'⟩ := readFields_eq_ok_iff.mp hplus
  obtain rfl := Json.arr.inj heq
  obtain ⟨e, he⟩ := Registry.contains_eq_true_iff.mp hE
  rw [(chain_readField_adds hread hchain).kept full, hfree]
  -- with the name in the registry the list is read as well, so it does not define the name
  intro hmem
  obtain ⟨d, hd, rfl⟩ := List.mem_map.mp hmem
  have hnew : (R.plus E).find? d.full = none := (chain_readField_adds hread hchain').free d hd
  rw [Registry.find?_plus, he, Option.some_or] at hnew
  cases hnew

/-- **The fields are read alike** with a new name declared that they do not mention, and with
another limit to report. -/
theorem readFields_settles_declared (limit levels limit' : Nat) {full : String} {tag : Tag}
    (hlimit : limit ≠ limit') (hfree : R.find? full = none)
    (hforeign : ∀ mention ∈ params.texts, lastComponent mention ≠ lastComponent full) :
    (∃ fields R₁,
      readFields (readerAt limit levels) scope params R = .ok (fields, R₁) ∧
      readFields (readerAt limit' levels) scope params (R.put full (.declared tag)) =
        .ok (fields, R₁.put full (.declared tag)) ∧
      R₁.find? full = none) ∨
    ∃ e, readFields (readerAt limit levels) scope params R = .error e ∧
      readFields (readerAt limit' levels) scope params (R.put full (.declared tag)) =
        .error (e.asRecord full limit') := by
  have hignores : (readFields (readerAt limit' levels) scope params).Ignores
      (Registry.empty.put full (.declared tag)) :=
    readFields_ignores (fun scope v hv => readerAt_ignores limit' levels scope hv)
      (Registry.foreign_put hforeign)
  have hplus := hignores R
  simp only [← Registry.put_eq_plus] at hplus
  rcases readFields_eq_or_deep limit limit' levels scope params R with heq | ⟨hx, hy⟩
  · cases hx : readFields (readerAt limit levels) scope params R with
    | error e =>
      -- neither limit is reported, since both readings would report the same one
      have hsame : e.asRecord full limit' = e := by
        rcases asRecord_of_readFields hx with rfl | hsame
        · rcases asRecord_of_readFields (heq.symm.trans hx) with hdeep | hsame
          · exact absurd (SchemaError.nestingTooDeep.inj hdeep) hlimit
          · exact hsame _ _
        · exact hsame _ _
      rw [← heq, hx] at hplus
      exact .inr ⟨e, rfl, hsame.symm ▸ hplus⟩
    | ok r =>
      obtain ⟨fields, R₁⟩ := r
      have hnew : R₁.find? full = none := by
        refine find?_of_readFields (fun _ _ _ _ _ => readerAt_adds) hignores ?_ hfree
          (heq.symm.trans hx)
        rw [Registry.contains, Registry.find?_put, if_pos rfl]
        rfl
      rw [← heq, hx] at hplus
      exact .inl ⟨fields, R₁, rfl, hplus, hnew⟩
  · rw [hy] at hplus
    exact .inr ⟨_, hx, hplus⟩

/-- **The outcome of the request decides that of the record.** -/
theorem readRequest_settles_record (limit : Nat) (hsimple : '.' ∉ text.toList)
    (hspace : space ≠ some "") (hname : Name.resolve text space none = .ok name)
    (hfree : R.find? name.full = none)
    (hforeign : ∀ mention ∈ params.texts, lastComponent mention ≠ text) :
    (∃ fields R₁, readRequest limit space params R = .ok (.request fields, R₁) ∧
      R₁.find? name.full = none ∧
      reader (limit + 1) none (.recordOf text space params) R =
        .ok (.named ⟨name, none, .record .record fields⟩,
          R₁.define ⟨name, none, .record .record fields⟩)) ∨
    ∃ e, readRequest limit space params R = .error e ∧
      reader (limit + 1) none (.recordOf text space params) R =
        .error (e.asRecord name.full (limit + 1)) := by
  obtain ⟨rfl, rfl⟩ := Name.parts_of_resolve hsimple hspace hname
  rw [reader_recordOf hname hfree]
  rcases readFields_settles_declared limit limit (limit + 1) (Nat.succ_ne_self limit).symm hfree
    hforeign with ⟨fields, R₁, hx, hy, hnew⟩ | ⟨e, hx, hy⟩
  · have hfault := Field.firstFault?_asRecord name.full (limit + 1) fields
    cases hrequest : firstFault? (Field.fault requestOwner) [] fields with
    | none =>
      have hrecord : Definition.recordOf name none .record fields =
          .ok ⟨name, none, .record .record fields⟩ := by
        rw [hrequest] at hfault
        exact orFault_eq_ok_iff.mpr ⟨hfault, rfl⟩
      refine .inl ⟨fields, R₁, ReadM.bind_eq_ok_iff.mpr ⟨fields, R₁, hx, ?_⟩, hnew, ?_⟩
      · exact ReadM.lift_eq_ok_iff.mpr ⟨orFault_eq_ok_iff.mpr ⟨hrequest, rfl⟩, rfl⟩
      · refine ReadM.bind_eq_ok_iff.mpr ⟨fields, _, hy, ?_⟩
        rw [hrecord]
        exact congrArg (fun S => Except.ok (_, S)) (Registry.define_put R₁ _ _)
    | some e =>
      rw [hrequest] at hfault
      refine .inr ⟨e, ReadM.bind_eq_error_iff.mpr (.inr ⟨fields, R₁, hx, ?_⟩), ?_⟩
      · exact ReadM.lift_eq_error_iff.mpr (orFault_eq_error_iff.mpr hrequest)
      · refine ReadM.bind_eq_error_iff.mpr (.inr ⟨fields, _, hy, ?_⟩)
        exact ReadM.lift_bind_eq_error_iff.mpr (.inl (orFault_eq_error_iff.mpr hfault))
  · exact .inr ⟨e, ReadM.bind_eq_error_iff.mpr (.inl hx), ReadM.bind_eq_error_iff.mpr (.inl hy)⟩

end Record

/-- **A parameter list is read like the fields of a record.**  Take a simple name and a namespace,
or none, that make a name, where the registry does not have the name and no text of the parameters
ends like it.  Read the parameters of a request where the namespace is in scope, and with one more
level the record of this name with the parameters for its fields.  Each of the two succeeds exactly
if the other does.  If so, they have the same fields, and the registry of the record is that of the
request and the record; if not, their errors are the same but for the owner of a repeated field and
for the limit. -/
theorem readRequest_eq_record (limit : Nat) (R : Registry) (params : Json) {text : String}
    {space : Option String} {name : Name} (hsimple : '.' ∉ text.toList) (hspace : space ≠ some "")
    (hname : Name.resolve text space none = .ok name) (hfree : R.contains name.full = false)
    (hforeign : ∀ mention ∈ params.texts, lastComponent mention ≠ text) :
    ((∃ r, readRequest limit space params R = .ok r) ↔
      ∃ r, reader (limit + 1) none (.recordOf text space params) R = .ok r) ∧
    (∀ s R₁, readRequest limit space params R = .ok (s, R₁) →
      ∃ fields, s = .request fields ∧ R₁.contains name.full = false ∧
        reader (limit + 1) none (.recordOf text space params) R =
          .ok (.named ⟨name, none, .record .record fields⟩,
            R₁.define ⟨name, none, .record .record fields⟩)) ∧
    (∀ e, readRequest limit space params R = .error e →
      reader (limit + 1) none (.recordOf text space params) R =
        .error (e.asRecord name.full (limit + 1))) := by
  have hnone : R.find? name.full = none := Registry.contains_eq_false_iff.mp hfree
  rcases readRequest_settles_record limit hsimple hspace hname hnone hforeign with
    ⟨fields, R₁, hrequest, hnew, hrecord⟩ | ⟨e, hrequest, hrecord⟩
  · refine ⟨⟨fun _ => ⟨_, hrecord⟩, fun _ => ⟨_, hrequest⟩⟩, fun s R₂ h => ?_, fun e h => ?_⟩
    · rw [hrequest] at h
      cases h
      exact ⟨fields, rfl, Registry.contains_eq_false_iff.mpr hnew, hrecord⟩
    · rw [hrequest] at h
      cases h
  · refine ⟨⟨?_, ?_⟩, fun s R₂ h => ?_, fun e' h => ?_⟩
    · rintro ⟨r, hr⟩
      rw [hrequest] at hr
      cases hr
    · rintro ⟨r, hr⟩
      rw [hrecord] at hr
      cases hr
    · rw [hrequest] at h
      cases h
    · rw [hrequest] at h
      cases h
      exact hrecord

end Schema

namespace Example

/-- A parameter list whose second parameter has the type that the first one defines. -/
def kindsJson (second : String) : Json :=
  .arr [
    .obj [("name", .str "kind"),
      ("type", .obj [("name", .str "Kind"), ("symbols", .arr [.str "LEAF"]),
        ("type", .str "enum")])],
    .obj [("name", .str second), ("type", .str "Kind")]]

def kinds : List Field :=
  [⟨"kind", .named kind, none, none, none⟩, ⟨"like", .reference "a.Kind" .enum, none, none, none⟩]

def kindsName : Name :=
  ⟨"a.Kinds", by decide⟩

end Example

/-- The record of two parameters has them for its fields, and if they have one name, it is their
owner. -/
theorem Schema.readRequest_eq_record_kinds :
    reader 65 none (.recordOf "Kinds" (some "a") (Example.kindsJson "like")) .empty =
      .ok (.named ⟨Example.kindsName, none, .record .record Example.kinds⟩,
        (Registry.empty.define Example.kind).define
          ⟨Example.kindsName, none, .record .record Example.kinds⟩) ∧
    readRequest 64 (some "a") (Example.kindsJson "kind") .empty =
      .error (.duplicateField "request" "kind") ∧
    reader 65 none (.recordOf "Kinds" (some "a") (Example.kindsJson "kind")) .empty =
      .error (.duplicateField "a.Kinds" "kind") := by
  have hname : Name.resolve "Kinds" (some "a") none = .ok Example.kindsName := by rfl
  have hread : readRequest 64 (some "a") (Example.kindsJson "like") .empty =
      .ok (.request Example.kinds, Registry.empty.define Example.kind) := by rfl
  have hrepeated : readRequest 64 (some "a") (Example.kindsJson "kind") .empty =
      .error (.duplicateField "request" "kind") := by rfl
  obtain ⟨-, hok, -⟩ := readRequest_eq_record 64 .empty (Example.kindsJson "like")
    (by decide) (by decide) hname rfl (by decide)
  obtain ⟨-, -, herror⟩ := readRequest_eq_record 64 .empty (Example.kindsJson "kind")
    (by decide) (by decide) hname rfl (by decide)
  obtain ⟨fields, hfields, -, hrecord⟩ := hok _ _ hread
  obtain rfl := Schema.request.inj hfields
  exact ⟨hrecord, hrepeated, herror _ hrepeated⟩

end Avro
