/-
# Isolation: a reading depends on no name that the document does not mention

A document is read with whatever the registry holds.  A text in it is looked up under two full
names, itself and itself completed by the namespace in scope, and a definition takes one more.  All
of these end like a text of the document.  So entries under names that end otherwise are out of the
reach of the reading, however they came into the registry.

* `lastComponent`, `Json.texts`: how a name ends, and the texts in a value.
* `Registry.plus`: a registry with further entries.
* `ReadM.Ignores E`: with the entries of `E` put into the registry, a reading comes to the same
  fault or the same result, and leaves the same registry but for these entries.
* `Schema.readerAt_ignores`: a reader ignores the entries that its document does not mention.
* `Schema.reader_isolated`: so it does not matter which of two documents that do not mention each
  other's definitions is read first.
-/
import Avro.Proofs.Names
import Avro.Proofs.Registration

namespace Avro

/-! ## 1. How names end -/

/-- What stands after the last dot of a text, or all of it. -/
def lastComponent (text : String) : String :=
  .ofList ((splitAtDots text.toList).getLast (splitAtDots_ne_nil _))

theorem lastComponent_append_dot (space text : String) :
    lastComponent (space ++ "." ++ text) = lastComponent text := by
  have hsplit : splitAtDots (space ++ "." ++ text).toList =
      splitAtDots space.toList ++ splitAtDots text.toList := by
    rw [← splitAtDots_append_dot]
    simp
  simp only [lastComponent, hsplit]
  rw [List.getLast_append_of_ne_nil]

theorem lastComponent_of_not_mem {text : String} (h : '.' ∉ text.toList) :
    lastComponent text = text := by
  simp only [lastComponent, splitAtDots_of_not_mem h, List.getLast_singleton, String.ofList_toList]

/-- A namespace is put in front of a text, if anywhere. -/
theorem lastComponent_qualify (text : String) (scope : Option String) :
    lastComponent (Name.qualify text scope) = lastComponent text := by
  rw [Name.qualify]
  split
  · rfl
  · split
    · next space _ => exact lastComponent_append_dot space text
    · rfl

namespace Json

mutual

/-- The texts anywhere in a value.  The keys of objects are not among them. -/
def texts : Json → List String
  | str text => [text]
  | arr items => textsOfItems items
  | obj members => textsOfMembers members
  | _ => []

def textsOfItems : List Json → List String
  | [] => []
  | item :: items => texts item ++ textsOfItems items

def textsOfMembers : List (String × Json) → List String
  | [] => []
  | (_, value) :: members => texts value ++ textsOfMembers members

end

theorem textsOfItems_eq_flatMap (items : List Json) : textsOfItems items = items.flatMap texts := by
  induction items with
  | nil => rfl
  | cons item items ih => rw [textsOfItems, ih, List.flatMap_cons]

theorem textsOfMembers_eq_flatMap (members : List (String × Json)) :
    textsOfMembers members = members.flatMap fun m => m.2.texts := by
  induction members with
  | nil => rfl
  | cons m members ih => rw [textsOfMembers, ih, List.flatMap_cons]

theorem mem_texts_of_item {items : List Json} {v : Json} (hv : v ∈ items) {text : String}
    (h : text ∈ v.texts) : text ∈ (arr items).texts := by
  rw [texts, textsOfItems_eq_flatMap]
  exact List.mem_flatMap.mpr ⟨v, hv, h⟩

theorem mem_texts_of_find? {a : Attribute} {members : List (String × Json)} {v : Json}
    (hv : a.find? members = some v) {text : String} (h : text ∈ v.texts) :
    text ∈ (obj members).texts := by
  rw [texts, textsOfMembers_eq_flatMap]
  exact List.mem_flatMap.mpr ⟨(a.key, v), Entries.mem_of_lookup_eq_some hv, h⟩

end Json

/-! ## 2. Registries put together -/

namespace Registry

/-- A registry with the entries of another one put into it. -/
def plus (R E : Registry) : Registry :=
  E.entries.foldr (fun e R => R.put e.1 e.2) R

theorem find?_plus (R E : Registry) (full : String) :
    (R.plus E).find? full = (E.find? full).or (R.find? full) := by
  have hlookup : E.find? full = E.entries.lookup full := rfl
  rw [plus, hlookup]
  induction E.entries with
  | nil => rfl
  | cons e entries ih =>
    obtain ⟨full', entry⟩ := e
    rw [List.foldr_cons, find?_put, ih, Entries.lookup_cons_ite]
    split <;> rfl

/-- No name of the registry ends like a text in the value. -/
def Foreign (E : Registry) (v : Json) : Prop :=
  ∀ full, E.contains full = true → ∀ text ∈ v.texts, lastComponent text ≠ lastComponent full

variable {E R : Registry} {full : String}

theorem find?_plus_of_none (h : E.find? full = none) : (R.plus E).find? full = R.find? full := by
  rw [find?_plus, h, Option.none_or]

theorem contains_plus_of_none (h : E.find? full = none) :
    (R.plus E).contains full = R.contains full := by
  rw [contains, find?_plus_of_none h, contains]

theorem plus_put (h : E.find? full = none) (e : Entry) :
    (R.put full e).plus E = (R.plus E).put full e := by
  refine ext_find? fun full' => ?_
  rw [find?_plus, find?_put, find?_put, find?_plus]
  split
  · next heq => rw [heq, h, Option.none_or]
  · rfl

namespace Foreign

variable {v : Json}

theorem of_texts {w : Json} (h : E.Foreign v) (hw : ∀ text ∈ w.texts, text ∈ v.texts) :
    E.Foreign w :=
  fun full hfull text htext => h full hfull text (hw text htext)

theorem item {items : List Json} (h : E.Foreign (.arr items)) (hv : v ∈ items) : E.Foreign v :=
  h.of_texts fun _ htext => Json.mem_texts_of_item hv htext

theorem member {a : Attribute} {members : List (String × Json)} (h : E.Foreign (.obj members))
    (hv : a.find? members = some v) : E.Foreign v :=
  h.of_texts fun _ htext => Json.mem_texts_of_find? hv htext

/-- The registry has no name that ends like a text in the value. -/
theorem find?_eq_none (h : E.Foreign v) {text : String} (htext : text ∈ v.texts)
    (hlast : lastComponent full = lastComponent text) : E.find? full = none := by
  refine contains_eq_false_iff.mp (Bool.eq_false_iff.mpr fun hfull => ?_)
  exact h full hfull text htext hlast.symm

/-- Neither of the names that a text is looked up under. -/
theorem find?_qualify {text : String} (h : E.Foreign (.str text)) (scope : Option String) :
    E.find? (Name.qualify text scope) = none ∧ E.find? text = none := by
  have htext : text ∈ (Json.str text).texts := List.mem_singleton.mpr rfl
  exact ⟨h.find?_eq_none htext (lastComponent_qualify text scope), h.find?_eq_none htext rfl⟩

/-- Nor the name that a definition takes. -/
theorem find?_definedName {members : List (String × Json)} (h : E.Foreign (.obj members))
    {scope : Option String} {name : Name} (hname : Attribute.definedName members scope = .ok name) :
    E.find? name.full = none := by
  obtain ⟨text, space, htext, -, hresolve⟩ := Attribute.definedName_eq_ok_iff.mp hname
  obtain ⟨-, hfull⟩ := Name.resolve_eq_ok_iff.mp hresolve
  rw [hfull]
  exact ((h.member htext).find?_qualify _).1

end Foreign

theorem declare_plus {name : Name} (h : E.find? name.full = none) (tag : Tag) :
    (R.plus E).declare name tag = (R.declare name tag).map fun R' => R'.plus E := by
  rw [declare, declare, contains_plus_of_none h]
  split
  · rfl
  · rw [← plus_put h]
    rfl

/-- A text stands for the same, if the further entries are under neither of its names. -/
theorem reference?_plus {text : String} {scope : Option String}
    (h : E.find? (Name.qualify text scope) = none ∧ E.find? text = none) :
    (R.plus E).reference? text scope = R.reference? text scope := by
  have hresolve : (R.plus E).resolve? text scope = R.resolve? text scope := by
    simp only [resolve?, contains_plus_of_none h.1, contains_plus_of_none h.2]
  have htag : ∀ full, R.resolve? text scope = some full → (R.plus E).tag? full = R.tag? full := by
    intro full hfull
    have hnone : E.find? full = none := by
      simp only [resolve?] at hfull
      split at hfull
      · cases hfull
        exact h.1
      · split at hfull
        · cases hfull
          exact h.2
        · cases hfull
    rw [tag?, find?_plus_of_none hnone, tag?]
  rw [reference?, reference?, hresolve]
  cases hfull : R.resolve? text scope with
  | none => rfl
  | some full =>
    simp only [Option.bind_eq_bind, Option.bind_some]
    rw [htag full hfull]

end Registry

/-! ## 3. Readings that ignore entries -/

/-- With the entries of `E` put into the registry, a reading comes to the same fault or the same
result, and leaves the same registry but for these entries. -/
def ReadM.Ignores (E : Registry) {α : Type} (x : ReadM α) : Prop :=
  ∀ R, x (R.plus E) = (x R).map fun r => (r.1, r.2.plus E)

namespace ReadM.Ignores

variable {E : Registry} {α β : Type}

theorem pure (a : α) : (Pure.pure a : ReadM α).Ignores E :=
  fun _ => rfl

theorem throw (e : SchemaError) : (MonadExcept.throw e : ReadM α).Ignores E :=
  fun _ => rfl

theorem lift (x : Except SchemaError α) : (liftM x : ReadM α).Ignores E := by
  intro R
  cases x <;> rfl

theorem bind {x : ReadM α} {f : α → ReadM β} (hx : x.Ignores E) (hf : ∀ a, (f a).Ignores E) :
    (x >>= f).Ignores E := by
  intro R
  simp only [Bind.bind, StateT.bind, Except.bind, hx R]
  cases x R with
  | error e => rfl
  | ok r => exact hf r.1 r.2

/-- A step that does not look at the registry comes first. -/
theorem bind_lift {x : Except SchemaError α} {f : α → ReadM β}
    (hf : ∀ a, x = .ok a → (f a).Ignores E) : ((liftM x : ReadM α) >>= f).Ignores E := by
  intro R
  cases x with
  | error e => rfl
  | ok a => exact hf a rfl R

/-- A step that looks at the registry comes first. -/
theorem bind_get {f : Registry → ReadM α}
    (hf : ∀ R : Registry, f (R.plus E) (R.plus E) = (f R R).map fun r => (r.1, r.2.plus E)) :
    (get >>= f).Ignores E :=
  hf

theorem mapM {f : α → ReadM β} {as : List α} (h : ∀ a ∈ as, (f a).Ignores E) :
    (as.mapM f).Ignores E := by
  induction as with
  | nil => exact .pure []
  | cons a as ih =>
    obtain ⟨ha, has⟩ := List.forall_mem_cons.mp h
    rw [List.mapM_cons]
    exact ha.bind fun b => (ih has).bind fun bs => .pure (b :: bs)

end ReadM.Ignores

namespace Schema

open ReadM (Ignores)

variable {E : Registry} {scope : Option String}

theorem readReference_ignores {text : String} (unknown : SchemaError)
    (h : E.find? (Name.qualify text scope) = none ∧ E.find? text = none) :
    (readReference text scope unknown).Ignores E := by
  refine .bind_get fun R => ?_
  rw [Registry.reference?_plus h]
  cases R.reference? text scope <;> rfl

theorem declare_ignores {name : Name} (tag : Tag) (h : E.find? name.full = none) :
    (declare name tag).Ignores E := by
  refine .bind_get fun R => ?_
  rw [Registry.declare_plus h]
  cases R.declare name tag <;> rfl

theorem define_ignores {d : Definition} (h : E.find? d.full = none) : (define d).Ignores E := by
  intro R
  rw [define_eq, define_eq, Registry.define, ← Registry.plus_put h]
  rfl

/-! ## 4. The reader -/

section Level

variable {read : SchemaReader}

theorem readNested_ignores {v : Json} (h : (read scope v).Ignores E) :
    (readNested read scope v).Ignores E := by
  intro R
  rw [readNested, readNested, h R]
  cases read scope v R <;> rfl

variable (h : ∀ scope v, E.Foreign v → (read scope v).Ignores E)
include h

theorem readField_ignores {v : Json} (hv : E.Foreign v) : (readField read scope v).Ignores E := by
  cases v with
  | obj members =>
    refine .bind_lift fun name _ => .bind_lift fun w hw => ?_
    have hforeign : E.Foreign w := hv.member (Attribute.require_eq_ok_iff.mp hw)
    refine (readNested_ignores (h scope w hforeign)).bind fun type => ?_
    exact .bind_lift fun field _ => .bind_lift fun order _ => .bind_lift fun doc _ => .pure _
  | _ => exact .throw _

theorem readFields_ignores {v : Json} (hv : E.Foreign v) :
    (readFields read scope v).Ignores E := by
  cases v with
  | arr items => exact .mapM fun item hitem => readField_ignores h (hv.item hitem)
  | _ => exact .throw _

omit h in
/-- The part of a definition before its body takes a name that the document mentions. -/
theorem heading_ignores {members : List (String × Json)} (hmembers : E.Foreign (.obj members))
    {tag : Tag} {body : Name → Option String → ReadM Schema}
    (hbody : ∀ name doc, E.find? name.full = none → (body name doc).Ignores E) :
    (do
      let name ← Attribute.definedName members scope
      let doc ← Attribute.doc.string? members
      declare name tag
      body name doc : ReadM Schema).Ignores E := by
  refine .bind_lift fun name hname => .bind_lift fun doc _ => ?_
  have hfull : E.find? name.full = none := hmembers.find?_definedName hname
  exact (declare_ignores tag hfull).bind fun _ => hbody name doc hfull

theorem readRecord_ignores (kind : RecordKind) {members : List (String × Json)}
    (hmembers : E.Foreign (.obj members)) : (readRecord read kind scope members).Ignores E := by
  refine heading_ignores hmembers fun name doc hfull => .bind_lift fun w hw => ?_
  have hfields : E.Foreign w := hmembers.member (Attribute.require_eq_ok_iff.mp hw)
  refine (readFields_ignores h hfields).bind fun fields => .bind_lift fun d hd => ?_
  obtain ⟨-, rfl⟩ := orFault_eq_ok_iff.mp hd
  exact define_ignores hfull

omit h in
theorem readEnum_ignores {members : List (String × Json)} (hmembers : E.Foreign (.obj members)) :
    (readEnum scope members).Ignores E := by
  refine heading_ignores hmembers fun name doc hfull => .bind_lift fun symbols _ => ?_
  refine .bind_lift fun d hd => ?_
  obtain ⟨-, rfl⟩ := orFault_eq_ok_iff.mp hd
  exact define_ignores hfull

omit h in
theorem readFixed_ignores {members : List (String × Json)} (hmembers : E.Foreign (.obj members)) :
    (readFixed scope members).Ignores E :=
  heading_ignores hmembers fun _ _ hfull => .bind_lift fun _ _ => define_ignores hfull

theorem readTagged_ignores (tag : Tag) {members : List (String × Json)}
    (hmembers : E.Foreign (.obj members)) : (readTagged read tag scope members).Ignores E := by
  cases tag with
  | primitive p => exact .pure _
  | record => exact readRecord_ignores h .record hmembers
  | error => exact readRecord_ignores h .error hmembers
  | enum => exact readEnum_ignores hmembers
  | fixed => exact readFixed_ignores hmembers
  | array =>
    refine .bind_lift fun w hw => ?_
    have hforeign : E.Foreign w := hmembers.member (Attribute.require_eq_ok_iff.mp hw)
    exact (readNested_ignores (h scope w hforeign)).bind fun items => .pure _
  | map =>
    refine .bind_lift fun w hw => ?_
    have hforeign : E.Foreign w := hmembers.member (Attribute.require_eq_ok_iff.mp hw)
    exact (readNested_ignores (h scope w hforeign)).bind fun values => .pure _
  | _ => exact .throw _

/-- **One level ignores** what its document does not mention, if the levels below do. -/
theorem readWith_ignores {v : Json} (hv : E.Foreign v) : (readWith read scope v).Ignores E := by
  cases v with
  | str text =>
    cases hp : Primitive.ofName? text with
    | some p =>
      simp only [readWith, hp]
      exact .pure _
    | none =>
      simp only [readWith, hp]
      exact readReference_ignores _ (hv.find?_qualify scope)
  | arr items =>
    refine Ignores.bind (.mapM fun w hw => ?_) fun branches => .lift _
    exact readNested_ignores (h scope w (hv.item hw))
  | obj members =>
    cases hw : Attribute.type.find? members with
    | none =>
      simp only [readWith, hw]
      exact .throw _
    | some w =>
      have hforeign : E.Foreign w := hv.member hw
      cases w with
      | str text =>
        cases htag : Tag.ofName? text with
        | some tag =>
          simp only [readWith, hw, htag]
          exact readTagged_ignores h tag hv
        | none =>
          simp only [readWith, hw, htag]
          exact readReference_ignores _ (hforeign.find?_qualify scope)
      | arr items =>
        simp only [readWith, hw]
        exact h scope _ hforeign
      | obj members =>
        simp only [readWith, hw]
        exact h scope _ hforeign
      | _ =>
        simp only [readWith, hw]
        exact .throw _
  | _ => exact .throw _

end Level

/-- **A reader ignores the entries that its document does not mention.** -/
theorem readerAt_ignores (limit levels : Nat) (scope : Option String) {v : Json}
    (hv : E.Foreign v) : (readerAt limit levels scope v).Ignores E := by
  induction levels generalizing scope v with
  | zero => exact .throw _
  | succ levels ih => exact readWith_ignores (fun scope v hv => ih scope hv) hv

theorem reader_plus_of_ok {limit : Nat} {scope : Option String} {v : Json} (hv : E.Foreign v)
    {R R' : Registry} {s : Schema} (h : reader limit scope v R = .ok (s, R')) :
    reader limit scope v (R.plus E) = .ok (s, R'.plus E) := by
  have hignores : (reader limit scope v).Ignores E := readerAt_ignores limit limit scope hv
  rw [hignores R, h]
  rfl

end Schema

/-! ## 5. One document after another -/

namespace Registry

/-- The registry of these definitions; of two with the same name the first one counts. -/
def ofDefinitions (ds : List Definition) : Registry :=
  ds.foldr (fun d E => E.define d) empty

theorem find?_ofDefinitions (ds : List Definition) (full : String) :
    (ofDefinitions ds).find? full = (ds.find? fun d => full = d.full).map .defined := by
  induction ds with
  | nil => rfl
  | cons d ds ih =>
    rw [ofDefinitions, List.foldr_cons, ← ofDefinitions, find?_define, ih, List.find?_cons]
    by_cases hfull : full = d.full <;> simp [hfull]

theorem mem_of_contains_ofDefinitions {ds : List Definition} {full : String}
    (h : (ofDefinitions ds).contains full = true) : ∃ d ∈ ds, d.full = full := by
  obtain ⟨e, he⟩ := contains_eq_true_iff.mp h
  rw [find?_ofDefinitions, Option.map_eq_some_iff] at he
  obtain ⟨d, hd, -⟩ := he
  refine ⟨d, List.mem_of_find?_eq_some hd, ?_⟩
  simpa [eq_comm] using List.find?_some hd

/-- What is added to a registry are further entries. -/
theorem Adds.eq_plus {R R' : Registry} {ds : List Definition} (h : Adds R ds R') :
    R' = R.plus (ofDefinitions ds) := by
  refine ext_find? fun full => ?_
  rw [find?_plus, find?_ofDefinitions]
  cases hfind : ds.find? fun d => full = d.full with
  | none =>
    rw [Option.map_none, Option.none_or]
    refine h.kept full fun hmem => ?_
    obtain ⟨d, hd, rfl⟩ := List.mem_map.mp hmem
    simpa using List.find?_eq_none.mp hfind d hd
  | some d =>
    have hfull : full = d.full := by simpa using List.find?_some hfind
    rw [Option.map_some, Option.some_or, hfull]
    exact h.defined d (List.mem_of_find?_eq_some hfind)

theorem plus_comm {R E F : Registry}
    (h : ∀ full, E.contains full = true → F.contains full = false) :
    (R.plus E).plus F = (R.plus F).plus E := by
  refine ext_find? fun full => ?_
  simp only [find?_plus]
  cases hE : E.find? full with
  | none => rw [Option.none_or, Option.none_or]
  | some e =>
    have hF : F.find? full = none :=
      contains_eq_false_iff.mp (h full (contains_eq_true_iff.mpr ⟨e, hE⟩))
    simp only [hF, Option.none_or, Option.some_or]

end Registry

namespace Schema

/-- **Names that a document does not mention have no part in its reading.**  Put any entries into
the registry whose names end unlike every text of the document.  The reading comes to the same
schema and leaves the same registry with these entries in it, or it comes to the same fault.

So take two documents that are both read with some registry, where no name that either one defines
ends like a text of the other.  They can be read one after the other in either order, which gives
the same two schemas and in the end the same registry. -/
theorem reader_isolated (limit : Nat) (scope : Option String) (v : Json) (R : Registry) :
    (∀ E : Registry, E.Foreign v →
      reader limit scope v (R.plus E) =
        (reader limit scope v R).map fun r => (r.1, r.2.plus E)) ∧
    ∀ limit' scope' w s R₁ t R₂,
      reader limit scope v R = .ok (s, R₁) → reader limit' scope' w R = .ok (t, R₂) →
      (∀ d ∈ s.definitions, ∀ text ∈ w.texts, lastComponent text ≠ lastComponent d.full) →
      (∀ d ∈ t.definitions, ∀ text ∈ v.texts, lastComponent text ≠ lastComponent d.full) →
      ∃ R₃, reader limit' scope' w R₁ = .ok (t, R₃) ∧ reader limit scope v R₂ = .ok (s, R₃) := by
  refine ⟨fun E hv => readerAt_ignores limit limit scope hv R, ?_⟩
  intro limit' scope' w s R₁ t R₂ hv hw hsw htv
  have hforeign : ∀ {u : Schema} {x : Json},
      (∀ d ∈ u.definitions, ∀ text ∈ x.texts, lastComponent text ≠ lastComponent d.full) →
      (Registry.ofDefinitions u.definitions).Foreign x := by
    intro u x h full hfull
    obtain ⟨d, hd, rfl⟩ := Registry.mem_of_contains_ofDefinitions hfull
    exact h d hd
  have hs : Registry.Adds R s.definitions R₁ := readerAt_adds hv
  have ht : Registry.Adds R t.definitions R₂ := readerAt_adds hw
  have hlast : reader limit' scope' w R₁ = .ok (t, R₂.plus (.ofDefinitions s.definitions)) := by
    rw [hs.eq_plus]
    exact reader_plus_of_ok (hforeign hsw) hw
  have hfirst : reader limit scope v R₂ = .ok (s, R₁.plus (.ofDefinitions t.definitions)) := by
    rw [ht.eq_plus]
    exact reader_plus_of_ok (hforeign htv) hv
  have hcomm : R₁.plus (.ofDefinitions t.definitions) = R₂.plus (.ofDefinitions s.definitions) := by
    rw [hs.eq_plus, ht.eq_plus]
    refine Registry.plus_comm fun full hfull => Bool.eq_false_iff.mpr fun hfull' => ?_
    obtain ⟨d, hd, rfl⟩ := Registry.mem_of_contains_ofDefinitions hfull
    obtain ⟨e, he, heq⟩ := Registry.mem_of_contains_ofDefinitions hfull'
    -- a name that both define would not have been free for the second one
    have hfree : R₁.find? e.full = none := (readerAt_adds hlast).free e he
    rw [heq, hs.defined d hd] at hfree
    cases hfree
  exact ⟨_, hlast, hcomm ▸ hfirst⟩

end Schema

namespace Example

/-- An enum in the namespace of `tree`. -/
def hueJson : Json :=
  .obj [("name", .str "Hue"), ("namespace", .str "a"), ("symbols", .arr [.str "RED"]),
    ("type", .str "enum")]

def hue : Definition :=
  ⟨⟨"a.Hue", by decide⟩, none, .enum ["RED"]⟩

/-- A type of that namespace and one of another, neither of them complete. -/
def elsewhere : Registry :=
  (Registry.empty.put "a.Leaf" (.declared .fixed)).put "b.Hue" (.declared .enum)

theorem foreign_elsewhere : elsewhere.Foreign treeJson := by
  intro full hfull
  have hnames : full ∈ elsewhere.names := Entries.isSome_lookup_iff_mem_keys.mp hfull
  have hall : ∀ full ∈ elsewhere.names, ∀ text ∈ treeJson.texts,
      lastComponent text ≠ lastComponent full := by
    decide
  exact hall full hnames

end Example

/-- Reading `Example.treeJson` does not see two types that it does not mention, and it can be read
before an enum of its namespace or after it. -/
theorem Schema.reader_isolated_tree :
    reader 64 none Example.treeJson (Example.treeBefore.plus Example.elsewhere) =
      .ok (.named Example.tree,
        ((Example.treeBefore.define Example.kind).define Example.tree).plus Example.elsewhere) ∧
    ∃ R₃,
      reader 64 none Example.hueJson
          ((Example.treeBefore.define Example.kind).define Example.tree) =
        .ok (.named Example.hue, R₃) ∧
      reader 64 none Example.treeJson (Example.treeBefore.define Example.hue) =
        .ok (.named Example.tree, R₃) := by
  obtain ⟨hplus, horder⟩ := reader_isolated 64 none Example.treeJson Example.treeBefore
  constructor
  · rw [hplus _ Example.foreign_elsewhere]
    rfl
  · refine horder 64 none Example.hueJson (.named Example.tree) _ (.named Example.hue)
      (Example.treeBefore.define Example.hue) rfl rfl ?_ ?_
    · decide
    · decide

end Avro
