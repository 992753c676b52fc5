/-
# Grammar: which values are schemas

Whether a value is a schema can be told without reading it.  `Json.form?` says of one value what it
is as a schema by itself, and `Form.inner` where further schemas stand in it.  `positions` lists all
the places of schemas in a document, each with the namespace that is in scope there, in the order in
which they stand.  What is known at a place are the names that are known beforehand and the names of
the definitions that begin before it.

* `Json.WellShaped`: the attributes of a value are there and are of the right kind.
* `Position.names`: the full name that a definition has by the namespace in scope.
* `denoted?`, `key?`: the name that a reference stands for, and what a branch of a union is told
  apart by, where certain names are known.
* `Grammatical`: the rules for a whole document.
* `InOrder`: the rules place by place, in a form for induction (`grammatical_iff_inOrder`).
* `positions_of_form?`, `proper_of_form?` and others: the same of a value whose form is known.
-/
import Avro.Proofs.Registration

namespace Avro

/-! ## 1. Forms -/

/-- What a value is as a schema. -/
inductive Form
  | primitive (type : Primitive)
  /-- A text that stands for a type with a name. -/
  | reference (text : String)
  | union (branches : List Json)
  /-- An object whose `type` is a schema. -/
  | wrapped (v : Json)
  | array (items : Json)
  | map (values : Json)
  | record (kind : RecordKind) (members : List (String × Json))
  | enum (members : List (String × Json))
  | fixed (members : List (String × Json))

/-- The form of an object whose `type` is a tag. -/
def Form.ofTag? (members : List (String × Json)) : Tag → Option Form
  | .primitive p => some (.primitive p)
  | .record => some (.record .record members)
  | .error => some (.record .error members)
  | .enum => some (.enum members)
  | .fixed => some (.fixed members)
  | .array => (Attribute.items.find? members).map .array
  | .map => (Attribute.values.find? members).map .map
  | .union | .errorUnion | .request => none

namespace Json

/-- The form of a value, if it has one. -/
def form? : Json → Option Form
  | str text =>
    match Primitive.ofName? text with
    | some p => some (.primitive p)
    | none => some (.reference text)
  | arr branches => some (.union branches)
  | obj members =>
    match Attribute.type.find? members with
    | some (str text) =>
      match Tag.ofName? text with
      | some tag => Form.ofTag? members tag
      | none => some (.reference text)
    | some v => if Schema.isCompound v then some (.wrapped v) else none
    | none => none
  | _ => none

/-- An object whose `type` is a tag has the form of the tag. -/
theorem form?_of_tag {members : List (String × Json)} {tag : Tag}
    (htag : Attribute.type.find? members = some (.str tag.name)) :
    (obj members).form? = Form.ofTag? members tag := by
  simp only [form?, htag, Tag.ofName?_name]

/-- The type of a field, from the object of the field. -/
def fieldType? : Json → Option Json
  | obj members => Attribute.type.find? members
  | _ => none

/-- The name of a field, from the object of the field. -/
def fieldName? : Json → Option String
  | obj members => (Attribute.name.find? members).bind toString?
  | _ => none

end Json

/-- The objects of the fields of a record. -/
def fieldItems (members : List (String × Json)) : List Json :=
  match Attribute.fields.find? members with
  | some (.arr items) => items
  | _ => []

namespace Form

/-- The values that stand directly inside as schemas, in order. -/
def inner : Form → List Json
  | union branches => branches
  | wrapped v => [v]
  | array items => [items]
  | map values => [values]
  | record _ members => (fieldItems members).filterMap Json.fieldType?
  | _ => []

/-- The members of a definition. -/
def heading? : Form → Option (List (String × Json))
  | record _ members => some members
  | enum members => some members
  | fixed members => some members
  | _ => none

end Form

def Json.inner (v : Json) : List Json :=
  match v.form? with
  | some form => form.inner
  | none => []

theorem Json.inner_of_form? {v : Json} {form : Form} (h : v.form? = some form) :
    v.inner = form.inner := by
  rw [inner, h]

/-! ## 2. Places -/

/-- The values that have a form. -/
inductive Json.HasForm : Json → Form → Prop
  | bare {text : String} {p : Primitive} :
    Primitive.ofName? text = some p → HasForm (.str text) (.primitive p)
  | bareReference {text : String} :
    Primitive.ofName? text = none → HasForm (.str text) (.reference text)
  | union (branches : List Json) : HasForm (.arr branches) (.union branches)
  | wrapped {members : List (String × Json)} {v : Json} :
    Attribute.type.find? members = some v → Schema.isCompound v = true →
    HasForm (.obj members) (.wrapped v)
  | reference {members : List (String × Json)} {text : String} :
    Attribute.type.find? members = some (.str text) → Tag.ofName? text = none →
    HasForm (.obj members) (.reference text)
  | tagged {members : List (String × Json)} {tag : Tag} {form : Form} :
    Attribute.type.find? members = some (.str tag.name) → Form.ofTag? members tag = some form →
    HasForm (.obj members) form

theorem Json.hasForm_of_form? {v : Json} {form : Form} (h : v.form? = some form) :
    v.HasForm form := by
  cases v with
  | str text =>
    rw [form?] at h
    split at h
    · next p hp =>
      cases h
      exact .bare hp
    · next hp =>
      cases h
      exact .bareReference hp
  | arr branches =>
    cases h
    exact .union branches
  | obj members =>
    rw [form?] at h
    split at h
    · next text htext =>
      split at h
      · next tag htag =>
        obtain rfl := Tag.ofName?_eq_some_iff.mp htag
        exact .tagged htext h
      · next htag =>
        cases h
        exact .reference htext htag
    · next w hw =>
      split at h
      · next hcompound =>
        cases h
        exact .wrapped hw hcompound
      · cases h
    · cases h
  | _ => cases h

theorem Json.HasForm.form?_eq {v : Json} {form : Form} (h : v.HasForm form) :
    v.form? = some form := by
  cases h with
  | bare hp => simp only [form?, hp]
  | bareReference hp => simp only [form?, hp]
  | union branches => rfl
  | @wrapped members w hw hcompound =>
    cases w with
    | arr items => simp [form?, hw, Schema.isCompound]
    | obj members => simp [form?, hw, Schema.isCompound]
    | _ => cases hcompound
  | reference htext htag => simp only [form?, htext, htag]
  | tagged htag hform => rw [form?_of_tag htag, hform]

/-- The value of an attribute is smaller than the object. -/
theorem Attribute.sizeOf_lt_obj {a : Attribute} {members : List (String × Json)} {v : Json}
    (h : a.find? members = some v) : sizeOf v < sizeOf (Json.obj members) := by
  have hlt : sizeOf v < sizeOf members := by
    have := List.sizeOf_lt_of_mem (Entries.mem_of_lookup_eq_some h)
    simp only [Prod.mk.sizeOf_spec] at this
    omega
  rw [Json.obj.sizeOf_spec]
  omega

/-- The type of a field is smaller than the object of the record. -/
theorem Json.sizeOf_lt_of_field {members : List (String × Json)} {w : Json}
    (h : w ∈ (fieldItems members).filterMap fieldType?) : sizeOf w < sizeOf (obj members) := by
  obtain ⟨item, hitem, htype⟩ := List.mem_filterMap.mp h
  rw [fieldItems] at hitem
  split at hitem
  · next items hitems =>
    have hlist : sizeOf (arr items) < sizeOf (obj members) := Attribute.sizeOf_lt_obj hitems
    have hlt : sizeOf item < sizeOf items := List.sizeOf_lt_of_mem hitem
    rw [arr.sizeOf_spec] at hlist
    match item with
    | obj fieldMembers =>
      have hfield : sizeOf w < sizeOf (obj fieldMembers) := Attribute.sizeOf_lt_obj htype
      omega
    | null | bool _ | num _ | str _ | arr _ => cases htype
  · cases hitem

/-- What stands inside a value is smaller. -/
theorem Json.sizeOf_lt_of_mem_inner {v w : Json} (h : w ∈ v.inner) : sizeOf w < sizeOf v := by
  cases hform : v.form? with
  | none => simp [inner, hform] at h
  | some form =>
    rw [inner_of_form? hform] at h
    cases hasForm_of_form? hform with
    | bare => simp [Form.inner] at h
    | bareReference => simp [Form.inner] at h
    | union branches =>
      have hlt : sizeOf w < sizeOf branches := List.sizeOf_lt_of_mem h
      rw [arr.sizeOf_spec]
      omega
    | wrapped hw =>
      obtain rfl := List.mem_singleton.mp h
      exact Attribute.sizeOf_lt_obj hw
    | reference => simp [Form.inner] at h
    | @tagged members tag _ _ htag =>
      cases tag with
      | array =>
        obtain ⟨items, hitems, rfl⟩ := Option.map_eq_some_iff.mp htag
        obtain rfl := List.mem_singleton.mp h
        exact Attribute.sizeOf_lt_obj hitems
      | map =>
        obtain ⟨values, hvalues, rfl⟩ := Option.map_eq_some_iff.mp htag
        obtain rfl := List.mem_singleton.mp h
        exact Attribute.sizeOf_lt_obj hvalues
      | record =>
        cases htag
        exact sizeOf_lt_of_field h
      | error =>
        cases htag
        exact sizeOf_lt_of_field h
      | _ => cases htag <;> simp [Form.inner] at h

/-- The name that a definition gets: its own namespace, or else the one in scope, completes it. -/
def statedName? (scope : Option String) (members : List (String × Json)) : Option Name :=
  match Attribute.name.find? members, Attribute.space.find? members with
  | some (.str text), none => (Name.resolve text none scope).toOption
  | some (.str text), some (.str space) => (Name.resolve text (some space) scope).toOption
  | _, _ => none

theorem statedName?_eq_some_iff {scope : Option String} {members : List (String × Json)}
    {name : Name} :
    statedName? scope members = some name ↔ Attribute.definedName members scope = .ok name := by
  rw [statedName?, Attribute.definedName_eq_ok_iff]
  constructor
  · intro h
    split at h
    · next text htext hspace => exact ⟨text, none, htext, hspace, toOption_eq_some_iff.mp h⟩
    · next text space htext hspace =>
      exact ⟨text, some space, htext, hspace, toOption_eq_some_iff.mp h⟩
    · cases h
  · rintro ⟨text, space, htext, hspace, h⟩
    cases space with
    | none => simpa only [htext, hspace, Option.map_none] using toOption_eq_some_iff.mpr h
    | some space => simpa only [htext, hspace, Option.map_some] using toOption_eq_some_iff.mpr h

/-- The namespace that is in scope inside: that of a record, in its fields. -/
def Form.scope (scope : Option String) : Form → Option String
  | record _ members => (statedName? scope members).bind Name.space?
  | _ => scope

def Json.scopeInside (scope : Option String) (v : Json) : Option String :=
  match v.form? with
  | some form => form.scope scope
  | none => scope

theorem Json.scopeInside_of_form? {scope : Option String} {v : Json} {form : Form}
    (h : v.form? = some form) : v.scopeInside scope = form.scope scope := by
  rw [scopeInside, h]

/-- A place where a schema stands, and the namespace in scope there. -/
structure Position where
  scope : Option String
  value : Json

/-- The places of the schemas in a document, in the order in which they stand. -/
def positions (scope : Option String) (v : Json) : List Position :=
  ⟨scope, v⟩ :: v.inner.attach.flatMap fun w => positions (v.scopeInside scope) w.1
termination_by sizeOf v
decreasing_by exact Json.sizeOf_lt_of_mem_inner w.2

theorem positions_eq (scope : Option String) (v : Json) :
    positions scope v = ⟨scope, v⟩ :: v.inner.flatMap (positions (v.scopeInside scope)) := by
  rw [positions, List.flatMap_subtype (g := positions (v.scopeInside scope)) (fun _ _ => rfl),
    List.unattach_attach]

/-- A value has at most so many schemas inside one another. -/
def Json.Fits : Nat → Json → Prop
  | 0, _ => False
  | levels + 1, v => ∀ w ∈ v.inner, w.Fits levels

/-- What a value comes to inside objects that only wrap it. -/
def Json.core (v : Json) : Json :=
  match _h : v.form? with
  | some (.wrapped w) => w.core
  | _ => v
termination_by sizeOf v
decreasing_by
  refine Json.sizeOf_lt_of_mem_inner ?_
  rw [Json.inner_of_form? _h]
  exact List.mem_cons_self

theorem Json.core_of_wrapped {v w : Json} (h : v.form? = some (.wrapped w)) : v.core = w.core := by
  rw [core]
  split
  · next w' hw =>
    rw [h] at hw
    cases hw
    rfl
  · next hnot => exact absurd h (hnot w)

theorem Json.core_of_form? {v : Json} {form : Form} (h : v.form? = some form)
    (hform : ∀ w, form ≠ .wrapped w) : v.core = v := by
  rw [core]
  split
  · next w hw =>
    rw [h] at hw
    cases hw
    exact absurd rfl (hform w)
  · rfl

/-! ## 3. Names -/

/-- The name of the definition that a value is, if it is one. -/
def Json.name? (scope : Option String) (v : Json) : Option Name :=
  (v.form?.bind Form.heading?).bind (statedName? scope)

/-- The full name of the definition at a place, if there is one. -/
def Position.names (p : Position) : List String :=
  ((p.value.name? p.scope).map Name.full).toList

/-- The full name that a text stands for where these are known: the text completed by the namespace
in scope, or else the text as it is written. -/
def denoted? (known : List String) (scope : Option String) (text : String) : Option String :=
  if Name.qualify text scope ∈ known then some (Name.qualify text scope)
  else if text ∈ known then some text
  else none

theorem isSome_denoted?_iff {known : List String} {scope : Option String} {text : String} :
    (denoted? known scope text).isSome = true ↔
      Name.qualify text scope ∈ known ∨ text ∈ known := by
  rw [denoted?]
  split
  · next h => simp [h]
  · next h =>
    split
    · next htext => simp [htext]
    · next htext => simp [h, htext]

theorem mem_of_denoted? {known : List String} {scope : Option String} {text full : String}
    (h : denoted? known scope text = some full) : full ∈ known := by
  rw [denoted?] at h
  split at h
  · next hmem =>
    cases h
    exact hmem
  · split at h
    · next hmem =>
      cases h
      exact hmem
    · cases h

/-- What a form is told apart by among the branches of a union, where these names are known. -/
def Form.key? (known : List String) (scope : Option String) : Form → Option Schema.Key
  | primitive p => some (.unnamed (.primitive p))
  | reference text => (denoted? known scope text).map .named
  | union _ => some (.unnamed .union)
  | wrapped _ => none
  | array _ => some (.unnamed .array)
  | map _ => some (.unnamed .map)
  | record _ members => (statedName? scope members).map fun name => .named name.full
  | enum members => (statedName? scope members).map fun name => .named name.full
  | fixed members => (statedName? scope members).map fun name => .named name.full

def Form.isUnion : Form → Bool
  | union _ => true
  | _ => false

/-- What a branch of a union is told apart by. -/
def key? (known : List String) (scope : Option String) (v : Json) : Option Schema.Key :=
  v.core.form?.bind (Form.key? known scope)

/-- Whether a value is a union, if need be inside objects that only wrap it. -/
def Json.isUnion (v : Json) : Bool :=
  v.core.form?.any Form.isUnion

/-- What the branches of a union are told apart by.  The definitions in a branch are known in the
branches after it. -/
def keys (known : List String) (scope : Option String) : List Json → List (Option Schema.Key)
  | [] => []
  | v :: vs =>
    key? known scope v :: keys (known ++ (positions scope v).flatMap Position.names) scope vs

/-! ## 4. Rules -/

/-- An attribute that is a string, if it is there. -/
def Attribute.IsText (a : Attribute) (members : List (String × Json)) : Prop :=
  ∀ v, a.find? members = some v → ∃ s, v = .str s

theorem Attribute.isText_iff {a : Attribute} {members : List (String × Json)} :
    a.IsText members ↔ ∃ s : Option String, a.find? members = s.map .str := by
  rw [IsText]
  cases a.find? members with
  | none => exact ⟨fun _ => ⟨none, rfl⟩, nofun⟩
  | some v =>
    constructor
    · intro h
      obtain ⟨s, rfl⟩ := h v rfl
      exact ⟨some s, rfl⟩
    · rintro ⟨s, hs⟩ w hw
      cases hw
      cases s with
      | none => cases hs
      | some s => exact ⟨s, Option.some.inj hs⟩

/-- A field has an identifier for a name, and a type; an order is one of the three. -/
structure FieldShape (members : List (String × Json)) : Prop where
  name : ∃ text, Attribute.name.find? members = some (.str text) ∧ isIdentifier text = true
  type : (Attribute.type.find? members).isSome = true
  order : ∀ v, Attribute.order.find? members = some v → ∃ o : FieldOrder, v = .str o.name
  doc : Attribute.doc.IsText members

/-- A definition has a name; its namespace and its documentation are strings. -/
structure HeadingShape (members : List (String × Json)) : Prop where
  name : ∃ text, Attribute.name.find? members = some (.str text)
  space : Attribute.space.IsText members
  doc : Attribute.doc.IsText members

/-- The attributes that a form needs are of the right kind. -/
def Form.WellShaped : Form → Prop
  | record _ members =>
    HeadingShape members ∧ ∃ items, Attribute.fields.find? members = some (.arr items) ∧
      (∀ item ∈ items, ∃ fieldMembers, item = .obj fieldMembers ∧ FieldShape fieldMembers) ∧
      (items.filterMap Json.fieldName?).Nodup
  | enum members =>
    HeadingShape members ∧ ∃ symbols : List String,
      Attribute.symbols.find? members = some (.arr (symbols.map .str)) ∧
      (∀ symbol ∈ symbols, isIdentifier symbol = true) ∧ symbols.Nodup
  | fixed members =>
    HeadingShape members ∧ ∃ size : Int, Attribute.size.find? members = some (.num (.int size)) ∧
      0 ≤ size ∧ size < 18446744073709551616
  | _ => True

/-- A value is a schema by itself: it has a form, with the attributes that the form needs. -/
def Json.WellShaped (v : Json) : Prop :=
  ∃ form, v.form? = some form ∧ form.WellShaped

/-- **The rules for a document**, read off the value: a schema stands at every place; the
definitions have names, which are distinct and new; a reference stands for a name that is known; and
the branches of a union are no unions and are told apart. -/
structure Grammatical (R : Registry) (scope : Option String) (v : Json) : Prop where
  shape : ∀ p ∈ positions scope v, p.value.WellShaped
  named : ∀ p ∈ positions scope v, ∀ form members, p.value.form? = some form →
    form.heading? = some members → (statedName? p.scope members).isSome = true
  distinct : ((positions scope v).flatMap Position.names).Nodup
  fresh : ∀ full ∈ (positions scope v).flatMap Position.names, R.contains full = false
  references : ∀ before p after, positions scope v = before ++ p :: after →
    ∀ text, p.value.form? = some (.reference text) →
      Name.qualify text p.scope ∈ R.names ++ before.flatMap Position.names ∨
        text ∈ R.names ++ before.flatMap Position.names
  unions : ∀ before p after, positions scope v = before ++ p :: after →
    ∀ branches, p.value.form? = some (.union branches) →
      (∀ b ∈ branches, b.isUnion = false) ∧
      (keys (R.names ++ before.flatMap Position.names) p.scope branches).Nodup

/-! ## 5. The rules place by place -/

/-- Each item of a row is proper where the marks of those before it are known, beside what is known
beforehand. -/
def Successively {α β : Type} (proper : List β → α → Prop) (marks : α → List β) (known : List β) :
    List α → Prop
  | [] => True
  | a :: as => proper known a ∧ Successively proper marks (known ++ marks a) as

section Successively

variable {α β : Type} {proper : List β → α → Prop} {marks : α → List β} {known : List β}

theorem successively_append {as bs : List α} :
    Successively proper marks known (as ++ bs) ↔
      Successively proper marks known as ∧
        Successively proper marks (known ++ as.flatMap marks) bs := by
  induction as generalizing known with
  | nil => simp [Successively]
  | cons a as ih =>
    simp only [List.cons_append, Successively, ih, List.flatMap_cons, List.append_assoc, and_assoc]

/-- The same of each item by itself, where the row is split at it. -/
theorem successively_iff {as : List α} :
    Successively proper marks known as ↔
      ∀ before a after, as = before ++ a :: after →
        proper (known ++ before.flatMap marks) a := by
  induction as generalizing known with
  | nil => simp [Successively]
  | cons a as ih =>
    rw [Successively, ih]
    constructor
    · rintro ⟨ha, hrest⟩ before x after heq
      match before with
      | [] =>
        obtain ⟨rfl, rfl⟩ := List.cons.inj heq
        simpa using ha
      | y :: before =>
        obtain ⟨rfl, rfl⟩ := List.cons.inj heq
        simpa using hrest before x after rfl
    · refine fun hall => ⟨by simpa using hall [] a as rfl, fun before x after heq => ?_⟩
      simpa using hall (a :: before) x after (by rw [heq, List.cons_append])

/-- Marks that are new one after the other are distinct, told apart by `key`. -/
theorem Successively.nodup {γ : Type} (key : β → γ)
    (hproper : ∀ known a, proper known a →
      ((marks a).map key).Nodup ∧ ∀ x ∈ marks a, key x ∉ known.map key)
    {as : List α} (h : Successively proper marks known as) :
    ((as.flatMap marks).map key).Nodup ∧ ∀ x ∈ as.flatMap marks, key x ∉ known.map key := by
  induction as generalizing known with
  | nil => simp
  | cons a as ih =>
    obtain ⟨ha, has⟩ := h
    obtain ⟨hfirst, hnew⟩ := hproper known a ha
    obtain ⟨hnodup, hfresh⟩ := ih has
    simp only [List.map_append, List.mem_append, not_or] at hfresh
    rw [List.flatMap_cons, List.map_append, List.nodup_append]
    refine ⟨⟨hfirst, hnodup, fun k hk k' hk' heq => ?_⟩, fun x hx => ?_⟩
    · obtain ⟨x, hx, rfl⟩ := List.mem_map.mp hk'
      exact (hfresh x hx).2 (heq ▸ hk)
    · rcases List.mem_append.mp hx with hx | hx
      · exact hnew x hx
      · exact (hfresh x hx).1

end Successively

/-- The rules for one place, where these names are known. -/
structure Position.Proper (known : List String) (p : Position) : Prop where
  shape : p.value.WellShaped
  named : ∀ form members, p.value.form? = some form → form.heading? = some members →
    (statedName? p.scope members).isSome = true
  fresh : ∀ full ∈ p.names, full ∉ known
  reference : ∀ text, p.value.form? = some (.reference text) →
    Name.qualify text p.scope ∈ known ∨ text ∈ known
  union : ∀ branches, p.value.form? = some (.union branches) →
    (∀ b ∈ branches, b.isUnion = false) ∧ (keys known p.scope branches).Nodup

/-- The places in a row are proper, where the names in front of each are known. -/
def InOrder (known : List String) : List Position → Prop
  | [] => True
  | p :: ps => p.Proper known ∧ InOrder (known ++ p.names) ps

theorem inOrder_iff_successively {known : List String} {ps : List Position} :
    InOrder known ps ↔ Successively Position.Proper Position.names known ps := by
  induction ps generalizing known with
  | nil => exact Iff.rfl
  | cons p ps ih => rw [InOrder, Successively, ih]

theorem inOrder_append {known : List String} {ps qs : List Position} :
    InOrder known (ps ++ qs) ↔
      InOrder known ps ∧ InOrder (known ++ ps.flatMap Position.names) qs := by
  simp only [inOrder_iff_successively, successively_append]

theorem inOrder_iff {known : List String} {ps : List Position} :
    InOrder known ps ↔
      ∀ before p after, ps = before ++ p :: after →
        p.Proper (known ++ before.flatMap Position.names) := by
  rw [inOrder_iff_successively, successively_iff]

/-- A place has one name at most. -/
theorem Position.nodup_names (p : Position) : p.names.Nodup := by
  rw [names]
  cases (p.value.name? p.scope).map Name.full <;> simp

/-- Names that are new one after the other are distinct. -/
theorem InOrder.nodup {known : List String} {ps : List Position} (h : InOrder known ps) :
    (ps.flatMap Position.names).Nodup ∧ ∀ full ∈ ps.flatMap Position.names, full ∉ known := by
  have hnodup := (inOrder_iff_successively.mp h).nodup id fun known p hp => by
    simpa using ⟨p.nodup_names, hp.fresh⟩
  simpa using hnodup

theorem Registry.mem_names_iff {R : Registry} {full : String} :
    full ∈ R.names ↔ R.contains full = true :=
  Entries.isSome_lookup_iff_mem_keys.symm

/-- **The rules hold of a document if they hold place by place.** -/
theorem grammatical_iff_inOrder {R : Registry} {scope : Option String} {v : Json} :
    Grammatical R scope v ↔ InOrder R.names (positions scope v) := by
  have hcontains : ∀ full, full ∉ R.names ↔ R.contains full = false := fun full => by
    rw [Registry.mem_names_iff, Bool.not_eq_true]
  constructor
  · intro h
    refine inOrder_iff.mpr fun before p after heq => ?_
    have hp : p ∈ positions scope v := heq ▸ List.mem_append_right _ List.mem_cons_self
    refine ⟨h.shape p hp, h.named p hp, fun full hfull hmem => ?_, h.references before p after heq,
      h.unions before p after heq⟩
    rcases List.mem_append.mp hmem with hmem | hmem
    · exact (hcontains full).mpr (h.fresh full (List.mem_flatMap.mpr ⟨p, hp, hfull⟩)) hmem
    · have hnodup := h.distinct
      rw [heq, List.flatMap_append, List.nodup_append] at hnodup
      exact hnodup.2.2 full hmem full
        (List.mem_flatMap.mpr ⟨p, List.mem_cons_self, hfull⟩) rfl
  · intro h
    have hproper : ∀ p ∈ positions scope v, ∃ known, p.Proper known := by
      intro p hp
      obtain ⟨before, after, heq⟩ := List.append_of_mem hp
      exact ⟨_, inOrder_iff.mp h before p after heq⟩
    refine ⟨fun p hp => ?_, fun p hp => ?_, h.nodup.1, fun full hfull => ?_,
      fun before p after heq => (inOrder_iff.mp h before p after heq).reference,
      fun before p after heq => (inOrder_iff.mp h before p after heq).union⟩
    · obtain ⟨_, hp⟩ := hproper p hp
      exact hp.shape
    · obtain ⟨_, hp⟩ := hproper p hp
      exact hp.named
    · exact (hcontains full).mp (h.nodup.2 full hfull)

/-! ## 6. One place -/

section Form

variable {known : List String} {scope : Option String} {v : Json} {form : Form}

theorem positions_of_form? (h : v.form? = some form) :
    positions scope v = ⟨scope, v⟩ :: form.inner.flatMap (positions (form.scope scope)) := by
  rw [positions_eq, Json.inner_of_form? h, Json.scopeInside_of_form? h]

theorem key?_of_form? (h : v.form? = some form) (hwrapped : ∀ w, form ≠ .wrapped w) :
    key? known scope v = form.key? known scope := by
  rw [key?, Json.core_of_form? h hwrapped, h, Option.bind_some]

theorem isUnion_of_form? (h : v.form? = some form) (hwrapped : ∀ w, form ≠ .wrapped w) :
    v.isUnion = form.isUnion := by
  rw [Json.isUnion, Json.core_of_form? h hwrapped, h, Option.any_some]

theorem names_of_form? (h : v.form? = some form) :
    (Position.mk scope v).names =
      ((form.heading?.bind (statedName? scope)).map Name.full).toList := by
  simp only [Position.names, Json.name?, h, Option.bind_some]

theorem names_of_heading {members : List (String × Json)} {name : Name}
    (h : v.form? = some form) (hheading : form.heading? = some members)
    (hname : statedName? scope members = some name) :
    (Position.mk scope v).names = [name.full] := by
  rw [names_of_form? h, hheading, Option.bind_some, hname]
  rfl

theorem Form.scope_record {kind : RecordKind} {members : List (String × Json)} {name : Name}
    (hname : statedName? scope members = some name) :
    (Form.record kind members).scope scope = name.space? := by
  rw [Form.scope, hname, Option.bind_some]

theorem Form.inner_record {kind : RecordKind} {members : List (String × Json)} {items : List Json}
    (hitems : Attribute.fields.find? members = some (.arr items)) :
    (Form.record kind members).inner = items.filterMap Json.fieldType? := by
  rw [inner, fieldItems, hitems]

/-- A form without a heading names nothing and keeps the namespace in scope. -/
theorem Form.scope_of_unnamed (hheading : form.heading? = none) : form.scope scope = scope := by
  cases form with
  | record kind members => cases hheading
  | _ => rfl

theorem inOrder_unnamed (h : v.form? = some form) (hheading : form.heading? = none) :
    InOrder known (positions scope v) ↔
      (Position.mk scope v).Proper known ∧
        InOrder known (form.inner.flatMap (positions scope)) := by
  rw [positions_of_form? h, Form.scope_of_unnamed hheading, InOrder, names_of_form? h, hheading]
  simp

theorem names_unnamed (h : v.form? = some form) (hheading : form.heading? = none) :
    (positions scope v).flatMap Position.names =
      (form.inner.flatMap (positions scope)).flatMap Position.names := by
  rw [positions_of_form? h, Form.scope_of_unnamed hheading, List.flatMap_cons, names_of_form? h,
    hheading]
  rfl

/-- A place is proper if its form obeys the rules. -/
theorem proper_of_form? (h : v.form? = some form) (hshape : form.WellShaped)
    (hnamed : ∀ members, form.heading? = some members →
      ∃ name, statedName? scope members = some name ∧ name.full ∉ known)
    (hreference : ∀ text, form = .reference text →
      Name.qualify text scope ∈ known ∨ text ∈ known)
    (hunion : ∀ branches, form = .union branches →
      (∀ b ∈ branches, b.isUnion = false) ∧ (keys known scope branches).Nodup) :
    (Position.mk scope v).Proper known where
  shape := ⟨form, h, hshape⟩
  named := by
    intro form' members hform' hmembers
    obtain rfl : form = form' := Option.some.inj (h.symm.trans hform')
    obtain ⟨name, hname, -⟩ := hnamed members hmembers
    exact Option.isSome_iff_exists.mpr ⟨name, hname⟩
  fresh := by
    intro full hfull
    rw [names_of_form? h, Option.mem_toList] at hfull
    obtain ⟨name, hname, rfl⟩ := Option.map_eq_some_iff.mp hfull
    obtain ⟨members, hmembers, hname⟩ := Option.bind_eq_some_iff.mp hname
    obtain ⟨name', hname', hfresh⟩ := hnamed members hmembers
    rw [hname] at hname'
    cases hname'
    exact hfresh
  reference := fun text htext => hreference text (Option.some.inj (h.symm.trans htext))
  union := fun branches hbranches => hunion branches (Option.some.inj (h.symm.trans hbranches))

theorem Position.Proper.wellShaped (hp : (Position.mk scope v).Proper known)
    (hform : v.form? = some form) : form.WellShaped := by
  obtain ⟨form', hform', hshape⟩ := hp.shape
  obtain rfl : form = form' := Option.some.inj (hform.symm.trans hform')
  exact hshape

/-- A form with a heading is told apart by its name, and is nothing else. -/
theorem Form.key?_of_heading {members : List (String × Json)}
    (hheading : form.heading? = some members) :
    form.key? known scope = (statedName? scope members).map fun name => .named name.full := by
  cases form <;> cases hheading <;> rfl

end Form

end Avro
