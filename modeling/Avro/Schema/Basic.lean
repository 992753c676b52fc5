/-
# Schema: schemas as trees

A schema is a tree whose leaves are primitive types and references.  A type with a name (a record,
an enum, a fixed) stands in the tree as a `Definition` at the place where it is defined; everywhere
else it is a reference by full name, which a registry resolves.  So a recursive type is a finite
tree.

* `Schema`, `Definition`, `Body`, `Field`: the tree.
* `Schema.induction`: induction that hands a hypothesis to every schema directly below.
* `Schema.children`, `Schema.nodes`: the schemas directly below, and all of them in document order.
* `Schema.key`: what a branch of a union is told apart by.
-/
import Avro.Name
import Avro.Json.Basic

namespace Avro

/-- Records come in two kinds, which differ in their tag only. -/
inductive RecordKind
  | record
  | error
deriving DecidableEq, Repr

def RecordKind.tag : RecordKind → Tag
  | record => .record
  | error => .error

/-! ## 1. The tree -/

mutual

/-- A schema. -/
inductive Schema
  | primitive (type : Primitive)
  /-- A type with a name, at the place of its definition. -/
  | named (definition : Definition)
  | array (items : Schema)
  | map (values : Schema)
  | union (branches : List Schema)
  /-- The parameter list of a protocol's message. -/
  | request (fields : List Field)
  /-- A type with a name that is defined elsewhere. -/
  | reference (full : String) (tag : Tag)

/-- The definition of a type with a name. -/
structure Definition where
  name : Name
  doc : Option String
  body : Body

/-- What a definition says beside the name. -/
inductive Body
  | record (kind : RecordKind) (fields : List Field)
  | enum (symbols : List String)
  | fixed (size : UInt64)

/-- A field of a record or a request. -/
structure Field where
  name : String
  type : Schema
  default : Option Json
  order : Option FieldOrder
  doc : Option String

end

/-! ## 2. Attributes -/

def Body.tag : Body → Tag
  | record kind _ => kind.tag
  | enum _ => .enum
  | fixed _ => .fixed

def Body.fields : Body → List Field
  | record _ fields => fields
  | _ => []

namespace Definition

def full (d : Definition) : String :=
  d.name.full

def tag (d : Definition) : Tag :=
  d.body.tag

def fields (d : Definition) : List Field :=
  d.body.fields

/-- The position of a symbol of an enum. -/
def symbolIndex? (d : Definition) (symbol : String) : Option Nat :=
  match d.body with
  | .enum symbols => symbols.idxOf? symbol
  | _ => none

end Definition

namespace Schema

/-- The tag of a schema; a reference has that of the type it refers to. -/
def tag : Schema → Tag
  | primitive p => .primitive p
  | named d => d.tag
  | array _ => .array
  | map _ => .map
  | union _ => .union
  | request _ => .request
  | reference _ tag => tag

/-- The full name of a definition or of a reference. -/
def full? : Schema → Option String
  | named d => some d.full
  | reference full _ => some full
  | _ => none

def isUnion : Schema → Bool
  | union _ => true
  | _ => false

/-- What a branch of a union is told apart by: names and tags are kept apart, so that a type named
`map` may stand beside a map. -/
inductive Key
  | named (full : String)
  | unnamed (tag : Tag)
deriving DecidableEq, Repr

def Key.text : Key → String
  | named full => full
  | unnamed tag => tag.name

def key (s : Schema) : Key :=
  match s.full? with
  | some full => .named full
  | none => .unnamed s.tag

end Schema

/-! ## 3. Induction -/

/-- A property of all schemas, from the schemas directly below to the schema. -/
@[elab_as_elim, induction_eliminator]
theorem Schema.induction {P : Schema → Prop}
    (primitive : ∀ p, P (.primitive p))
    (record : ∀ name doc kind fields, (∀ f ∈ fields, P f.type) →
      P (.named ⟨name, doc, .record kind fields⟩))
    (enum : ∀ name doc symbols, P (.named ⟨name, doc, .enum symbols⟩))
    (fixed : ∀ name doc size, P (.named ⟨name, doc, .fixed size⟩))
    (array : ∀ items, P items → P (.array items))
    (map : ∀ values, P values → P (.map values))
    (union : ∀ branches, (∀ b ∈ branches, P b) → P (.union branches))
    (request : ∀ fields, (∀ f ∈ fields, P f.type) → P (.request fields))
    (reference : ∀ full tag, P (.reference full tag)) (s : Schema) : P s :=
  Schema.rec (motive_1 := P)
    (motive_2 := fun d => P (.named d))
    (motive_3 := fun b => ∀ name doc, P (.named ⟨name, doc, b⟩))
    (motive_4 := fun f => P f.type)
    (motive_5 := fun bs => ∀ b ∈ bs, P b)
    (motive_6 := fun fs => ∀ f ∈ fs, P f.type)
    primitive (fun _ h => h) array map union request reference
    (fun name doc _ h => h name doc)
    (fun kind fields h name doc => record name doc kind fields h)
    (fun symbols name doc => enum name doc symbols)
    (fun size name doc => fixed name doc size)
    (fun _ _ _ _ _ h => h)
    (by simp) (fun _ _ hb hbs => by simpa using ⟨hb, hbs⟩)
    (by simp) (fun _ _ hf hfs => by simpa using ⟨hf, hfs⟩) s

/-! ## 4. The schemas in a tree -/

namespace Schema

/-- The schemas directly below. -/
def children : Schema → List Schema
  | primitive _ => []
  | named d => d.fields.map Field.type
  | array items => [items]
  | map values => [values]
  | union branches => branches
  | request fields => fields.map Field.type
  | reference _ _ => []

mutual

/-- All schemas in a tree in document order, the tree itself first. -/
def nodes : Schema → List Schema
  | primitive p => [primitive p]
  | named d => named d :: nodesOfDefinition d
  | array items => array items :: nodes items
  | map values => map values :: nodes values
  | union branches => union branches :: nodesOfBranches branches
  | request fields => request fields :: nodesOfFields fields
  | reference full tag => [reference full tag]

def nodesOfDefinition : Definition → List Schema
  | ⟨_, _, body⟩ => nodesOfBody body

def nodesOfBody : Body → List Schema
  | .record _ fields => nodesOfFields fields
  | .enum _ => []
  | .fixed _ => []

def nodesOfBranches : List Schema → List Schema
  | [] => []
  | b :: bs => nodes b ++ nodesOfBranches bs

def nodesOfFields : List Field → List Schema
  | [] => []
  | ⟨_, type, _, _, _⟩ :: fs => nodes type ++ nodesOfFields fs

end

theorem nodesOfBranches_eq_flatMap (bs : List Schema) :
    nodesOfBranches bs = bs.flatMap nodes := by
  induction bs with
  | nil => rfl
  | cons b bs ih => rw [nodesOfBranches, ih, List.flatMap_cons]

theorem nodesOfFields_eq_flatMap (fs : List Field) :
    nodesOfFields fs = fs.flatMap (fun f => f.type.nodes) := by
  induction fs with
  | nil => rfl
  | cons f fs ih =>
    obtain ⟨_, type, _, _, _⟩ := f
    rw [nodesOfFields, ih, List.flatMap_cons]

theorem nodes_eq_cons (s : Schema) : s.nodes = s :: s.children.flatMap nodes := by
  cases s with
  | named d =>
    obtain ⟨name, doc, body⟩ := d
    cases body <;>
      simp [nodes, nodesOfDefinition, nodesOfBody, nodesOfFields_eq_flatMap, children,
        Definition.fields, Body.fields, List.flatMap_map]
  | union bs => simp [nodes, nodesOfBranches_eq_flatMap, children]
  | request fs => simp [nodes, nodesOfFields_eq_flatMap, children, List.flatMap_map]
  | _ => simp [nodes, children]

theorem mem_nodes_self (s : Schema) : s ∈ s.nodes := by
  rw [nodes_eq_cons]
  exact List.mem_cons_self

theorem mem_nodes_of_child {s c t : Schema} (hc : c ∈ s.children) (ht : t ∈ c.nodes) :
    t ∈ s.nodes := by
  rw [nodes_eq_cons]
  exact List.mem_cons_of_mem _ (List.mem_flatMap.mpr ⟨c, hc, ht⟩)

/-- The definitions in a tree, in document order. -/
def definitions (s : Schema) : List Definition :=
  s.nodes.filterMap fun
    | named d => some d
    | _ => none

/-! ## 5. Equality -/

mutual

/-- Whether two schemas are equal. -/
def beq : Schema → Schema → Bool
  | primitive a, primitive b => a == b
  | named a, named b => beqDefinition a b
  | array a, array b => beq a b
  | map a, map b => beq a b
  | union a, union b => beqBranches a b
  | request a, request b => beqFields a b
  | reference a t, reference b u => a == b && t == u
  | _, _ => false

def beqDefinition : Definition → Definition → Bool
  | ⟨n, d, a⟩, ⟨m, e, b⟩ => n == m && d == e && beqBody a b

def beqBody : Body → Body → Bool
  | .record k a, .record l b => k == l && beqFields a b
  | .enum a, .enum b => a == b
  | .fixed a, .fixed b => a == b
  | _, _ => false

def beqBranches : List Schema → List Schema → Bool
  | [], [] => true
  | a :: as, b :: bs => beq a b && beqBranches as bs
  | _, _ => false

def beqFields : List Field → List Field → Bool
  | [], [] => true
  | ⟨n, a, d, o, e⟩ :: as, ⟨m, b, d', o', e'⟩ :: bs =>
    n == m && beq a b && d == d' && o == o' && e == e' && beqFields as bs
  | _, _ => false

end

mutual

theorem beq_iff_eq : ∀ {a b : Schema}, beq a b = true ↔ a = b
  | primitive _, b => by cases b <;> simp [beq]
  | named d, b => by cases b <;> simp [beq, @beqDefinition_iff_eq d]
  | array a, b => by cases b <;> simp [beq, @beq_iff_eq a]
  | map a, b => by cases b <;> simp [beq, @beq_iff_eq a]
  | union as, b => by cases b <;> simp [beq, @beqBranches_iff_eq as]
  | request as, b => by cases b <;> simp [beq, @beqFields_iff_eq as]
  | reference _ _, b => by cases b <;> simp [beq]

theorem beqDefinition_iff_eq : ∀ {a b : Definition}, beqDefinition a b = true ↔ a = b
  | ⟨_, _, a⟩, ⟨_, _, b⟩ => by simp [beqDefinition, @beqBody_iff_eq a, and_assoc]

theorem beqBody_iff_eq : ∀ {a b : Body}, beqBody a b = true ↔ a = b
  | .record _ as, b => by cases b <;> simp [beqBody, @beqFields_iff_eq as]
  | .enum _, b => by cases b <;> simp [beqBody]
  | .fixed _, b => by cases b <;> simp [beqBody]

theorem beqBranches_iff_eq : ∀ {as bs : List Schema}, beqBranches as bs = true ↔ as = bs
  | [], bs => by cases bs <;> simp [beqBranches]
  | a :: as, bs => by cases bs <;> simp [beqBranches, @beq_iff_eq a, @beqBranches_iff_eq as]

theorem beqFields_iff_eq : ∀ {as bs : List Field}, beqFields as bs = true ↔ as = bs
  | [], bs => by cases bs <;> simp [beqFields]
  | ⟨_, a, _, _, _⟩ :: as, bs => by
    rcases bs with _ | ⟨⟨_, b, _, _, _⟩, bs⟩ <;>
      simp [beqFields, @beq_iff_eq a, @beqFields_iff_eq as, and_assoc]

end

instance : DecidableEq Schema := fun _ _ => decidable_of_iff _ beq_iff_eq

instance : DecidableEq Definition := fun _ _ => decidable_of_iff _ beqDefinition_iff_eq

end Schema
end Avro
