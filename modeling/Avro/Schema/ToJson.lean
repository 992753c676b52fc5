/-
# Schema.ToJson: schemas as documents

A primitive type inside another schema is its bare name, and one on its own is an object with a
`type`.  A definition is written in full where it stands, its name split into simple name and
namespace, and a reference is the full name.
-/
import Avro.Schema.Basic
import Avro.Attribute.Basic

namespace Avro

/-- An object with these members; of a repeated key the last one counts. -/
def Json.ofMembers (members : List (String × Json)) : Json :=
  .obj (Entries.ofList members)

namespace Schema

open Json (ofMembers)

/-- What definitions of every kind say: tag, name, namespace and documentation. -/
def heading (tag : Tag) (name : Name) (doc : Option String) : List (String × Json) :=
  [Attribute.type.member (.str tag.name), Attribute.name.member (.str name.simple)]
    ++ Attribute.space.member? (name.space?.map .str)
    ++ Attribute.doc.member? (doc.map .str)

mutual

/-- The document of a schema that stands inside another one. -/
def nestedJson : Schema → Json
  | primitive p => .str p.name
  | named d => definitionJson d
  | array items =>
    ofMembers [Attribute.type.member (.str Tag.array.name),
      Attribute.items.member (nestedJson items)]
  | map values =>
    ofMembers [Attribute.type.member (.str Tag.map.name),
      Attribute.values.member (nestedJson values)]
  | union branches => .arr (branchesJson branches)
  | request fields => .arr (fieldsJson fields)
  | reference full _ => .str full

def definitionJson : Definition → Json
  | ⟨name, doc, body⟩ => ofMembers (heading body.tag name doc ++ [bodyJson body])

/-- The member that holds what a definition says beside its heading. -/
def bodyJson : Body → String × Json
  | .record _ fields => Attribute.fields.member (.arr (fieldsJson fields))
  | .enum symbols => Attribute.symbols.member (.arr (symbols.map .str))
  | .fixed size => Attribute.size.member (.num (.int size.toNat))

def branchesJson : List Schema → List Json
  | [] => []
  | b :: bs => nestedJson b :: branchesJson bs

def fieldsJson : List Field → List Json
  | [] => []
  | ⟨name, type, default, order, doc⟩ :: fs =>
    ofMembers ([Attribute.name.member (.str name), Attribute.type.member (nestedJson type)]
      ++ Attribute.default.member? default
      ++ Attribute.order.member? (order.map (fun o => .str o.name))
      ++ Attribute.doc.member? (doc.map .str)) :: fieldsJson fs

end

theorem branchesJson_eq_map (bs : List Schema) : branchesJson bs = bs.map nestedJson := by
  induction bs with
  | nil => rfl
  | cons b bs ih => rw [branchesJson, ih, List.map_cons]

/-- The document of a field. -/
def fieldJson (f : Field) : Json :=
  ofMembers ([Attribute.name.member (.str f.name), Attribute.type.member f.type.nestedJson]
    ++ Attribute.default.member? f.default
    ++ Attribute.order.member? (f.order.map (fun o => .str o.name))
    ++ Attribute.doc.member? (f.doc.map .str))

theorem fieldsJson_eq_map (fs : List Field) : fieldsJson fs = fs.map fieldJson := by
  induction fs with
  | nil => rfl
  | cons f fs ih =>
    obtain ⟨name, type, default, order, doc⟩ := f
    rw [fieldsJson, ih, List.map_cons, fieldJson]

/-- The document of a schema. -/
def toJson : Schema → Json
  | primitive p => ofMembers [Attribute.type.member (.str p.name)]
  | s => s.nestedJson

end Schema

/-- The document of a definition. -/
def Definition.toJson (d : Definition) : Json :=
  Schema.definitionJson d

end Avro
