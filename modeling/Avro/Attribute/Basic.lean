/-
# Attribute: the keys of schema objects

Schemas and fields are written as JSON objects whose members are attributes.  `Attribute.find?`
takes an attribute out of the members of an object, and `Attribute.member` and `Attribute.member?`
make the member that says it, so that reading and writing agree on the keys.
-/
import Avro.Json.Basic

namespace Avro

/-- The attributes of schema objects and of fields. -/
inductive Attribute
  | type | name | space | doc | fields | symbols | size | items | values | default | order
deriving DecidableEq, Repr

/-- The key under which an attribute stands in an object. -/
def Attribute.key : Attribute → String
  | type => "type"
  | name => "name"
  | space => "namespace"
  | doc => "doc"
  | fields => "fields"
  | symbols => "symbols"
  | size => "size"
  | items => "items"
  | values => "values"
  | default => "default"
  | order => "order"

namespace Attribute

theorem key_injective {a b : Attribute} (h : a.key = b.key) : a = b := by
  revert h
  cases a <;> cases b <;> decide

/-- The value of an attribute, if it is there. -/
def find? (a : Attribute) (members : List (String × Json)) : Option Json :=
  members.lookup a.key

/-- The member for an attribute. -/
def member (a : Attribute) (v : Json) : String × Json :=
  (a.key, v)

/-- The member for an attribute that may be absent. -/
def member? (a : Attribute) (v : Option Json) : List (String × Json) :=
  (v.map a.member).toList

end Attribute
end Avro
