/-
# Document: a schema together with the types it defines

A document that is read on its own gives a root schema and the registry that resolves the
references in it.
-/
import Avro.Schema.OfJson
import Avro.Schema.ToJson
import Avro.Validation

namespace Avro

/-- A schema and the types that it may refer to. -/
structure Document where
  root : Schema
  registry : Registry
deriving DecidableEq

namespace Document

/-- Reads a document on its own, with no type known before it. -/
def ofText (options : Options) (text : String) : Except SchemaError Document :=
  (Schema.ofText options.maxDepth text .empty).map fun (root, registry) => ⟨root, registry⟩

/-- What a reference refers to, if that is defined; any other schema is itself. -/
def resolve? (doc : Document) (s : Schema) : Option Schema :=
  match s with
  | .reference full _ => (doc.registry.get? full).map .named
  | s => some s

/-- The definition of a full name. -/
def named? (doc : Document) (full : String) : Option Definition :=
  doc.registry.get? full

/-- The first violation of the root schema by a datum. -/
def validate (doc : Document) (d : Datum) : Verdict :=
  Avro.validate doc.registry doc.root d

def isValid (doc : Document) (d : Datum) : Bool :=
  Avro.isValid doc.registry doc.root d

def toJson (doc : Document) : Json :=
  doc.root.toJson

end Document
end Avro
