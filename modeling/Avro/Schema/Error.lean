/-
# Schema.Error: why a document is not a schema

`SchemaError` has one case for each cause, with what the cause needs to be told; the wording is in
`SchemaError.messageWith` alone, but for that of a text that is not JSON, which is the decoder's own
and is a parameter there.  A fault inside a nested schema is reported together with an excerpt of
the nested schema, once: `SchemaError.rootCause` takes that off again.
-/
import Avro.Schema.Basic
import Avro.Attribute.Basic
import Avro.Json.Reader

namespace Avro

/-- What is wrong with the value of an attribute; most faults quote an excerpt of it. -/
inductive AttributeFault
  | notString (excerpt : String)
  | notArray (excerpt : String)
  | notStrings (excerpt : String)
  | notSize (excerpt : String)
  | notField (excerpt : String)
  | notOrder (text : String)
  | notSymbol (text : String)
  | notNamed (tag : Tag)
deriving DecidableEq, Repr

def AttributeFault.message : AttributeFault → String
  | notString excerpt => s!"must be a string, got {excerpt}"
  | notArray excerpt => s!"must be an array, got {excerpt}"
  | notStrings excerpt => s!"items must be strings, got {excerpt}"
  | notSize excerpt => s!"must be a non-negative integer, got {excerpt}"
  | notField excerpt => s!"each field must be an object, got {excerpt}"
  | notOrder text => s!"must be one of ascending, descending, ignore; got '{text}'"
  | notSymbol text => s!"'{text}' is not a valid enum symbol"
  | notNamed tag => s!"only named types can be registered, got {tag.name}"

/-- What is wrong with the branches of a union. -/
inductive UnionFault
  /-- A branch is a union itself. -/
  | nested
  /-- Two branches have the same key. -/
  | repeated (key : Schema.Key)
deriving DecidableEq, Repr

def UnionFault.message : UnionFault → String
  | nested => "unions may not immediately contain other unions"
  | repeated key => s!"duplicate branch type {key.text}"

/-- A wording to stand in for that of a decoder, which is not known here. -/
def Json.Fault.message : Json.Fault → String
  | incomplete => "the text ends before the value does"
  | malformed => "a character cannot stand where it is"

/-- Why a document is not a schema. -/
inductive SchemaError
  | invalidJson (fault : Json.Fault)
  /-- An object whose type is missing, or is nothing that a type can be. -/
  | undefinedType (text : String)
  /-- A tag that no schema of its own has. -/
  | notStandalone (tag : Tag)
  /-- A tag whose schemas are not written as objects. -/
  | notAnObject (tag : Tag)
  /-- A value that is no schema, or a name that stands for none. -/
  | unknownSchema (text : String)
  | duplicateName (full : String)
  | invalidName (error : NameError)
  | missingAttribute (attr : Attribute) (excerpt : String)
  | invalidAttribute (attr : Attribute) (fault : AttributeFault)
  | duplicateField (owner field : String)
  | duplicateSymbol (enum symbol : String)
  | invalidUnion (fault : UnionFault)
  /-- There are more schemas inside one another than the limit allows. -/
  | nestingTooDeep (limit : Nat)
  /-- A nested schema, given by an excerpt, has a fault. -/
  | invalidSubSchema (excerpt : String) (cause : SchemaError)
deriving DecidableEq, Repr

namespace SchemaError

/-- The text of an error, where `json` tells how the decoder words its faults. -/
def messageWith (json : Json.Fault → String) : SchemaError → String
  | invalidJson fault => s!"Schema is not valid JSON: {json fault}"
  | undefinedType text => s!"Undefined type: {text}"
  | notStandalone tag => s!"Unknown valid type: {tag.name}"
  | notAnObject tag => s!"Unknown complex type: {tag.name}"
  | unknownSchema text => s!"{text} is not a schema we know about."
  | duplicateName full => s!"Duplicate named type: {full}"
  | invalidName error => s!"Invalid name '{error.text}': {error.fault.message}"
  | missingAttribute attr excerpt =>
    s!"Missing required attribute '{attr.key}' in {excerpt}"
  | invalidAttribute attr fault =>
    s!"Invalid attribute '{attr.key}': {fault.message}"
  | duplicateField owner field => s!"Duplicate field '{field}' in {owner}"
  | duplicateSymbol enum symbol => s!"Duplicate symbol '{symbol}' in enum {enum}"
  | invalidUnion fault => s!"Invalid union: {fault.message}"
  | nestingTooDeep limit => s!"Schema nesting exceeds the maximum depth of {limit}"
  | invalidSubSchema excerpt cause =>
    s!"Sub-schema is not a valid Avro schema. Bad schema: {excerpt}: {cause.messageWith json}"

def message : SchemaError → String :=
  messageWith Json.Fault.message

/-- The error of the innermost schema that is reported. -/
def rootCause : SchemaError → SchemaError
  | invalidSubSchema _ cause => cause.rootCause
  | e => e

end SchemaError
end Avro
