/-
# Options: how schema documents are read

The one option is how many schemas may stand inside one another.  Options are written as an object
with the key `max-depth`; keys that are not known are passed over.
-/
import Avro.Json.Reader
import Avro.Json.Printer

namespace Avro

structure Options where
  /-- How many schemas may stand inside one another. -/
  maxDepth : Nat
deriving DecidableEq, Repr

namespace Options

/-- What holds if nothing is said. -/
def standard : Options :=
  ⟨64⟩

/-- Options from an object as it was written, in which a known key may not be repeated, or from the
list of their values. -/
def ofJson? : Json → Option Options
  | .obj members =>
    match Json.valuesOf "max-depth" members with
    | [] => some standard
    | [v] => v.toUnsigned?.map Options.mk
    | _ => none
  | .arr [] => some standard
  | .arr [v] => v.toUnsigned?.map Options.mk
  | _ => none

def ofText? (text : String) : Option Options :=
  match Json.readAsWritten text with
  | .ok v => ofJson? v
  | .error _ => none

def toJson (o : Options) : Json :=
  .obj [("max-depth", .num (.int o.maxDepth))]

end Options
end Avro
