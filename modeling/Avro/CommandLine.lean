/-
# CommandLine: checking files

The command reads a schema file and prints the schema, or checks a file with a JSON value against
it.  `Arguments.ofList?` reads the options, and `runWith` tells what is printed and with which
status the command ends, given what the files hold and how the decoder words what is wrong with a
text that is not JSON.
-/
import Avro.Document

namespace Avro

/-! ## 1. Arguments -/

/-- What the command is asked to do. -/
structure Arguments where
  schema : String
  datum : Option String
  maxDepth : Nat
  /-- Nothing but the exit status is wanted. -/
  quiet : Bool
deriving DecidableEq, Repr

/-- The options that have been read so far. -/
structure PartialArguments where
  schema : Option String
  datum : Option String
  maxDepth : Option Nat
  quiet : Bool

/-- The options that take a value. -/
inductive ValueOption
  | schema | datum | maxDepth
deriving DecidableEq, Repr

/-- A number of 64 bits without sign, in decimal; a plus sign may stand before it. -/
def unsignedOfText? (text : String) : Option Nat :=
  let digits := match text.toList with
    | '+' :: cs => cs
    | cs => cs
  if digits.isEmpty ∨ digits.any (fun c => !c.isDigit) then none
  else
    let n : Nat := digits.foldl (fun n c => 10 * n + (c.toNat - '0'.toNat)) 0
    if isUnsigned n then some n else none

/-- Whether an argument may be the value of the option before it. -/
def isValue (argument : String) : Bool :=
  match argument.toList with
  | '-' :: _ :: _ => false
  | _ => true

namespace PartialArguments

def none : PartialArguments :=
  ⟨.none, .none, .none, false⟩

def setQuiet (g : PartialArguments) : Option PartialArguments :=
  if g.quiet then .none else some { g with quiet := true }

/-- Gives an option its value.  An option is given once, and a file has a name. -/
def set (g : PartialArguments) (option : ValueOption) (value : String) :
    Option PartialArguments :=
  match option with
  | .schema =>
    if g.schema.isSome ∨ value = "" then .none else some { g with schema := some value }
  | .datum =>
    if g.datum.isSome ∨ value = "" then .none else some { g with datum := some value }
  | .maxDepth =>
    if g.maxDepth.isSome then .none
    else (unsignedOfText? value).map fun n => { g with maxDepth := some n }

/-- Reads options of one letter that stand together.  Beside the options read, the answer tells
which option waits for its value. -/
def letters (g : PartialArguments) : List Char → Option (PartialArguments × Option ValueOption)
  | [] => some (g, .none)
  | 'q' :: cs => do (← g.setQuiet).letters cs
  | 's' :: cs => withValue .schema cs
  | 'd' :: cs => withValue .datum cs
  | _ => .none
where
  withValue (option : ValueOption) :
      List Char → Option (PartialArguments × Option ValueOption)
    | [] => some (g, some option)
    | '=' :: value => (g.set option (.ofList value)).map (·, .none)
    | value => (g.set option (.ofList value)).map (·, .none)

def longOption? : String → Option ValueOption
  | "schema" => some .schema
  | "datum" => some .datum
  | "max-depth" => some .maxDepth
  | _ => .none

/-- Reads an option whose name is a word, given without the dashes before it. -/
def word (g : PartialArguments) (text : List Char) :
    Option (PartialArguments × Option ValueOption) :=
  let name := String.ofList (text.takeWhile (· ≠ '='))
  match text.dropWhile (· ≠ '=') with
  | [] =>
    if name = "quiet" then g.setQuiet.map (·, .none)
    else (longOption? name).map fun option => (g, some option)
  | _ :: value => do
    return (← g.set (← longOption? name) (.ofList value), .none)

/-- Reads one argument that is not the value of another. -/
def argument (g : PartialArguments) (text : String) :
    Option (PartialArguments × Option ValueOption) :=
  match text.toList with
  | '-' :: '-' :: cs => g.word cs
  | '-' :: c :: cs => g.letters (c :: cs)
  | _ => .none

/-- Reads the arguments in turn.  Two dashes alone end the options, and nothing else may follow
them. -/
def readAll (g : PartialArguments) : List String → Option PartialArguments
  | [] => some g
  | "--" :: rest => if rest.isEmpty then some g else .none
  | text :: rest =>
    match g.argument text with
    | .none => .none
    | some (g, .none) => g.readAll rest
    | some (g, some option) =>
      match rest with
      | [] => .none
      | value :: rest =>
        if isValue value then
          match g.set option value with
          | .none => .none
          | some g => g.readAll rest
        else .none

end PartialArguments

/-- Reads a command line; there is none without a schema file.  The option that asks for an
explanation of the others, `-h` or `--help`, is left out: it is no request to check anything, and
counts here as an option that is not known. -/
def Arguments.ofList? (arguments : List String) : Option Arguments := do
  let g ← PartialArguments.none.readAll arguments
  return ⟨← g.schema, g.datum, g.maxDepth.getD Options.standard.maxDepth, g.quiet⟩

/-! ## 2. Outcomes -/

/-- What the command does. -/
structure Outcome where
  status : Nat
  stdout : String
  stderr : String
deriving DecidableEq, Repr

namespace Outcome

def success (stdout : String) : Outcome :=
  ⟨0, stdout, ""⟩

def failure (stderr : String) : Outcome :=
  ⟨1, "", stderr⟩

/-- Holds back what is printed. -/
def silenced (quiet : Bool) (o : Outcome) : Outcome :=
  if quiet then ⟨o.status, "", ""⟩ else o

/-- The command could not do its work. -/
def breakdown (problem cause : String) : Outcome :=
  failure s!"Error: {problem}\n\nCaused by:\n    {cause}\n"

end Outcome

/-- What a rejection is reported as. -/
def Rejection.report (r : Rejection) : String :=
  s!"{r.message} [{r.violation.code}]\n"
    ++ if r.schemaPath.isEmpty then "" else s!"  schema path: {r.schemaPath.text}\n"

/-- How a decoder words what is wrong with a text that is not JSON. -/
abbrev Wording := String → Json.Fault → String

/-- What the command does, where `file` tells what a file holds, or why it cannot be read, and
`wording` what the decoder says of a text that is not JSON.  The breakdowns are printed even if
nothing is wanted but the status. -/
def runWith (wording : Wording) (file : String → Except String String) (a : Arguments) : Outcome :=
  match file a.schema with
  | .error cause => .breakdown s!"Failed to read schema file {a.schema}" cause
  | .ok text =>
    match Document.ofText ⟨a.maxDepth⟩ text with
    | .error e =>
      (Outcome.failure s!"Invalid schema {a.schema}: {e.messageWith (wording text)}\n").silenced
        a.quiet
    | .ok doc =>
      match a.datum with
      | none => (Outcome.success (doc.toJson.pretty ++ "\n")).silenced a.quiet
      | some path =>
        match file path with
        | .error cause => .breakdown s!"Failed to read datum file {path}" cause
        | .ok text =>
          match Json.read text with
          | .error fault => .breakdown s!"Datum file {path} is not valid JSON" (wording text fault)
          | .ok v =>
            match doc.validate (.ofJson v) with
            | .ok () => (Outcome.success "valid\n").silenced a.quiet
            | .error r => (Outcome.failure r.report).silenced a.quiet

/-- What the command does, with a wording that stands in for the decoder's. -/
def run : (String → Except String String) → Arguments → Outcome :=
  runWith fun _ fault => fault.message

end Avro
