/-
# Json.Printer: JSON values as text

`compact` writes no blanks at all; `pretty` puts every item and member on a line of its own, two
spaces deeper than its container.  Both write members in the order in which they stand, and escape
in a string what has to be: the quote, the backslash and the characters below U+0020.
-/
import Avro.Json.Basic
import Avro.Binary64.Shortest

namespace Avro.Json

/-! ## 1. Scalars -/

/-- A character as it stands inside a string. -/
def escape (c : Char) : List Char :=
  match c with
  | '"' => ['\\', '"']
  | '\\' => ['\\', '\\']
  | '\n' => ['\\', 'n']
  | '\r' => ['\\', 'r']
  | '\t' => ['\\', 't']
  | '\x08' => ['\\', 'b']
  | '\x0c' => ['\\', 'f']
  | c =>
    if c.toNat < 0x20 then
      ['\\', 'u', '0', '0', Nat.digitChar (c.toNat / 16), Nat.digitChar (c.toNat % 16)]
    else [c]

/-- A string in quotes. -/
def quote (s : String) : String :=
  .ofList ('"' :: (s.toList.flatMap escape ++ ['"']))

def boolText (b : Bool) : String :=
  if b then "true" else "false"

/-- A number; what no text can stand for is written as `null`. -/
def numberText : Number → String
  | .int n => toString n
  | .double x => if x.isFinite then x.toText else "null"

/-! ## 2. Without blanks -/

mutual

/-- The text of a value, without blanks. -/
def compact : Json → String
  | null => "null"
  | bool b => boolText b
  | num n => numberText n
  | str s => quote s
  | arr items => "[" ++ ",".intercalate (compactItems items) ++ "]"
  | obj members => "\x7b" ++ ",".intercalate (compactMembers members) ++ "\x7d"

def compactItems : List Json → List String
  | [] => []
  | item :: items => compact item :: compactItems items

def compactMembers : List (String × Json) → List String
  | [] => []
  | (key, value) :: members => (quote key ++ ":" ++ compact value) :: compactMembers members

end

/-! ## 3. On lines of their own -/

/-- Parts between brackets, each on a line of its own; the brackets alone if there are none. -/
def lines (opening closing : String) (depth : Nat) (parts : List String) : String :=
  if parts.isEmpty then opening ++ closing
  else
    let newline := "\n" ++ .ofList (List.replicate (2 * depth) ' ')
    opening ++ newline ++ "  " ++ ("," ++ newline ++ "  ").intercalate parts ++ newline ++ closing

mutual

/-- The text of a value that stands inside `depth` containers, on lines of its own. -/
def prettyAt (depth : Nat) : Json → String
  | null => "null"
  | bool b => boolText b
  | num n => numberText n
  | str s => quote s
  | arr items => lines "[" "]" depth (prettyItems (depth + 1) items)
  | obj members => lines "\x7b" "\x7d" depth (prettyMembers (depth + 1) members)

def prettyItems (depth : Nat) : List Json → List String
  | [] => []
  | item :: items => prettyAt depth item :: prettyItems depth items

def prettyMembers (depth : Nat) : List (String × Json) → List String
  | [] => []
  | (key, value) :: members =>
    (quote key ++ ": " ++ prettyAt depth value) :: prettyMembers depth members

end

/-- The text of a value, on lines of its own. -/
def pretty (v : Json) : String :=
  prettyAt 0 v

end Avro.Json
