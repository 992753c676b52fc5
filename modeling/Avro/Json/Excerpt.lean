/-
# Json.Excerpt: a value, quoted in a message

An excerpt is the text of a value without blanks, cut after the last character that ends within
120 bytes.
-/
import Avro.Json.Printer

namespace Avro

/-- The longest prefix of whole characters that takes up at most `limit` bytes. -/
def takeBytes (limit : Nat) : List Char → List Char
  | [] => []
  | c :: cs => if c.utf8Size ≤ limit then c :: takeBytes (limit - c.utf8Size) cs else []

/-- How many bytes of a value an excerpt holds. -/
def excerptLimit : Nat := 120

/-- The text of a value, shortened if it is long. -/
def Json.excerpt (v : Json) : String :=
  let text := v.compact
  if text.utf8ByteSize ≤ excerptLimit then text
  else .ofList (takeBytes excerptLimit text.toList ++ ['.', '.', '.'])

end Avro
