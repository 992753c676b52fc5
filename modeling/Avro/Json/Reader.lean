/-
# Json.Reader: JSON values from text

A text is read one character at a time.  A `Reading` holds the containers that are open, the
innermost first, and what is expected next; `Reading.step` takes it past a character, and
`Reading.finish` takes the value out at the end of the text.  The first character that cannot
stand where it is makes the text malformed; a text that ends while something is still expected
is incomplete.

* `readAsWritten`: the value with its members as they were written.
* `read`: the canonical value, with sorted members, of which the last of a repeated key counts.

Blanks are the space, the tab, the line feed and the carriage return.  A number without fraction
and exponent is an integer if 64 bits hold it; every other number, and `-0`, is a double, and has
to be finite.  Doubles are read quickly rather than exactly: of the digits those count that 64 bits
hold, and the double that they come to is multiplied or divided by a power of ten.
-/
import Avro.Json.Basic

namespace Avro.Json

/-- Why a text is not JSON. -/
inductive Fault
  /-- The text ends before the value does. -/
  | incomplete
  /-- A character cannot stand where it is, or a number is too large for a double. -/
  | malformed
deriving DecidableEq, Repr

/-! ## 1. Numbers -/

/-- How much of a number has been read. -/
inductive NumberPart
  | minus | zero | integer | point | fraction | mark | markSign | exponent
deriving DecidableEq, Repr

/-- A number in the course of being read. -/
structure Numeral where
  negative : Bool
  part : NumberPart
  /-- The digits that count, as 64 bits hold them. -/
  digits : Nat
  /-- A digit did not count, and none after it in the same part does. -/
  full : Bool
  /-- The power of ten of the last digit that counts. -/
  shift : Int
  exponentNegative : Bool
  exponent : Nat
deriving DecidableEq, Repr

namespace Numeral

def digitValue (c : Char) : Nat :=
  c.toNat - '0'.toNat

/-- A number that begins with `c`. -/
def start? (c : Char) : Option Numeral :=
  if c = '-' then some ⟨true, .minus, 0, false, 0, false, 0⟩
  else if c = '0' then some ⟨false, .zero, 0, false, 0, false, 0⟩
  else if c.isDigit then some ⟨false, .integer, digitValue c, false, 0, false, 0⟩
  else none

/-- Whether one more digit counts. -/
def holds (n : Numeral) (c : Char) : Bool :=
  !n.full && isUnsigned (10 * n.digits + digitValue c : Nat)

/-- One more digit before the point.  One that does not count still moves those before it. -/
def withDigit (n : Numeral) (c : Char) : Numeral :=
  if n.holds c then { n with part := .integer, digits := 10 * n.digits + digitValue c }
  else { n with part := .integer, full := true, shift := n.shift + 1 }

/-- One more digit after the point. -/
def withPlace (n : Numeral) (c : Char) : Numeral :=
  if n.holds c then
    { n with part := .fraction, digits := 10 * n.digits + digitValue c, shift := n.shift - 1 }
  else { n with part := .fraction, full := true }

/-- The number with one more character, if that continues it. -/
def step? (n : Numeral) (c : Char) : Option Numeral :=
  let digit := c.isDigit
  let withExponentDigit := 10 * n.exponent + digitValue c
  let isMark := c = 'e' ∨ c = 'E'
  match n.part with
  | .minus =>
    if c = '0' then some { n with part := .zero }
    else if digit then some (n.withDigit c)
    else none
  | .zero =>
    if c = '.' then some { n with part := .point }
    else if isMark then some { n with part := .mark }
    else none
  | .integer =>
    if digit then some (n.withDigit c)
    else if c = '.' then some { n with part := .point, full := false }
    else if isMark then some { n with part := .mark }
    else none
  | .point =>
    if digit then some (n.withPlace c) else none
  | .fraction =>
    if digit then some (n.withPlace c)
    else if isMark then some { n with part := .mark }
    else none
  | .mark =>
    if c = '+' then some { n with part := .markSign }
    else if c = '-' then some { n with part := .markSign, exponentNegative := true }
    else if digit then some { n with part := .exponent, exponent := withExponentDigit }
    else none
  | .markSign =>
    if digit then some { n with part := .exponent, exponent := withExponentDigit } else none
  | .exponent =>
    if digit then some { n with exponent := withExponentDigit } else none

/-- Whether the number may end here. -/
def isComplete (n : Numeral) : Bool :=
  match n.part with
  | .zero | .integer | .fraction | .exponent => true
  | .minus | .point | .mark | .markSign => false

/-- The double that the number comes to, if it is finite. -/
def toDouble? (n : Numeral) : Option Number :=
  let exponent : Int := if n.exponentNegative then -n.exponent else n.exponent
  (Binary64.scaled? n.negative ⟨n.digits, n.shift + exponent⟩).map .double

/-- The value of a number that may end here. -/
def toNumber? (n : Numeral) : Option Number :=
  match n.part with
  | .zero | .integer =>
    if n.full then n.toDouble?
    else if n.negative then
      if n.digits ≠ 0 ∧ isSigned (-n.digits) then some (.int (-n.digits)) else n.toDouble?
    else some (.int n.digits)
  | _ => n.toDouble?

end Numeral

/-! ## 2. Strings -/

/-- What an escape in a string still needs.  `lead` is the first half of a surrogate pair. -/
inductive Escape
  /-- No escape is open. -/
  | none
  /-- The letter after a backslash. -/
  | letter
  /-- The four bytes after `\u`. -/
  | unit (lead : Option Nat) (bytes : List Char)
  /-- The backslash of the second half of a pair. -/
  | pairBackslash (lead : Nat)
  /-- The `u` of the second half of a pair. -/
  | pairLetter (lead : Nat)
deriving DecidableEq, Repr

def hexValue? (c : Char) : Option Nat :=
  if c.isDigit then some (c.toNat - '0'.toNat)
  else if 'a' ≤ c ∧ c ≤ 'f' then some (c.toNat - 'a'.toNat + 10)
  else if 'A' ≤ c ∧ c ≤ 'F' then some (c.toNat - 'A'.toNat + 10)
  else .none

/-- The number that four hexadecimal digits stand for. -/
def unitValue? : List Char → Option Nat
  | [a, b, c, d] => do
    return (((← hexValue? a) * 16 + (← hexValue? b)) * 16 + (← hexValue? c)) * 16 + (← hexValue? d)
  | _ => .none

/-- What a letter after a backslash stands for, `u` apart. -/
def letterValue? : Char → Option Char
  | '"' => some '"'
  | '\\' => some '\\'
  | '/' => some '/'
  | 'b' => some '\x08'
  | 'f' => some '\x0c'
  | 'n' => some '\n'
  | 'r' => some '\r'
  | 't' => some '\t'
  | _ => .none

def isLead (unit : Nat) : Bool :=
  0xD800 ≤ unit ∧ unit < 0xDC00

def isTrail (unit : Nat) : Bool :=
  0xDC00 ≤ unit ∧ unit < 0xE000

/-- A string in the course of being read: its characters, the last one first, and the escape that
is open. -/
structure OpenString where
  text : List Char
  escape : Escape
deriving DecidableEq, Repr

namespace OpenString

def push (s : OpenString) (c : Char) : OpenString :=
  ⟨c :: s.text, .none⟩

/-- The string after a complete `\u` escape.  A lead waits for its trail; a trail alone, or a lead
without one, is refused. -/
def pushUnit (s : OpenString) (lead : Option Nat) (unit : Nat) : Except Fault OpenString :=
  match lead with
  | .none =>
    if isLead unit then .ok { s with escape := .pairBackslash unit }
    else if isTrail unit then .error .malformed
    else .ok (s.push (.ofNat unit))
  | some lead =>
    if isTrail unit then
      .ok (s.push (.ofNat (0x10000 + (lead - 0xD800) * 0x400 + (unit - 0xDC00))))
    else .error .malformed

/-- The string with one more character, which is not the closing quote.  The four bytes of a `\u`
escape are looked at once they are all there. -/
def step (s : OpenString) (c : Char) : Except Fault OpenString :=
  match s.escape with
  | .none =>
    if c = '\\' then .ok { s with escape := .letter }
    else if c.toNat < 0x20 then .error .malformed
    else .ok (s.push c)
  | .letter =>
    if c = 'u' then .ok { s with escape := .unit .none [] }
    else match letterValue? c with
      | some c => .ok (s.push c)
      | .none => .error .malformed
  | .unit lead bytes =>
    let bytes := bytes ++ [c]
    if (String.ofList bytes).utf8ByteSize < 4 then .ok { s with escape := .unit lead bytes }
    else match unitValue? bytes with
      | some unit => s.pushUnit lead unit
      | .none => .error .malformed
  | .pairBackslash lead =>
    if c = '\\' then .ok { s with escape := .pairLetter lead } else .error .malformed
  | .pairLetter lead =>
    if c = 'u' then .ok { s with escape := .unit (some lead) [] } else .error .malformed

def isClosedBy (s : OpenString) (c : Char) : Bool :=
  s.escape = .none ∧ c = '"'

def toString (s : OpenString) : String :=
  .ofList s.text.reverse

end OpenString

/-! ## 3. Containers -/

/-- A container that is open around a value, with what it holds so far, the last one first. -/
inductive Frame
  | arr (items : List Json)
  | obj (members : List (String × Json)) (key : String)

/-- What is expected next. -/
inductive Expected
  /-- A value; right after an opening bracket its closing one is possible too. -/
  | value (mayClose : Bool)
  /-- The rest of a word, which stands for a value. -/
  | word (rest : List Char) (value : Json)
  | number (n : Numeral)
  | string (s : OpenString)
  /-- A comma or the end of an array. -/
  | endOfItem (items : List Json)
  /-- A key; right after an opening brace its closing one is possible too. -/
  | key (mayClose : Bool) (members : List (String × Json))
  | keyString (members : List (String × Json)) (s : OpenString)
  | colon (members : List (String × Json)) (key : String)
  /-- A comma or the end of an object. -/
  | endOfMember (members : List (String × Json))
  /-- Nothing but blanks. -/
  | blank (value : Json)

/-- A text in the course of being read. -/
structure Reading where
  frames : List Frame
  expected : Expected

/-- How many containers may be open at once. -/
def nestingLimit : Nat := 127

def isBlank (c : Char) : Bool :=
  c = ' ' ∨ c = '\t' ∨ c = '\n' ∨ c = '\r'

namespace Reading

def start : Reading :=
  ⟨[], .value false⟩

/-- Puts a complete value into the innermost container. -/
def deliver (value : Json) : List Frame → Reading
  | [] => ⟨[], .blank value⟩
  | .arr items :: frames => ⟨frames, .endOfItem (value :: items)⟩
  | .obj members key :: frames => ⟨frames, .endOfMember ((key, value) :: members)⟩

/-- Begins the value whose first character is `c`. -/
def startValue (frames : List Frame) (c : Char) : Except Fault Reading :=
  match c with
  | 'n' => .ok ⟨frames, .word ['u', 'l', 'l'] .null⟩
  | 't' => .ok ⟨frames, .word ['r', 'u', 'e'] (.bool true)⟩
  | 'f' => .ok ⟨frames, .word ['a', 'l', 's', 'e'] (.bool false)⟩
  | '"' => .ok ⟨frames, .string ⟨[], .none⟩⟩
  | '[' =>
    if frames.length < nestingLimit then .ok ⟨.arr [] :: frames, .value true⟩
    else .error .malformed
  | '\x7b' =>
    if frames.length < nestingLimit then .ok ⟨frames, .key true []⟩ else .error .malformed
  | c =>
    match Numeral.start? c with
    | some n => .ok ⟨frames, .number n⟩
    | none => .error .malformed

/-- Past a character that does not belong to a number. -/
def stepOutside (r : Reading) (c : Char) : Except Fault Reading :=
  match r.expected with
  | .value mayClose =>
    if isBlank c then .ok r
    else match mayClose, c, r.frames with
      | true, ']', .arr items :: frames => .ok (deliver (.arr items.reverse) frames)
      | _, _, _ => startValue r.frames c
  | .word rest value =>
    match rest with
    | [] => .error .malformed
    | [last] => if c = last then .ok (deliver value r.frames) else .error .malformed
    | next :: rest =>
      if c = next then .ok { r with expected := .word rest value } else .error .malformed
  | .number _ => .error .malformed
  | .string s =>
    if s.isClosedBy c then .ok (deliver (.str s.toString) r.frames)
    else return { r with expected := .string (← s.step c) }
  | .endOfItem items =>
    if isBlank c then .ok r
    else if c = ',' then .ok ⟨.arr items :: r.frames, .value false⟩
    else if c = ']' then .ok (deliver (.arr items.reverse) r.frames)
    else .error .malformed
  | .key mayClose members =>
    if isBlank c then .ok r
    else if c = '"' then .ok { r with expected := .keyString members ⟨[], .none⟩ }
    else if mayClose ∧ c = '\x7d' then .ok (deliver (.obj members.reverse) r.frames)
    else .error .malformed
  | .keyString members s =>
    if s.isClosedBy c then .ok { r with expected := .colon members s.toString }
    else return { r with expected := .keyString members (← s.step c) }
  | .colon members key =>
    if isBlank c then .ok r
    else if c = ':' then .ok ⟨.obj members key :: r.frames, .value false⟩
    else .error .malformed
  | .endOfMember members =>
    if isBlank c then .ok r
    else if c = ',' then .ok { r with expected := .key false members }
    else if c = '\x7d' then .ok (deliver (.obj members.reverse) r.frames)
    else .error .malformed
  | .blank _ => if isBlank c then .ok r else .error .malformed

/-- Ends a number that is being read. -/
def endNumber (r : Reading) (n : Numeral) : Except Fault Reading :=
  match n.toNumber? with
  | some value => .ok (deliver (.num value) r.frames)
  | none => .error .malformed

/-- Past one character.  A character that does not continue a number ends it, and then stands on
its own. -/
def step (r : Reading) (c : Char) : Except Fault Reading :=
  match r.expected with
  | .number n =>
    match n.step? c with
    | some n => .ok { r with expected := .number n }
    | none =>
      if n.isComplete then do (← r.endNumber n).stepOutside c else .error .malformed
  | _ => r.stepOutside c

/-- The value at the end of the text. -/
def finish (r : Reading) : Except Fault Json :=
  match r.expected with
  | .number n => do
    if n.isComplete then
      match (← r.endNumber n).expected with
      | .blank value => .ok value
      | _ => .error .incomplete
    else .error .incomplete
  | .blank value => .ok value
  | _ => .error .incomplete

end Reading

/-- The value of a text, with the members of objects as they were written. -/
def readAsWritten (text : String) : Except Fault Json := do
  (← text.toList.foldlM Reading.step .start).finish

/-- The canonical value of a text. -/
def read (text : String) : Except Fault Json :=
  canonical <$> readAsWritten text

end Avro.Json
