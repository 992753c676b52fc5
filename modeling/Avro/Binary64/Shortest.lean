/-
# Binary64.Shortest: the shortest decimal that reads back

A double is written with the fewest digits that read back to it, and of those with the digits
nearest to its value.  For each number of digits, the two decimals around the value are tried;
`17` digits are always enough.

* `shortest`: the digits and exponent of the magnitude.
* `toText`: how they are laid out; positional from `10 ^ -5` up to `10 ^ 16`, with an exponent
  outside.
-/
import Avro.Binary64.Basic

namespace Avro.Binary64

/-! ## 1. The digits -/

/-- The power of ten at or below a positive fraction. -/
def decimalExponent (num den : Nat) : Int :=
  if den ≤ num then decimalLength (num / den) - 1 else -decimalLength ((den - 1) / num)

/-- `num / den` over `10 ^ exponent`, as a fraction. -/
def overPowerOfTen (num den : Nat) (exponent : Int) : Nat × Nat :=
  if 0 ≤ exponent then (num, den * pow10 exponent.toNat)
  else (num * pow10 (-exponent).toNat, den)

/-- The decimals with `count` digits on either side of the magnitude of `x`, the nearer one first;
of two that are equally near the one with an even last digit. -/
def neighbours (x : Binary64) (count : Nat) : List Decimal :=
  let exponent := decimalExponent x.units one - (count - 1 : Nat)
  let (num, den) := overPowerOfTen x.units one exponent
  let near := roundQuotient num den
  let below := num / den
  [⟨near, exponent⟩, ⟨if near = below then below + 1 else below, exponent⟩]

/-- Moves the trailing zeros of the digits into the exponent. -/
def dropZeros (d : Decimal) : Decimal :=
  if h : 0 < d.digits ∧ d.digits % 10 = 0 then
    have : d.digits / 10 < d.digits := Nat.div_lt_self h.1 (by decide)
    dropZeros ⟨d.digits / 10, d.exponent + 1⟩
  else d
termination_by d.digits

/-- The decimal of fewest digits that reads back to a finite double other than zero. -/
def shortest (x : Binary64) : Decimal :=
  let readsBack := fun d => decide (ofDecimal x.isNegative d = x)
  let hit := (List.range 17).findSome? fun n => (neighbours x (n + 1)).find? readsBack
  dropZeros (hit.getD ⟨x.units, -1074⟩)

/-! ## 2. The layout -/

/-- Digits in front of a point that stands `point` places after the first of them. -/
def positional (digits : List Char) (point : Int) : List Char :=
  if point ≤ 0 then
    '0' :: '.' :: (List.replicate (-point).toNat '0' ++ digits)
  else
    let places := point.toNat
    if digits.length ≤ places then
      digits ++ List.replicate (places - digits.length) '0' ++ ['.', '0']
    else digits.take places ++ '.' :: digits.drop places

/-- One digit before the point, and an exponent with its sign. -/
def scientific (digits : List Char) (exponent : Int) : List Char :=
  let mark := if exponent < 0 then ['e', '-'] else ['e', '+']
  let tail := mark ++ Nat.toDigits 10 exponent.natAbs
  match digits with
  | first :: second :: rest => first :: '.' :: second :: rest ++ tail
  | _ => digits ++ tail

/-- The text of a finite double. -/
def toText (x : Binary64) : String :=
  let sign := if x.isNegative then ['-'] else []
  let magnitude :=
    if x.field = 0 then ['0', '.', '0']
    else
      let d := x.shortest
      let digits := Nat.toDigits 10 d.digits
      let exponent := d.exponent + digits.length - 1
      if -5 ≤ exponent ∧ exponent < 16 then positional digits (exponent + 1)
      else scientific digits exponent
  .ofList (sign ++ magnitude)

end Avro.Binary64
