/-
# Binary64: double precision numbers as exact fractions

A double is kept as its 64 bits: a sign, 11 bits of exponent, 52 bits of fraction.  The
arithmetic here is on natural numbers only.  The unit of a finite double is `2 ^ -1074`, the
smallest positive one: a double with the bits `field` after its sign is `significand * 2 ^ scale`
units, and `field = scale * 2 ^ 52 + significand`, so that rounding may carry into the exponent
without a case of its own.

* `nearest`: the double next to a fraction, a half going to the even neighbour.
* `ofDecimal`, `ofInt`, `ofBinary32`: the double nearest to a number of another kind.
* `scaled?`: an integer scaled by a power of ten, with a rounding at every step.
-/

namespace Avro

/-- A double precision number, given by its bits. -/
structure Binary64 where
  bits : UInt64
deriving DecidableEq, Repr

/-- The number `digits * 10 ^ exponent`. -/
structure Decimal where
  digits : Nat
  exponent : Int
deriving DecidableEq, Repr

namespace Binary64

/-- Two, taken to a power. -/
def pow2 (n : Nat) : Nat :=
  Nat.pow 2 n

/-- Ten, taken to a power. -/
def pow10 (n : Nat) : Nat :=
  Nat.pow 10 n

/-! ## 1. The parts of a double -/

/-- Whether the sign bit is set. -/
def isNegative (x : Binary64) : Bool :=
  pow2 63 ≤ x.bits.toNat

/-- The bits after the sign. -/
def field (x : Binary64) : Nat :=
  x.bits.toNat % pow2 63

/-- The field of infinity; larger ones are not numbers. -/
def infinityField : Nat := 2047 * pow2 52

def isFinite (x : Binary64) : Bool :=
  x.field < infinityField

def isNaN (x : Binary64) : Bool :=
  infinityField < x.field

/-- The power of two that the significand is to be taken by. -/
def scale (x : Binary64) : Nat :=
  x.field / pow2 52 - 1

def significand (x : Binary64) : Nat :=
  x.field - x.scale * pow2 52

/-- The magnitude of a finite double, in units of `2 ^ -1074`. -/
def units (x : Binary64) : Nat :=
  x.significand * pow2 x.scale

/-- The number of units in one. -/
def one : Nat := pow2 1074

/-- The double with this sign and field; a field too large for a number is taken as infinity. -/
def ofField (negative : Bool) (field : Nat) : Binary64 :=
  let magnitude := if field ≤ infinityField then field else infinityField
  ⟨.ofNat (if negative then pow2 63 + magnitude else magnitude)⟩

/-- Zero, of either sign. -/
def zero (negative : Bool) : Binary64 :=
  ofField negative 0

/-! ## 2. Rounding -/

/-- The integer next to `num / den`; a half goes to the even neighbour. -/
def roundQuotient (num den : Nat) : Nat :=
  let quotient := num / den
  let rest := 2 * (num % den)
  if den < rest ∨ rest = den ∧ quotient % 2 = 1 then quotient + 1 else quotient

/-- The double next to `num / den`.  The scale is chosen so that the significand has 53 bits
wherever the fraction is large enough for that. -/
def nearest (negative : Bool) (num den : Nat) : Binary64 :=
  let units := num * one
  let scale := (units / den).log2 - 52
  ofField negative (scale * pow2 52 + roundQuotient units (den * pow2 scale))

/-- The double next to an integer. -/
def ofInt (n : Int) : Binary64 :=
  nearest (n < 0) n.natAbs 1

/-- The number of decimal digits, at least one. -/
def decimalLength (n : Nat) : Nat :=
  (Nat.toDigits 10 n).length

/-- The double next to a decimal.  A number of `10 ^ 309` or more is infinite and one below
`10 ^ -324` is zero, whatever the digits are, so that no large power is computed for them. -/
def ofDecimal (negative : Bool) (d : Decimal) : Binary64 :=
  let size := decimalLength d.digits + d.exponent
  if d.digits = 0 ∨ size ≤ -324 then zero negative
  else if 309 < size then ofField negative infinityField
  else if 0 ≤ d.exponent then nearest negative (d.digits * pow10 d.exponent.toNat) 1
  else nearest negative d.digits (pow10 (-d.exponent).toNat)

/-- The double equal to a single precision number, given by its bits: a sign, 8 bits of exponent,
23 bits of fraction.  Infinity and what is not a number stay so. -/
def ofBinary32 (bits : UInt32) : Binary64 :=
  let negative := pow2 31 ≤ bits.toNat
  let exponent := bits.toNat / pow2 23 % pow2 8
  let fraction := bits.toNat % pow2 23
  if exponent = 255 then
    let magnitude := infinityField + fraction * pow2 29
    ⟨.ofNat (if negative then pow2 63 + magnitude else magnitude)⟩
  else if exponent = 0 then nearest negative fraction (pow2 149)
  else nearest negative ((pow2 23 + fraction) * pow2 (exponent - 1)) (pow2 149)

/-! ## 3. Arithmetic -/

/-- The magnitude of a double, with this sign. -/
def withSign (negative : Bool) (x : Binary64) : Binary64 :=
  ofField negative x.field

/-- The double next to the product of two magnitudes. -/
def times (x y : Binary64) : Binary64 :=
  nearest false (x.units * y.units) (one * one)

/-- The double next to the quotient of two magnitudes. -/
def dividedBy (x y : Binary64) : Binary64 :=
  nearest false x.units y.units

/-- The largest power of ten that is no larger than every finite double. -/
def greatestPower : Nat := 308

/-- The double next to a power of ten. -/
def powerOfTen (n : Nat) : Binary64 :=
  nearest false (pow10 n) 1

/-- A magnitude divided by a power of ten.  What is more than the greatest power is divided by that
first, until it is used up or nothing is left to divide. -/
def dividedByPower (x : Binary64) (n : Nat) : Binary64 :=
  if n ≤ greatestPower then x.dividedBy (powerOfTen n)
  else if x.field = 0 then x
  else dividedByPower (x.dividedBy (powerOfTen greatestPower)) (n - greatestPower)
termination_by n
decreasing_by simp only [greatestPower] at *; omega

/-- The number `digits * 10 ^ exponent`, if it is not too large.  The digits are rounded, the power
of ten is, and their product or quotient is once more, so this is not always the double next to the
number. -/
def scaled? (negative : Bool) (d : Decimal) : Option Binary64 :=
  let x := ofInt d.digits
  if d.exponent < 0 then some ((x.dividedByPower (-d.exponent).toNat).withSign negative)
  else if x.field = 0 then some (zero negative)
  else if d.exponent ≤ greatestPower then
    let y := x.times (powerOfTen d.exponent.toNat)
    if y.isFinite then some (y.withSign negative) else none
  else none

end Binary64
end Avro
