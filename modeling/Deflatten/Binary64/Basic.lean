/-!
# Binary64/Basic — double-precision numbers, by their bits

A finite number is a whole multiple of `2 ^ (-1074)`: `significand · 2 ^ scale` of them.  Every
operation computes the exact quotient of two naturals and rounds it once, to the nearest number and
from the middle to the even one.  The order of the numbers is the order of their bit patterns, read
as signed magnitudes.
-/

namespace Deflatten

/-- A double-precision number. -/
structure Binary64 where
  /-- The sign, the exponent and the fraction, packed. -/
  bits : UInt64
deriving DecidableEq, Repr

/-- The quotient `num / den` as a whole number, from the middle to the even neighbour. -/
def roundHalfEven (num den : Nat) : Nat :=
  let q := num / den
  let r := num % den
  if 2 * r < den then q
  else if den < 2 * r then q + 1
  else if q % 2 = 0 then q
  else q + 1

namespace Binary64

/-! ## The parts of a number -/

/-- The bits as a natural number. -/
def word (x : Binary64) : Nat := x.bits.toNat

/-- The sign bit. -/
def negative (x : Binary64) : Bool := 1 <<< 63 ≤ x.word

/-- The bits without the sign. -/
def magnitude (x : Binary64) : Nat := x.word % (1 <<< 63)

/-- The exponent field. -/
def exponent (x : Binary64) : Nat := x.magnitude >>> 52

/-- The fraction field. -/
def fraction (x : Binary64) : Nat := x.magnitude % (1 <<< 52)

/-- Not a number. -/
def isNaN (x : Binary64) : Bool := x.exponent == 2047 && x.fraction != 0

/-- One of the two infinities. -/
def isInfinite (x : Binary64) : Bool := x.exponent == 2047 && x.fraction == 0

/-- The whole significand, the implicit bit included. -/
def significand (x : Binary64) : Nat :=
  if x.exponent = 0 then x.fraction else (1 <<< 52) + x.fraction

/-- The power of two that one unit of the significand weighs, counted from `2 ^ (-1074)`. -/
def scale (x : Binary64) : Nat := x.exponent - 1

/-! ## Building numbers -/

/-- A magnitude with a sign. -/
def signed (negative : Bool) (magnitude : Nat) : Binary64 :=
  ⟨UInt64.ofNat (if negative then (1 <<< 63) + magnitude else magnitude)⟩

/-- The magnitude of the infinities. -/
def infinity : Nat := 2047 <<< 52

/-- The magnitude of the number nearest to `num / den`: the weight of the last place is chosen so
that 53 bits are kept, and the bits of the exponent absorb a carry. -/
def nearestMagnitude (num den : Nat) : Nat :=
  let a := num <<< 1074
  let p := (a / den).log2 - 52
  min ((p <<< 52) + roundHalfEven a (den <<< p)) infinity

/-- **The number nearest to `± num / den`.** -/
def ofRatio (negative : Bool) (num den : Nat) : Binary64 :=
  if num = 0 then signed negative 0 else signed negative (nearestMagnitude num den)

/-- The number nearest to an integer. -/
def ofInt (i : Int) : Binary64 := ofRatio (i < 0) i.natAbs 1

/-- The number nearest to `± mantissa · 10 ^ exp`.  Far outside the range of the numbers the power
of ten is not formed. -/
def ofDecimal (negative : Bool) (mantissa : Nat) (exp : Int) : Binary64 :=
  let place := exp + (Nat.toDigits 10 mantissa).length
  if mantissa = 0 then signed negative 0
  else if 400 < place then signed negative infinity
  else if place < -400 then signed negative 0
  else if 0 ≤ exp then ofRatio negative (mantissa * Nat.pow 10 exp.toNat) 1
  else ofRatio negative mantissa (Nat.pow 10 (-exp).toNat)

/-- The quotient of two finite numbers, the divisor not zero. -/
def divFinite (x y : Binary64) : Binary64 :=
  ofRatio (x.negative != y.negative) (x.significand <<< x.scale) (y.significand <<< y.scale)

/-! ## Order -/

/-- The place of a number in the order: the two zeros share one. -/
def rank (x : Binary64) : Int := if x.negative then -(x.magnitude : Int) else x.magnitude

/-- Less than; no relation holds of what is not a number. -/
def lt (x y : Binary64) : Bool := !x.isNaN && !y.isNaN && decide (x.rank < y.rank)

/-- What is not a number. -/
def nan : Binary64 := ⟨0x7FF8000000000001⟩

/-- The integer part of a finite number. -/
def truncated (x : Binary64) : Int :=
  let n : Nat := (x.significand <<< x.scale) >>> 1074
  if x.negative then -(n : Int) else n

/-- Zero. -/
def zero : Binary64 := ⟨0⟩

/-- One. -/
def one : Binary64 := ofInt 1

instance : Inhabited Binary64 := ⟨zero⟩

end Binary64

end Deflatten
