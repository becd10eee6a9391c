import Deflatten.Binary64.Basic
import Deflatten.Text.Digits

/-!
# Binary64/Decimal — numbers in decimal, read and written

`shortest` gives the fewest digits that still read back as the number, and of those the nearest.  On
a grid of powers of ten the coarsest one that meets the rounding interval has the fewest digits, so
the search walks the grids from coarse to fine and looks at the two neighbours of the number on each.
-/

namespace Deflatten.Binary64

open Text

/-! ## The fewest digits -/

/-- A decimal `digits · 10 ^ exp`. -/
structure Decimal where
  /-- The digits as a number. -/
  digits : Nat
  /-- The weight of the last digit. -/
  exp : Int
deriving DecidableEq, Repr

/-- The interval of reals that round to a number, in quarters of its last place, as multiples of
`2 ^ (-1076)`; closed when the significand is even. -/
structure Interval where
  /-- The lower end. -/
  lo : Nat
  /-- The number itself. -/
  mid : Nat
  /-- The upper end. -/
  hi : Nat
  /-- Whether the ends belong to it. -/
  closed : Bool

/-- The rounding interval of a magnitude.  Below a power of two the next number is only half as far
away. -/
def interval (x : Binary64) : Interval :=
  let quarters := 4 * x.significand
  let below := if x.significand = 1 <<< 52 ∧ 1 < x.exponent then 1 else 2
  { lo := (quarters - below) <<< x.scale, mid := quarters <<< x.scale
    hi := (quarters + 2) <<< x.scale, closed := x.significand % 2 = 0 }

/-- The grid point `n · 10 ^ exp` and a multiple of `2 ^ (-1076)`, brought to one denominator. -/
def onGrid (exp : Int) (n m : Nat) : Nat × Nat :=
  if 0 ≤ exp then ((n * Nat.pow 10 exp.toNat) <<< 1076, m)
  else (n <<< 1076, m * Nat.pow 10 (-exp).toNat)

/-- Whether a grid point rounds to the number. -/
def Interval.holds (i : Interval) (exp : Int) (n : Nat) : Bool :=
  let (point, lo) := onGrid exp n i.lo
  let (_, hi) := onGrid exp n i.hi
  if i.closed then lo ≤ point && point ≤ hi else lo < point && point < hi

/-- The distance of a grid point from the number, on the grid's own scale. -/
def Interval.distance (i : Interval) (exp : Int) (n : Nat) : Nat :=
  let (point, mid) := onGrid exp n i.mid
  (point - mid) + (mid - point)

/-- The grid point at or below the number. -/
def Interval.floorOn (i : Interval) (exp : Int) : Nat :=
  if 0 ≤ exp then i.mid / (Nat.pow 10 exp.toNat <<< 1076)
  else (i.mid * Nat.pow 10 (-exp).toNat) >>> 1076

/-- The neighbour of the number on a grid that rounds to it, the nearer of two. -/
def Interval.pointOn? (i : Interval) (exp : Int) : Option Nat :=
  let n := i.floorOn exp
  match i.holds exp n, i.holds exp (n + 1) with
  | true, true => some (if i.distance exp (n + 1) < i.distance exp n then n + 1 else n)
  | true, false => some n
  | false, true => some (n + 1)
  | false, false => none

/-- Walks the grids `10 ^ exp`, `10 ^ (exp - 1)`, … until one meets the interval. -/
def Interval.search (i : Interval) : Nat → Int → Decimal
  | 0, exp => ⟨i.floorOn exp, exp⟩
  | steps + 1, exp =>
    match i.pointOn? exp with
    | some n => ⟨n, exp⟩
    | none => i.search steps (exp - 1)

/-- **The fewest digits that read back as a finite number other than zero.** -/
def shortest (x : Binary64) : Decimal := x.interval.search 634 309

/-! ## Layouts -/

/-- The place of the point: the number is `0.d₁d₂… · 10 ^ point`. -/
def Decimal.point (d : Decimal) : Int := (decimalDigits d.digits).length + d.exp

/-- Digits with a point among them: `point` digits stand before it. -/
def positional (ds : List Char) (point : Int) : List Char :=
  if point ≤ 0 then '0' :: '.' :: List.replicate (-point).toNat '0' ++ ds
  else if ds.length ≤ point.toNat then ds ++ List.replicate (point.toNat - ds.length) '0'
  else ds.take point.toNat ++ '.' :: ds.drop point.toNat

/-- One digit before the point, and a signed exponent of at least `width` digits. -/
def scientific (width : Nat) (ds : List Char) (point : Int) : List Char :=
  let e := point - 1
  let mantissa := match ds with
    | [] => []
    | [d] => [d]
    | d :: rest => d :: '.' :: rest
  mantissa ++ 'e' :: (if e < 0 then '-' else '+') :: zeroPadded width (decimalDigits e.natAbs)

/-- How a number is laid out: from which exponents on it is written with one, and how wide that is
at least. -/
structure Layout where
  /-- The least decimal exponent written positionally. -/
  least : Int
  /-- The first decimal exponent above that is not. -/
  bound : Int
  /-- The least number of exponent digits. -/
  width : Nat

/-- Messages: positional from `10 ^ (-4)` up to `10 ^ 6`, exponents of two digits. -/
def Layout.message : Layout := ⟨-4, 6, 2⟩

/-- Records: positional from `10 ^ (-6)` up to `10 ^ 21`, exponents as short as they are. -/
def Layout.record : Layout := ⟨-6, 21, 1⟩

/-- The characters of a number in a layout, its sign first. -/
def format (layout : Layout) (x : Binary64) : List Char :=
  if x.isNaN then ['N', 'a', 'N']
  else
    let body :=
      if x.isInfinite then ['I', 'n', 'f']
      else if x.significand = 0 then ['0']
      else
        let d := x.shortest
        let ds := decimalDigits d.digits
        if d.point - 1 < layout.least ∨ layout.bound ≤ d.point - 1 then
          scientific layout.width ds d.point
        else positional ds d.point
    if x.negative then '-' :: body else if x.isInfinite then '+' :: body else body

/-- A finite number with a fixed count of places, from the middle to the even neighbour. -/
def fixed (places : Nat) (x : Binary64) : String :=
  let n := roundHalfEven ((x.significand <<< x.scale) * Nat.pow 10 places) (1 <<< 1074)
  let ds := zeroPadded (places + 1) (decimalDigits n)
  let whole := ds.length - places
  let body := ds.take whole ++ (if places = 0 then [] else '.' :: ds.drop whole)
  String.ofList (if x.negative then '-' :: body else body)

/-- The sixteen hexadecimal digits of the bits. -/
def hexBits (x : Binary64) : String := "0x" ++ paddedHex 16 x.word

/-! ## Reading -/

/-- The digits, the point and the exponent of a numeral, its sign taken off: the mantissa as a
number and the power of ten it is scaled by. -/
def readMagnitude? (cs : List Char) : Option (Nat × Int) :=
  let (whole, rest) := cs.span Char.isDigit
  let (places, rest) : List Char × List Char := match rest with
    | '.' :: more => more.span Char.isDigit
    | _ => ([], rest)
  let exp? : Option Int := match rest with
    | [] => some 0
    | c :: more =>
      if c = 'e' ∨ c = 'E' then
        match more with
        | '-' :: ds => (readDecimal? ds).map fun n => -(n : Int)
        | '+' :: ds => (readDecimal? ds).map fun n => (n : Int)
        | ds => (readDecimal? ds).map fun n => (n : Int)
      else none
  match exp?, readDecimal? (whole ++ places) with
  | some e, some n => some (n, e - places.length)
  | _, _ => none

/-- **The number nearest to a decimal numeral**, with an optional sign. -/
def read? (cs : List Char) : Option Binary64 :=
  match cs with
  | '-' :: rest => (readMagnitude? rest).map fun (n, e) => ofDecimal true n e
  | '+' :: rest => (readMagnitude? rest).map fun (n, e) => ofDecimal false n e
  | _ => (readMagnitude? cs).map fun (n, e) => ofDecimal false n e

end Deflatten.Binary64
