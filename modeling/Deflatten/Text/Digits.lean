/-!
# Text/Digits — numerals in decimal and hexadecimal

Lower-case digits throughout.  A negative number is a minus sign and the numeral of its magnitude, in
either base.
-/

namespace Deflatten.Text

/-- The decimal digits of a natural number, most significant first. -/
def decimalDigits (n : Nat) : List Char := Nat.toDigits 10 n

/-- The hexadecimal digits of a natural number, most significant first. -/
def hexDigits (n : Nat) : List Char := Nat.toDigits 16 n

/-- The decimal characters of an integer. -/
def decimalChars (i : Int) : List Char :=
  if i < 0 then '-' :: decimalDigits i.natAbs else decimalDigits i.natAbs

/-- An integer in decimal. -/
def decimal (i : Int) : String := String.ofList (decimalChars i)

/-- An integer in decimal with its sign always written. -/
def signedDecimal (i : Int) : String := if i < 0 then decimal i else "+" ++ decimal i

/-- A natural number in hexadecimal. -/
def hex (n : Nat) : String := String.ofList (hexDigits n)

/-- An integer in hexadecimal: the sign, then the magnitude. -/
def signedHex (i : Int) : String := if i < 0 then "-" ++ hex i.natAbs else hex i.natAbs

/-- Characters padded on the left with zeros to at least `width`. -/
def zeroPadded (width : Nat) (cs : List Char) : List Char :=
  List.replicate (width - cs.length) '0' ++ cs

/-- A natural number in hexadecimal, at least `width` digits wide. -/
def paddedHex (width n : Nat) : String := String.ofList (zeroPadded width (hexDigits n))

/-- The value of a decimal digit. -/
def decimalValue? (c : Char) : Option Nat :=
  if '0' ≤ c ∧ c ≤ '9' then some (c.toNat - '0'.toNat) else none

/-- The value of a hexadecimal digit, in either case. -/
def hexValue? (c : Char) : Option Nat :=
  if '0' ≤ c ∧ c ≤ '9' then some (c.toNat - '0'.toNat)
  else if 'a' ≤ c ∧ c ≤ 'f' then some (c.toNat - 'a'.toNat + 10)
  else if 'A' ≤ c ∧ c ≤ 'F' then some (c.toNat - 'A'.toNat + 10)
  else none

/-- Reads a run of digits onto `acc` in the given base; `none` at the first character that is no
digit. -/
def readDigits (base : Nat) (value? : Char → Option Nat) : Nat → List Char → Option Nat
  | acc, [] => some acc
  | acc, c :: cs => (value? c).bind fun d => readDigits base value? (acc * base + d) cs

/-- A nonempty run of decimal digits, as a number. -/
def readDecimal? (cs : List Char) : Option Nat :=
  if cs.isEmpty then none else readDigits 10 decimalValue? 0 cs

/-- A nonempty run of hexadecimal digits, as a number. -/
def readHex? (cs : List Char) : Option Nat :=
  if cs.isEmpty then none else readDigits 16 hexValue? 0 cs

/-- The bytes a hexadecimal text spells, two digits each; `none` on an odd length or a foreign
character. -/
def readHexBytes? : List Char → Option (List UInt8)
  | [] => some []
  | [_] => none
  | a :: b :: rest => do
    let hi ← hexValue? a
    let lo ← hexValue? b
    let more ← readHexBytes? rest
    pure (UInt8.ofNat (hi * 16 + lo) :: more)

/-- Two hexadecimal digits per byte. -/
def hexOfBytes (bs : List UInt8) : String :=
  String.ofList (bs.flatMap fun b => zeroPadded 2 (hexDigits b.toNat))

/-- Whether a number is a signed one of 64 bits. -/
def isInt64 (i : Int) : Bool := -0x8000000000000000 ≤ i && i < 0x8000000000000000

end Deflatten.Text
