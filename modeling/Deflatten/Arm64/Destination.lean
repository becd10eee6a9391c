import Deflatten.Arm64.Encoding

/-!
# Arm64/Destination — the register a word writes

What an instruction computes may be unknown while the register that receives it is not.  The classes
are listed with the bits that tell them; words outside them write no general register.
-/

namespace Deflatten.Encoding

/-- A shifted operand that the word form can have: fewer than 32 places. -/
def shiftInRange (w : Encoding) : Bool := w.wide || w.slice 10 6 < 32

/-- A field of bits inside the word: the extra size bit agrees with the width, and the positions are
below 32 in the narrow form. -/
def bitfieldInRange (w : Encoding) : Bool :=
  w.bit 22 == w.wide && (w.wide || (w.slice 16 6 < 32 && w.slice 10 6 < 32))

/-- The bytes a load fills, by its access size and its kind: extended with zeros, or with the sign to
8 or to 4 bytes. -/
def loadWidth? (w : Encoding) : Option Int :=
  match w.slice 30 2, w.slice 22 2 with
  | 3, 1 => some 8
  | _, 1 => some 4
  | 0, 2 | 1, 2 | 2, 2 => some 8
  | 0, 3 | 1, 3 => some 4
  | _, _ => none

/-- The bytes of the destination, if the word writes a general register. -/
def destinationWidth? (w : Encoding) : Option Int :=
  let sf := some w.size
  -- add and subtract, shifted and extended
  if w.fits 0x1F200000 0x0B000000 then
    if w.shiftInRange && (w.slice 22 2 != 3 || w.slice 10 6 == 0) then sf else none
  else if w.fits 0x1FE00000 0x0B200000 then sf
  -- logical, shifted
  else if w.fits 0x1F000000 0x0A000000 then if w.shiftInRange then sf else none
  -- bit fields and extraction
  else if w.fits 0x1F800000 0x13000000 then
    if w.slice 29 2 != 3 && w.bitfieldInRange then sf else none
  else if w.fits 0x7FA00000 0x13800000 then
    if w.bit 22 == w.wide && w.shiftInRange then sf else none
  -- carry, conditional select, one and two sources
  else if w.fits 0x1FE0FC00 0x1A000000 then sf
  else if w.fits 0x3FE00800 0x1A800000 then sf
  else if w.fits 0x7FFFE000 0x5AC00000 then
    if w.slice 10 3 < 6 && (w.wide || w.slice 10 3 != 3) then sf else none
  else if w.fits 0x7FE0F800 0x1AC00800 then sf
  else if w.fits 0x7FE0F000 0x1AC02000 then sf
  -- long multiplication
  else if w.fits 0xFF600000 0x9B200000 || w.fits 0xFF608000 0x9B400000 then some 8
  -- system registers
  else if w.fits 0xFFF00000 0xD5300000 then some 8
  -- loads
  else if w.fits 0x3F000000 0x39000000 || w.fits 0x3F200000 0x38000000 then w.loadWidth?
  else if w.fits 0x3F204C00 0x38204800 then w.loadWidth?
  else if w.fits 0x3F000000 0x18000000 then
    match w.slice 30 2 with
    | 0 => some 4
    | 1 | 2 => some 8
    | _ => none
  else if w.fits 0xFE400000 0x68400000 && w.slice 23 2 != 0 then some 8
  else if w.fits 0x3FE00000 0x08400000 || w.fits 0x3FE08000 0x08C08000 then
    some (width (w.slice 30 2 == 3))
  -- moves and conversions from floating point
  else if w.fits 0xFFFFFC00 0x1E260000 || w.fits 0xFFFFFC00 0x9E660000 then sf
  else if w.fits 0x7FBFFC00 0x1E380000 then sf
  else none

/-- **The general register a word writes**, with the bytes written.  Register 31 is none. -/
def destination? (w : Encoding) : Option (Nat × Int) :=
  if w.rd = 31 then none else w.destinationWidth?.map fun n => (w.rd, n)

end Deflatten.Encoding
