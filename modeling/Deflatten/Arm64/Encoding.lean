/-!
# Arm64/Encoding — fields of an instruction word

An instruction is a word of 32 bits.  A class of instructions is told by the bits under a mask, and
its parameters are slices of the others.

A logical immediate is an element of 2, 4, …, 64 bits, a run of ones rotated to the right, repeated
to fill the word.
-/

namespace Deflatten

/-- An instruction word. -/
abbrev Encoding := BitVec 32

namespace Encoding

/-- The bits under a mask have the given values. -/
def fits (w : Encoding) (mask value : BitVec 32) : Bool := w &&& mask == value

/-- One bit. -/
def bit (w : Encoding) (i : Nat) : Bool := w.getLsbD i

/-- The `n` bits from bit `lo` up, as a number. -/
def slice (w : Encoding) (lo n : Nat) : Nat := (w.extractLsb' lo n).toNat

/-- The `n` bits from bit `lo` up, as a signed number. -/
def signed (w : Encoding) (lo n : Nat) : Int := (w.extractLsb' lo n).toInt

/-- The destination register. -/
def rd (w : Encoding) : Nat := w.slice 0 5

/-- The first source register, or the base of an address. -/
def rn (w : Encoding) : Nat := w.slice 5 5

/-- The third field of register numbers. -/
def ra (w : Encoding) : Nat := w.slice 10 5

/-- The second source register. -/
def rm (w : Encoding) : Nat := w.slice 16 5

/-- The 64-bit form of an instruction that has two widths. -/
def wide (w : Encoding) : Bool := w.bit 31

/-- The bytes an operation works on. -/
def width (wide : Bool) : Int := if wide then 8 else 4

/-- The width of an instruction that has two. -/
def size (w : Encoding) : Int := width w.wide

/-- The address reached by a jump of `n` words from `pc`. -/
def jumpFrom (pc : UInt64) (words : Int) : UInt64 := pc + UInt64.ofInt (words * 4)

/-- The four bytes of a word, lowest first. -/
def bytes (w : Encoding) : List UInt8 :=
  [0, 8, 16, 24].map fun lo => UInt8.ofNat (w.slice lo 8)

/-- The word of four bytes, lowest first. -/
def ofBytes (a b c d : UInt8) : Encoding :=
  BitVec.ofNat 32 (a.toNat + 256 * (b.toNat + 256 * (c.toNat + 256 * d.toNat)))

/-- **A class fixes the bits under its mask.** -/
theorem bit_eq_of_fits {w mask value : Encoding} (h : w.fits mask value = true) {i : Nat}
    (hi : mask.getLsbD i = true) : w.bit i = value.getLsbD i := by
  have h' : w &&& mask = value := by simpa [fits] using h
  rw [← h', BitVec.getLsbD_and, hi, Bool.and_true, bit]

end Encoding

/-! ## The immediates of logical instructions -/

namespace Bitmask

/-- The bit length of the element size: from the highest clear bit of `imms`, or 6 for the element
that fills the word. -/
def elementLog? (n : Bool) (imms : Nat) : Option Nat :=
  if n then some 6
  else (([5, 4, 3, 2, 1] : List Nat).find? fun i => !imms.testBit i)

/-- An element of `size` bits rotated to the right. -/
def rotate (size v r : Nat) : Nat := (v >>> r) + (v % (1 <<< r)) <<< (size - r)

/-- `count` copies of an element of `size` bits, side by side. -/
def replicate (size v : Nat) : (count : Nat) → Nat
  | 0 => 0
  | c + 1 => v + replicate size v c <<< size

/-- **The value of a logical immediate**, in a word of 32 or 64 bits. -/
def decode? (wide n : Bool) (immr imms : Nat) : Option UInt64 :=
  if n && !wide then none
  else
    (elementLog? n imms).map fun log =>
      let size := 1 <<< log
      let ones := (1 <<< (imms % size + 1)) - 1
      let element := rotate size ones (immr % size)
      UInt64.ofNat (replicate size element ((if wide then 64 else 32) / size))

end Bitmask

end Deflatten
