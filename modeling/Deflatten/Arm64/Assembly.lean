import Deflatten.Arm64.Blocks
import Deflatten.Text.Digits

/-!
# Arm64/Assembly — instructions as text

A word is printed as its operation and operands; targets are printed relative to the instruction, as
byte offsets modulo `2 ^ 64`.  A word outside the printed classes stands as data.
-/

namespace Deflatten

/-- The name of a condition. -/
def Condition.name : Condition → String
  | eq => "EQ" | ne => "NE" | hs => "CS" | lo => "CC" | mi => "MI" | pl => "PL" | vs => "VS"
  | vc => "VC" | hi => "HI" | ls => "LS" | ge => "GE" | lt => "LT" | gt => "GT" | le => "LE"

namespace Assembly

/-- A general register; 31 is zero. -/
def reg (wide : Bool) (n : Nat) : String :=
  (if wide then "X" else "W") ++ if n = 31 then "ZR" else Text.decimal n

/-- A general register; 31 is the stack pointer. -/
def regOrStack (wide : Bool) (n : Nat) : String :=
  if n = 31 then (if wide then "SP" else "WSP") else reg wide n

/-- A constant. -/
def imm (n : Nat) : String := "#0x" ++ Text.hex n

/-- A target, as the bytes between it and the instruction. -/
def offset (words : Int) : String := ".+0x" ++ Text.hex (Encoding.jumpFrom 0 words).toNat

/-- An operation with its operands. -/
def line (op : String) (operands : List String) : String := op ++ " " ++ ", ".intercalate operands

/-- A moved constant: in place, or with the number of places it is moved by. -/
def shifted (n places : Nat) : List String :=
  imm n :: if places = 0 then [] else ["LSL #" ++ Text.decimal places]

/-- A constant at one of four places; the places of the narrow form are two. -/
def moveWide? (w : Encoding) : Option String :=
  let places := w.slice 21 2 * 16
  let n := w.slice 5 16
  if !w.wide && 32 ≤ places then none
  else match w.slice 29 2 with
    | 2 =>
      if n = 0 && places ≠ 0 then some (line "MOVZ" (reg w.wide w.rd :: shifted n places))
      else some (line "MOV" [reg w.wide w.rd, imm (n <<< places)])
    | 3 => some (line "MOVK" (reg w.wide w.rd :: shifted n places))
    | _ => none

/-- Addition, subtraction or comparison with a constant. -/
def addSubImm? (w : Encoding) : Option String :=
  let n := shifted (w.slice 10 12) (if w.bit 22 then 12 else 0)
  let rn := regOrStack w.wide w.rn
  match w.slice 29 2 with
  | 0 => some (line "ADD" (regOrStack w.wide w.rd :: rn :: n))
  | 2 => some (line "SUB" (regOrStack w.wide w.rd :: rn :: n))
  | 3 => if w.rd = 31 then some (line "CMP" (rn :: n)) else none
  | _ => none

/-- A load or store with a scaled offset from a base register. -/
def access (w : Encoding) : String :=
  let off := w.slice 10 12 * if w.bit 30 then 8 else 4
  let base := regOrStack true w.rn
  line (if w.bit 22 then "LDR" else "STR")
    [reg (w.bit 30) w.rd, "[" ++ base ++ (if off = 0 then "" else ",#" ++ Text.decimal off) ++ "]"]

/-- **The text of a word**, if it is of a printed class. -/
def text? (w : Encoding) : Option String :=
  if w = 0xD503201F then some "NOP "
  else if w.fits 0xFFFFFC1F 0xD65F0000 then some (line "RET" [reg true w.rn])
  else if w.fits 0xFFFFFC1F 0xD63F0000 then some (line "BLR" [reg true w.rn])
  else if w.fits 0xFC000000 0x14000000 then some (line "B" [offset (w.signed 0 26)])
  else if w.fits 0xFC000000 0x94000000 then some (line "BL" [offset (w.signed 0 26)])
  else if w.fits 0xFF000010 0x54000000 then
    (Condition.ofCode? (w.slice 0 4)).map fun c => line "B" [c.name, offset (w.signed 5 19)]
  else if w.fits 0x7E000000 0x34000000 then
    some (line (if w.bit 24 then "CBNZ" else "CBZ") [reg w.wide w.rd, offset (w.signed 5 19)])
  else if w.fits 0x7E000000 0x36000000 then
    let bit := (if w.wide then 32 else 0) + w.slice 19 5
    some (line (if w.bit 24 then "TBNZ" else "TBZ")
      [reg w.wide w.rd, "#" ++ Text.decimal bit, offset (w.signed 5 14)])
  else if w.fits 0x1F800000 0x12800000 then moveWide? w
  else if w.fits 0x1F800000 0x11000000 then addSubImm? w
  else if w.fits 0x7FE0FC1F 0x6B00001F then
    some (line "CMP" [reg w.wide w.rn, reg w.wide w.rm])
  else if w.fits 0xBF800000 0xB9000000 then some (access w)
  else if w.fits 0x7FE0FC00 0x1AC00C00 then
    some (line "SDIV" [reg w.wide w.rd, reg w.wide w.rn, reg w.wide w.rm])
  else none

end Assembly

namespace Inst

/-- The text up to its first blank. -/
def mnemonicOf (text : String) : String := String.ofList (text.toList.takeWhile (· ≠ ' '))

/-- What follows the first blank of the text. -/
def operands (i : Inst) : String := String.ofList ((i.text.toList.dropWhile (· ≠ ' ')).drop 1)

/-- **The instruction of a word at an address**, with its text. -/
def ofWord (addr : UInt64) (w : Encoding) : Inst :=
  let text := (Assembly.text? w).getD (".word 0x" ++ Text.paddedHex 8 w.toNat)
  { addr := addr, raw := w, mnemonic := mnemonicOf text, text := text }

/-- The number of instructions that are read where no limit is given. -/
def defaultLimit : Nat := 1000000

/-- The instructions of the whole words among the bytes loaded at an address. -/
def ofBytes (addr : UInt64) : (limit : Nat) → List UInt8 → List Inst
  | n + 1, a :: b :: c :: d :: rest =>
    ofWord addr (.ofBytes a b c d) :: ofBytes (addr + 4) n rest
  | _, _ => []

/-- **Disassembles bytes loaded at an address**, up to a limit if it is positive. -/
def disassemble (base : UInt64) (limit : Int) (bytes : List UInt8) : List Inst :=
  ofBytes base (if 0 < limit then limit.toNat else defaultLimit) bytes

end Inst

end Deflatten
