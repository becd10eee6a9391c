import Deflatten.Arm64.Encoding
import Deflatten.Arm64.Branch
import Deflatten.Arm64.Destination
import Deflatten.Microcode.Opcode

/-!
# Arm64/Form — what the modelled instructions do

A word that does not end a block is read as a form: the operation with its parameters, free of the
way they are encoded.  `Form.decode` tries the classes in a fixed order, and the first that fits
decides.
-/

namespace Deflatten

/-- A register operand moved by a constant number of places. -/
inductive Shift where
  /-- As it is. -/
  | none
  /-- To the left. -/
  | left (places : Nat)
  /-- To the right, zeros coming in. -/
  | right (places : Nat)
deriving DecidableEq, Repr

/-- The second source of a logical instruction. -/
inductive LogicSource where
  /-- A constant. -/
  | imm (v : UInt64)
  /-- A register, shifted and then inverted or not. -/
  | reg (rm : Nat) (shift : Shift) (invert : Bool)
deriving DecidableEq, Repr

/-- What a memory access transfers. -/
inductive Transfer where
  /-- Register to memory. -/
  | store
  /-- Memory to register, extended with zeros. -/
  | load
  /-- A load that extends the sign, or a hint. -/
  | other
deriving DecidableEq, Repr

/-- **The operation of an instruction.**  Sizes are in bytes, and a step is what is added to the base
register after the access. -/
inductive Form where
  /-- No effect. -/
  | nothing
  /-- A call. -/
  | call (c : Call)
  /-- A register gets a constant. -/
  | constant (v : UInt64) (rd : Nat) (size : Int)
  /-- Sixteen bits of a register get a constant. -/
  | insert (imm mask : UInt64) (rd : Nat) (size : Int)
  /-- Addition or subtraction of a constant; register 31 is the stack pointer. -/
  | addSubImm (sub flags : Bool) (imm : UInt64) (rn rd : Nat) (size : Int)
  /-- Addition or subtraction of a register; register 31 is zero. -/
  | addSubReg (sub flags : Bool) (rm : Nat) (shift : Shift) (rn rd : Nat) (size : Int)
  /-- A bitwise operation. -/
  | logical (op : Opcode) (flags : Bool) (b : LogicSource) (rn rd : Nat) (size : Int)
  /-- A product, added to or subtracted from a register. -/
  | multiply (sub : Bool) (rm ra rn rd : Nat) (size : Int)
  /-- A shift by a constant or the masking of low bits. -/
  | bitfield (op : Opcode) (amount : UInt64) (rn rd : Nat) (size : Int)
  /-- A shift by a register. -/
  | shiftBy (op : Opcode) (rm rn rd : Nat) (size : Int)
  /-- One if the last comparison found equality (or did not), else zero. -/
  | conditionSet (equal : Bool) (rd : Nat) (size : Int)
  /-- A load or store of one register. -/
  | access (t : Transfer) (rt rn : Nat) (off : Int) (size : Int) (step : Option Int)
  /-- A load or store of two registers side by side. -/
  | pair (load : Bool) (rt rt2 rn : Nat) (off : Int) (size : Int) (step : Option Int)
  /-- Anything else. -/
  | unmodelled
deriving DecidableEq, Repr

/-- **What is asked about words beyond the modelled classes**: the value of a logical immediate, and
the register a word writes. -/
structure Decoder where
  /-- The constant in a logical instruction. -/
  logicalImm? : Encoding → Option UInt64 :=
    fun w => Bitmask.decode? w.wide (w.bit 22) (w.slice 16 6) (w.slice 10 6)
  /-- The register that becomes unknown, with the bytes written. -/
  destination? : Encoding → Option (Nat × Int) := Encoding.destination?

namespace Form

/-- The shift of a register operand, if it is modelled. -/
def shift? (w : Encoding) : Option Shift :=
  match w.slice 10 6, w.slice 22 2 with
  | 0, _ => some .none
  | n, 0 => some (.left n)
  | n, 1 => some (.right n)
  | _, _ => none

/-- The operation of a logical instruction. -/
def logicOp : Nat → Opcode
  | 1 => .or
  | 2 => .xor
  | _ => .and

/-- A sixteen-bit constant at one of four places. -/
def moveWide (w : Encoding) : Form :=
  let places := w.slice 21 2 * 16
  let imm := UInt64.ofNat (w.slice 5 16 <<< places)
  match w.slice 29 2 with
  | 0 => constant (~~~imm) w.rd w.size
  | 2 => constant imm w.rd w.size
  | 3 => insert imm (UInt64.ofNat (0xFFFF <<< places)) w.rd w.size
  | _ => if w.rd = 31 then nothing else unmodelled

/-- The moves of a bit field that are a shift or a mask. -/
def bitfieldMove (w : Encoding) : Form :=
  let immr := w.slice 16 6
  let imms := w.slice 10 6
  let bits := if w.wide then 64 else 32
  if w.rd = 31 then nothing
  else if imms + 1 = bits then bitfield .shr (UInt64.ofNat immr) w.rn w.rd w.size
  else if imms + 1 = immr then
    let places := (BitVec.ofInt 32 (bits - 1 - imms)).toNat
    bitfield .shl (UInt64.ofNat places) w.rn w.rd w.size
  else if immr = 0 then bitfield .and (UInt64.ofNat ((1 <<< (imms + 1)) - 1)) w.rn w.rd w.size
  else unmodelled

/-- The address of a nearby byte, or of the page of one. -/
def address (w : Encoding) (pc : UInt64) : Form :=
  let off := w.signed 5 19 * 4 + w.slice 29 2
  if w.wide then constant ((pc &&& ~~~0xFFF) + UInt64.ofInt (off * 4096)) w.rd 8
  else constant (pc + UInt64.ofInt off) w.rd 8

/-- What an access transfers. -/
def transfer (w : Encoding) : Transfer :=
  match w.slice 22 2 with
  | 0 => .store
  | 1 => .load
  | _ => .other

/-- An access with an unscaled offset, before or after which the base may step. -/
def unscaled (w : Encoding) : Form :=
  let imm := w.signed 12 9
  let size : Nat := 1 <<< w.slice 30 2
  match w.slice 10 2 with
  | 1 => access (transfer w) w.rd w.rn 0 size (some imm)
  | 3 => access (transfer w) w.rd w.rn imm size (some imm)
  | _ => access (transfer w) w.rd w.rn imm size none

/-- An access to two registers. -/
def pairOf (w : Encoding) : Form :=
  let at' (size : Int) : Form :=
    let imm := w.signed 15 7 * size
    match w.slice 23 3 with
    | 1 => pair (w.bit 22) w.rd w.ra w.rn 0 size (some imm)
    | 3 => pair (w.bit 22) w.rd w.ra w.rn imm size (some imm)
    | _ => pair (w.bit 22) w.rd w.ra w.rn imm size none
  match w.slice 30 2 with
  | 0 => at' 4
  | 2 => at' 8
  | _ => unmodelled

/-- Whether the word sets a register to one or zero by a condition. -/
def isConditionSet (w : Encoding) : Bool :=
  w.fits 0x7FE00C00 0x1A800400 && w.rm == 31 && w.rn == 31

/-- **The form of a word at an address.** -/
def decode (k : Decoder) (w : Encoding) (pc : UInt64) : Form :=
  if let some c := Call.decode? w pc then call c
  else if w.fits 0xFFFFF01F 0xD503201F then nothing
  else if w.fits 0x1F800000 0x12800000 then moveWide w
  else if w.fits 0x1F800000 0x11000000 then
    let imm := w.slice 10 12 * if w.bit 22 then 4096 else 1
    addSubImm (w.bit 30) (w.bit 29) (UInt64.ofNat imm) w.rn w.rd w.size
  else if w.fits 0x1F200000 0x0B000000 then
    match shift? w with
    | some s => addSubReg (w.bit 30) (w.bit 29) w.rm s w.rn w.rd w.size
    | none => unmodelled
  else if w.fits 0x1F800000 0x12000000 then
    match k.logicalImm? w with
    | some v => logical (logicOp (w.slice 29 2)) (w.slice 29 2 == 3) (.imm v) w.rn w.rd w.size
    | none => unmodelled
  else if w.fits 0x1F000000 0x0A000000 then
    match shift? w with
    | some s =>
      logical (logicOp (w.slice 29 2)) (w.slice 29 2 == 3) (.reg w.rm s (w.bit 21)) w.rn w.rd w.size
    | none => unmodelled
  else if w.fits 0x7FE00000 0x1B000000 then multiply (w.bit 15) w.rm w.ra w.rn w.rd w.size
  else if w.fits 0x7F800000 0x53000000 then bitfieldMove w
  else if w.fits 0x7FE0F000 0x1AC02000 then
    match w.slice 10 2 with
    | 0 => shiftBy .shl w.rm w.rn w.rd w.size
    | 1 => shiftBy .shr w.rm w.rn w.rd w.size
    | _ => unmodelled
  else if isConditionSet w then
    match w.slice 12 4 with
    | 0 => conditionSet false w.rd w.size
    | 1 => conditionSet true w.rd w.size
    | _ => unmodelled
  else if w.fits 0x1F000000 0x10000000 then address w pc
  else if w.fits 0x3F000000 0x39000000 then
    let size : Nat := 1 <<< w.slice 30 2
    access (transfer w) w.rd w.rn (w.slice 10 12 * size : Nat) size none
  else if w.fits 0x3F200000 0x38000000 then unscaled w
  else if w.fits 0x3C000000 0x28000000 then pairOf w
  else unmodelled

end Form

end Deflatten
