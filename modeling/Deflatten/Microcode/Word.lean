import Deflatten.Text.Digits

/-!
# Microcode/Word — words, and the places that hold them

A size of one to seven bytes selects that many low bytes of a word; any other size stands for the
whole word.  `truncate` masks the other bytes out.  `signExtend` shifts the selected ones to the top
and back, and the sign comes in from above.

A variable is a register, a stack slot or a global, whatever the width it is accessed with.  Lists of
variables that have no order of their own are shown by `Var.sorted`.
-/

namespace Deflatten

/-! ## Widths -/

/-- **The low bytes of a word.** -/
def truncate (v : UInt64) (size : Int) : UInt64 :=
  if size ≤ 0 ∨ 8 ≤ size then v
  else v &&& ((1 : UInt64) <<< UInt64.ofNat (8 * size.toNat) - 1)

/-- **The low bytes of a word as a signed number.** -/
def signExtend (v : UInt64) (size : Int) : Int :=
  if size ≤ 0 ∨ 8 ≤ size then v.toInt64.toInt
  else
    let shift := 64 - 8 * size.toNat
    ((v <<< UInt64.ofNat shift).toInt64 >>> Int64.ofNat shift).toInt

/-! ## Storage locations -/

/-- The register that stack slots are relative to unless they say otherwise. -/
def stackBase : Int := 31

/-- **A storage location**, regardless of the size of an access. -/
inductive Var where
  /-- A register. -/
  | reg (number : Int)
  /-- A slot at an offset from a base register. -/
  | stack (base off : Int)
  /-- A global address. -/
  | global (addr : UInt64)
deriving DecidableEq, Repr

namespace Var

/-- A global, which every caller can see. -/
def isGlobal : Var → Bool
  | global _ => true
  | _ => false

/-- What the order of variables compares: registers, then slots, then globals; then the register;
then the offset or the address as a signed number. -/
def sortKey : Var → Nat × Int × Int
  | reg n => (0, n, 0)
  | stack base off => (1, base, off)
  | global addr => (2, 0, addr.toInt64.toInt)

/-- The order of variables. -/
def le (a b : Var) : Bool :=
  let (ka, ra, oa) := a.sortKey
  let (kb, rb, ob) := b.sortKey
  if ka ≠ kb then ka < kb else if ra ≠ rb then ra < rb else oa ≤ ob

/-- Variables in their order. -/
def sorted (vs : List Var) : List Var := vs.mergeSort le

/-- The printed form. -/
def text : Var → String
  | reg n => "r" ++ Text.decimal n
  | stack base off =>
    if base = stackBase then "%var_" ++ Text.signedHex off
    else "[r" ++ Text.decimal base ++ Text.signedDecimal off ++ "]"
  | global addr => "$0x" ++ Text.hex addr.toNat

/-- A list of variables between braces. -/
def listText (vs : List Var) : String := "\x7b" ++ ",".intercalate (vs.map text) ++ "\x7d"

end Var

end Deflatten
