import Deflatten.Microcode.Block

/-!
# Microcode/Func — functions as numbered blocks

Block 0 is the entry.  A serial is looked up by position, so a function in order has each block at
the position its serial says.
-/

namespace Deflatten

/-! ## Maturities -/

/-- How far a function has come through the optimization stages. -/
inductive Maturity where
  /-- As it was lifted. -/
  | lifted
  /-- Calls have been resolved. -/
  | calls
  /-- After the first global optimization. -/
  | glbopt1
  /-- After the second. -/
  | glbopt2
deriving DecidableEq, Repr, Inhabited

namespace Maturity

/-- The stages in order. -/
def all : List Maturity := [lifted, calls, glbopt1, glbopt2]

/-- The name a stage is written with. -/
def name : Maturity → String
  | lifted => "lifted"
  | calls => "calls"
  | glbopt1 => "glbopt1"
  | glbopt2 => "glbopt2"

/-- The stage of a name. -/
def ofName? (s : String) : Option Maturity := all.find? fun m => m.name == s

/-- The number of a stage. -/
def code (m : Maturity) : Nat := all.idxOf m

/-- The stage of a number. -/
def ofCode? (n : Int) : Option Maturity := if 0 ≤ n then all[n.toNat]? else none

/-- The printed form of a number, with or without a stage. -/
def printCode (n : Int) : String :=
  match ofCode? n with
  | some m => m.name
  | none => "maturity(" ++ Text.decimal n ++ ")"

/-- The message for a number that no stage has. -/
def invalidCode (n : Int) : String := "mcode: invalid maturity " ++ Text.decimal n

/-- The message for a name that no stage has. -/
def unknownName (s : String) : String := "mcode: unknown maturity " ++ Text.quoted s

@[simp] theorem ofName?_name (m : Maturity) : ofName? m.name = some m := by
  cases m <;> rfl

end Maturity

/-! ## Functions -/

/-- **A function**: its blocks in the order of their serials. -/
structure Func where
  /-- Its name. -/
  name : String := ""
  /-- The stage it has reached. -/
  maturity : Maturity := .lifted
  /-- Its blocks, or nothing if the list was never set. -/
  body : Option (List Block) := none
deriving DecidableEq, Repr, Inhabited

namespace Func

/-- **The blocks of a function.** -/
def blocks (f : Func) : List Block := f.body.getD []

/-- The function with other blocks. -/
def withBlocks (f : Func) (bs : List Block) : Func := { f with body := some bs }

/-- The function with each block changed by its position. -/
def mapBlocks (f : Func) (g : Nat → Block → Block) : Func :=
  { f with body := f.body.map fun bs => bs.mapIdx g }

/-- The block at a serial. -/
def block? (f : Func) (serial : Int) : Option Block :=
  if 0 ≤ serial then f.blocks[serial.toNat]? else none

/-- The function with the block at a serial changed. -/
def modifyBlock (f : Func) (serial : Int) (g : Block → Block) : Func :=
  if 0 ≤ serial then { f with body := f.body.map fun bs => bs.modify serial.toNat g } else f

/-- Whether a serial names a block. -/
def hasSerial (f : Func) (serial : Int) : Bool := 0 ≤ serial && serial < f.blocks.length

/-- The number of instructions. -/
def numInsns (f : Func) : Nat := (f.blocks.flatMap Block.insns).length

/-- The function again, every list set. -/
def copy (f : Func) : Func :=
  f.withBlocks (f.blocks.map fun b => { b.copy with preds := b.preds, succs := b.succs })

@[simp] theorem blocks_withBlocks (f : Func) (bs : List Block) : (f.withBlocks bs).blocks = bs := rfl

@[simp] theorem blocks_mapBlocks (f : Func) (g : Nat → Block → Block) :
    (f.mapBlocks g).blocks = f.blocks.mapIdx g := by
  cases h : f.body <;> simp [mapBlocks, blocks, h]

end Func

end Deflatten
