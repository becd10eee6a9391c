import Deflatten.Dispatch.Region

/-!
# Dispatch/Report — the record of what was found and done

A summary describes one accepted region with the serials of the pass that found it; a report gathers
what a removal did to one function at one stage.
-/

namespace Deflatten

/-- The record of one region. -/
structure Summary where
  /-- The pass that found it. -/
  pass : Int := 0
  /-- The serial of its entry. -/
  entry : Int := 0
  /-- Its internal serials. -/
  internal : List Int := []
  /-- Its exit serials. -/
  exits : List Int := []
  /-- Its constants. -/
  values : List UInt64 := []
  /-- The share of set bits in them. -/
  entropy : Binary64 := .zero
  /-- Whether it was taken for its entry being the hub. -/
  viaHub : Bool := false
deriving DecidableEq, Repr, Inhabited

/-- The record of a region in a pass. -/
def Region.summarize (d : Region) (pass : Int) : Summary :=
  { pass := pass, entry := d.entrySerial, internal := d.internalSerials, exits := d.exitSerials,
    values := d.values, entropy := d.entropy, viaHub := d.viaHub }

/-- **The record of a removal** of one function at one stage. -/
structure Report where
  /-- The function. -/
  func : String := ""
  /-- The stage. -/
  maturity : String := ""
  /-- The passes that changed something or tried to. -/
  passes : Int := 0
  /-- The regions met. -/
  dispatchers : List Summary := []
  /-- Edges moved past a dispatcher. -/
  redirected : Int := 0
  /-- Blocks copied. -/
  duplicated : Int := 0
  /-- Edges left alone because their state is not known. -/
  unresolved : Int := 0
  /-- The number of blocks before. -/
  blocksBefore : Int := 0
  /-- The number of blocks after. -/
  blocksAfter : Int := 0
  /-- The budget that stopped the removal, if one did. -/
  exhausted : String := ""
deriving DecidableEq, Repr, Inhabited

/-- Whether an edge was moved. -/
def Report.changed (r : Report) : Bool := 0 < r.redirected

end Deflatten
