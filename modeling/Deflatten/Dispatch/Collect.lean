import Deflatten.Dispatch.Explore

/-!
# Dispatch/Collect — every believed region of a function

Blocks are tried as entries in the order of their serials.  A block inside an accepted region is not
tried, and a region that overlaps an accepted one is dropped, so the lowest entry wins.
-/

namespace Deflatten

namespace Region

/-- Whether a region is too small to be one. -/
def isSmall (cfg : Config) (d : Region) : Bool :=
  d.internal.length < cfg.minInternalBlocks || d.exits.length < cfg.minExitBlocks ||
    d.distinctValues < cfg.minComparisonValues

end Region

/-- What came of a collection. -/
structure Collection where
  /-- The accepted regions in the order of their entries. -/
  regions : List Region := []
  /-- Why it stopped early, if it did. -/
  error? : Option EngineError := none
  /-- What there is to tell. -/
  events : List Event := []

namespace Collection

/-- Tells something before the rest. -/
def telling (events : List Event) (c : Collection) : Collection :=
  { c with events := events ++ c.events }

/-- Puts a region in front. -/
def adding (d : Region) (c : Collection) : Collection := { c with regions := d :: c.regions }

end Collection

namespace Func

/-- Tries the blocks in turn, the serials in `taken` belonging to accepted regions. -/
def collectFrom (cfg : Config) (f : Func) (hub last : Int) :
    (taken : List Int) → List (Block × Nat) → Collection
  | _, [] => {}
  | taken, (b, place) :: rest =>
    if b.serial ∈ taken then f.collectFrom cfg hub last taken rest
    else
      let x := Region.explore cfg f hub last place b
      let d := x.region
      match x.verdict with
      | .error e => { error? := some e, events := x.events }
      | .ok false => (f.collectFrom cfg hub last taken rest).telling x.events
      | .ok true =>
        if d.isSmall cfg then
          (f.collectFrom cfg hub last taken rest).telling
            (x.events ++ [.belowThresholds f.name d.entrySerial d.internal.length d.exits.length
              d.distinctValues])
        else if d.internalSerials.any fun s => s ∈ taken then
          (f.collectFrom cfg hub last taken rest).telling
            (x.events ++ [.overlapDropped f.name b.serial])
        else
          ((f.collectFrom cfg hub last (taken ++ d.internalSerials) rest).adding d).telling
            x.events

/-- **The dispatcher regions of a function.** -/
def collect (cfg : Config) (f : Func) : Collection :=
  let hub := f.guessHub cfg.minPredecessors
  match f.lastBeforeHub hub with
  | .error e => { error? := some e }
  | .ok last =>
    let told := if hub = noBlock then [] else [Event.hubGuessed f.name hub last]
    (f.collectFrom cfg hub last [] f.blocks.zipIdx).telling told

end Func

end Deflatten
