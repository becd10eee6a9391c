import Deflatten.Binary64.Decimal
import Deflatten.Microcode.Func

/-!
# Dispatch/Config — the tunables of the engine

What a dispatcher region has to show before it is believed, and how far a removal may go.
-/

namespace Deflatten

/-- Which blocks may start a region. -/
inductive EntryPolicy where
  /-- One that compares afresh, or the guessed hub. -/
  | candidateOrHub
  /-- One that compares afresh. -/
  | candidateOnly
  /-- A policy of no known name. -/
  | other (name : String)
deriving DecidableEq, Repr

namespace EntryPolicy

/-- The name a policy is written with. -/
def name : EntryPolicy → String
  | candidateOrHub => "candidate_or_hub"
  | candidateOnly => "candidate_only"
  | other s => s

/-- The policy of a name. -/
def ofName (s : String) : EntryPolicy :=
  if s = "candidate_or_hub" then candidateOrHub
  else if s = "candidate_only" then candidateOnly
  else other s

end EntryPolicy

/-- **The tunables of the engine.** -/
structure Config where
  /-- How many predecessors a hub has at least, and one more. -/
  minPredecessors : Int := 4
  /-- The fewest internal blocks of a region. -/
  minInternalBlocks : Int := 2
  /-- The fewest exits of a region. -/
  minExitBlocks : Int := 3
  /-- The fewest distinct constants of a region. -/
  minComparisonValues : Int := 2
  /-- The least share of set bits in the constants. -/
  entropyMin : Binary64 := .ofDecimal false 3 (-1)
  /-- The greatest share of set bits in the constants. -/
  entropyMax : Binary64 := .ofDecimal false 7 (-1)
  /-- Whether internal blocks but the entry may be entered from inside only. -/
  strictExternalFathers : Bool := true
  /-- Which blocks may start a region. -/
  entryPolicy : EntryPolicy := .candidateOrHub
  /-- The most passes over a function at one stage. -/
  maxPasses : Int := 5
  /-- The most copies of blocks in one pass. -/
  maxDuplications : Int := 20
  /-- The most blocks a state value is tracked back through. -/
  maxTrackDepth : Int := 8
  /-- The stages at which dispatchers are removed. -/
  maturities : List Maturity := [.calls, .glbopt1, .glbopt2]
deriving DecidableEq, Repr, Inhabited

/-- Why a configuration is refused. -/
inductive ConfigError where
  /-- A negative least number of predecessors. -/
  | minPredecessors (got : Int)
  /-- Bounds that are not an interval of shares. -/
  | entropyBounds (lo hi : Binary64)
  /-- No pass allowed. -/
  | maxPasses (got : Int)
  /-- A negative number of copies. -/
  | maxDuplications (got : Int)
  /-- No tracking allowed. -/
  | maxTrackDepth (got : Int)
  /-- A policy of no known name. -/
  | entryPolicy (name : String)
deriving DecidableEq, Repr

/-- The wording of an error. -/
def ConfigError.message : ConfigError → String
  | minPredecessors got => "unflat: min_predecessors must be >= 0, got " ++ Text.decimal got
  | entropyBounds lo hi =>
    "unflat: entropy bounds [" ++ String.ofList (lo.format .message) ++ ", " ++
      String.ofList (hi.format .message) ++ "] out of [0, 1]"
  | maxPasses got => "unflat: max_passes must be >= 1, got " ++ Text.decimal got
  | maxDuplications got => "unflat: max_duplications must be >= 0, got " ++ Text.decimal got
  | maxTrackDepth got => "unflat: max_track_depth must be >= 1, got " ++ Text.decimal got
  | entryPolicy name => "unflat: unknown entry_policy " ++ Text.quoted name

namespace Config

/-- **Checks that the engine can run with a configuration**, in the order of the keys. -/
def validate (c : Config) : Except ConfigError Unit :=
  if c.minPredecessors < 0 then .error (.minPredecessors c.minPredecessors)
  else if c.entropyMin.lt .zero || Binary64.one.lt c.entropyMax || c.entropyMax.lt c.entropyMin then
    .error (.entropyBounds c.entropyMin c.entropyMax)
  else if c.maxPasses < 1 then .error (.maxPasses c.maxPasses)
  else if c.maxDuplications < 0 then .error (.maxDuplications c.maxDuplications)
  else if c.maxTrackDepth < 1 then .error (.maxTrackDepth c.maxTrackDepth)
  else match c.entryPolicy with
    | .other s => .error (.entryPolicy s)
    | _ => .ok ()

/-- Whether dispatchers are removed at a stage. -/
def unflattensAt (c : Config) (m : Maturity) : Bool := m ∈ c.maturities

end Config

end Deflatten
