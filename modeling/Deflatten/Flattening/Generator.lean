/-!
# Flattening/Generator — a permuted congruential generator

The state is a 128-bit number that each draw multiplies and adds to; the number drawn is a
permutation of the high half, keyed by the low one.  The step visits every state once before it comes
back, so after `Generator.period` draws nothing new appears.
-/

namespace Deflatten

/-- A generator of 64-bit numbers. -/
structure Generator where
  /-- The state, below `2 ^ 128`. -/
  state : Nat
deriving DecidableEq, Repr

namespace Generator

/-- The generator with the two halves of its state. -/
def ofHalves (hi lo : UInt64) : Generator := ⟨hi.toNat * UInt64.size + lo.toNat⟩

/-- The generator of a seed. -/
def ofSeed (seed : UInt64) : Generator := ofHalves seed (seed ^^^ 0x9e3779b97f4a7c15)

/-- The multiplier of a step. -/
def multiplier : Nat := 2549297995355413924 * UInt64.size + 4865540595714422341

/-- The increment of a step. -/
def increment : Nat := 6364136223846793005 * UInt64.size + 1442695040888963407

/-- The number of draws after which the states repeat. -/
def period : Nat := UInt64.size * UInt64.size

/-- The state after a draw. -/
def step (g : Generator) : Generator := ⟨(g.state * multiplier + increment) % period⟩

/-- The number that a state stands for. -/
def output (g : Generator) : UInt64 :=
  let hi := UInt64.ofNat (g.state / UInt64.size)
  let lo := UInt64.ofNat (g.state % UInt64.size)
  let hi := hi ^^^ (hi >>> 32)
  let hi := hi * 0xda942042e4dd58b5
  let hi := hi ^^^ (hi >>> 48)
  hi * (lo ||| 1)

/-- **Draws a number.** -/
def next (g : Generator) : UInt64 × Generator := (g.step.output, g.step)

end Generator

end Deflatten
