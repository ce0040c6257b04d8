/-!
# Random reals

A permuted congruential generator: 128 bits of state move by a linear
congruence, and a draw mixes the two halves of the new state into 64 bits, of
which the low 53 give a real from zero up to one.
-/

namespace PCode

/-- The state of a generator. -/
structure Generator where
  high : UInt64
  low : UInt64
  deriving DecidableEq, Inhabited, Repr

namespace Generator

/-- The generator that a seed starts. -/
def ofSeed (seed : UInt64) : Generator := ⟨seed, seed ^^^ 0x9e3779b97f4a7c15⟩

/-- The multiplier of the congruence. -/
def multiplier : Nat := 2549297995355413924 * Nat.pow 2 64 + 4865540595714422341

/-- The increment of the congruence. -/
def increment : Nat := 6364136223846793005 * Nat.pow 2 64 + 1442695040888963407

/-- One move of the congruence. -/
def advance (g : Generator) : Generator :=
  let state := (g.high.toNat * Nat.pow 2 64 + g.low.toNat) * multiplier + increment
  ⟨UInt64.ofNat (state / Nat.pow 2 64), UInt64.ofNat state⟩

/-- The 64 bits that a state gives out. -/
def output (g : Generator) : UInt64 :=
  let h := g.high
  let h := h ^^^ (h >>> 32)
  let h := h * 0xda942042e4dd58b5
  let h := h ^^^ (h >>> 48)
  h * (g.low ||| 1)

/-- Draw a real from zero up to one. -/
def next (g : Generator) : Float × Generator :=
  let g := g.advance
  (Float.ofNat (g.output.toNat % Nat.pow 2 53) / Float.ofNat (Nat.pow 2 53), g)

/-- A new sequence, with a seed drawn from the present one. -/
def reseed (g : Generator) : Generator := ofSeed g.advance.output

end Generator

end PCode
