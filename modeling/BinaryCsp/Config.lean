/-!
# Search switches

The four heuristics compose freely: each of the sixteen combinations is a legal configuration.
-/

namespace BinaryCsp

/-- How to choose among variables that score equally. -/
inductive TieBreak where
  /-- The lowest variable wins. -/
  | lowest
  /-- A candidate drawn from a random stream that the seed determines. -/
  | seeded (seed : UInt64)
deriving DecidableEq

structure Config where
  /-- Choose a variable with the fewest remaining values. -/
  mrv : Bool
  /-- Choose a variable with the most unassigned neighbours: among those that `mrv` leaves, or
  among all. -/
  degree : Bool
  /-- Try the values that rule out the fewest options first. -/
  lcv : Bool
  /-- Restore arc consistency after every assignment. -/
  ac3 : Bool
  tieBreak : TieBreak
deriving DecidableEq

namespace Config

/-- Everything off: variables and values in order, forward checking only. -/
def plain : Config := ⟨false, false, false, false, .lowest⟩

/-- Fewest remaining values, least constraining value and arc consistency. -/
def standard : Config := ⟨true, false, true, true, .lowest⟩

/-- All combinations of the switches. The bits of the position are, from the lowest, `mrv`,
`degree`, `lcv` and `ac3`. -/
def combinations : List Config :=
  (List.range 16).map fun bits =>
    ⟨bits.testBit 0, bits.testBit 1, bits.testBit 2, bits.testBit 3, .lowest⟩

def combination? (c : Config) : Option Nat := combinations.idxOf? c

def summary (c : Config) : String :=
  s!"MRV: {c.mrv}. DH: {c.degree}. LCV: {c.lcv}. AC3: {c.ac3}"

end Config

end BinaryCsp
