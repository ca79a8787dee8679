import BinaryCsp.Config
import BinaryCsp.Json.Decode
import BinaryCsp.Json.Reader
import BinaryCsp.Puzzle.CircuitBoard
import BinaryCsp.Puzzle.MapColouring
import BinaryCsp.Puzzle.Sudoku

/-!
# Switches and puzzles as JSON

The written forms of a configuration and of the three puzzles.
-/

namespace BinaryCsp.Input

open Json Json.Decoder

/-- A tie-break policy: `"lowest"`, or an object whose only field is the seed. -/
def tieBreak : Decoder TieBreak
  | .string (some "lowest") => some .lowest
  | .object [(some "lowest", .null)] => some .lowest
  | .object [(some "seeded", seed)] => do return .seeded (UInt64.ofNat (← nat64 seed))
  | _ => none

/-- A configuration. Switches that are left out are as in the standard one. -/
def config : Decoder Config := fun value => do
  let standard := Config.standard
  let [mrv, degree, lcv, ac3, ties] ← record ["mrv", "degree", "lcv", "ac3", "tie_break"] value
    | none
  return {
    mrv := ← optional standard.mrv bool mrv
    degree := ← optional standard.degree bool degree
    lcv := ← optional standard.lcv bool lcv
    ac3 := ← optional standard.ac3 bool ac3
    tieBreak := ← optional standard.tieBreak tieBreak ties }

/-- A map. The colours may be left out. -/
def map : Decoder Puzzle.MapInput := fun value => do
  let [name, neighbours, colours] ← record ["name", "neighbours", "colours"] value | none
  return {
    name := ← required text name
    borders := ← required (entries (list text)) neighbours
    colours := ← optional Puzzle.MapInput.standardColours (list text) colours }

def sudoku : Decoder Puzzle.SudokuInput := fun value => do
  let [name, board] ← record ["name", "board"] value | none
  return { name := ← required text name, board := ← required (list (list nat32)) board }

def board : Decoder Puzzle.BoardInput := fun value => do
  let [name, width, height, pieces] ← record ["name", "width", "height", "pieces"] value | none
  return {
    name := ← required text name
    width := ← required nat64 width
    height := ← required nat64 height
    pieces := ← required (entries (pair nat64 nat64)) pieces }

end BinaryCsp.Input
