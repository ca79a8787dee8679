import BinaryCsp.Puzzle.Heading
import BinaryCsp.Text.Order

/-!
# Map colouring

Every region gets a colour, and regions that share a border get different ones. A border may be
listed by either region or by both.
-/

namespace BinaryCsp.Puzzle

/-- A map as it is given: the regions with the regions they border, and the colours. Of two
entries for one region the later one counts. -/
structure MapInput where
  name : String
  borders : List (String × List String)
  colours : List String

namespace MapInput

def standardColours : List String := ["Red", "Green", "Blue"]

end MapInput

/-- A map with its problem: one variable per region, in the order of the regions. -/
structure MapColouring where
  name : String
  /-- The regions in ascending order. -/
  regions : List String
  problem : Problem String

namespace MapColouring

def borderCall (regions colours : List String) (region : String) (a : VarId) (border : String) :
    Except ModelError (Call String) :=
  match regions.idxOf? border with
  | none => throw (.invalidPuzzle s!"region {region} borders unknown region {border}")
  | some b =>
    if a = b then throw (.selfNeighbour a)
    else return .relation a b (differentPairs colours)

/-- The description of the problem, or the first border that is wrong. -/
def calls (borders : List (String × List String)) (colours : List String) :
    Except ModelError (List (Call String)) := do
  let regions := borders.map (·.1)
  let relations ← borders.zipIdx.mapM fun ((region, others), a) =>
    others.mapM (borderCall regions colours region a)
  return regions.map (fun _ => .newVariable colours) ++ relations.flatten

def ofInput (input : MapInput) : Except ModelError MapColouring := do
  let borders := Ascending.mapOf Text.before input.borders
  let problem ← Problem.ofCalls (← calls borders input.colours)
  return ⟨input.name, borders.map (·.1), problem⟩

end MapColouring

structure ColouredMap where
  map : MapColouring
  report : Report String

namespace MapColouring

def solve (map : MapColouring) (config : Config) : Checked ColouredMap := do
  return ⟨map, ← (Solver.recursive map.problem config).solve⟩

end MapColouring

namespace ColouredMap

def colourOf? (c : ColouredMap) (region : String) : Checked (Option String) :=
  match c.map.regions.idxOf? region, c.report.assignment with
  | some id, some assignment => do return some (← assignment.get id)
  | _, _ => return none

def text (c : ColouredMap) : String :=
  let lines := match c.report.assignment with
    | none => []
    | some assignment =>
      (c.map.regions.zip assignment.values.toList).map fun (region, colour) =>
        s!"{region}: {colour}"
  heading "Map Colouring" c.map.name c.report ++ unlines lines

end ColouredMap

end BinaryCsp.Puzzle
