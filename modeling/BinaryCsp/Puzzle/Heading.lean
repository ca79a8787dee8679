import BinaryCsp.Solver

/-!
# The heading of a puzzle report
-/

namespace BinaryCsp.Puzzle

variable {V : Type}

/-- The lines that every report starts with: the puzzle, the switches, and the effort. -/
def heading (kind name : String) (report : Report V) : String :=
  let nodes := report.stats.nodes
  let switches := report.config.summary
  let effort :=
    if report.isSolved then s!"Nodes visited: {nodes}"
    else s!"No solution found after {nodes} nodes"
  s!"----\n{kind}: {name}\nHeuristics/Inference: {switches}\n{effort}\n"

def unlines (lines : List String) : String := String.join (lines.map (· ++ "\n"))

end BinaryCsp.Puzzle
