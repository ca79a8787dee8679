import BinaryCsp.Solver
import BinaryCsp.Text.Fixed
import BinaryCsp.Text.Grid

/-!
# Tables of results

One table for the relations of a single run, one to compare several runs.
-/

namespace BinaryCsp.Summary

variable {V : Type}

def relationHeads : List String :=
  ["Relation", "Pair", "Revise Calls", "Prunings", "Time / Call (µs)", "Total Time (ms)"]

/-- The time of one revision in microseconds, or zero if there was none. -/
def timePerCall (r : RelationStats) : String :=
  if r.revisions = 0 then Text.Fixed.quotient 0 1 else Text.Fixed.quotient r.micros r.revisions

def relationRow (m : Model) (entry : RelationId × RelationStats) : Checked (List String) := do
  let (id, r) := entry
  let pair := (← Checked.get m.relations id).pair
  return [toString id, s!"({pair.lower}, {pair.higher})", toString r.revisions,
    toString r.prunings, timePerCall r, Text.Fixed.quotient r.micros 1000]

/-- The entries in the order of the time spent on them, those with equal times by relation. -/
def slowestLast (stats : Stats) : List (RelationId × RelationStats) :=
  stats.relations.mergeSort fun p q =>
    p.2.micros < q.2.micros || (p.2.micros == q.2.micros && p.1 ≤ q.1)

def relationTable (stats : Stats) (m : Model) : Checked String := do
  return Text.Grid.render (relationHeads :: (← (slowestLast stats).mapM (relationRow m)))

def comparisonHeads : List String :=
  ["MRV", "DH", "LCV", "AC3", "Solved", "Nodes", "Backtracks", "FC Prunings", "AC3 Prunings"]

def comparisonRow (r : Report V) : List String :=
  [toString r.config.mrv, toString r.config.degree, toString r.config.lcv, toString r.config.ac3,
    toString r.isSolved, toString r.stats.nodes, toString r.stats.backtracks,
    toString r.stats.forwardPrunings, toString r.stats.totalPrunings]

def comparisonTable (reports : List (Report V)) : String :=
  Text.Grid.render (comparisonHeads :: reports.map comparisonRow)

end BinaryCsp.Summary
