import BinaryCsp.Model

/-!
# Counters

`Counters` are kept while a search runs. `Stats` is what a finished run reports: the same numbers,
with one entry for each relation that was revised.
-/

namespace BinaryCsp

structure Tally where
  revisions : Nat
  prunings : Nat
deriving DecidableEq

structure Counters where
  /-- Nodes entered, the root included. -/
  nodes : Nat
  /-- Values given up, after a failed propagation or a failed subtree. -/
  backtracks : Nat
  /-- Values removed by forward checking. -/
  forwardPrunings : Nat
  /-- By relation. -/
  tallies : Array Tally
deriving DecidableEq

namespace Counters

def zero (relations : Nat) : Counters := ⟨0, 0, 0, Array.replicate relations ⟨0, 0⟩⟩

def countNode (c : Counters) : Counters := { c with nodes := c.nodes + 1 }

def countBacktrack (c : Counters) : Counters := { c with backtracks := c.backtracks + 1 }

def countForward (c : Counters) (removed : Nat) : Counters :=
  { c with forwardPrunings := c.forwardPrunings + removed }

def countRevision (c : Counters) (relation : RelationId) (removed : Nat) : Checked Counters := do
  let ⟨nodes, backtracks, forwardPrunings, tallies⟩ := c
  let ⟨revisions, prunings⟩ ← Checked.get tallies relation
  let tallies ← Checked.set tallies relation ⟨revisions + 1, prunings + removed⟩
  return ⟨nodes, backtracks, forwardPrunings, tallies⟩

end Counters

structure RelationStats where
  revisions : Nat
  prunings : Nat
  micros : Nat
deriving DecidableEq

structure Stats where
  nodes : Nat
  backtracks : Nat
  forwardPrunings : Nat
  relations : List (RelationId × RelationStats)
deriving DecidableEq

namespace Stats

/-- The report that the counters amount to. Time is not measured. -/
def ofCounters (c : Counters) : Stats where
  nodes := c.nodes
  backtracks := c.backtracks
  forwardPrunings := c.forwardPrunings
  relations := c.tallies.toList.zipIdx.filterMap fun (tally, id) =>
    if tally.revisions = 0 then none else some (id, ⟨tally.revisions, tally.prunings, 0⟩)

def withoutTimings (s : Stats) : Stats :=
  { s with relations := s.relations.map fun (id, r) => (id, { r with micros := 0 }) }

def agrees (s t : Stats) : Bool := s.withoutTimings == t.withoutTimings

def totalRevisions (s : Stats) : Nat :=
  s.relations.foldl (fun total (_, r) => total + r.revisions) 0

def totalPrunings (s : Stats) : Nat :=
  s.relations.foldl (fun total (_, r) => total + r.prunings) 0

end Stats

end BinaryCsp
