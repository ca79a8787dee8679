import BinaryCsp.Search.State

/-!
# Depth-first search by recursion

Each node takes a checkpoint before it tries its values and goes back to it after each value that
fails, so that no pruning reaches a sibling.
-/

namespace BinaryCsp

namespace Search

/-- The first solution found, if any, and the state in which the search ended. -/
abbrev Result := Option (List ValId) × State

/-- Tries the values of `var` in order, with `next` searching below each value that propagates.
Gives `var` back when all have failed. -/
def tryAll (m : Model) (config : Config) (next : State → Checked Result) (var : VarId)
    (point : Nat) : List ValId → State → Checked Result
  | [], s => do return (none, ← s.release var)
  | value :: rest, s => do
    match ← s.tryValue m config var value with
    | (true, s) =>
      match ← next s with
      | (some found, s) => return (some found, s)
      | (none, s) => tryAll m config next var point rest (← s.abandon point)
    | (false, s) => tryAll m config next var point rest (← s.abandon point)

/-- Searches below a node. The levels left are as many as there are unassigned variables, since
each level takes one out of the pool. -/
def descend (m : Model) (config : Config) : (levels : Nat) → State → Checked Result
  | levels, s => do
    let s := s.enterNode
    if s.pool.isEmpty then s.solution? m
    else
      match levels with
      | 0 => throw .stepLimit
      | levels + 1 =>
        let point := s.store.checkpoint
        match ← s.chooseVariable m config with
        | (none, s) => return (none, s)
        | (some var, s) =>
          let values ← s.orderedValues m config var
          tryAll m config (descend m config levels) var point values s

def runRecursive (m : Model) (config : Config) : Checked Result := do
  match ← (State.initial m config).prepare m config with
  | (false, s) => return (none, s)
  | (true, s) => descend m config s.pool.count s

end Search

end BinaryCsp
