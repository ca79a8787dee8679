import BinaryCsp.Pool
import BinaryCsp.Chance.TieBreaker
import BinaryCsp.Model

/-!
# Choosing the next variable

The heuristics narrow the unassigned variables down to the best ones, and the tie-break picks one
of these. The choice affects how long a search takes, never whether it succeeds.
-/

namespace BinaryCsp

namespace Choice

def scored (score : VarId → Checked Nat) (vars : List VarId) : Checked (List (Nat × VarId)) :=
  vars.mapM fun var => do return (← score var, var)

/-- Takes one more variable into account, where the first component has the best ones so far and
the second their score. A better one starts the list anew, one that is as good joins it. -/
def keep (better : Nat → Nat → Bool) : Array VarId × Nat → Nat × VarId → Array VarId × Nat
  | (kept, score), (n, var) =>
    if kept.isEmpty || better n score then (#[var], n)
    else if n == score then (kept.push var, score)
    else (kept, score)

def best (better : Nat → Nat → Bool) (vars : List (Nat × VarId)) : List VarId :=
  (vars.foldl (keep better) (#[], 0)).1.toList

/-- The number of unassigned neighbours of `var`. -/
def degree (m : Model) (pool : Pool) (var : VarId) : Checked Nat := do
  return (← (← m.neighboursOf var).mapM pool.contains).count true

def mostConnected (m : Model) (pool : Pool) (vars : List VarId) : Checked (List VarId) := do
  return best (· > ·) (← scored (degree m pool) vars)

def fewestValues (store : Store) (pool : Pool) : Checked (List VarId) := do
  return best (· < ·) (← scored store.sizeOf pool.toList)

def selectVariable (config : Config) (m : Model) (store : Store) (pool : Pool)
    (ties : TieBreaker) : Checked (Option VarId × TieBreaker) := do
  if config.mrv then
    let smallest ← fewestValues store pool
    if config.degree && 1 < smallest.length then
      return ties.pick (← mostConnected m pool smallest)
    else return ties.pick smallest
  else if config.degree then return ties.pick (← mostConnected m pool pool.toList)
  else return (pool.toList.head?, ties)

end Choice

end BinaryCsp
