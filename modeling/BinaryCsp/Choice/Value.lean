import BinaryCsp.Config
import BinaryCsp.Model
import BinaryCsp.Pool

/-!
# Ordering the values of a variable

Either by ascending id, or the least constraining value first.
-/

namespace BinaryCsp

namespace Choice

/-- The number of values that `value` would take from the neighbour at the end of `link`, which
is none if that neighbour is assigned. -/
def linkConflicts (m : Model) (store : Store) (pool : Pool) (value : ValId) (link : Link) :
    Checked Nat := do
  if ← pool.contains link.other then
    let domain ← store.get link.other
    Checked.sub domain.size (domain.interSize (← m.supports link value))
  else return 0

def conflicts (m : Model) (store : Store) (pool : Pool) (var : VarId) (value : ValId) :
    Checked Nat := do
  return (← (← m.linksOf var).mapM (linkConflicts m store pool value)).foldl (· + ·) 0

/-- The values left to `var` in the order in which they are to be tried. Values that conflict
equally often stay in ascending order. -/
def orderValues (config : Config) (m : Model) (store : Store) (pool : Pool) (var : VarId) :
    Checked (List ValId) := do
  let values := (← store.get var).toList
  if config.lcv && 1 < values.length then
    let scored ← values.mapM fun value => do
      return (← conflicts m store pool var value, value)
    return (scored.mergeSort fun p q => p.1 ≤ q.1).map (·.2)
  else return values

end Choice

end BinaryCsp
