import BinaryCsp.Model
import BinaryCsp.Pool

/-!
# Forward checking

Looks one step ahead of an assignment: an unassigned neighbour keeps only the values that go with
the value just given. Values are removed through the store, so that going back to a checkpoint
undoes them.
-/

namespace BinaryCsp.ForwardCheck

structure Outcome where
  store : Store
  /-- The number of values removed from neighbours. -/
  pruned : Nat
  /-- The neighbour that was left without values, if any. -/
  wiped : Option VarId

/-- Removes from each unassigned neighbour along `links` the values that do not go with `value`,
up to the first neighbour that is left without values. -/
def restrict (m : Model) (pool : Pool) (value : ValId) :
    List Link → (pruned : Nat) → Store → Checked Outcome
  | [], pruned, store => return ⟨store, pruned, none⟩
  | link :: rest, pruned, store => do
    if ← pool.contains link.other then
      let supported ← m.supports link value
      let doomed := (← store.get link.other).toList.filter fun id => !supported.contains id
      let store ← store.removeAll link.other doomed
      let pruned := pruned + doomed.length
      if (← store.get link.other).isEmpty then return ⟨store, pruned, some link.other⟩
      else restrict m pool value rest pruned store
    else restrict m pool value rest pruned store

/-- Collapses `var` to `value`, and removes from its unassigned neighbours what does not go with
it. Only direct neighbours are touched. -/
def run (m : Model) (store : Store) (pool : Pool) (var : VarId) (value : ValId) :
    Checked Outcome := do
  let (_, store) ← store.assign var value
  restrict m pool value (← m.linksOf var) 0 store

end BinaryCsp.ForwardCheck
