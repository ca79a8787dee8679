import BinaryCsp.ArcConsistency
import BinaryCsp.Assignment
import BinaryCsp.Choice.Value
import BinaryCsp.Choice.Variable
import BinaryCsp.ForwardCheck

/-!
# The state of a search and the moves on it

Both drivers of the search are made of the moves in this module, and differ only in how they
remember where to go on.
-/

namespace BinaryCsp

namespace Search

/-- What a search does that an observer may want to follow. -/
inductive Event where
  /-- A value is about to be tried, with `depth` variables taken. -/
  | trying (var : VarId) (value : ValId) (depth : Nat)
  /-- Forward checking left `wiped` without values. -/
  | forwardFailed (var : VarId) (value : ValId) (wiped : VarId)
  /-- Arc consistency left `tail` without values supported by `head`. -/
  | arcFailed (tail head : VarId)
  /-- Arc consistency failed before the first node. -/
  | rootFailed
  /-- A solution was found after `nodes` nodes. -/
  | solved (nodes : Nat)
deriving DecidableEq

structure State where
  store : Store
  pool : Pool
  assignment : PartialAssignment
  ties : TieBreaker
  counters : Counters
  /-- What happened so far, newest first. -/
  log : List Event

namespace State

def initial (m : Model) (config : Config) : State where
  store := .ofDomains m.domains
  pool := .full m.variableCount
  assignment := .unassigned m.variableCount
  ties := .ofPolicy config.tieBreak
  counters := .zero m.relations.size
  log := []

def record (s : State) (event : Event) : State := { s with log := event :: s.log }

def enterNode (s : State) : State := { s with counters := s.counters.countNode }

/-- Makes all arcs consistent, and tells whether every domain kept a value. -/
def propagate (m : Model) (s : State) : Checked (Bool × State) := do
  let ⟨store, pool, assignment, ties, counters, log⟩ := s
  let ⟨store, counters, wiped⟩ ← ArcConsistency.enforce m store counters
  match wiped with
  | none => return (true, ⟨store, pool, assignment, ties, counters, log⟩)
  | some arc =>
    let log := .arcFailed arc.tail arc.link.other :: log
    return (false, ⟨store, pool, assignment, ties, counters, log⟩)

def prepare (m : Model) (config : Config) (s : State) : Checked (Bool × State) := do
  if config.ac3 then
    let (consistent, s) ← s.propagate m
    return (consistent, if consistent then s else s.record .rootFailed)
  else return (true, s)

def chooseVariable (m : Model) (config : Config) (s : State) :
    Checked (Option VarId × State) := do
  let ⟨store, pool, assignment, ties, counters, log⟩ := s
  match ← Choice.selectVariable config m store pool ties with
  | (none, ties) => return (none, ⟨store, pool, assignment, ties, counters, log⟩)
  | (some var, ties) =>
    return (some var, ⟨store, ← pool.remove var, assignment, ties, counters, log⟩)

def orderedValues (m : Model) (config : Config) (s : State) (var : VarId) :
    Checked (List ValId) :=
  Choice.orderValues config m s.store s.pool var

/-- The number of variables taken out of the pool. -/
def depth (m : Model) (s : State) : Checked Nat := Checked.sub m.variableCount s.pool.count

/-- Gives `value` to `var` and propagates, and tells whether every domain kept a value. -/
def tryValue (m : Model) (config : Config) (s : State) (var : VarId) (value : ValId) :
    Checked (Bool × State) := do
  let depth ← s.depth m
  let ⟨store, pool, assignment, ties, counters, log⟩ := s
  let log := .trying var value depth :: log
  let assignment ← assignment.set var value
  let ⟨store, pruned, wiped⟩ ← ForwardCheck.run m store pool var value
  let counters := counters.countForward pruned
  match wiped with
  | some other =>
    let log := .forwardFailed var value other :: log
    return (false, ⟨store, pool, assignment, ties, counters, log⟩)
  | none =>
    let s : State := ⟨store, pool, assignment, ties, counters, log⟩
    if config.ac3 then s.propagate m else return (true, s)

def abandon (s : State) (point : Nat) : Checked State := do
  let ⟨store, pool, assignment, ties, counters, log⟩ := s
  return ⟨← store.restore point, pool, assignment, ties, counters.countBacktrack, log⟩

/-- Puts `var` back into the pool after all its values failed. -/
def release (s : State) (var : VarId) : Checked State := do
  let ⟨store, pool, assignment, ties, counters, log⟩ := s
  return ⟨store, ← pool.insert var, ← assignment.clear var, ties, counters, log⟩

def solution? (m : Model) (s : State) : Checked (Option (List ValId) × State) := do
  match s.assignment.complete? with
  | none => return (none, s)
  | some values =>
    if ← m.isConsistent values then return (some values, s.record (.solved s.counters.nodes))
    else return (none, s)

end State

end Search

end BinaryCsp
