import BinaryCsp.Problem
import BinaryCsp.Search.Explicit

/-!
# Solving a problem

A solver pairs a problem with a driver of the search and its switches. Each solve starts afresh
from the initial domains.
-/

namespace BinaryCsp

variable {V : Type}

/-- How the search remembers where to go on. -/
inductive Driver where
  | recursive
  | explicit
deriving DecidableEq

structure Strategy where
  driver : Driver
  config : Config
deriving DecidableEq

structure Run where
  found : Option (List ValId)
  stats : Stats
  /-- What the search did, in order. -/
  events : List Search.Event

namespace Strategy

def solve (s : Strategy) (m : Model) : Checked Run := do
  let (found, state) ← match s.driver with
    | .recursive => Search.runRecursive m s.config
    | .explicit => Search.runExplicit m s.config
  return ⟨found, .ofCounters state.counters, state.log.reverse⟩

end Strategy

structure Solver (V : Type) where
  problem : Problem V
  strategy : Strategy

/-- The outcome of a solve in the caller's values. -/
structure Report (V : Type) where
  assignment : Option (Assignment V)
  stats : Stats
  config : Config

namespace Report

def isSolved (r : Report V) : Bool := r.assignment.isSome

end Report

namespace Solver

def recursive (problem : Problem V) (config : Config) : Solver V := ⟨problem, .recursive, config⟩

def config (s : Solver V) : Config := s.strategy.config

/-- Searches for the first solution. No assignment means that there is none. -/
def solve (s : Solver V) : Checked (Report V) := do
  let ⟨found, stats, _⟩ ← s.strategy.solve s.problem.model
  match found with
  | none => return ⟨none, stats, s.config⟩
  | some ids => return ⟨some ⟨(← ids.mapM s.problem.value).toArray⟩, stats, s.config⟩

end Solver

end BinaryCsp
