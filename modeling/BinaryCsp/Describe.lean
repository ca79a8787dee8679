import BinaryCsp.Solver

/-!
# Solvers in words

A one-line description of a solver for diagnostics: the number of variables, the switches, and
the strategy with the heuristics that the switches select.
-/

namespace BinaryCsp

variable {V : Type}

namespace Describe

def record (name : String) (fields : List (String × String)) : String :=
  let shown := fields.map fun (field, value) => field ++ ": " ++ value
  name ++ " \x7b " ++ ", ".intercalate shown ++ " \x7d"

def tieBreak : TieBreak → String
  | .lowest => "Lowest"
  | .seeded seed => s!"Seeded({seed})"

def config (c : Config) : String :=
  record "SearchConfig" [("mrv", toString c.mrv), ("degree", toString c.degree),
    ("lcv", toString c.lcv), ("ac3", toString c.ac3), ("tie_break", tieBreak c.tieBreak)]

def variableHeuristic (c : Config) : String :=
  if c.mrv then
    record "MinimumRemainingValuesHeuristic" [("degree_tie_break", toString c.degree)]
  else if c.degree then "DegreeHeuristic"
  else "SelectFirstHeuristic"

def valueHeuristic (c : Config) : String :=
  if c.lcv then "LeastConstrainingValueHeuristic" else "IdentityValueHeuristic"

def driver : Driver → String
  | .recursive => "BacktrackingSearch"
  | .explicit => "ExplicitStackSearch"

def strategy (s : Strategy) : String :=
  record (driver s.driver) [("config", config s.config),
    ("variable_heuristic", variableHeuristic s.config),
    ("value_heuristic", valueHeuristic s.config)]

def solver (s : Solver V) : String :=
  record "SolverEngine" [("variables", toString s.problem.variableCount),
    ("config", config s.config), ("strategy", strategy s.strategy)]

end Describe

end BinaryCsp
