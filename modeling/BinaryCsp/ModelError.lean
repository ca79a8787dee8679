import BinaryCsp.Store

/-!
# Rejected problems

The reasons for which a problem is turned down before any search starts, and their wording. A
problem without a solution is not an error.
-/

namespace BinaryCsp

inductive ModelError where
  /-- The neighbour table names `var`, the domain table does not. -/
  | missingDomain (var : VarId)
  /-- `var` is not one of the `count` variables. -/
  | unknownVariable (var : VarId) (count : Nat)
  /-- The `count` variables of the neighbour table are not the ids below `count`. -/
  | nonDenseVariables (var : VarId) (count : Nat)
  /-- `a` lists `b` as a neighbour, `b` does not list `a`. -/
  | asymmetricNeighbours (a b : VarId)
  /-- `var` is its own neighbour. -/
  | selfNeighbour (var : VarId)
  /-- A constraint is given for `(a, b)` although `a` is not the lower id. -/
  | nonCanonicalPair (a b : VarId)
  /-- A constraint is given for variables that are not neighbours. -/
  | unrelatedPair (a b : VarId)
  /-- A constraint between `a` and `b` names a value that is in no domain. -/
  | unknownValue (a b : VarId)
  /-- The puzzle breaks one of its own rules. -/
  | invalidPuzzle (reason : String)
deriving DecidableEq

namespace ModelError

/-- The wording of an error. Variables are written with a question mark. -/
def message : ModelError → String
  | missingDomain var => s!"variable ?{var} is referenced but has no domain"
  | unknownVariable var count => s!"variable ?{var} is unknown (the model has {count} variables)"
  | nonDenseVariables var count =>
    s!"variable ids must be dense in [0, {count}), found ?{var}"
  | asymmetricNeighbours a b => s!"?{a} lists ?{b} as a neighbour but not the other way round"
  | selfNeighbour var => s!"?{var} lists itself as a neighbour"
  | nonCanonicalPair a b =>
    s!"constraint key (?{a}, ?{b}) is not in canonical (lower, higher) order"
  | unrelatedPair a b => s!"constraint between ?{a} and ?{b} but they are not neighbours"
  | unknownValue a b =>
    s!"constraint between ?{a} and ?{b} allows a value that no domain contains"
  | invalidPuzzle reason => s!"invalid puzzle: {reason}"

end ModelError

end BinaryCsp
