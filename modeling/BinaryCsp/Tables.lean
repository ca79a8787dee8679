import BinaryCsp.Problem

/-!
# Problems given as tables

A problem can also be given whole: the neighbours and the domain of each variable, and the allowed
value pairs of each constrained pair of variables. Nothing is inferred here. The variables must be
numbered densely, the neighbour table must be symmetric, and only neighbours may be constrained.
-/

namespace BinaryCsp

variable {V : Type}

/-- The three tables. Of two entries for one key the later one counts; the order of the entries
and repetitions inside the neighbour and pair lists do not matter. -/
structure Tables (V : Type) where
  neighbours : List (VarId × List VarId)
  domains : List (VarId × List V)
  constraints : List ((VarId × VarId) × List (V × V))

namespace Tables

/-- The first entry out of place, if the keys are not `start`, `start + 1` and so on. -/
def gap? : (start : Nat) → List VarId → Option VarId
  | _, [] => none
  | start, key :: rest => if key = start then gap? (start + 1) rest else some key

def domainCall (domains : List (VarId × List V)) (var : VarId) : Except ModelError (Call V) :=
  match domains.lookup var with
  | some domain => return .newVariable domain
  | none => throw (.missingDomain var)

def neighbourCall (neighbours : List (VarId × List VarId)) (var other : VarId) :
    Except ModelError (Call V) :=
  match neighbours.lookup other with
  | none => throw (.unknownVariable other neighbours.length)
  | some back =>
    if back.contains var then return .neighbour var other
    else throw (.asymmetricNeighbours var other)

def constraintCall (neighbours : List (VarId × List VarId))
    (entry : (VarId × VarId) × List (V × V)) : Except ModelError (Call V) := do
  let ((i, j), allowed) := entry
  let count := neighbours.length
  if j ≤ i then throw (.nonCanonicalPair i j)
  match neighbours.lookup i, neighbours.lookup j with
  | none, _ => throw (.unknownVariable i count)
  | _, none => throw (.unknownVariable j count)
  | some adjacent, some _ =>
    if adjacent.contains j then return .relation i j allowed else throw (.unrelatedPair i j)

/-- The description that the tables amount to, or the first thing that is wrong with them. -/
def calls (t : Tables V) : Except ModelError (List (Call V)) := do
  let neighbours := Ascending.mapOf Ascending.natLt t.neighbours
  let domains := Ascending.mapOf Ascending.natLt t.domains
  let keys := neighbours.map (·.1)
  if let some var := gap? 0 keys then throw (.nonDenseVariables var keys.length)
  if let some (var, _) := domains.find? fun entry => !keys.contains entry.1 then
    throw (.unknownVariable var keys.length)
  let declared ← keys.mapM (domainCall domains)
  let edges ← neighbours.mapM fun (var, others) =>
    (Ascending.ofList Ascending.natLt others).mapM (neighbourCall neighbours var)
  let relations ← (Ascending.mapOf Ascending.pairLt t.constraints).mapM (constraintCall neighbours)
  return declared ++ edges.flatten ++ relations

def problem [DecidableEq V] (t : Tables V) : Except ModelError (Problem V) := do
  Problem.ofCalls (← t.calls)

end Tables

end BinaryCsp
