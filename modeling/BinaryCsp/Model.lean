import BinaryCsp.Ascending
import BinaryCsp.BitSet
import BinaryCsp.Store

/-!
# The constraint model

All the search needs to know of a problem: how many values there are, which variables are
neighbours, the initial domains, and for each constrained pair of variables the values that go
together. A model is made once and never changes.
-/

namespace BinaryCsp

/-- Relations are numbered from zero, by ascending pair. -/
abbrev RelationId := Nat

/-- Two variables, the lower id first. -/
structure VarPair where
  lower : VarId
  higher : VarId
deriving DecidableEq

namespace VarPair

def of (a b : VarId) : VarPair := if a ≤ b then ⟨a, b⟩ else ⟨b, a⟩

def before (p q : VarPair) : Bool := Ascending.pairLt (p.lower, p.higher) (q.lower, q.higher)

end VarPair

structure Relation where
  pair : VarPair
  /-- By value of the lower variable, the values of the higher one that go with it. -/
  forward : Array BitSet
  /-- By value of the higher variable, the values of the lower one that go with it. -/
  backward : Array BitSet
deriving DecidableEq

namespace Relation

/-- By first component, the set of second components that occur with it in `pairs`. -/
def rows (valueCount : Nat) (pairs : List (ValId × ValId)) : Array BitSet :=
  pairs.foldl (fun table (a, b) => table.modify a fun row => (row.insert b).2)
    (Array.replicate valueCount (BitSet.empty valueCount))

def ofPairs (pair : VarPair) (valueCount : Nat) (pairs : List (ValId × ValId)) : Relation where
  pair := pair
  forward := rows valueCount pairs
  backward := rows valueCount (pairs.map Prod.swap)

/-- Whether the lower variable may take `a` while the higher one takes `b`. -/
def allows (r : Relation) (a b : ValId) : Checked Bool := do
  return (← Checked.get r.forward a).contains b

def toPairs (r : Relation) : List (ValId × ValId) :=
  r.forward.toList.zipIdx.flatMap fun (row, a) => row.toList.map fun b => (a, b)

end Relation

/-- A constrained neighbour, seen from the variable that owns the link. -/
structure Link where
  other : VarId
  relation : RelationId
  /-- Whether the owner is the higher variable of the pair. -/
  reversed : Bool
deriving DecidableEq

structure Model where
  /-- The number of distinct values over all domains. -/
  valueCount : Nat
  /-- By variable, its neighbours in ascending order. -/
  neighbours : Array (List VarId)
  /-- By variable, its initial domain. -/
  domains : Array BitSet
  /-- By ascending pair. -/
  relations : Array Relation
  /-- The pairs that have a relation, with its number. -/
  pairIndex : List (VarPair × RelationId)
  /-- By variable, its constrained neighbours in ascending order. -/
  links : Array (List Link)
deriving DecidableEq

namespace Model

def variableCount (m : Model) : Nat := m.neighbours.size

def vars (m : Model) : List VarId := List.range m.variableCount

def neighboursOf (m : Model) (var : VarId) : Checked (List VarId) := Checked.get m.neighbours var

def linksOf (m : Model) (var : VarId) : Checked (List Link) := Checked.get m.links var

def pairIndex? (m : Model) (pair : VarPair) : Option RelationId := m.pairIndex.lookup pair

/-- The relation between two variables, given in either order. -/
def relationBetween? (m : Model) (a b : VarId) : Checked (Option Relation) :=
  (m.pairIndex? (VarPair.of a b)).mapM (Checked.get m.relations)

/-- By value of the link's owner, the values of the other variable that go with it. -/
def supportRows (m : Model) (link : Link) : Checked (Array BitSet) := do
  let relation ← Checked.get m.relations link.relation
  return if link.reversed then relation.backward else relation.forward

def supports (m : Model) (link : Link) (value : ValId) : Checked BitSet := do
  Checked.get (← m.supportRows link) value

/-- Whether `a` may take `va` while `b` takes `vb`. Variables without a relation never conflict. -/
def allows (m : Model) (a : VarId) (va : ValId) (b : VarId) (vb : ValId) : Checked Bool := do
  match ← m.relationBetween? a b with
  | none => return true
  | some relation => if a < b then relation.allows va vb else relation.allows vb va

/-- Whether `values` satisfies all the relations, tested in order up to the first that fails. -/
def satisfies (values : Array ValId) : List Relation → Checked Bool
  | [] => return true
  | relation :: rest => do
    let a ← Checked.get values relation.pair.lower
    let b ← Checked.get values relation.pair.higher
    if ← relation.allows a b then satisfies values rest else return false

def isConsistent (m : Model) (values : List ValId) : Checked Bool :=
  if values.length = m.variableCount then satisfies values.toArray m.relations.toList
  else return false

end Model

end BinaryCsp
