import BinaryCsp.Ascending
import BinaryCsp.Model
import BinaryCsp.ModelError
import BinaryCsp.ValueTable

/-!
# Describing a problem and making its model

A problem is described by a sequence of calls on a `Builder`: variables with their candidate
values, neighbouring pairs, and relations that list the value pairs a pair of variables may take.
`Builder.build` checks the description and makes the model. Calls on the same pair accumulate: the
pair may take what all of its relations allow.
-/

namespace BinaryCsp

variable {V : Type}

/-- A model together with the values its ids stand for. -/
structure Problem (V : Type) where
  model : Model
  values : ValueTable V

namespace Problem

def variableCount (p : Problem V) : Nat := p.model.variableCount

def value (p : Problem V) (id : ValId) : Checked V := p.values.value id

def idOf? [DecidableEq V] (p : Problem V) (v : V) : Option ValId := p.values.idOf? v

def domainValues (p : Problem V) (var : VarId) : Checked (List V) := do
  (← Checked.get p.model.domains var).toList.mapM p.value

end Problem

inductive Call (V : Type) where
  /-- A new variable, numbered next, with its candidate values. -/
  | newVariable (domain : List V)
  /-- `a` and `b` are neighbours. -/
  | neighbour (a b : VarId)
  /-- `a` and `b` are neighbours and may together take only the given values. -/
  | relation (a b : VarId) (allowed : List (V × V))

structure Builder (V : Type) where
  values : ValueTable V
  /-- By variable, the ids of its candidate values. -/
  domains : Array (List ValId)
  /-- The neighbouring pairs in the order of the calls. -/
  edges : Array (VarId × VarId)
  /-- The relations in the order of the calls, each seen from its lower variable. -/
  tables : Array (VarPair × List (V × V))

namespace Builder

def empty : Builder V := ⟨.empty, #[], #[], #[]⟩

def variableCount (b : Builder V) : Nat := b.domains.size

def addNeighbour (b : Builder V) (x y : VarId) : Builder V :=
  { b with edges := b.edges.push (x, y) }

def addRelation (b : Builder V) (x y : VarId) (allowed : List (V × V)) : Builder V :=
  let pair := VarPair.of x y
  let allowed := if x ≤ y then allowed else allowed.map Prod.swap
  { b with
    edges := b.edges.push (pair.lower, pair.higher)
    tables := b.tables.push (pair, allowed) }

variable [DecidableEq V]

def addVariable (b : Builder V) (domain : List V) : VarId × Builder V :=
  let (ids, values) := b.values.internAll domain
  (b.variableCount, { b with values := values, domains := b.domains.push ids })

def apply (b : Builder V) : Call V → Builder V
  | .newVariable domain => (b.addVariable domain).2
  | .neighbour x y => b.addNeighbour x y
  | .relation x y allowed => b.addRelation x y allowed

def ofCalls (calls : List (Call V)) : Builder V := calls.foldl apply empty

/-- Both ends of an edge must be variables, and different ones. -/
def checkEdge (count : Nat) (edge : VarId × VarId) : Except ModelError Unit := do
  if count ≤ edge.1 then throw (.unknownVariable edge.1 count)
  if count ≤ edge.2 then throw (.unknownVariable edge.2 count)
  if edge.1 = edge.2 then throw (.selfNeighbour edge.1)

def adjacent (edges : List (VarId × VarId)) (var : VarId) : List VarId :=
  Ascending.ofList Ascending.natLt <| edges.filterMap fun (a, b) =>
    if a = var then some b else if b = var then some a else none

def idsOf? (values : ValueTable V) (pair : V × V) : Option (ValId × ValId) := do
  return (← values.idOf? pair.1, ← values.idOf? pair.2)

def inAll (valueCount : Nat) : List (List (ValId × ValId)) → List (ValId × ValId)
  | [] => []
  | table :: rest =>
    let others := rest.map (Relation.rows valueCount)
    table.filter fun (a, b) => others.all fun rows => (rows[a]?).any (·.contains b)

def relate (values : ValueTable V) (entry : VarPair × List (List (V × V))) :
    Except ModelError Relation :=
  match entry.2.mapM (·.mapM (idsOf? values)) with
  | none => throw (.unknownValue entry.1.lower entry.1.higher)
  | some tables => return .ofPairs entry.1 values.size (inAll values.size tables)

def linkOf? (var : VarId) (relation : Relation × RelationId) : Option Link :=
  let (⟨⟨lower, higher⟩, _, _⟩, id) := relation
  if lower = var then some ⟨higher, id, false⟩
  else if higher = var then some ⟨lower, id, true⟩
  else none

/-- The links of `var`, in the order of the relations. As these ascend by pair, the relations in
which `var` is the higher variable come before those in which it is the lower one, and the links
ascend by neighbour. -/
def linksOf (relations : List Relation) (var : VarId) : List Link :=
  relations.zipIdx.filterMap (linkOf? var)

def pairsOf (relations : List Relation) : List (VarPair × RelationId) :=
  relations.zipIdx.map fun (relation, id) => (relation.pair, id)

/-- Checks the description and makes the problem. Edges are checked in the order of the calls,
then the values of the relations by ascending pair. -/
def build (b : Builder V) : Except ModelError (Problem V) := do
  let count := b.variableCount
  let edges := b.edges.toList
  edges.forM (checkEdge count)
  let relations ← (Ascending.group VarPair.before b.tables.toList).mapM (relate b.values)
  let vars := Array.range count
  return {
    values := b.values
    model := {
      valueCount := b.values.size
      neighbours := vars.map (adjacent edges)
      domains := b.domains.map (BitSet.ofList b.values.size)
      relations := relations.toArray
      pairIndex := pairsOf relations
      links := vars.map (linksOf relations) } }

end Builder

/-- The pairs of different values from a list: what two variables that must differ may take. -/
def differentPairs [DecidableEq V] (values : List V) : List (V × V) :=
  values.flatMap fun a => (values.filter (· ≠ a)).map fun b => (a, b)

def Problem.ofCalls [DecidableEq V] (calls : List (Call V)) : Except ModelError (Problem V) :=
  (Builder.ofCalls calls).build

end BinaryCsp
