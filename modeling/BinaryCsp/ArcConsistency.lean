import BinaryCsp.ArcQueue
import BinaryCsp.Stats

/-!
# Arc consistency

Revises arcs until each remaining value of each variable has a partner in the domain of each
constrained neighbour, or until a domain is empty. An arc is looked at again only when the domain
at its head has shrunk.
-/

namespace BinaryCsp.ArcConsistency

def unsupported (rows : Array BitSet) (head : BitSet) : List ValId → Checked (List ValId)
  | [] => return []
  | value :: rest => do
    let row ← Checked.get rows value
    let rest ← unsupported rows head rest
    return if head.intersects row then rest else value :: rest

def revise (m : Model) (store : Store) (arc : Arc) : Checked (Nat × Store) := do
  let head ← store.get arc.link.other
  let tail ← store.get arc.tail
  let doomed ← unsupported (← m.supportRows arc.link) head tail.toList
  return (doomed.length, ← store.removeAll arc.tail doomed)

def arcsOf (m : Model) : List VarId → Checked (List Arc)
  | [] => return []
  | var :: rest => do
    let links ← m.linksOf var
    return links.map (Arc.mk var) ++ (← arcsOf m rest)

/-- The arcs that lead to the tail of `arc`, except the one from its head: those whose support may
have gone when the tail shrank. The arc from the head has lost nothing, since the values removed
had no partner there. -/
def arcsInto (arc : Arc) (links : List Link) : List Arc :=
  (links.filter (·.other != arc.link.other)).map fun back =>
    ⟨back.other, ⟨arc.tail, back.relation, !back.reversed⟩⟩

structure Sweep where
  queue : ArcQueue
  store : Store
  counters : Counters

structure Outcome where
  store : Store
  counters : Counters
  /-- The arc whose tail was left without values, if any. -/
  wiped : Option Arc

inductive Progress where
  | running (sweep : Sweep)
  | finished (outcome : Outcome)

/-- Revises the next waiting arc, and queues the arcs into its tail if that has shrunk. The sweep
ends when no arc waits or a domain is empty. -/
def step (m : Model) (sweep : Sweep) : Checked Progress := do
  let ⟨queue, store, counters⟩ := sweep
  match ← queue.pop with
  | none => return .finished ⟨store, counters, none⟩
  | some (arc, queue) =>
    let (removed, store) ← revise m store arc
    let counters ← counters.countRevision arc.link.relation removed
    if removed = 0 then return .running ⟨queue, store, counters⟩
    else if (← store.get arc.tail).isEmpty then return .finished ⟨store, counters, some arc⟩
    else
      let queue ← queue.pushAll (arcsInto arc (← m.linksOf arc.tail))
      return .running ⟨queue, store, counters⟩

def settle (m : Model) : (budget : Nat) → Sweep → Checked Outcome
  | 0, _ => throw .stepLimit
  | budget + 1, sweep => do
    match ← step m sweep with
    | .running sweep => settle m budget sweep
    | .finished outcome => return outcome

/-- More revisions than there can be: each arc is revised once at first, and again at most once
for each value removed at its head. -/
def revisionBudget (m : Model) (store : Store) : Nat :=
  let again := (store.domains.toList.zip m.links.toList).map fun (domain, links) =>
    domain.size * links.length
  2 * m.relations.size + again.foldl (· + ·) 0 + 1

/-- Removes all values without support, starting from all arcs. -/
def enforce (m : Model) (store : Store) (counters : Counters) : Checked Outcome := do
  let queue ← (ArcQueue.empty m.relations.size).pushAll (← arcsOf m m.vars)
  settle m (revisionBudget m store) ⟨queue, store, counters⟩

end BinaryCsp.ArcConsistency
