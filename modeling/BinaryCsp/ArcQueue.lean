import BinaryCsp.Model

/-!
# The queue of arcs waiting for revision

First in, first out. A relation has two directed arcs, each with a slot of its own that says
whether the arc is waiting; an arc that waits already is not queued a second time.
-/

namespace BinaryCsp

/-- The domain of `tail` is to be checked for support in the domain of `link.other`. -/
structure Arc where
  tail : VarId
  link : Link
deriving DecidableEq

/-- The waiting arcs. The queue is `front` followed by `back` reversed, so that both ends are
reached in constant time. -/
structure ArcQueue where
  front : List Arc
  back : List Arc
  /-- By slot, whether the arc with that slot waits. -/
  queued : Array Bool

namespace ArcQueue

def empty (relations : Nat) : ArcQueue := ⟨[], [], Array.replicate (2 * relations) false⟩

/-- The empty queue of a model with `relations` relations, if its arcs of twenty-four bytes can be
kept. -/
def empty? (relations : Nat) : Checked ArcQueue := do
  Checked.room (2 * relations) 24
  return empty relations

/-- The slot of an arc: two per relation, one in each direction. -/
def slot (link : Link) : Nat := 2 * link.relation + link.reversed.toNat

def toList (w : ArcQueue) : List Arc := w.front ++ w.back.reverse

def size (w : ArcQueue) : Nat := w.front.length + w.back.length

def isEmpty (w : ArcQueue) : Bool := w.front.isEmpty && w.back.isEmpty

def push (w : ArcQueue) (arc : Arc) : Checked ArcQueue := do
  let ⟨front, back, queued⟩ := w
  if ← Checked.get queued (slot arc.link) then return ⟨front, back, queued⟩
  else return ⟨front, arc :: back, ← Checked.set queued (slot arc.link) true⟩

def pushAll (w : ArcQueue) : List Arc → Checked ArcQueue
  | [] => return w
  | arc :: rest => do (← w.push arc).pushAll rest

/-- The same queue, with the next arc at the head of `front` if any arc waits. -/
def normalise (w : ArcQueue) : ArcQueue :=
  match w with
  | ⟨[], back, queued⟩ => ⟨back.reverse, [], queued⟩
  | w => w

def pop (w : ArcQueue) : Checked (Option (Arc × ArcQueue)) :=
  match w.normalise with
  | ⟨[], _, _⟩ => return none
  | ⟨arc :: front, back, queued⟩ => do
    return some (arc, ⟨front, back, ← Checked.set queued (slot arc.link) false⟩)

end ArcQueue

end BinaryCsp
