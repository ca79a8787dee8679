import BinaryCsp.Store

/-!
# The unassigned variables

A flag per variable, so that the members are always listed by ascending id, whatever the order in
which they were taken out and put back.
-/

namespace BinaryCsp

structure Pool where
  member : Array Bool
  /-- The number of members. -/
  count : Nat
deriving DecidableEq

namespace Pool

def full (count : Nat) : Pool := ⟨Array.replicate count true, count⟩

/-- The pool of all variables below `count`, if a flag for each can be kept. -/
def full? (count : Nat) : Checked Pool := do
  Checked.room count 1
  return full count

def isEmpty (p : Pool) : Bool := p.count == 0

def contains (p : Pool) (var : VarId) : Checked Bool := Checked.get p.member var

def remove (p : Pool) (var : VarId) : Checked Pool := do
  let ⟨member, count⟩ := p
  if ← Checked.get member var then
    return ⟨← Checked.set member var false, ← Checked.sub count 1⟩
  else return ⟨member, count⟩

def insert (p : Pool) (var : VarId) : Checked Pool := do
  let ⟨member, count⟩ := p
  if ← Checked.get member var then return ⟨member, count⟩
  else return ⟨← Checked.set member var true, count + 1⟩

def toList (p : Pool) : List VarId :=
  (List.range p.member.size).filter fun var => p.member.getD var false

end Pool

end BinaryCsp
