import BinaryCsp.BitSet

/-!
# Domains and the trail that undoes their prunings

A `Store` holds the current domain of every variable. Each removal is also written on a trail, so
going back to an earlier moment means putting the trailed values back, newest first, until the
trail is as long as it was then.
-/

namespace BinaryCsp

abbrev VarId := Nat

/-- Values are numbered from zero, in the order in which they were first seen. -/
abbrev ValId := Nat

/-- The current domains, and the removals since the beginning, oldest first. -/
structure Store where
  domains : Array BitSet
  trail : Array (VarId × ValId)
deriving DecidableEq

namespace Store

def ofDomains (domains : Array BitSet) : Store := ⟨domains, #[]⟩

def get (s : Store) (var : VarId) : Checked BitSet := Checked.get s.domains var

def sizeOf (s : Store) (var : VarId) : Checked Nat := do return (← s.get var).size

/-- The moment to which `restore` can go back: the present length of the trail. -/
def checkpoint (s : Store) : Nat := s.trail.size

def remove (s : Store) (var : VarId) (value : ValId) : Checked (Bool × Store) := do
  let ⟨domains, trail⟩ := s
  let (removed, smaller) ← (← Checked.get domains var).remove value
  if removed then return (true, ⟨← Checked.set domains var smaller, trail.push (var, value)⟩)
  else return (false, ⟨domains, trail⟩)

def removeAll (s : Store) (var : VarId) : List ValId → Checked Store
  | [] => return s
  | value :: rest => do
    let (_, s) ← s.remove var value
    s.removeAll var rest

/-- Collapses the domain of `var` to `value` at most, and counts the values removed. -/
def assign (s : Store) (var : VarId) (value : ValId) : Checked (Nat × Store) := do
  let domain ← s.get var
  let others := domain.toList.filter (· != value)
  return (others.length, ← s.removeAll var others)

def undo (s : Store) : Checked Store := do
  let ⟨domains, trail⟩ := s
  match trail.back? with
  | none => return ⟨domains, trail⟩
  | some (var, value) =>
    let (_, larger) := (← Checked.get domains var).insert value
    return ⟨← Checked.set domains var larger, trail.pop⟩

def undoMany : (count : Nat) → Store → Checked Store
  | 0, s => return s
  | count + 1, s => do undoMany count (← s.undo)

/-- Undoes every removal made after the checkpoint. Going back to a moment that lies ahead of the
present one changes nothing. -/
def restore (s : Store) (point : Nat) : Checked Store := undoMany (s.trail.size - point) s

end Store

end BinaryCsp
