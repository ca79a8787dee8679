import BinaryCsp.Store

/-!
# Assignments

`PartialAssignment` is the one under construction, over value ids with empty slots. `Assignment` is
a finished one, over the caller's values, with one value per variable.
-/

namespace BinaryCsp

structure PartialAssignment where
  slots : Array (Option ValId)
deriving DecidableEq

namespace PartialAssignment

def unassigned (count : Nat) : PartialAssignment := ⟨Array.replicate count none⟩

/-- No variable below `count` has a value, if a slot of eight bytes for each can be kept. -/
def unassigned? (count : Nat) : Checked PartialAssignment := do
  Checked.room count 8
  return unassigned count

def set (a : PartialAssignment) (var : VarId) (value : ValId) : Checked PartialAssignment := do
  return ⟨← Checked.set a.slots var (some value)⟩

def clear (a : PartialAssignment) (var : VarId) : Checked PartialAssignment := do
  return ⟨← Checked.set a.slots var none⟩

def get (a : PartialAssignment) (var : VarId) : Checked (Option ValId) := Checked.get a.slots var

/-- The values of all variables in order, once every slot is filled. -/
def complete? (a : PartialAssignment) : Option (List ValId) := a.slots.toList.mapM id

end PartialAssignment

/-- One value per variable, by variable id. -/
structure Assignment (V : Type) where
  values : Array V

namespace Assignment

variable {V : Type}

def get? (a : Assignment V) (var : VarId) : Option V := a.values[var]?

def get (a : Assignment V) (var : VarId) : Checked V := Checked.get a.values var

def size (a : Assignment V) : Nat := a.values.size

def isEmpty (a : Assignment V) : Bool := a.values.isEmpty

def toList (a : Assignment V) : List (VarId × V) :=
  a.values.toList.zipIdx.map fun (value, var) => (var, value)

end Assignment

end BinaryCsp
