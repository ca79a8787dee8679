/-!
# Faults

Every table in the solver is read and written through the checked accessors of this module, and
every counter that goes down does so through a checked subtraction. A result is then either an
answer or the exact expectation that was broken, and "nothing goes wrong" is a statement about
values: the run returns `.ok`.
-/

namespace BinaryCsp

/-- The ways a run can break off before it has an answer. -/
inductive Fault where
  /-- A table with `size` entries was read or written at `index`. -/
  | outOfRange (index size : Nat)
  /-- A counter at `value` was lowered by `amount`. -/
  | underflow (value amount : Nat)
  /-- A table of `size` entries was asked for, more than can be addressed. -/
  | tooLarge (size : Nat)
  /-- A counted loop used up its budget. -/
  | stepLimit
deriving DecidableEq

abbrev Checked (α : Type) := Except Fault α

namespace Checked

variable {α : Type}

@[inline] def get (table : Array α) (index : Nat) : Checked α :=
  if h : index < table.size then .ok table[index] else .error (.outOfRange index table.size)

@[inline] def set (table : Array α) (index : Nat) (entry : α) : Checked (Array α) :=
  if h : index < table.size then .ok (table.set index entry)
  else .error (.outOfRange index table.size)

@[inline] def sub (value amount : Nat) : Checked Nat :=
  if amount ≤ value then .ok (value - amount) else .error (.underflow value amount)

/-- The number of bytes that a table cannot reach: offsets into a table are signed 64-bit
numbers. -/
def byteLimit : Nat := 0x8000000000000000

/-- Refuses a table of `size` entries of `bytes` bytes each that cannot be addressed. -/
def room (size bytes : Nat) : Checked Unit :=
  if size * bytes < byteLimit then .ok () else .error (.tooLarge size)

end Checked

end BinaryCsp
