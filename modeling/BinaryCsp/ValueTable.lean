import BinaryCsp.Store

/-!
# Numbering the caller's values

Values of any type with decidable equality are numbered in the order in which they are first seen.
The numbers are what domains and constraints are made of; ascending number is also the order in
which the search tries values when nothing else orders them.
-/

namespace BinaryCsp

/-- The distinct values seen so far; the id of a value is its position. -/
structure ValueTable (V : Type) where
  values : Array V
  /-- The values with their ids, to find an id by. -/
  ids : List (V × ValId)
  indexed : ids = values.toList.zipIdx

namespace ValueTable

variable {V : Type}

def empty : ValueTable V := ⟨#[], [], rfl⟩

def size (t : ValueTable V) : Nat := t.values.size

def isEmpty (t : ValueTable V) : Bool := t.values.isEmpty

def value (t : ValueTable V) (id : ValId) : Checked V := Checked.get t.values id

def push (t : ValueTable V) (v : V) : ValueTable V where
  values := t.values.push v
  ids := t.ids ++ [(v, t.size)]
  indexed := by simp [t.indexed, size, List.zipIdx_append]

variable [DecidableEq V]

def idOf? (t : ValueTable V) (v : V) : Option ValId := t.ids.lookup v

/-- The id of `v`, which becomes the next free one if `v` is new. -/
def intern (t : ValueTable V) (v : V) : ValId × ValueTable V :=
  match t.idOf? v with
  | some id => (id, t)
  | none => (t.size, t.push v)

def internAll (t : ValueTable V) : List V → List ValId × ValueTable V
  | [] => ([], t)
  | v :: rest =>
    let (id, t) := t.intern v
    let (ids, t) := t.internAll rest
    (id :: ids, t)

end ValueTable

end BinaryCsp
