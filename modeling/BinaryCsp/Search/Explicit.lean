import BinaryCsp.Search.Recursive

/-!
# Depth-first search with a stack of its own

The same search as by recursion, as a machine that holds one frame for each variable it branches
on. It visits the same nodes in the same order.
-/

namespace BinaryCsp

namespace Search

structure Frame where
  var : VarId
  /-- Its values in the order in which they are tried. -/
  values : List ValId
  /-- The position of the next value to try. -/
  next : Nat
  /-- The checkpoint taken before the first value. -/
  point : Nat
deriving DecidableEq

structure Machine where
  state : State
  /-- The frames, innermost first. -/
  stack : List Frame
  /-- Whether the node below the innermost frame has just failed. -/
  childFailed : Bool

inductive Progress where
  | running (machine : Machine)
  | finished (result : Result)

namespace Machine

/-- Enters a node: a leaf is a solution or a failed child, and any other node gets a frame. -/
def enter (m : Model) (config : Config) (state : State) (stack : List Frame) :
    Checked Progress := do
  let state := state.enterNode
  if state.pool.isEmpty then
    match ← state.solution? m with
    | (some found, state) => return .finished (some found, state)
    | (none, state) => return .running ⟨state, stack, true⟩
  else
    let point := state.store.checkpoint
    match ← state.chooseVariable m config with
    | (none, state) => return .running ⟨state, stack, true⟩
    | (some var, state) =>
      let values ← state.orderedValues m config var
      return .running ⟨state, ⟨var, values, 0, point⟩ :: stack, false⟩

/-- One move: tries the next value of the innermost frame, or drops the frame if it has no value
left. -/
def step (m : Model) (config : Config) (machine : Machine) : Checked Progress := do
  let ⟨state, stack, childFailed⟩ := machine
  match stack with
  | [] => return .finished (none, state)
  | frame :: stack =>
    let state ← if childFailed then state.abandon frame.point else pure state
    match frame.values[frame.next]? with
    | some value =>
      let stack := { frame with next := frame.next + 1 } :: stack
      match ← state.tryValue m config frame.var value with
      | (true, state) => enter m config state stack
      | (false, state) => return .running ⟨← state.abandon frame.point, stack, false⟩
    | none => return .running ⟨← state.release frame.var, stack, true⟩

end Machine

namespace Progress

def run (m : Model) (config : Config) : (budget : Nat) → Progress → Checked Result
  | _, .finished result => return result
  | 0, .running _ => throw .stepLimit
  | budget + 1, .running machine => do run m config budget (← machine.step m config)

end Progress

/-- More moves than there can be: a node with `k` unassigned variables takes at most
`(valueCount + 2) ^ (k + 1)` of them. -/
def moveBudget (m : Model) : Nat := Nat.pow (m.valueCount + 2) (m.variableCount + 1)

def runExplicit (m : Model) (config : Config) : Checked Result := do
  match ← (State.initial m config).prepare m config with
  | (false, s) => return (none, s)
  | (true, s) => Progress.run m config (moveBudget m) (← Machine.enter m config s [])

end Search

end BinaryCsp
