import BinaryCsp.Solver
import BinaryCsp.Proofs.Search.Explores

/-! # Both drivers take the same course

Each driver is followed by a function that lists the nodes it enters, in order. From the course of
a search the result of either driver and its list can be read off: the recursion makes the moves
of the course by definition, and the machine makes them on top of whatever stack it has. So the
drivers agree in their answer, in every counter and in every event.
-/

namespace BinaryCsp

namespace Search

variable {m : Model} {config : Config}

/-! ## The nodes entered -/

/-- The nodes that `tryAll` enters, with `below` those entered below a value that propagates. -/
def tryAllNodes (m : Model) (config : Config) (next : State → Checked Result)
    (below : State → Checked (List State)) (var : VarId) (point : Nat) :
    List ValId → State → Checked (List State)
  | [], _ => return []
  | value :: rest, s => do
    match ← s.tryValue m config var value with
    | (true, s) =>
      let nodes ← below s
      match ← next s with
      | (some _, _) => return nodes
      | (none, s) =>
        return nodes ++ (← tryAllNodes m config next below var point rest (← s.abandon point))
    | (false, s) => tryAllNodes m config next below var point rest (← s.abandon point)

def descendNodes (m : Model) (config : Config) : (levels : Nat) → State → Checked (List State)
  | levels, s => do
    if s.pool.isEmpty then return [s]
    else
      match levels with
      | 0 => throw .stepLimit
      | levels + 1 =>
        match ← s.enterNode.chooseVariable m config with
        | (none, _) => return [s]
        | (some var, t) =>
          let values ← t.orderedValues m config var
          return s :: (← tryAllNodes m config (descend m config levels)
            (descendNodes m config levels) var s.store.checkpoint values t)

/-- The node that the next move of the machine enters, if it enters one. -/
def Machine.entered (m : Model) (config : Config) (machine : Machine) : Checked (List State) := do
  let ⟨state, stack, childFailed⟩ := machine
  match stack with
  | [] => return []
  | frame :: _ =>
    let state ← if childFailed then state.abandon frame.point else pure state
    match frame.values[frame.next]? with
    | none => return []
    | some value =>
      match ← state.tryValue m config frame.var value with
      | (true, state) => return [state]
      | (false, _) => return []

def Progress.nodes (m : Model) (config : Config) : (budget : Nat) → Progress → Checked (List State)
  | _, .finished _ => return []
  | 0, .running _ => throw .stepLimit
  | budget + 1, .running machine => do
    return (← machine.entered m config) ++ (← nodes m config budget (← machine.step m config))

def nodesEntered (driver : Driver) (m : Model) (config : Config) : Checked (List State) := do
  match ← (State.initial m config).prepare m config with
  | (false, _) => return []
  | (true, root) =>
    match driver with
    | .recursive => descendNodes m config root.pool.count root
    | .explicit =>
      return root :: (← Progress.nodes m config (moveBudget m) (← Machine.enter m config root []))

/-! ## The recursion -/

def Task.nodes (m : Model) (config : Config) : Task → Checked (List State)
  | .node levels s => descendNodes m config levels s
  | .values levels owner var rest s =>
      tryAllNodes m config (descend m config levels) (descendNodes m config levels) var
        owner.store.checkpoint rest s

theorem Explores.nodes_eq {task : Task} {nodes : List State} {moves : Nat} {result : Result}
    (h : Explores m config task nodes moves result) : task.nodes m config = .ok nodes := by
  induction h with
  | @leaf levels s result empty solution =>
      cases levels with
      | zero => simp only [Task.nodes, descendNodes, empty, if_true, Checked.pure_eq_ok]
      | succ levels => simp only [Task.nodes, descendNodes, empty, if_true, Checked.pure_eq_ok]
  | branch nonempty choose order below ih =>
      simp only [Task.nodes] at ih
      simp only [Task.nodes, descendNodes, nonempty, Bool.false_eq_true, if_false, choose,
        Checked.ok_bind, order, ih, Checked.pure_eq_ok]
  | exhausted release => rfl
  | failed tried abandon next ih =>
      simp only [Task.nodes] at ih
      simp only [Task.nodes, tryAllNodes, tried, Checked.ok_bind, abandon, ih]
  | found tried below ih =>
      have hrun := below.run_eq
      simp only [Task.nodes, Task.run] at ih hrun
      simp only [Task.nodes, tryAllNodes, tried, Checked.ok_bind, ih, hrun, Checked.pure_eq_ok]
  | back tried below abandon next ihbelow ihnext =>
      have hrun := below.run_eq
      simp only [Task.nodes, Task.run] at ihbelow ihnext hrun
      simp only [Task.nodes, tryAllNodes, tried, Checked.ok_bind, ihbelow, hrun, abandon, ihnext,
        Checked.pure_eq_ok]

/-! ## The machine -/

/-- From `p` the machine comes to `q` in `moves` moves, and enters `nodes` on the way. -/
def RunsTo (m : Model) (config : Config) (p : Progress) (moves : Nat) (nodes : List State)
    (q : Progress) : Prop :=
  ∀ budget, Progress.run m config (moves + budget) p = Progress.run m config budget q ∧
    Progress.nodes m config (moves + budget) p =
      (nodes ++ ·) <$> Progress.nodes m config budget q

theorem RunsTo.refl (p : Progress) : RunsTo m config p 0 [] p := by
  intro budget
  rw [Nat.zero_add]
  simp

theorem RunsTo.trans {p q r : Progress} {moves more : Nat} {nodes later : List State}
    (h : RunsTo m config p moves nodes q) (h' : RunsTo m config q more later r) :
    RunsTo m config p (moves + more) (nodes ++ later) r := by
  intro budget
  obtain ⟨hrun, hnodes⟩ := h (more + budget)
  obtain ⟨hrun', hnodes'⟩ := h' budget
  rw [Nat.add_assoc, hrun, hnodes, hrun', hnodes']
  refine ⟨rfl, ?_⟩
  simp

theorem RunsTo.of_step {machine : Machine} {nodes : List State} {q : Progress}
    (hstep : machine.step m config = .ok q) (hentered : machine.entered m config = .ok nodes) :
    RunsTo m config (.running machine) 1 nodes q := by
  intro budget
  rw [Nat.add_comm]
  constructor
  · simp only [Progress.run, hstep, Checked.ok_bind]
  · simp only [Progress.nodes, hstep, hentered, Checked.ok_bind]
    rfl

/-- How the machine goes on once the search above `stack` has ended. -/
def resume (stack : List Frame) : Result → Progress
  | (some values, s) => .finished (some values, s)
  | (none, s) => .running ⟨s, stack, true⟩

/-- The machine is about to try the values `rest` in the state `s`. If the node below the frame has
just failed, its value is still to be given up. -/
structure Frame.Tries (frame : Frame) (var : VarId) (point : Nat) (rest : List ValId)
    (held : State) (childFailed : Bool) (s : State) : Prop where
  var : frame.var = var
  point : frame.point = point
  rest : frame.values.drop frame.next = rest
  state : (if childFailed then held.abandon frame.point else pure held) = .ok s

section Tries

variable {frame : Frame} {var : VarId} {point : Nat} {value : ValId} {rest : List ValId}
  {held s t u : State} {childFailed : Bool} {stack : List Frame} {p : Progress}

theorem Frame.Tries.value_eq (h : frame.Tries var point (value :: rest) held childFailed s) :
    frame.values[frame.next]? = some value := by
  rw [← List.head?_drop, h.rest, List.head?_cons]

theorem Frame.Tries.next (h : frame.Tries var point (value :: rest) held childFailed s)
    {after : State} {failed : Bool}
    (hstate : (if failed then after.abandon point else pure after) = .ok u) :
    Frame.Tries { frame with next := frame.next + 1 } var point rest after failed u where
  var := h.var
  point := h.point
  rest := by
    have htail := congrArg List.tail h.rest
    rwa [List.tail_drop, List.tail_cons] at htail
  state := by rw [h.point]; exact hstate

/-- The next move starts from the state in which the value that failed has been given up. -/
theorem Frame.Tries.step_eq (h : frame.Tries var point rest held childFailed s) :
    Machine.step m config ⟨held, frame :: stack, childFailed⟩ =
        Machine.step m config ⟨s, frame :: stack, false⟩ ∧
      Machine.entered m config ⟨held, frame :: stack, childFailed⟩ =
        Machine.entered m config ⟨s, frame :: stack, false⟩ := by
  have hstate := h.state
  cases childFailed with
  | false =>
      obtain rfl : held = s := Except.ok.inj hstate
      exact ⟨rfl, rfl⟩
  | true =>
      rw [if_pos rfl] at hstate
      constructor
      · simp only [Machine.step, if_true, hstate, Checked.ok_bind]
        rfl
      · simp only [Machine.entered, if_true, hstate, Checked.ok_bind]
        rfl

/-- No value is left: the frame is dropped. -/
theorem Frame.Tries.runs_nil (h : frame.Tries var point [] held childFailed s)
    (hrelease : s.release var = .ok t) :
    RunsTo m config (.running ⟨held, frame :: stack, childFailed⟩) 1 []
      (.running ⟨t, stack, true⟩) := by
  have hnone : frame.values[frame.next]? = none := by
    rw [← List.head?_drop, h.rest, List.head?_nil]
  apply RunsTo.of_step
  · rw [h.step_eq.1]
    simp only [Machine.step, Bool.false_eq_true, if_false, Checked.pure_eq_ok, Checked.ok_bind,
      hnone, h.var, hrelease]
  · rw [h.step_eq.2]
    simp only [Machine.entered, Bool.false_eq_true, if_false, Checked.pure_eq_ok, Checked.ok_bind,
      hnone]

/-- A value fails at once: the frame goes on to the next one. -/
theorem Frame.Tries.runs_failed (h : frame.Tries var point (value :: rest) held childFailed s)
    (htry : s.tryValue m config var value = .ok (false, t))
    (habandon : t.abandon point = .ok u) :
    RunsTo m config (.running ⟨held, frame :: stack, childFailed⟩) 1 []
      (.running ⟨u, { frame with next := frame.next + 1 } :: stack, false⟩) := by
  apply RunsTo.of_step
  · rw [h.step_eq.1]
    simp only [Machine.step, Bool.false_eq_true, if_false, Checked.pure_eq_ok, Checked.ok_bind,
      h.value_eq, h.var, htry, h.point, habandon]
  · rw [h.step_eq.2]
    simp only [Machine.entered, Bool.false_eq_true, if_false, Checked.pure_eq_ok, Checked.ok_bind,
      h.value_eq, h.var, htry]

/-- A value propagates: the machine enters the node below. -/
theorem Frame.Tries.runs_entered (h : frame.Tries var point (value :: rest) held childFailed s)
    (htry : s.tryValue m config var value = .ok (true, t))
    (henter : Machine.enter m config t ({ frame with next := frame.next + 1 } :: stack) = .ok p) :
    RunsTo m config (.running ⟨held, frame :: stack, childFailed⟩) 1 [t] p := by
  apply RunsTo.of_step
  · rw [h.step_eq.1, ← henter]
    simp only [Machine.step, Bool.false_eq_true, if_false, Checked.pure_eq_ok, Checked.ok_bind,
      h.value_eq, h.var, htry]
  · rw [h.step_eq.2]
    simp only [Machine.entered, Bool.false_eq_true, if_false, Checked.pure_eq_ok, Checked.ok_bind,
      h.value_eq, h.var, htry]

end Tries

/-- What the machine does with a part of a search, on top of any stack. -/
def Task.Simulated (m : Model) (config : Config) (task : Task) (nodes : List State) (moves : Nat)
    (result : Result) : Prop :=
  match task with
  | .node _ s => ∀ stack, ∃ p below, nodes = s :: below ∧ Machine.enter m config s stack = .ok p ∧
      RunsTo m config p moves below (resume stack result)
  | .values _ owner var rest s => ∀ (stack : List Frame) (frame : Frame) (held : State)
      (childFailed : Bool), frame.Tries var owner.store.checkpoint rest held childFailed s →
      RunsTo m config (.running ⟨held, frame :: stack, childFailed⟩) moves nodes
        (resume stack result)

/-- The machine takes the course of the search. -/
theorem Explores.simulated {task : Task} {nodes : List State} {moves : Nat} {result : Result}
    (h : Explores m config task nodes moves result) :
    task.Simulated m config nodes moves result := by
  induction h with
  | @leaf levels s result empty solution =>
      intro stack
      have hempty : s.enterNode.pool.isEmpty = true := empty
      refine ⟨resume stack result, [], rfl, ?_, .refl _⟩
      obtain ⟨found, t⟩ := result
      cases found with
      | none =>
          simp only [Machine.enter, hempty, if_true, solution, Checked.ok_bind]
          rfl
      | some values =>
          simp only [Machine.enter, hempty, if_true, solution, Checked.ok_bind]
          rfl
  | @branch levels s t var values nodes moves result nonempty choose order below ih =>
      intro stack
      have hnonempty : s.enterNode.pool.isEmpty = false := nonempty
      let frame : Frame := ⟨var, values, 0, s.store.checkpoint⟩
      refine ⟨.running ⟨t, frame :: stack, false⟩, nodes, rfl, ?_,
        ih stack frame t false ⟨rfl, rfl, rfl, rfl⟩⟩
      simp only [Machine.enter, hnonempty, Bool.false_eq_true, if_false, choose, Checked.ok_bind,
        order]
      rfl
  | exhausted release =>
      intro stack frame held childFailed h
      exact h.runs_nil release
  | failed tried abandon next ih =>
      intro stack frame held childFailed h
      have hrun := (h.runs_failed tried abandon).trans (ih stack _ _ false (h.next rfl))
      rwa [Nat.add_comm] at hrun
  | found tried below ih =>
      intro stack frame held childFailed h
      obtain ⟨p, later, rfl, henter, hbelow⟩ := ih ({ frame with next := frame.next + 1 } :: stack)
      have hrun := (h.runs_entered tried henter).trans hbelow
      rwa [Nat.add_comm] at hrun
  | back tried below abandon next ihbelow ihnext =>
      intro stack frame held childFailed h
      obtain ⟨p, later, rfl, henter, hbelow⟩ :=
        ihbelow ({ frame with next := frame.next + 1 } :: stack)
      -- The node below hands back a failed child, which the next move gives up.
      have hnext := ihnext stack _ _ true (h.next abandon)
      have hrun := ((h.runs_entered tried henter).trans hbelow).trans hnext
      rwa [Nat.add_comm 1, Nat.add_right_comm] at hrun

/-! ## Whole searches -/

/-- Once the search above an empty stack has ended, the machine ends with its result. -/
theorem run_resume (result : Result) (budget : Nat) :
    Progress.run m config (budget + 1) (resume [] result) = .ok result ∧
      Progress.nodes m config (budget + 1) (resume [] result) = .ok [] := by
  obtain ⟨found, s⟩ := result
  cases found with
  | some values => exact ⟨rfl, rfl⟩
  | none =>
      have hrun : RunsTo m config (.running ⟨s, [], true⟩) 1 [] (.finished (none, s)) :=
        RunsTo.of_step rfl rfl
      obtain ⟨hrun, hnodes⟩ := hrun budget
      rw [Nat.add_comm]
      cases budget with
      | zero => exact ⟨hrun, hnodes⟩
      | succ budget => exact ⟨hrun, hnodes⟩

def Result.report (result : Result) : Run :=
  ⟨result.1, .ofCounters result.2.counters, result.2.log.reverse⟩

section Solve

variable {root : State}

/-- Either driver reports the result of the course and enters its nodes. -/
theorem Explores.solve_eq (hprepare : (State.initial m config).prepare m config = .ok (true, root))
    {nodes : List State} {moves : Nat} {result : Result}
    (h : Explores m config (.node root.pool.count root) nodes moves result)
    (hmoves : moves < moveBudget m) (driver : Driver) :
    Strategy.solve ⟨driver, config⟩ m = .ok (Result.report result) ∧
      nodesEntered driver m config = .ok nodes := by
  cases driver with
  | recursive =>
      have hrun := h.run_eq
      have hnodes := h.nodes_eq
      simp only [Task.run, Task.nodes] at hrun hnodes
      constructor
      · simp only [Strategy.solve, runRecursive, hprepare, Checked.ok_bind, hrun]
        rfl
      · simp only [nodesEntered, hprepare, Checked.ok_bind, hnodes]
  | explicit =>
      obtain ⟨p, below, rfl, henter, hruns⟩ := h.simulated []
      obtain ⟨spare, hspare⟩ := Nat.exists_eq_add_of_lt hmoves
      obtain ⟨hrun, hnodes⟩ := hruns (spare + 1)
      rw [(run_resume result spare).1, ← Nat.add_assoc, ← hspare] at hrun
      rw [(run_resume result spare).2, ← Nat.add_assoc, ← hspare] at hnodes
      constructor
      · simp only [Strategy.solve, runExplicit, hprepare, Checked.ok_bind, henter, hrun]
        rfl
      · simp only [nodesEntered, hprepare, Checked.ok_bind, henter, hnodes]
        simp

/-- If arc consistency fails before the first node, no driver enters any. -/
theorem solve_of_prepare_failed
    (hprepare : (State.initial m config).prepare m config = .ok (false, root)) (driver : Driver) :
    Strategy.solve ⟨driver, config⟩ m = .ok (Result.report (none, root)) ∧
      nodesEntered driver m config = .ok [] := by
  cases driver with
  | recursive =>
      constructor
      · simp only [Strategy.solve, runRecursive, hprepare, Checked.ok_bind]
        rfl
      · simp only [nodesEntered, hprepare, Checked.ok_bind]
        rfl
  | explicit =>
      constructor
      · simp only [Strategy.solve, runExplicit, hprepare, Checked.ok_bind]
        rfl
      · simp only [nodesEntered, hprepare, Checked.ok_bind]
        rfl

/-- The state before the first node is the root of a search that ends within the budget. -/
theorem exists_explores_root (hm : m.WellFormed)
    (hprepare : (State.initial m config).prepare m config = .ok (true, root)) :
    (Task.node root.pool.count root).Valid m ∧ root.counters.nodes = 0 ∧
      ∃ nodes moves result, Explores m config (.node root.pool.count root) nodes moves result ∧
        moves < moveBudget m := by
  have hinitial := State.initial_sound config hm
  obtain ⟨kept, t, hprepare', h⟩ := State.prepare_spec config hm hinitial
  obtain ⟨rfl, rfl⟩ := Prod.mk.inj (Except.ok.inj (hprepare'.symm.trans hprepare))
  obtain ⟨hsound, hassignment, hnodes⟩ : t.Sound m ∧
      t.assignment = (State.initial m config).assignment ∧ t.counters.nodes = 0 := by
    rcases h with ⟨_, _, rfl⟩ | ⟨_, h⟩
    · exact ⟨hinitial, rfl, rfl⟩
    · exact ⟨h.sound hinitial, h.assignment, h.revised.nodes⟩
  have hvalid : (Task.node t.pool.count t).Valid m := ⟨hsound, Nat.le_refl _⟩
  have hrange : t.InRange m := by
    intro var a ha
    rw [hassignment] at ha
    simp [State.initial] at ha
  obtain ⟨nodes, moves, result, hrun, hmoves⟩ := exists_explores hm hvalid hrange
  refine ⟨hvalid, hnodes, nodes, moves, result, hrun, Nat.lt_of_lt_of_le hmoves ?_⟩
  have hcount := hsound.pool.count_le
  exact Nat.pow_le_pow_right (by omega) (by omega)

/-- A solve fails before the first node, or it takes the course of a search from the root. -/
theorem solve_cases (hm : m.WellFormed) (config : Config) (driver : Driver) :
    (∃ root, (State.initial m config).prepare m config = .ok (false, root) ∧
      Strategy.solve ⟨driver, config⟩ m = .ok (Result.report (none, root)) ∧
      nodesEntered driver m config = .ok []) ∨
    ∃ root nodes moves result,
      (State.initial m config).prepare m config = .ok (true, root) ∧
      (Task.node root.pool.count root).Valid m ∧
      Explores m config (.node root.pool.count root) nodes moves result ∧
      Strategy.solve ⟨driver, config⟩ m = .ok (Result.report result) ∧
      nodesEntered driver m config = .ok nodes := by
  obtain ⟨kept, root, hprepare, _⟩ := State.prepare_spec config hm (State.initial_sound config hm)
  cases kept with
  | false => exact .inl ⟨root, hprepare, solve_of_prepare_failed hprepare driver⟩
  | true =>
      obtain ⟨hvalid, _, nodes, moves, result, hrun, hmoves⟩ := exists_explores_root hm hprepare
      exact .inr ⟨root, nodes, moves, result, hprepare, hvalid, hrun,
        hrun.solve_eq hprepare hmoves driver⟩

end Solve

end Search

section Equivalence

variable {V : Type} [DecidableEq V]

/-- On a built model both drivers come to the same answer, with the same counters and the same
events. -/
theorem Strategy.solve_recursive_eq_explicit {calls : List (Call V)} {p : Problem V}
    (hp : Problem.ofCalls calls = .ok p) (config : Config) :
    ∃ run, Strategy.solve ⟨.recursive, config⟩ p.model = .ok run ∧
      Strategy.solve ⟨.explicit, config⟩ p.model = .ok run := by
  have hm := (Problem.faithful_of_ofCalls hp).wellFormed
  obtain ⟨kept, root, hprepare, _⟩ :=
    Search.State.prepare_spec config hm (Search.State.initial_sound config hm)
  cases kept with
  | false =>
      exact ⟨_, (Search.solve_of_prepare_failed hprepare _).1,
        (Search.solve_of_prepare_failed hprepare _).1⟩
  | true =>
      obtain ⟨_, _, nodes, moves, result, hrun, hmoves⟩ := Search.exists_explores_root hm hprepare
      exact ⟨_, (hrun.solve_eq hprepare hmoves _).1, (hrun.solve_eq hprepare hmoves _).1⟩

theorem Strategy.solve_recursive_eq_explicit_chain :
    ∃ p run, Problem.ofCalls Call.ascendingChain = .ok p ∧
      Strategy.solve ⟨.recursive, true, true, true, false, .seeded 7⟩ p.model = .ok run ∧
      Strategy.solve ⟨.explicit, true, true, true, false, .seeded 7⟩ p.model = .ok run := by
  obtain ⟨p, hp⟩ := Call.exists_ofCalls_ascendingChain
  obtain ⟨run, hrun⟩ := Strategy.solve_recursive_eq_explicit hp ⟨true, true, true, false, .seeded 7⟩
  exact ⟨p, run, hp, hrun⟩

end Equivalence

end BinaryCsp
