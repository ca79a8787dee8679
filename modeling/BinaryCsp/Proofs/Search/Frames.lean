import BinaryCsp.Proofs.Search.Nodes

/-! # The frames of the machine

The frames between two moves lead from the root down to the node that is searched: each variable
below the top has the value that its frame tried last, and each frame goes back to where its node
was entered. This is kept as a path of nodes, so that a frame that is dropped uncovers the node of
the frame below it with all that is known of it. What the stack satisfies is read off the path.
-/

namespace BinaryCsp.Search

open State

def Frame.Holds (frame : Frame) (s : State) : Prop :=
  0 < frame.next ∧ ∃ value, frame.values[frame.next - 1]? = some value ∧
    s.assignment.valueOf frame.var = some value

structure Orderly (m : Model) (stack : List Frame) (s : State) : Prop where
  distinct : (stack.map (·.var)).Nodup
  taken : ∀ frame ∈ stack, ¬ s.pool.Has frame.var
  count : stack.length + s.pool.count = m.variableCount
  next_le : ∀ frame ∈ stack, frame.next ≤ frame.values.length
  points : stack.Pairwise fun inner outer => outer.point ≤ inner.point
  point_le : ∀ frame ∈ stack, frame.point ≤ s.store.checkpoint
  holds : ∀ frame ∈ stack.tail, frame.Holds s

/-- The iterations of the machine from `p`, in order, up to the result. -/
inductive Progress.Passes (m : Model) (config : Config) :
    Progress → List Machine → Result → Prop where
  | finished {result : Result} : Passes m config (.finished result) [] result
  | step {machine : Machine} {p : Progress} {later : List Machine} {result : Result}
      (step : machine.step m config = .ok p) (rest : Passes m config p later result) :
      Passes m config (.running machine) (machine :: later) result

/-- `stack` leads from `root` to the node `node`: the value that each frame tried last propagated,
and the next frame was made at the node below it. -/
inductive Path (m : Model) (config : Config) (root : State) : List Frame → State → Prop where
  | root : Path m config root [] root
  | down {stack : List Frame} {frame : Frame} {levels : Nat} {node s t : State} {value : ValId}
      (above : Path m config root stack node)
      (branches : Branches m levels node frame.var (value :: frame.values.drop frame.next) s)
      (tried : Tried m config s frame.var value true t)
      (point : frame.point = node.store.checkpoint) (next_pos : 0 < frame.next)
      (last : frame.values[frame.next - 1]? = some value) :
      Path m config root (frame :: stack) t

/-- The machine between two moves: about to try the next value of the innermost frame, or back from
the node that the frames lead to. -/
inductive OnCourse (m : Model) (config : Config) (root : State) : Machine → Prop where
  | trying {stack : List Frame} {frame : Frame} {levels : Nat} {node s : State}
      (path : Path m config root stack node)
      (branches : Branches m levels node frame.var (frame.values.drop frame.next) s)
      (point : frame.point = node.store.checkpoint)
      (next_le : frame.next ≤ frame.values.length) :
      OnCourse m config root ⟨s, frame :: stack, false⟩
  | failed {stack : List Frame} {node s : State} (path : Path m config root stack node)
      (same : Restored node s) : OnCourse m config root ⟨s, stack, true⟩

variable {m : Model} {config : Config} {root node s t : State} {stack : List Frame}
  {frame : Frame} {levels : Nat} {rest : List ValId}

theorem Path.sound (hroot : root.Sound m) (h : Path m config root stack node) : node.Sound m := by
  cases h with
  | root => exact hroot
  | down above branches tried point next_pos last => exact (branches.child tried).1

/-! ## What the frames satisfy -/

theorem Frame.Holds.of_valueOf_eq (h : frame.Holds s)
    (hsame : t.assignment.valueOf frame.var = s.assignment.valueOf frame.var) :
    frame.Holds t := by
  obtain ⟨hpos, value, hlast, hvalue⟩ := h
  exact ⟨hpos, value, hlast, hsame.trans hvalue⟩

/-- A frame for a variable of the node goes on top of the frames that lead there. -/
theorem Orderly.cons (h : Orderly m stack node) (hholds : ∀ outer ∈ stack, outer.Holds node)
    (hbranches : Branches m levels node frame.var rest s)
    (hpoint : frame.point = node.store.checkpoint) (hnext : frame.next ≤ frame.values.length)
    (hpool : t.pool = s.pool) (htrail : node.store.checkpoint ≤ t.store.checkpoint)
    (hvalues : ∀ other, other ≠ frame.var →
      t.assignment.valueOf other = node.assignment.valueOf other) :
    Orderly m (frame :: stack) t := by
  have hhas : ∀ {other}, t.pool.Has other ↔ node.pool.Has other ∧ other ≠ frame.var := by
    intro other
    rw [hpool]
    exact hbranches.branching.has_iff hbranches.sound hbranches.has
  have hne : ∀ outer ∈ stack, outer.var ≠ frame.var :=
    fun outer houter hsame => h.taken outer houter (hsame ▸ hbranches.has)
  refine ⟨?_, ?_, ?_, ?_, ?_, ?_, ?_⟩
  · refine List.nodup_cons.2 ⟨?_, h.distinct⟩
    rw [List.mem_map]
    rintro ⟨outer, houter, hsame⟩
    exact hne outer houter hsame
  · refine List.forall_mem_cons.2 ⟨fun hin => (hhas.1 hin).2 rfl, fun outer houter hin => ?_⟩
    exact h.taken outer houter (hhas.1 hin).1
  · have hcount := hbranches.branching.count hbranches.sound hbranches.has
    have hbefore := h.count
    rw [List.length_cons, hpool]
    omega
  · exact List.forall_mem_cons.2 ⟨hnext, h.next_le⟩
  · refine List.pairwise_cons.2 ⟨fun outer houter => ?_, h.points⟩
    rw [hpoint]
    exact h.point_le outer houter
  · refine List.forall_mem_cons.2 ⟨hpoint.trans_le htrail, fun outer houter => ?_⟩
    exact (h.point_le outer houter).trans htrail
  · intro outer houter
    exact (hholds outer houter).of_valueOf_eq (hvalues _ (hne outer houter))

theorem Path.orderly (hfull : root.pool.count = m.variableCount)
    (h : Path m config root stack node) :
    Orderly m stack node ∧ ∀ frame ∈ stack, frame.Holds node := by
  induction h with
  | root =>
      refine ⟨⟨List.nodup_nil, nofun, ?_, nofun, .nil, nofun, nofun⟩, nofun⟩
      rw [List.length_nil, Nat.zero_add, hfull]
  | @down stack frame _ node s t value above branches tried point next_pos last ih =>
      obtain ⟨horderly, hholds⟩ := ih
      have hnext : frame.next ≤ frame.values.length := by
        have hlt := (List.getElem?_eq_some_iff.1 last).1
        omega
      have htrail : node.store.checkpoint ≤ t.store.checkpoint := by
        have hle := tried.pruned.trail_le
        rwa [branches.branching.store] at hle
      have hvalues : ∀ other, other ≠ frame.var →
          t.assignment.valueOf other = node.assignment.valueOf other := by
        intro other hne
        rw [branches.valueOf_child tried, if_neg hne]
      have hcons := horderly.cons hholds branches point hnext tried.pool htrail hvalues
      refine ⟨hcons, List.forall_mem_cons.2 ⟨⟨next_pos, value, last, ?_⟩, hcons.holds⟩⟩
      rw [branches.valueOf_child tried, if_pos rfl]

theorem OnCourse.orderly {machine : Machine} (hfull : root.pool.count = m.variableCount)
    (h : OnCourse m config root machine) :
    Orderly m machine.stack machine.state := by
  cases h with
  | @trying stack frame _ node s path branches point next_le =>
      obtain ⟨horderly, hholds⟩ := path.orderly hfull
      refine horderly.cons hholds branches point next_le rfl ?_ fun other hne => ?_
      · exact (congrArg Store.checkpoint branches.branching.store).ge
      · exact branches.branching.valueOf hne
  | @failed stack node s path same =>
      obtain ⟨h, hholds⟩ := path.orderly hfull
      obtain ⟨hstore, hpool, hassignment, _⟩ := same
      refine ⟨h.distinct, ?_, ?_, h.next_le, h.points, ?_, fun frame hframe => ?_⟩
      · rw [hpool]
        exact h.taken
      · rw [hpool]
        exact h.count
      · rw [hstore]
        exact h.point_le
      · refine (hholds frame (List.mem_of_mem_tail hframe)).of_valueOf_eq ?_
        rw [hassignment]

/-! ## Every move keeps to the course -/

section Step

variable {machine later : Machine}

theorem Path.onCourse_of_enter (hm : m.WellFormed) (hroot : root.Sound m)
    (h : Path m config root stack s)
    (henter : Machine.enter m config s stack = .ok (.running later)) :
    OnCourse m config root later := by
  have hs := h.sound hroot
  unfold Machine.enter at henter
  cases hempty : s.pool.isEmpty with
  | true =>
      have hempty' : s.enterNode.pool.isEmpty = true := hempty
      simp only [hempty', if_true] at henter
      obtain ⟨⟨found, t⟩, hsolution, henter⟩ := Checked.bind_eq_ok.1 henter
      cases found with
      | some values => cases henter
      | none =>
          cases henter
          obtain ⟨hstore, hpool, hassignment, hsize⟩ := (Restored.of_solution? hsolution).1
          exact .failed h ⟨hstore, hpool, hassignment, hsize⟩
  | false =>
      have hempty' : s.enterNode.pool.isEmpty = false := hempty
      simp only [hempty', Bool.false_eq_true, if_false] at henter
      obtain ⟨var, t, values, hchoose, horder, _, _, hbranches, _⟩ :=
        exists_branches config hm hs (Nat.le_succ _) hempty
      simp only [hchoose, horder, Checked.ok_bind] at henter
      cases henter
      exact .trying h hbranches rfl (Nat.zero_le _)

/-- The next value of the innermost frame is tried, or the frame is dropped. -/
theorem Path.onCourse_of_step (hm : m.WellFormed) (hroot : root.Sound m)
    (h : Path m config root stack node)
    (hbranches : Branches m levels node frame.var (frame.values.drop frame.next) s)
    (hpoint : frame.point = node.store.checkpoint)
    (hstep : Machine.step m config ⟨s, frame :: stack, false⟩ = .ok (.running later)) :
    OnCourse m config root later := by
  simp only [Machine.step, Bool.false_eq_true, if_false, Checked.pure_eq_ok, Checked.ok_bind]
    at hstep
  cases hvalue : frame.values[frame.next]? with
  | none =>
      simp only [hvalue] at hstep
      obtain ⟨t, hrelease, hstep⟩ := Checked.bind_eq_ok.1 hstep
      cases hstep
      exact .failed h (hbranches.released hrelease).1
  | some value =>
      simp only [hvalue] at hstep
      obtain ⟨hlt, hget⟩ := List.getElem?_eq_some_iff.1 hvalue
      have hdrop : frame.values.drop frame.next = value :: frame.values.drop (frame.next + 1) := by
        rw [List.drop_eq_getElem_cons hlt, hget]
      rw [hdrop] at hbranches
      obtain ⟨⟨kept, t⟩, htry, hstep⟩ := Checked.bind_eq_ok.1 hstep
      have ht := hbranches.tried hm htry
      cases kept with
      | true =>
          have hdown : Path m config root ({ frame with next := frame.next + 1 } :: stack) t :=
            .down h hbranches ht hpoint (Nat.succ_pos _) hvalue
          exact hdown.onCourse_of_enter hm hroot hstep
      | false =>
          obtain ⟨w, habandon, hstep⟩ := Checked.bind_eq_ok.1 hstep
          cases hstep
          rw [hpoint] at habandon
          exact .trying h (hbranches.next ht (.refl t) habandon).1 hpoint hlt

theorem OnCourse.step (hm : m.WellFormed) (hroot : root.Sound m)
    (h : OnCourse m config root machine)
    (hstep : machine.step m config = .ok (.running later)) : OnCourse m config root later := by
  cases h with
  | trying path branches point next_le =>
      exact path.onCourse_of_step hm hroot branches point hstep
  | @failed _ _ s path same =>
      cases path with
      | root => cases hstep
      | @down stack frame levels node s' t value above branches tried point next_pos last =>
          -- The value that failed below is given up first, and then the frame goes on.
          obtain ⟨w, habandon, hnext, _⟩ := branches.exists_next tried same
          have hstate : frame.Tries frame.var node.store.checkpoint
              (frame.values.drop frame.next) s true w :=
            ⟨rfl, point, rfl, by rw [if_pos rfl, point, habandon]⟩
          rw [hstate.step_eq.1] at hstep
          exact above.onCourse_of_step hm hroot hnext point hstep

end Step

/-! ## Whole runs -/

/-- Moves made within a budget are iterations up to the same result, and no more than budgeted. -/
theorem Progress.exists_passes {budget : Nat} {p : Progress} {result : Result}
    (h : Progress.run m config budget p = .ok result) :
    ∃ machines, Progress.Passes m config p machines result ∧ machines.length ≤ budget := by
  induction budget generalizing p with
  | zero =>
      cases p with
      | running machine => cases h
      | finished ended =>
          cases h
          exact ⟨[], .finished, Nat.le_refl 0⟩
  | succ budget ih =>
      cases p with
      | running machine =>
          obtain ⟨next, hstep, hrun⟩ := Checked.bind_eq_ok.1 h
          obtain ⟨machines, hpasses, hlength⟩ := ih hrun
          exact ⟨machine :: machines, .step hstep hpasses, Nat.succ_le_succ hlength⟩
      | finished ended =>
          cases h
          exact ⟨[], .finished, Nat.zero_le _⟩

theorem Progress.Passes.onCourse (hm : m.WellFormed) (hroot : root.Sound m) {p : Progress}
    {machines : List Machine} {result : Result} (h : Progress.Passes m config p machines result)
    (hfirst : ∀ machine, p = .running machine → OnCourse m config root machine) :
    ∀ machine ∈ machines, OnCourse m config root machine := by
  induction h with
  | finished => exact nofun
  | @step machine p later result hstep hrest ih =>
      have hmachine := hfirst machine rfl
      refine List.forall_mem_cons.2 ⟨hmachine, ih fun next hnext => ?_⟩
      exact hmachine.step hm hroot (hnext ▸ hstep)

/-- A search whose preparation succeeds is made of finitely many iterations of the machine. -/
theorem exists_passes_of_solve {run : Run}
    (hprepare : (State.initial m config).prepare m config = .ok (true, root))
    (h : Strategy.solve ⟨.explicit, config⟩ m = .ok run) :
    ∃ first machines result, Machine.enter m config root [] = .ok first ∧
      Progress.Passes m config first machines result ∧ run = result.report ∧
      machines.length ≤ moveBudget m := by
  obtain ⟨result, hrun, hreport⟩ := Checked.bind_eq_ok.1 h
  simp only [runExplicit, hprepare, Checked.ok_bind] at hrun
  obtain ⟨first, henter, hrun⟩ := Checked.bind_eq_ok.1 hrun
  obtain ⟨machines, hpasses, hlength⟩ := Progress.exists_passes hrun
  exact ⟨first, machines, result, henter, hpasses, (Except.ok.inj hreport).symm, hlength⟩

variable {V : Type} [DecidableEq V]

/-- On a built model the machine ends with every configuration, after finitely many iterations, and
its frames are orderly at each of them, unless arc consistency has failed before the first. -/
theorem frames_orderly_until_end {calls : List (Call V)} {p : Problem V}
    (hp : Problem.ofCalls calls = .ok p) (config : Config) :
    ∃ run, Strategy.solve ⟨.explicit, config⟩ p.model = .ok run ∧
      ((∃ root, (State.initial p.model config).prepare p.model config = .ok (false, root) ∧
          run = Result.report (none, root)) ∨
        ∃ root first machines result,
          (State.initial p.model config).prepare p.model config = .ok (true, root) ∧
          Machine.enter p.model config root [] = .ok first ∧
          Progress.Passes p.model config first machines result ∧ run = Result.report result ∧
          machines.length ≤ moveBudget p.model ∧
          ∀ machine ∈ machines, Orderly p.model machine.stack machine.state) := by
  have hm := (Problem.faithful_of_ofCalls hp).wellFormed
  rcases solve_cases hm config .explicit with
    ⟨root, hprepare, hsolve, _⟩ | ⟨root, nodes, moves, result, hprepare, hvalid, _, hsolve, _⟩
  · exact ⟨_, hsolve, .inl ⟨root, hprepare, rfl⟩⟩
  · obtain ⟨first, machines, result', henter, hpasses, hreport, hlength⟩ :=
      exists_passes_of_solve hprepare hsolve
    have hfull : root.pool.count = p.model.variableCount := by
      rw [(prepare_frame hm (initial_sound config hm) hprepare).1]
      rfl
    have hcourse := hpasses.onCourse hm hvalid.1 fun machine hmachine =>
      Path.root.onCourse_of_enter hm hvalid.1 (hmachine ▸ henter)
    exact ⟨_, hsolve, .inr ⟨root, first, machines, result', hprepare, henter, hpasses, hreport,
      hlength, fun machine hmachine => (hcourse machine hmachine).orderly hfull⟩⟩

theorem frames_orderly_until_end_chain :
    ∃ p run, Problem.ofCalls Call.ascendingChain = .ok p ∧
      Strategy.solve ⟨.explicit, .plain⟩ p.model = .ok run ∧
      ∃ root first machines result, Machine.enter p.model .plain root [] = .ok first ∧
        Progress.Passes p.model .plain first machines result ∧ run = Result.report result ∧
        ∀ machine ∈ machines, Orderly p.model machine.stack machine.state := by
  obtain ⟨p, hp⟩ := Call.exists_ofCalls_ascendingChain
  obtain ⟨run, hsolve, ⟨root, hprepare, _⟩ |
    ⟨root, first, machines, result, _, henter, hpasses, hreport, _, horderly⟩⟩ :=
    frames_orderly_until_end hp .plain
  · cases hprepare
  · exact ⟨p, run, hp, hsolve, root, first, machines, result, henter, hpasses, hreport, horderly⟩

end BinaryCsp.Search
