import BinaryCsp.Proofs.Search.BacktrackFree

/-! # What the counters count

The log of a search tells every value tried and whether it failed at once. Each node but the root is
entered by a value that propagated, and each value tried is given up again, at once or after the
search below it, unless an answer is found: then one value of each variable is still held.
-/

namespace BinaryCsp.Search

open State

variable {m : Model} {config : Config}

/-! ## Verdicts -/

/-- The verdicts of the values tried, read off a log. Both are newest first. -/
def verdicts : List Event → List Bool
  | .forwardFailed _ _ _ :: .trying _ _ _ :: log => false :: verdicts log
  | .arcFailed _ _ :: .trying _ _ _ :: log => false :: verdicts log
  | .trying _ _ _ :: log => true :: verdicts log
  | _ :: log => verdicts log
  | [] => []

section Moves

variable {s t : State} {var : VarId} {value : ValId}

theorem propagate_log {kept : Bool} (h : s.propagate m = .ok (kept, t)) :
    kept = true ∧ t.log = s.log ∨
      kept = false ∧ ∃ tail head, t.log = .arcFailed tail head :: s.log := by
  obtain ⟨⟨store, counters, wiped⟩, _, h⟩ := Checked.bind_eq_ok.1 h
  cases wiped with
  | none =>
      cases h
      exact .inl ⟨rfl, rfl⟩
  | some arc =>
      cases h
      exact .inr ⟨rfl, _, _, rfl⟩

theorem verdicts_tryValue {kept : Bool} (h : s.tryValue m config var value = .ok (kept, t)) :
    verdicts t.log = kept :: verdicts s.log := by
  obtain ⟨depth, _, h⟩ := Checked.bind_eq_ok.1 h
  obtain ⟨assignment, _, h⟩ := Checked.bind_eq_ok.1 h
  obtain ⟨⟨store, pruned, wiped⟩, _, h⟩ := Checked.bind_eq_ok.1 h
  cases wiped with
  | some other =>
      cases h
      rfl
  | none =>
      dsimp only at h
      by_cases hac3 : config.ac3 = true
      · rw [if_pos hac3] at h
        obtain ⟨rfl, hlog⟩ | ⟨rfl, tail, head, hlog⟩ := propagate_log h
        · rw [hlog]
          rfl
        · rw [hlog]
          rfl
      · rw [if_neg hac3] at h
        cases h
        rfl

theorem chooseVariable_log {choice : Option VarId}
    (h : s.chooseVariable m config = .ok (choice, t)) : t.log = s.log := by
  obtain ⟨⟨picked, ties⟩, _, h⟩ := Checked.bind_eq_ok.1 h
  cases picked with
  | none =>
      cases h
      rfl
  | some var =>
      obtain ⟨rest, _, h⟩ := Checked.bind_eq_ok.1 h
      cases h
      rfl

theorem abandon_log {point : Nat} (h : s.abandon point = .ok t) : t.log = s.log := by
  obtain ⟨store, _, h⟩ := Checked.bind_eq_ok.1 h
  cases h
  rfl

theorem release_log (h : s.release var = .ok t) : t.log = s.log := by
  obtain ⟨pool, _, h⟩ := Checked.bind_eq_ok.1 h
  obtain ⟨assignment, _, h⟩ := Checked.bind_eq_ok.1 h
  cases h
  rfl

theorem verdicts_solution? {found : Option (List ValId)} (h : s.solution? m = .ok (found, t)) :
    verdicts t.log = verdicts s.log := by
  obtain ⟨_, _, _, _, rfl⟩ | ⟨_, rfl, _⟩ := solution?_cases h
  · rfl
  · rfl

theorem verdicts_prepare {kept : Bool}
    (h : (State.initial m config).prepare m config = .ok (kept, t)) : verdicts t.log = [] := by
  unfold prepare at h
  by_cases hac3 : config.ac3 = true
  · rw [if_pos hac3] at h
    obtain ⟨⟨consistent, u⟩, hpropagate, h⟩ := Checked.bind_eq_ok.1 h
    obtain ⟨rfl, hlog⟩ | ⟨rfl, tail, head, hlog⟩ := propagate_log hpropagate
    · cases h
      rw [if_pos rfl, hlog]
      rfl
    · cases h
      rw [if_neg Bool.false_ne_true, record, hlog]
      rfl
  · rw [if_neg hac3] at h
    cases h
    rfl

end Moves

/-- Of the moves of a search, `tryValue` adds its answer to the verdicts, and no other adds any. -/
structure Recorded (m : Model) (config : Config) : Prop where
  prepared : ∀ {kept : Bool} {t : State},
    (State.initial m config).prepare m config = .ok (kept, t) → verdicts t.log = []
  chosen : ∀ {s t : State} {choice : Option VarId},
    s.chooseVariable m config = .ok (choice, t) → verdicts t.log = verdicts s.log
  tried : ∀ {s t : State} {var : VarId} {value : ValId} {kept : Bool},
    s.tryValue m config var value = .ok (kept, t) → verdicts t.log = kept :: verdicts s.log
  abandoned : ∀ {s t : State} {point : Nat}, s.abandon point = .ok t →
    verdicts t.log = verdicts s.log
  released : ∀ {s t : State} {var : VarId}, s.release var = .ok t →
    verdicts t.log = verdicts s.log
  answered : ∀ {s t : State} {found : Option (List ValId)}, s.solution? m = .ok (found, t) →
    verdicts t.log = verdicts s.log

theorem recorded (m : Model) (config : Config) : Recorded m config where
  prepared := verdicts_prepare
  chosen h := congrArg verdicts (chooseVariable_log h)
  tried := verdicts_tryValue
  abandoned h := congrArg verdicts (abandon_log h)
  released h := congrArg verdicts (release_log h)
  answered := verdicts_solution?

/-! ## The balance of a search -/

/-- The nodes that a part of a search enters by itself, not by a value. -/
def Task.entries : Task → Nat
  | .node _ _ => 1
  | .values _ _ _ _ _ => 0

/-- The variables that get a value in this part of a search if it finds an answer. -/
def Task.open : Task → Nat
  | .node _ s => s.pool.count
  | .values _ _ _ _ s => s.pool.count + 1

/-- The values tried in a part of a search that are not given up in it. -/
def Task.held (task : Task) : Option (List ValId) → Nat
  | none => 0
  | some _ => task.open

/-- What a part of a search has counted if its tries had the verdicts `made`, newest first. -/
structure Balanced (task : Task) (made : List Bool) (result : Result) : Prop where
  log : verdicts result.2.log = made ++ verdicts task.start.log
  nodes : result.2.counters.nodes =
    task.start.counters.nodes + task.entries + made.count true
  backtracks : result.2.counters.backtracks + task.held result.1 =
    task.start.counters.backtracks + made.length
  held : task.held result.1 ≤ made.count true

section Balanced

variable {levels : Nat} {node s t u w : State} {var : VarId} {value : ValId} {rest : List ValId}
  {made later : List Bool} {result : Result}

theorem Branches.count_eq (h : Branches m levels node var rest s) {rest' : List ValId}
    (h' : Branches m levels node var rest' t) : t.pool.count = s.pool.count := by
  have hs := h.branching.count h.sound h.has
  have ht := h'.branching.count h'.sound h'.has
  omega

theorem Branches.held_eq (h : Branches m levels node var rest s) {rest' : List ValId}
    (h' : Branches m levels node var rest' t) (found : Option (List ValId)) :
    (Task.values levels node var rest' t).held found =
      (Task.values levels node var rest s).held found := by
  cases found with
  | none => rfl
  | some values => exact congrArg (· + 1) (h.count_eq h')

/-- A value that fails at once is given up at once. -/
theorem Balanced.failed (hvalid : Branches m levels node var (value :: rest) s)
    (ht : Tried m config s var value false t)
    (tried : s.tryValue m config var value = .ok (false, t))
    (abandon : t.abandon node.store.checkpoint = .ok u)
    (hnext : Balanced (.values levels node var rest u) made result) :
    Balanced (.values levels node var (value :: rest) s) (made ++ [false]) result := by
  obtain ⟨hlog, hnodes, hbacktracks, hheld⟩ := hnext
  obtain ⟨hbranches, hcounters⟩ := hvalid.next ht (.refl t) abandon
  rw [hvalid.held_eq hbranches] at hbacktracks hheld
  simp only [Task.start, Task.entries, hcounters, Counters.countBacktrack, abandon_log abandon,
    verdicts_tryValue tried, ht.nodes, ht.backtracks] at hlog hnodes hbacktracks
  refine ⟨?_, ?_, ?_, ?_⟩
  · rw [hlog, List.append_assoc]
    rfl
  · simpa [Task.start, Task.entries] using hnodes
  · rw [hbacktracks, List.length_append, List.length_singleton, Task.start]
    omega
  · simpa using hheld

/-- A value below which an answer is found is still held. -/
theorem Balanced.found (ht : Tried m config s var value true t)
    (tried : s.tryValue m config var value = .ok (true, t)) {values : List ValId}
    (hbelow : Balanced (.node levels t) made (some values, u)) :
    Balanced (.values levels node var (value :: rest) s) (made ++ [true]) (some values, u) := by
  obtain ⟨hlog, hnodes, hbacktracks, hheld⟩ := hbelow
  simp only [Task.start, Task.entries, Task.held, Task.open, verdicts_tryValue tried, ht.nodes,
    ht.backtracks, ht.pool] at hlog hnodes hbacktracks hheld
  refine ⟨?_, ?_, ?_, ?_⟩
  · rw [hlog, List.append_assoc]
    rfl
  · simp only [Task.start, Task.entries, List.count_append, List.count_singleton_self, hnodes]
    omega
  · simp only [Task.start, Task.held, Task.open, List.length_append, List.length_singleton]
    omega
  · simp only [Task.held, Task.open, List.count_append, List.count_singleton_self]
    omega

/-- A value whose search fails is given up after it. -/
theorem Balanced.back (hvalid : Branches m levels node var (value :: rest) s)
    (ht : Tried m config s var value true t)
    (tried : s.tryValue m config var value = .ok (true, t)) (hu : Restored t u)
    (hbelow : Balanced (.node levels t) made (none, u))
    (abandon : u.abandon node.store.checkpoint = .ok w)
    (hnext : Balanced (.values levels node var rest w) later result) :
    Balanced (.values levels node var (value :: rest) s) (later ++ (made ++ [true])) result := by
  obtain ⟨hlog, hnodes, hbacktracks, _⟩ := hbelow
  obtain ⟨hlog', hnodes', hbacktracks', hheld⟩ := hnext
  obtain ⟨hbranches, hcounters⟩ := hvalid.next ht hu abandon
  rw [hvalid.held_eq hbranches] at hbacktracks' hheld
  simp only [Task.start, Task.entries, Task.held, verdicts_tryValue tried, ht.nodes,
    ht.backtracks] at hlog hnodes hbacktracks
  simp only [Task.start, Task.entries, hcounters, Counters.countBacktrack, abandon_log abandon,
    hlog, hnodes] at hlog' hnodes' hbacktracks'
  refine ⟨?_, ?_, ?_, ?_⟩
  · rw [hlog', List.append_assoc, List.append_assoc]
    rfl
  · simp only [Task.start, Task.entries, List.count_append, List.count_singleton_self, hnodes']
    omega
  · rw [hbacktracks', List.length_append, List.length_append, List.length_singleton, Task.start]
    omega
  · rw [List.count_append]
    omega

theorem Balanced.leaf {found : Option (List ValId)} (hempty : s.pool.isEmpty = true)
    (hsolution : s.enterNode.solution? m = .ok (found, t)) :
    Balanced (.node levels s) [] (found, t) := by
  have hcounters := (Restored.of_solution? hsolution).2
  have hcount : s.pool.count = 0 := by simpa [Pool.isEmpty] using hempty
  have hheld : (Task.node levels s).held found = 0 := by
    cases found with
    | none => rfl
    | some values => exact hcount
  refine ⟨verdicts_solution? (s := s.enterNode) hsolution, ?_, ?_, Nat.le_of_eq hheld⟩
  · rw [hcounters]
    rfl
  · rw [hcounters, hheld]
    rfl

/-- The variable taken out at a node is one more that gets a value if an answer is found. -/
theorem Balanced.branch (hbranches : Branches m levels s var rest t)
    (hcounters : t.counters = s.enterNode.counters)
    (hchoose : s.enterNode.chooseVariable m config = .ok (some var, t))
    (hbelow : Balanced (.values levels s var rest t) made result) :
    Balanced (.node (levels + 1) s) made result := by
  obtain ⟨hlog, hnodes, hbacktracks, hheld⟩ := hbelow
  have hcount := hbranches.branching.count hbranches.sound hbranches.has
  have hopen : (Task.values levels s var rest t).held result.1 =
      (Task.node (levels + 1) s).held result.1 := by
    cases result.1 with
    | none => rfl
    | some values => exact hcount
  rw [hopen] at hbacktracks hheld
  simp only [Task.start, Task.entries, hcounters, State.enterNode, Counters.countNode,
    chooseVariable_log hchoose] at hlog hnodes hbacktracks
  exact ⟨hlog, hnodes, hbacktracks, hheld⟩

theorem Balanced.exhausted (hrelease : s.release var = .ok t) :
    Balanced (.values levels node var [] s) [] (none, t) := by
  obtain ⟨hcounters, _⟩ := release_frame hrelease
  refine ⟨congrArg verdicts (release_log hrelease), ?_, ?_, Nat.le_refl 0⟩
  · rw [hcounters]
    rfl
  · rw [hcounters]
    rfl

/-- Every part of a search balances. -/
theorem Explores.exists_balanced (hm : m.WellFormed) {task : Task} {nodes : List State}
    {moves : Nat} {result : Result} (h : Explores m config task nodes moves result)
    (hvalid : task.Valid m) : ∃ made, Balanced task made result := by
  induction h with
  | leaf empty solution => exact ⟨[], .leaf empty solution⟩
  | branch nonempty choose order below ih =>
      obtain ⟨hbranches, _, hcounters⟩ :=
        branches_of_choose hm hvalid.1 hvalid.2 nonempty choose order
      obtain ⟨made, hmade⟩ := ih hbranches
      exact ⟨made, hmade.branch hbranches hcounters choose⟩
  | exhausted release => exact ⟨[], .exhausted release⟩
  | @failed _ _ _ t _ _ _ _ _ _ _ tried abandon next ih =>
      have ht := Branches.tried hm hvalid tried
      obtain ⟨made, hmade⟩ := ih (Branches.next hvalid ht (.refl t) abandon).1
      exact ⟨_, hmade.failed hvalid ht tried abandon⟩
  | found tried below ih =>
      have ht := Branches.tried hm hvalid tried
      obtain ⟨made, hmade⟩ := ih (Branches.child hvalid ht)
      exact ⟨_, hmade.found ht tried⟩
  | back tried below abandon next ihbelow ihnext =>
      have ht := Branches.tried hm hvalid tried
      have hchild := Branches.child hvalid ht
      have hu := below.restored hm hchild rfl
      obtain ⟨made, hmade⟩ := ihbelow hchild
      obtain ⟨later, hlater⟩ := ihnext (Branches.next hvalid ht hu abandon).1
      exact ⟨_, hmade.back hvalid ht tried hu abandon hlater⟩

end Balanced

/-! ## One value for each variable -/

/-- The domains hold a solution and nothing else. -/
structure State.Forced (m : Model) (pick : VarId → ValId) (s : State) : Prop where
  fits : m.Fits pick s.store.family
  only : ∀ {var : VarId} {a : ValId}, a ∈ s.store.family var → a = pick var

section Forced

variable {pick : VarId → ValId} {levels : Nat} {node s t : State} {var : VarId} {value : ValId}
  {rest : List ValId}

theorem State.Forced.of_le (h : s.Forced m pick) (hfits : m.Fits pick t.store.family)
    (hle : t.store.family ≤ s.store.family) : t.Forced m pick :=
  ⟨hfits, fun ha => h.only (hle _ ha)⟩

theorem Branches.forced_value (h : Branches m levels node var (value :: rest) s)
    (hnode : node.Forced m pick) : pick var = value :=
  (hnode.only (h.mem value (by simp))).symm

theorem Branches.forced_child (hm : m.WellFormed) (h : Branches m levels node var (value :: rest) s)
    (hnode : node.Forced m pick) (ht : Tried m config s var value true t) : t.Forced m pick := by
  refine hnode.of_le (h.kept_of_fits hm ht hnode.fits (h.forced_value hnode)).2 ?_
  rw [← h.branching.store]
  exact ht.pruned.family_le

/-- Forward checking finds nothing to remove. -/
theorem Branches.forced_forward (hm : m.WellFormed)
    (h : Branches m levels node var (value :: rest) s) (hnode : node.Forced m pick) {kept : Bool}
    (ht : Tried m config s var value kept t) :
    t.counters.forwardPrunings = s.counters.forwardPrunings := by
  obtain ⟨outcome, hrun, hforward, _⟩ := ht.forward
  have hs := h.branching.sound h.sound h.has
  have hvar := h.has.lt h.sound.pool
  have hvalue := h.sound.store.bounded (h.mem value (by simp))
  have hpruned := ForwardCheck.run_pruned_eq_zero hm hs.pool hs.store hvar hvalue ?_ hrun
  · rw [hforward, hpruned, Nat.add_zero]
  · intro other hother b hb
    rw [h.branching.store] at hb
    rw [← h.forced_value hnode, hnode.only hb]
    exact hnode.fits.compatible hvar (hother.lt hs.pool)

theorem Explores.forced_forward (hm : m.WellFormed) {task : Task} {nodes : List State}
    {moves : Nat} {result : Result} (h : Explores m config task nodes moves result)
    (hvalid : task.Valid m) (horigin : task.origin.Forced m pick) :
    result.2.counters.forwardPrunings = task.start.counters.forwardPrunings := by
  induction h with
  | leaf empty solution =>
      rw [(Restored.of_solution? solution).2]
      rfl
  | @branch _ s t _ _ _ _ _ nonempty choose order below ih =>
      obtain ⟨hbranches, _, hcounters⟩ :=
        branches_of_choose hm hvalid.1 hvalid.2 nonempty choose order
      have hcount : t.counters.forwardPrunings = s.counters.forwardPrunings := by
        rw [hcounters]
        rfl
      exact (ih hbranches horigin).trans hcount
  | exhausted release =>
      rw [(release_frame release).1]
      rfl
  | @failed _ _ _ t _ _ _ _ _ _ _ tried abandon next ih =>
      have ht := Branches.tried hm hvalid tried
      obtain ⟨hnext, hcounters⟩ := Branches.next hvalid ht (.refl t) abandon
      rw [ih hnext horigin, Task.start, hcounters]
      exact Branches.forced_forward hm hvalid horigin ht
  | found tried below ih =>
      have ht := Branches.tried hm hvalid tried
      rw [ih (Branches.child hvalid ht) (Branches.forced_child hm hvalid horigin ht)]
      exact Branches.forced_forward hm hvalid horigin ht
  | back tried below abandon next ihbelow ihnext =>
      have ht := Branches.tried hm hvalid tried
      have hchild := Branches.child hvalid ht
      have hbelow := ihbelow hchild (Branches.forced_child hm hvalid horigin ht)
      obtain ⟨hnext, hcounters⟩ := Branches.next hvalid ht (below.restored hm hchild rfl) abandon
      rw [ihnext hnext horigin, Task.start, hcounters]
      exact hbelow.trans (Branches.forced_forward hm hvalid horigin ht)

/-- Where the domains hold one solution and nothing else, the search goes straight down to it. -/
theorem Explores.forced_straight (hm : m.WellFormed) {task : Task} {nodes : List State}
    {moves : Nat} {result : Result} (h : Explores m config task nodes moves result)
    (hvalid : task.Valid m) (hnode : AtNode m config task.origin)
    (horigin : task.origin.Forced m pick) (hvalue : task.HasValue) :
    result.2.counters.backtracks = task.start.counters.backtracks ∧
      nodes.length = task.start.pool.count + 1 := by
  refine h.straight_of (P := fun s => AtNode m config s ∧ s.Forced m pick) hm And.left ?_ ?_ ?_
    hvalid ⟨hnode, horigin⟩ hvalue
  · exact fun hs var hvar => ⟨pick var, hs.2.fits.mem hvar⟩
  · exact fun hs hbranches => ⟨pick, hs.2.fits, hbranches.forced_value hs.2⟩
  · exact fun hs hbranches ht =>
      ⟨hs.1.child hm hbranches ht, hbranches.forced_child hm hs.2 ht⟩

/-- Initial domains of one value each that hold a solution hold nothing else. -/
theorem forced_initial (config : Config) (hm : m.WellFormed) {ids : List ValId}
    (hids : m.Solves ids) (hone : ∀ domain ∈ m.domains, domain.size = 1) :
    (State.initial m config).Forced m fun var => ids.getD var 0 := by
  refine ⟨hids.fits, fun {var a} ha => ?_⟩
  have hvar := hm.domains.lt_of_mem ha
  obtain ⟨domain, _, hget, hcounted, hmem⟩ := hm.domains.get_eq hvar
  have hlength : domain.toList.length = 1 := by
    rw [← hcounted, hone domain (Array.mem_of_getElem? hget)]
  obtain ⟨b, hb⟩ := List.length_eq_one_iff.1 hlength
  have hsame : ∀ {c : ValId}, c ∈ (Store.ofDomains m.domains).family var → c = b := by
    intro c hc
    rw [← List.mem_singleton, ← hb, BitSet.mem_toList, hmem]
    exact hc
  rw [hsame ha, hsame (hids.fits.mem hvar)]

end Forced

/-! ## Whole searches -/

/-- The counters of a run over `vars` variables are those of the answers that its calls of
`tryValue` gave. -/
structure Accounts (vars : Nat) (run : Run) (answers : List Bool) : Prop where
  nodes : run.stats.nodes = 1 + answers.count true
  solved : run.found ≠ none → run.stats.backtracks + vars = answers.length ∧
    vars + 1 ≤ run.stats.nodes ∧ run.stats.nodes ≤ vars + 1 + run.stats.backtracks
  unsolved : run.found = none → run.stats.backtracks = answers.length ∧
    1 ≤ run.stats.nodes ∧ run.stats.nodes ≤ 1 + run.stats.backtracks

theorem Balanced.accounts {levels : Nat} {root : State} {made : List Bool} {result : Result}
    (h : Balanced (.node levels root) made result) (hnodes : root.counters.nodes = 0)
    (hbacktracks : root.counters.backtracks = 0) :
    Accounts root.pool.count (Result.report result) made := by
  obtain ⟨_, hn, hb, hheld⟩ := h
  obtain ⟨found, t⟩ := result
  have hle : made.count true ≤ made.length := List.count_le_length
  simp only [Task.start, Task.entries, hnodes, hbacktracks, Nat.zero_add] at hn hb
  cases found with
  | none =>
      simp only [Task.held, Nat.add_zero] at hb
      refine ⟨hn, fun hsome => absurd rfl hsome, fun _ => ⟨hb, ?_⟩⟩
      simp only [Result.report, Stats.ofCounters]
      omega
  | some values =>
      simp only [Task.held, Task.open] at hb hheld
      refine ⟨hn, fun _ => ⟨hb, ?_⟩, fun hnone => absurd hnone (Option.some_ne_none values)⟩
      simp only [Result.report, Stats.ofCounters]
      omega

variable {V : Type} [DecidableEq V]

/-- If arc consistency fails before the first node, nothing is counted. Otherwise every node but the
first is a call of `tryValue` that succeeded, and every backtrack is a call that was given up, which
all of them are but one for each variable of the answer. Where each variable has one value and these
are a solution, nothing is given up and nothing removed by forward checking. -/
theorem solve_counts {calls : List (Call V)} {p : Problem V} (hp : Problem.ofCalls calls = .ok p)
    (config : Config) (driver : Driver) :
    Recorded p.model config ∧ ∃ run kept root, Strategy.solve ⟨driver, config⟩ p.model = .ok run ∧
      (State.initial p.model config).prepare p.model config = .ok (kept, root) ∧
      (kept = false → config.ac3 = true ∧ run.found = none ∧ run.stats.nodes = 0 ∧
        run.stats.backtracks = 0 ∧ run.stats.forwardPrunings = 0) ∧
      (kept = true → Accounts p.model.variableCount run (verdicts run.events.reverse)) ∧
      ((∀ domain ∈ p.model.domains, domain.size = 1) → (∃ values, Call.Solution calls values) →
        run.stats.nodes = p.model.variableCount + 1 ∧ run.stats.backtracks = 0 ∧
          run.stats.forwardPrunings = 0) := by
  refine ⟨recorded p.model config, ?_⟩
  have hfaithful := Problem.faithful_of_ofCalls hp
  have hm := hfaithful.wellFormed
  have hinitial := initial_sound config hm
  -- A solution of the calls, as ids.
  have hsolves : (∃ values, Call.Solution calls values) → ∃ ids, p.model.Solves ids := by
    rintro ⟨values, hvalues⟩
    obtain ⟨ids, hids⟩ := hfaithful.exists_names hvalues
    exact ⟨ids, (hfaithful.solves_iff hids).2 hvalues⟩
  rcases solve_cases hm config driver with
    ⟨root, hprepare, hsolve, _⟩ | ⟨root, nodes, moves, result, hprepare, hvalid, hrun, hsolve, _⟩
  · obtain ⟨_, _, _, hcounters⟩ := prepare_frame hm hinitial hprepare
    refine ⟨_, false, root, hsolve, hprepare, fun _ => ⟨?_, rfl, hcounters.nodes,
      hcounters.backtracks, hcounters.forwardPrunings⟩,
      fun hkept => absurd hkept Bool.false_ne_true, fun _ hsolution => ?_⟩
    · by_contra hac3
      rw [prepare, if_neg hac3] at hprepare
      cases hprepare
    · obtain ⟨ids, hids⟩ := hsolves hsolution
      cases (fits_root hm hids hprepare).1
  · obtain ⟨hpool, _, _, hcounters⟩ := prepare_frame hm hinitial hprepare
    have hcount : root.pool.count = p.model.variableCount := by
      rw [hpool]
      simp [State.initial, Pool.full]
    obtain ⟨made, hmade⟩ := hrun.exists_balanced hm hvalid
    have hlog : verdicts result.2.log = made := by
      rw [hmade.log, Task.start, verdicts_prepare hprepare, List.append_nil]
    refine ⟨_, true, root, hsolve, hprepare, fun hkept => absurd hkept.symm Bool.false_ne_true,
      fun _ => ?_, fun hone hsolution => ?_⟩
    · rw [Result.report, List.reverse_reverse, hlog, ← hcount]
      exact hmade.accounts hcounters.nodes hcounters.backtracks
    · obtain ⟨ids, hids⟩ := hsolves hsolution
      have hnode := atNode_root hm hprepare
      have hroot := (forced_initial config hm hids hone).of_le (fits_root hm hids hprepare).2
        hnode.pruned.family_le
      obtain ⟨hback, hlength⟩ := hrun.forced_straight hm hvalid hnode hroot trivial
      refine ⟨?_, hback.trans hcounters.backtracks,
        (hrun.forced_forward hm hvalid hroot).trans hcounters.forwardPrunings⟩
      change result.2.counters.nodes = p.model.variableCount + 1
      rw [hrun.count_nodes hm hvalid, hlength, Task.start, hcounters.nodes, hcount]
      exact Nat.zero_add _

theorem solve_counts_chain :
    ∃ p run, Problem.ofCalls Call.ascendingChain = .ok p ∧
      Strategy.solve ⟨.explicit, false, true, false, false, .lowest⟩ p.model = .ok run ∧
      verdicts run.events.reverse = [true, true, true, false] ∧
      run.stats.nodes = 4 ∧ run.stats.backtracks + 3 = 4 := by
  let config : Config := ⟨false, true, false, false, .lowest⟩
  have htrace : ((Problem.ofCalls Call.ascendingChain).toOption.bind fun p =>
      (Strategy.solve ⟨.explicit, config⟩ p.model).toOption.map fun run =>
        (run.found, p.model.variableCount, verdicts run.events.reverse)) =
        some (some [0, 1, 2], 3, [true, true, true, false]) := by decide +kernel
  obtain ⟨p, hp⟩ := Call.exists_ofCalls_ascendingChain
  obtain ⟨_, run, kept, root, hsolve, _, hfailed, hkept, _⟩ := solve_counts hp config .explicit
  simp only [hp, hsolve, Except.toOption, Option.bind_some, Option.map_some, Option.some.injEq,
    Prod.mk.injEq] at htrace
  obtain ⟨hfound, hcount, hverdicts⟩ := htrace
  cases kept with
  | false => cases (hfailed rfl).1
  | true =>
      obtain ⟨hnodes, hsolved, _⟩ := hkept rfl
      have hbacktracks := (hsolved (by simp [hfound])).1
      rw [hverdicts] at hnodes hbacktracks
      rw [hcount] at hbacktracks
      exact ⟨p, run, hp, hsolve, hverdicts, hnodes, hbacktracks⟩

end BinaryCsp.Search
