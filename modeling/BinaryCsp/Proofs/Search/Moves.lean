import BinaryCsp.Search.State
import BinaryCsp.Proofs.ArcConsistency
import BinaryCsp.Proofs.Choice
import BinaryCsp.Proofs.ForwardCheck

/-! # The moves of a search

One specification for each move of `State`, from which both drivers are reasoned about. A move
never breaks off on a sound state. What a value changes is undone exactly by giving it up and
releasing its variable.
-/

namespace BinaryCsp.Search.State

variable {m : Model} {config : Config} {s t u : State} {var : VarId} {value : ValId}

structure Sound (m : Model) (s : State) : Prop where
  store : s.store.Sound m.variableCount m.valueCount
  pool : s.pool.Sound m.variableCount
  slots : s.assignment.slots.size = m.variableCount
  tallies : s.counters.tallies.size = m.relations.size
  free : ∀ {var : VarId}, s.pool.Has var → s.assignment.valueOf var = none

structure Restored (s t : State) : Prop where
  store : t.store = s.store
  pool : t.pool = s.pool
  assignment : t.assignment = s.assignment
  size : t.counters.tallies.size = s.counters.tallies.size

theorem Restored.refl (s : State) : Restored s s := ⟨rfl, rfl, rfl, rfl⟩

/-- Giving a value to a variable that is taken leaves those that are not taken without one. -/
theorem Sound.free_of_set (hs : s.Sound m) (hout : ¬ s.pool.Has var) {after : PartialAssignment}
    (hset : s.assignment.set var value = .ok after) {other : VarId} (hother : s.pool.Has other) :
    after.valueOf other = none := by
  have hne : other ≠ var := fun heq => hout (heq ▸ hother)
  rw [PartialAssignment.valueOf_of_set hset, if_neg hne]
  exact hs.free hother

theorem Sound.enterNode (hs : s.Sound m) : s.enterNode.Sound m :=
  ⟨hs.store, hs.pool, hs.slots, hs.tallies, hs.free⟩

/-! ## Arc consistency -/

structure Propagated (m : Model) (s : State) (kept : Bool) (t : State) : Prop where
  pruned : Store.Pruned s.store t.store
  pool : t.pool = s.pool
  assignment : t.assignment = s.assignment
  ties : t.ties = s.ties
  revised : ArcConsistency.Revised s.counters t.counters
  greatest : kept = true → IsGreatest (m.consistentBelow s.store.family) t.store.family
  nonempty : kept = true → ∀ {var : VarId}, (s.store.family var).Nonempty →
    (t.store.family var).Nonempty
  failed : kept = false → ∀ pick, ¬ m.Fits pick s.store.family

theorem propagate_spec (hm : m.WellFormed) (hs : s.Sound m) :
    ∃ kept t, s.propagate m = .ok (kept, t) ∧ Propagated m s kept t := by
  obtain ⟨store, pool, assignment, ties, counters, log⟩ := s
  obtain ⟨⟨after, counted, wiped⟩, hrun, h⟩ := ArcConsistency.enforce_spec hm hs.store hs.tallies
  cases wiped with
  | none =>
      refine ⟨true, ⟨after, pool, assignment, ties, counted, log⟩, ?_, {
        pruned := h.pruned
        pool := rfl
        assignment := rfl
        ties := rfl
        revised := h.revised
        greatest := fun _ => h.isGreatest rfl
        nonempty := fun _ => h.nonempty rfl
        failed := nofun }⟩
      simp only [propagate, hrun, Checked.ok_bind]
      rfl
  | some arc =>
      refine ⟨false, ⟨after, pool, assignment, ties, counted,
        .arcFailed arc.tail arc.link.other :: log⟩, ?_, {
          pruned := h.pruned
          pool := rfl
          assignment := rfl
          ties := rfl
          revised := h.revised
          greatest := nofun
          nonempty := nofun
          failed := ?_ }⟩
      · simp only [propagate, hrun, Checked.ok_bind]
        rfl
      · intro _ pick hpick
        obtain ⟨⟨a, ha⟩, hempty⟩ := h.emptied rfl
        have hin := h.upper _ (hpick.picked_mem hm) arc.tail ⟨hs.store.lt_of_mem ha, rfl⟩
        rw [hempty] at hin
        exact hin

theorem Propagated.sound (hs : s.Sound m) {kept : Bool} (h : Propagated m s kept t) :
    t.Sound m where
  store := h.pruned.sound hs.store
  pool := h.pool ▸ hs.pool
  slots := h.assignment ▸ hs.slots
  tallies := h.revised.size.trans hs.tallies
  free := by
    rw [h.pool, h.assignment]
    exact hs.free

/-! ## Before the first node -/

theorem Propagated.record {kept : Bool} (h : Propagated m s kept t) (event : Event) :
    Propagated m s kept (t.record event) where
  pruned := h.pruned
  pool := h.pool
  assignment := h.assignment
  ties := h.ties
  revised := h.revised
  greatest := h.greatest
  nonempty := h.nonempty
  failed := h.failed

theorem initial_sound (config : Config) (hm : m.WellFormed) : (initial m config).Sound m where
  store := hm.domains
  pool := Pool.full_sound m.variableCount
  slots := by simp [initial, PartialAssignment.unassigned]
  tallies := by simp [initial, Counters.zero]
  free := fun _ => PartialAssignment.valueOf_unassigned m.variableCount _

/-- Before the first node nothing happens, or arc consistency does. -/
theorem prepare_spec (config : Config) (hm : m.WellFormed) (hs : s.Sound m) :
    ∃ kept t, s.prepare m config = .ok (kept, t) ∧
      (config.ac3 = false ∧ kept = true ∧ t = s ∨ config.ac3 = true ∧ Propagated m s kept t) := by
  unfold prepare
  by_cases hac3 : config.ac3 = true
  · obtain ⟨kept, t, hrun, h⟩ := propagate_spec hm hs
    rw [if_pos hac3, hrun]
    cases kept with
    | true => exact ⟨true, t, rfl, .inr ⟨hac3, h⟩⟩
    | false => exact ⟨false, t.record .rootFailed, rfl, .inr ⟨hac3, h.record .rootFailed⟩⟩
  · rw [if_neg hac3]
    exact ⟨true, s, rfl, .inl ⟨Bool.eq_false_iff.2 hac3, rfl, rfl⟩⟩

/-- Before the first node only domains and tallies change. -/
theorem prepare_frame (hm : m.WellFormed) (hs : s.Sound m) {kept : Bool}
    (h : s.prepare m config = .ok (kept, t)) :
    t.pool = s.pool ∧ t.assignment = s.assignment ∧ t.ties = s.ties ∧
      ArcConsistency.Revised s.counters t.counters := by
  obtain ⟨kept', t', hprepare, hcases⟩ := prepare_spec config hm hs
  rw [hprepare] at h
  cases h
  rcases hcases with ⟨_, _, rfl⟩ | ⟨_, h⟩
  · exact ⟨rfl, rfl, rfl, .refl _⟩
  · exact ⟨h.pool, h.assignment, h.ties, h.revised⟩

/-! ## Trying a value -/

structure Tried (m : Model) (config : Config) (s : State) (var : VarId) (value : ValId)
    (kept : Bool) (t : State) : Prop where
  pruned : Store.Pruned s.store t.store
  pool : t.pool = s.pool
  assignment : s.assignment.set var value = .ok t.assignment
  nodes : t.counters.nodes = s.counters.nodes
  backtracks : t.counters.backtracks = s.counters.backtracks
  size : t.counters.tallies.size = s.counters.tallies.size
  ties : t.ties = s.ties
  forward : ∃ outcome, ForwardCheck.run m s.store s.pool var value = .ok outcome ∧
    t.counters.forwardPrunings = s.counters.forwardPrunings + outcome.pruned ∧
    (kept = true → outcome.wiped = none) ∧
    (config.ac3 = false → outcome.wiped = none → kept = true)
  checked : kept = true → config.ac3 = false →
    t.store.family = ForwardCheck.restricted m s.pool var value s.store.family
  swept : kept = true → config.ac3 = true →
    IsGreatest (m.consistentBelow (ForwardCheck.restricted m s.pool var value s.store.family))
      t.store.family
  nonempty : kept = true → ∀ {other : VarId},
    (ForwardCheck.restricted m s.pool var value s.store.family other).Nonempty →
    (t.store.family other).Nonempty
  failed : kept = false → ∀ pick, m.Fits pick s.store.family → pick var ≠ value

theorem Tried.family_le (h : Tried m config s var value true t) :
    t.store.family ≤ ForwardCheck.restricted m s.pool var value s.store.family := by
  cases hac3 : config.ac3 with
  | false => exact (h.checked rfl hac3).le
  | true => exact (h.swept rfl hac3).1.1

/-- A choice that gives `value` to `var` survives forward checking. -/
theorem fits_restricted (pool : Pool) {f : Family} {pick : VarId → ValId} (hpick : m.Fits pick f)
    (hvar : var < m.variableCount) (hvalue : pick var = value) :
    m.Fits pick (ForwardCheck.restricted m pool var value f) where
  mem := by
    intro other hother
    refine ⟨hpick.mem hother, ?_, fun _ => ?_⟩
    · rintro rfl
      exact hvalue
    · rw [← hvalue]
      exact hpick.compatible hvar hother
  compatible := hpick.compatible

/-- `t` is the state in which forward checking leaves the trial of `value`. -/
structure Forwarded (m : Model) (s : State) (var : VarId) (value : ValId)
    (outcome : ForwardCheck.Outcome) (t : State) : Prop where
  run : ForwardCheck.run m s.store s.pool var value = .ok outcome
  pool : t.pool = s.pool
  assignment : s.assignment.set var value = .ok t.assignment
  ties : t.ties = s.ties
  nodes : t.counters.nodes = s.counters.nodes
  backtracks : t.counters.backtracks = s.counters.backtracks
  size : t.counters.tallies.size = s.counters.tallies.size
  prunings : t.counters.forwardPrunings = s.counters.forwardPrunings + outcome.pruned
  pruned : Store.Pruned s.store t.store
  keeps : ForwardCheck.restricted m s.pool var value s.store.family ≤ t.store.family
  exact : outcome.wiped = none →
    t.store.family = ForwardCheck.restricted m s.pool var value s.store.family
  emptied : ∀ other, outcome.wiped = some other →
    other < m.variableCount ∧ ∀ b, b ∉ t.store.family other

/-- Trying a value ends in forward checking, or goes on with arc consistency if that is on. -/
theorem exists_forwarded (config : Config) (hm : m.WellFormed) (hs : s.Sound m)
    (hvalue : value ∈ s.store.family var) :
    ∃ outcome t, Forwarded m s var value outcome t ∧ s.tryValue m config var value =
      match outcome.wiped with
      | some other => .ok (false, t.record (.forwardFailed var value other))
      | none => if config.ac3 then t.propagate m else .ok (true, t) := by
  have hvar := hs.store.lt_of_mem hvalue
  obtain ⟨store, pool, assignment, ties, counters, log⟩ := s
  have hslot : var < assignment.slots.size := Nat.lt_of_lt_of_eq hvar hs.slots.symm
  obtain ⟨updated, hset⟩ : ∃ updated, assignment.set var value = .ok updated :=
    ⟨_, PartialAssignment.set_eq_ok hslot⟩
  have hdepth : Checked.sub m.variableCount pool.count = .ok (m.variableCount - pool.count) :=
    Checked.sub_of_le hs.pool.count_le
  obtain ⟨outcome, hrun, hpruned, hle, hexact, hempty⟩ :=
    ForwardCheck.run_spec hm hs.pool hs.store hvar (hs.store.bounded hvalue)
  refine ⟨outcome, ⟨outcome.store, pool, updated, ties, counters.countForward outcome.pruned,
    .trying var value (m.variableCount - pool.count) :: log⟩, {
      run := hrun
      pool := rfl
      assignment := hset
      ties := rfl
      nodes := rfl
      backtracks := rfl
      size := rfl
      prunings := rfl
      pruned := hpruned
      keeps := hle
      exact := hexact
      emptied := hempty }, ?_⟩
  dsimp only at hrun
  simp only [tryValue, depth, hdepth, hset, hrun, Checked.ok_bind]
  rfl

section Forwarded

variable {outcome : ForwardCheck.Outcome}

theorem Forwarded.sound (h : Forwarded m s var value outcome t) (hs : s.Sound m)
    (hout : ¬ s.pool.Has var) : t.Sound m where
  store := h.pruned.sound hs.store
  pool := h.pool ▸ hs.pool
  slots := (PartialAssignment.size_of_set h.assignment).trans hs.slots
  tallies := h.size.trans hs.tallies
  free := fun hother => hs.free_of_set hout h.assignment (h.pool ▸ hother)

theorem Forwarded.tried_of_wiped (h : Forwarded m s var value outcome t) {other : VarId}
    (hvar : var < m.variableCount) (hwiped : outcome.wiped = some other) (event : Event) :
    Tried m config s var value false (t.record event) where
  pruned := h.pruned
  pool := h.pool
  assignment := h.assignment
  nodes := h.nodes
  backtracks := h.backtracks
  size := h.size
  ties := h.ties
  forward := by
    refine ⟨outcome, h.run, h.prunings, nofun, ?_⟩
    rw [hwiped]
    nofun
  checked := nofun
  swept := nofun
  nonempty := nofun
  failed := by
    intro _ pick hpick hsame
    obtain ⟨hother, hnone⟩ := h.emptied other hwiped
    exact hnone _ (h.keeps other ((fits_restricted s.pool hpick hvar hsame).mem hother))

theorem Forwarded.tried_of_not_ac3 (h : Forwarded m s var value outcome t)
    (hwiped : outcome.wiped = none) (hac3 : config.ac3 = false) :
    Tried m config s var value true t where
  pruned := h.pruned
  pool := h.pool
  assignment := h.assignment
  nodes := h.nodes
  backtracks := h.backtracks
  size := h.size
  ties := h.ties
  forward := ⟨outcome, h.run, h.prunings, fun _ => hwiped, fun _ _ => rfl⟩
  checked := fun _ _ => h.exact hwiped
  swept := by
    rw [hac3]
    nofun
  nonempty := by
    intro _ other hother
    rwa [h.exact hwiped]
  failed := nofun

theorem Forwarded.tried_of_propagated (h : Forwarded m s var value outcome t)
    (hvar : var < m.variableCount) (hwiped : outcome.wiped = none) (hac3 : config.ac3 = true)
    {kept : Bool} (hswept : Propagated m t kept u) : Tried m config s var value kept u where
  pruned := h.pruned.trans hswept.pruned
  pool := hswept.pool.trans h.pool
  assignment := hswept.assignment ▸ h.assignment
  nodes := hswept.revised.nodes.trans h.nodes
  backtracks := hswept.revised.backtracks.trans h.backtracks
  size := hswept.revised.size.trans h.size
  ties := hswept.ties.trans h.ties
  forward := by
    have hcount := hswept.revised.forwardPrunings.trans h.prunings
    refine ⟨outcome, h.run, hcount, fun _ => hwiped, ?_⟩
    rw [hac3]
    nofun
  checked := by
    rw [hac3]
    nofun
  swept := by
    rw [← h.exact hwiped]
    exact fun hkept _ => hswept.greatest hkept
  nonempty := by
    rw [← h.exact hwiped]
    exact hswept.nonempty
  failed := by
    intro hkept pick hpick hsame
    refine hswept.failed hkept pick ?_
    rw [h.exact hwiped]
    exact fits_restricted s.pool hpick hvar hsame

end Forwarded

theorem tryValue_spec (config : Config) (hm : m.WellFormed) (hs : s.Sound m)
    (hvalue : value ∈ s.store.family var) (hout : ¬ s.pool.Has var) :
    ∃ kept t, s.tryValue m config var value = .ok (kept, t) ∧
      Tried m config s var value kept t := by
  have hvar := hs.store.lt_of_mem hvalue
  obtain ⟨outcome, t, h, htry⟩ := exists_forwarded config hm hs hvalue
  cases hwiped : outcome.wiped with
  | some other =>
      rw [hwiped] at htry
      exact ⟨false, _, htry, h.tried_of_wiped hvar hwiped _⟩
  | none =>
      rw [hwiped] at htry
      cases hac3 : config.ac3 with
      | false => exact ⟨true, t, by rw [htry, hac3]; rfl, h.tried_of_not_ac3 hwiped hac3⟩
      | true =>
          obtain ⟨kept, u, hsweep, hswept⟩ := propagate_spec hm (h.sound hs hout)
          exact ⟨kept, u, by rw [htry, hac3]; exact hsweep,
            h.tried_of_propagated hvar hwiped hac3 hswept⟩

theorem Tried.fits (hm : m.WellFormed) (h : Tried m config s var value true t)
    {pick : VarId → ValId} (hpick : m.Fits pick s.store.family) (hvar : var < m.variableCount)
    (hvalue : pick var = value) : m.Fits pick t.store.family := by
  have hchecked := fits_restricted s.pool hpick hvar hvalue
  cases hac3 : config.ac3 with
  | false =>
      rw [h.checked rfl hac3]
      exact hchecked
  | true => exact hchecked.of_isGreatest hm (h.swept rfl hac3)

theorem Tried.sound (hs : s.Sound m) (hout : ¬ s.pool.Has var) {kept : Bool}
    (h : Tried m config s var value kept t) : t.Sound m where
  store := h.pruned.sound hs.store
  pool := h.pool ▸ hs.pool
  slots := (PartialAssignment.size_of_set h.assignment).trans hs.slots
  tallies := h.size.trans hs.tallies
  free := fun hother => hs.free_of_set hout h.assignment (h.pool ▸ hother)

/-! ## Branching on a variable -/

/-- `s` is a state of the search between two values of `var` at the node `node`. -/
structure Branching (m : Model) (node : State) (var : VarId) (s : State) : Prop where
  store : s.store = node.store
  pool : node.pool.remove var = .ok s.pool
  assignment : s.assignment.clear var = .ok node.assignment
  size : s.counters.tallies.size = node.counters.tallies.size

theorem chooseVariable_spec (config : Config) (hm : m.WellFormed) (hs : s.Sound m)
    (hnonempty : s.pool.isEmpty = false) :
    ∃ var t, s.chooseVariable m config = .ok (some var, t) ∧ s.pool.Has var ∧
      Branching m s var t ∧ t.counters = s.counters := by
  obtain ⟨store, pool, assignment, ties, counters, log⟩ := s
  have hsome : pool.toList ≠ [] := by
    intro hnil
    have hzero : pool.count = 0 := by rw [hs.pool.counted, hnil, List.length_nil]
    simp [Pool.isEmpty, hzero] at hnonempty
  obtain ⟨var, ties', hselect, hvar⟩ :=
    Choice.selectVariable_spec config ties hm hs.store.size hs.pool hsome
  obtain ⟨rest, hremove, _⟩ := Pool.remove_spec hs.pool hvar
  have hslot : var < assignment.slots.size := Nat.lt_of_lt_of_eq (hvar.lt hs.pool) hs.slots.symm
  refine ⟨var, ⟨store, rest, assignment, ties', counters, log⟩, ?_, hvar,
    ⟨rfl, hremove, PartialAssignment.clear_of_valueOf_eq_none hslot (hs.free hvar), rfl⟩, rfl⟩
  dsimp only at hremove hselect
  simp only [chooseVariable, hselect, Checked.ok_bind, hremove]
  rfl

theorem selectVariable_of_choose (h : s.chooseVariable m config = .ok (some var, t)) :
    Choice.selectVariable config m s.store s.pool s.ties = .ok (some var, t.ties) := by
  obtain ⟨⟨choice, ties⟩, hselect, h⟩ := Checked.bind_eq_ok.1 h
  cases choice with
  | none => cases h
  | some picked =>
      obtain ⟨rest, _, h⟩ := Checked.bind_eq_ok.1 h
      obtain ⟨hpicked, rfl⟩ := Prod.mk.inj (Except.ok.inj h)
      rw [hselect, hpicked]

section Branching

variable {node : State}

theorem Branching.has_iff (h : Branching m node var s) (hnode : node.Sound m)
    (hvar : node.pool.Has var) {other : VarId} :
    s.pool.Has other ↔ node.pool.Has other ∧ other ≠ var := by
  obtain ⟨rest, hremove, _, _, hhas, _⟩ := Pool.remove_spec hnode.pool hvar
  obtain rfl := Except.ok.inj (hremove.symm.trans h.pool)
  exact hhas other

theorem Branching.count (h : Branching m node var s) (hnode : node.Sound m)
    (hvar : node.pool.Has var) : s.pool.count + 1 = node.pool.count := by
  obtain ⟨rest, hremove, _, hcount, _⟩ := Pool.remove_spec hnode.pool hvar
  obtain rfl := Except.ok.inj (hremove.symm.trans h.pool)
  exact hcount

theorem Branching.valueOf (h : Branching m node var s) {other : VarId} (hother : other ≠ var) :
    s.assignment.valueOf other = node.assignment.valueOf other :=
  PartialAssignment.valueOf_of_clear h.assignment hother

theorem Branching.sound (h : Branching m node var s) (hnode : node.Sound m)
    (hvar : node.pool.Has var) : s.Sound m where
  store := h.store ▸ hnode.store
  pool := by
    obtain ⟨rest, hremove, hrest, _⟩ := Pool.remove_spec hnode.pool hvar
    obtain rfl := Except.ok.inj (hremove.symm.trans h.pool)
    exact hrest
  slots := (PartialAssignment.size_of_clear h.assignment).trans hnode.slots
  tallies := h.size.trans hnode.tallies
  free := by
    intro other hother
    obtain ⟨hin, hne⟩ := (h.has_iff hnode hvar).1 hother
    rw [h.valueOf hne]
    exact hnode.free hin

theorem orderedValues_spec (config : Config) (hm : m.WellFormed) (h : Branching m node var s)
    (hnode : node.Sound m) (hvar : node.pool.Has var) :
    ∃ values, s.orderedValues m config var = .ok values ∧ values.Nodup ∧
      ∀ value, value ∈ values ↔ value ∈ node.store.family var := by
  have hs := h.sound hnode hvar
  rw [← h.store]
  exact Choice.orderValues_spec config hm hs.store hs.pool (hvar.lt hnode.pool)

/-- A value that failed, at once or below, is given up without a trace. -/
theorem Branching.abandon (h : Branching m node var s) (hnode : node.Sound m) {kept : Bool}
    (ht : Tried m config s var value kept t) (hu : Restored t u) :
    ∃ w, u.abandon node.store.checkpoint = .ok w ∧ Branching m node var w ∧
      w.counters = u.counters.countBacktrack := by
  obtain ⟨store, pool, assignment, ties, counters, log⟩ := u
  have hpruned : Store.Pruned node.store store := by
    have hstep := ht.pruned
    rwa [h.store, ← hu.store] at hstep
  have hrestore := hpruned.restore_eq hnode.store
  refine ⟨⟨node.store, pool, assignment, ties, counters.countBacktrack, log⟩, ?_,
    ⟨rfl, ?_, ?_, ?_⟩, rfl⟩
  · simp only [State.abandon, hrestore, Checked.ok_bind]
    rfl
  · rw [h.pool, ← ht.pool, ← hu.pool]
  · rw [← h.assignment, ← PartialAssignment.clear_of_set ht.assignment, ← hu.assignment]
  · exact (hu.size.trans ht.size).trans h.size

/-- When all values have failed, the state is that of the node again. -/
theorem Branching.release (h : Branching m node var s) (hnode : node.Sound m)
    (hvar : node.pool.Has var) :
    ∃ t, s.release var = .ok t ∧ Restored node t ∧ t.counters = s.counters := by
  obtain ⟨store, pool, assignment, ties, counters, log⟩ := s
  obtain ⟨rest, hremove, _, _, _, hinsert⟩ := Pool.remove_spec hnode.pool hvar
  obtain rfl := Except.ok.inj (hremove.symm.trans h.pool)
  have hclear := h.assignment
  dsimp only at hclear hinsert
  refine ⟨⟨store, node.pool, node.assignment, ties, counters, log⟩, ?_, ⟨h.store, rfl, rfl, h.size⟩,
    rfl⟩
  simp only [State.release, hinsert, hclear, Checked.ok_bind]
  rfl

end Branching

theorem abandon_frame {point : Nat} (h : s.abandon point = .ok t) :
    t.counters = s.counters.countBacktrack ∧ t.ties = s.ties := by
  obtain ⟨store, _, h⟩ := Checked.bind_eq_ok.1 h
  obtain rfl := Except.ok.inj h
  exact ⟨rfl, rfl⟩

theorem release_frame (h : s.release var = .ok t) :
    t.counters = s.counters ∧ t.ties = s.ties := by
  obtain ⟨pool, _, h⟩ := Checked.bind_eq_ok.1 h
  obtain ⟨assignment, _, h⟩ := Checked.bind_eq_ok.1 h
  obtain rfl := Except.ok.inj h
  exact ⟨rfl, rfl⟩

/-! ## Leaves -/

/-- A leaf gives the assignment if it is complete and consistent, and nothing else. -/
theorem solution?_cases {found : Option (List ValId)} (h : s.solution? m = .ok (found, t)) :
    (∃ values, found = some values ∧ s.assignment.complete? = some values ∧
      m.isConsistent values = .ok true ∧ t = s.record (.solved s.counters.nodes)) ∨
    (found = none ∧ t = s ∧
      ∀ values, s.assignment.complete? = some values → m.isConsistent values = .ok false) := by
  unfold solution? at h
  cases hcomplete : s.assignment.complete? with
  | none =>
      rw [hcomplete] at h
      obtain ⟨rfl, rfl⟩ := Prod.mk.inj (Except.ok.inj h)
      exact .inr ⟨rfl, rfl, nofun⟩
  | some values =>
      rw [hcomplete] at h
      obtain ⟨flag, hflag, h⟩ := Checked.bind_eq_ok.1 h
      cases flag with
      | true =>
          obtain ⟨rfl, rfl⟩ := Prod.mk.inj (Except.ok.inj h)
          exact .inl ⟨values, rfl, rfl, hflag, rfl⟩
      | false =>
          obtain ⟨rfl, rfl⟩ := Prod.mk.inj (Except.ok.inj h)
          refine .inr ⟨rfl, rfl, ?_⟩
          rintro other hother
          obtain rfl := Option.some.inj hother
          exact hflag

theorem solution?_of_consistent {values : List ValId}
    (hcomplete : s.assignment.complete? = some values)
    (hconsistent : m.isConsistent values = .ok true) :
    s.solution? m = .ok (some values, s.record (.solved s.counters.nodes)) := by
  simp only [solution?, hcomplete, hconsistent, Checked.ok_bind]
  rfl

/-- The answer at a leaf depends on the assignment alone. -/
theorem solution?_congr {answer other : Option (List ValId) × State}
    (hassignment : s.assignment = t.assignment) (h : s.solution? m = .ok answer)
    (h' : t.solution? m = .ok other) : answer.1 = other.1 := by
  unfold solution? at h h'
  rw [hassignment] at h
  cases hcomplete : t.assignment.complete? with
  | none =>
      rw [hcomplete] at h h'
      cases h
      cases h'
      rfl
  | some values =>
      rw [hcomplete] at h h'
      obtain ⟨flag, hflag, h⟩ := Checked.bind_eq_ok.1 h
      obtain ⟨flag', hflag', h'⟩ := Checked.bind_eq_ok.1 h'
      obtain rfl := Except.ok.inj (hflag.symm.trans hflag')
      cases flag with
      | true =>
          cases h
          cases h'
          rfl
      | false =>
          cases h
          cases h'
          rfl

theorem Restored.of_solution? {found : Option (List ValId)}
    (h : s.solution? m = .ok (found, t)) : Restored s t ∧ t.counters = s.counters := by
  obtain ⟨_, _, _, _, rfl⟩ | ⟨_, rfl, _⟩ := solution?_cases h
  · exact ⟨⟨rfl, rfl, rfl, rfl⟩, rfl⟩
  · exact ⟨⟨rfl, rfl, rfl, rfl⟩, rfl⟩

theorem solution?_frame {found : Option (List ValId)} (h : s.solution? m = .ok (found, t)) :
    t.counters = s.counters ∧ t.ties = s.ties := by
  obtain ⟨_, _, _, _, rfl⟩ | ⟨_, rfl, _⟩ := solution?_cases h
  · exact ⟨rfl, rfl⟩
  · exact ⟨rfl, rfl⟩

theorem exists_solution? (hm : m.WellFormed) (hs : s.Sound m)
    (hbound : ∀ {var a}, s.assignment.valueOf var = some a → a < m.valueCount) :
    ∃ found t, s.solution? m = .ok (found, t) := by
  cases hcomplete : s.assignment.complete? with
  | none => exact ⟨none, s, by simp only [solution?, hcomplete]; rfl⟩
  | some values =>
      have hlength := (PartialAssignment.length_of_complete? hcomplete).trans hs.slots
      have hvalues : ∀ value ∈ values, value < m.valueCount := by
        intro value hvalue
        obtain ⟨var, hvar⟩ := List.getElem?_of_mem hvalue
        rw [PartialAssignment.getElem?_of_complete? hcomplete] at hvar
        exact hbound hvar
      obtain ⟨flag, hflag, _⟩ := hm.isConsistent_eq hlength hvalues
      cases flag with
      | true => exact ⟨_, _, by simp only [solution?, hcomplete, hflag, Checked.ok_bind]; rfl⟩
      | false => exact ⟨_, _, by simp only [solution?, hcomplete, hflag, Checked.ok_bind]; rfl⟩

theorem solution?_onlyOutOfRange (m : Model) (s : State) :
    Checked.OnlyOutOfRange (s.solution? m) := by
  unfold solution?
  cases s.assignment.complete? with
  | none => exact Checked.onlyOutOfRange_ok _
  | some values =>
      refine (Model.isConsistent_onlyOutOfRange m values).bind fun flag => ?_
      cases flag with
      | true => exact Checked.onlyOutOfRange_ok _
      | false => exact Checked.onlyOutOfRange_ok _

end BinaryCsp.Search.State
