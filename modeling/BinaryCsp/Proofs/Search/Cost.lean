import BinaryCsp.Proofs.Search.Leaves

/-! # Arc consistency costs no search

Two searches of one model are compared that take variables and values in the same fixed order, one
of them with arc consistency and one without. Whenever both stand at nodes with the same
assignment, the first has the smaller domains, so the values it tries are some of those that the
other tries, in the same order. What it leaves out belongs to no solution, and what it tries fails
no later. So the searches end in the same answer, and arc consistency saves nodes, backtracks and
forward prunings or leaves them as they are.
-/

namespace BinaryCsp

def Config.withAc3 (config : Config) (on : Bool) : Config := { config with ac3 := on }

/-- Neither the choice of a variable nor the order of the values looks at the domains. -/
structure Config.Static (config : Config) : Prop where
  mrv : config.mrv = false
  lcv : config.lcv = false
  tieBreak : config.tieBreak = .lowest

namespace Counters

/-- No more search, apart from arc consistency, has been done for `c` than for `d`. -/
structure AtMost (c d : Counters) : Prop where
  nodes : c.nodes ≤ d.nodes
  backtracks : c.backtracks ≤ d.backtracks
  forwardPrunings : c.forwardPrunings ≤ d.forwardPrunings

variable {c d e : Counters}

theorem AtMost.refl (c : Counters) : c.AtMost c := ⟨Nat.le_refl _, Nat.le_refl _, Nat.le_refl _⟩

theorem AtMost.trans (h : c.AtMost d) (h' : d.AtMost e) : c.AtMost e :=
  ⟨h.nodes.trans h'.nodes, h.backtracks.trans h'.backtracks,
    h.forwardPrunings.trans h'.forwardPrunings⟩

theorem atMost_countNode (c : Counters) : c.AtMost c.countNode :=
  ⟨Nat.le_succ _, Nat.le_refl _, Nat.le_refl _⟩

theorem atMost_countBacktrack (c : Counters) : c.AtMost c.countBacktrack :=
  ⟨Nat.le_refl _, Nat.le_succ _, Nat.le_refl _⟩

theorem AtMost.countNode (h : c.AtMost d) : c.countNode.AtMost d.countNode :=
  ⟨Nat.succ_le_succ h.nodes, h.backtracks, h.forwardPrunings⟩

theorem AtMost.countBacktrack (h : c.AtMost d) : c.countBacktrack.AtMost d.countBacktrack :=
  ⟨h.nodes, Nat.succ_le_succ h.backtracks, h.forwardPrunings⟩

end Counters

def PartialAssignment.Extends (b a : PartialAssignment) : Prop :=
  ∀ var v, a.valueOf var = some v → b.valueOf var = some v

theorem PartialAssignment.Extends.trans {a b c : PartialAssignment} (h : c.Extends b)
    (h' : b.Extends a) : c.Extends a :=
  fun var v hv => h var v (h' var v hv)

theorem Model.collapsed_le (m : Model) {a b : PartialAssignment} (h : b.Extends a) :
    m.collapsed b ≤ m.collapsed a :=
  fun var _ hin => ⟨hin.1, fun v hv => hin.2 v (h var v hv)⟩

namespace Search

open State

variable {m : Model} {config : Config}

/-! ## Counters only grow -/

namespace State

/-- `t` comes after `s` in a search: its counters have not gone back, and ties are still broken in
favour of the lowest variable if they were. -/
structure Later (s t : State) : Prop where
  counters : s.counters.AtMost t.counters
  ties : s.ties = .lowest → t.ties = .lowest

variable {s t u : State} {var : VarId} {value : ValId}

theorem Later.trans (h : Later s t) (h' : Later t u) : Later s u :=
  ⟨h.counters.trans h'.counters, fun hs => h'.ties (h.ties hs)⟩

theorem Later.of_eq (h : t.counters = s.counters ∧ t.ties = s.ties) : Later s t :=
  ⟨h.1 ▸ .refl _, fun hs => h.2.trans hs⟩

theorem later_enterNode (s : State) : Later s s.enterNode :=
  ⟨s.counters.atMost_countNode, fun hs => hs⟩

theorem Later.of_choose (h : s.chooseVariable m config = .ok (some var, t))
    (hcounters : t.counters = s.counters) : Later s t := by
  refine ⟨hcounters ▸ .refl _, fun hs => ?_⟩
  have hselect := selectVariable_of_choose h
  rw [hs] at hselect
  exact Choice.selectVariable_lowest hselect

theorem Tried.later {kept : Bool} (h : Tried m config s var value kept t) : Later s t := by
  obtain ⟨outcome, _, hforward, _⟩ := h.forward
  exact ⟨⟨h.nodes.ge, h.backtracks.ge, hforward ▸ Nat.le_add_right _ _⟩,
    fun hs => h.ties.trans hs⟩

theorem Later.of_abandon {point : Nat} (h : s.abandon point = .ok t) : Later s t := by
  obtain ⟨hcounters, hties⟩ := abandon_frame h
  exact ⟨hcounters ▸ s.counters.atMost_countBacktrack, fun hs => hties.trans hs⟩

end State

theorem Explores.later (hm : m.WellFormed) {task : Task} {nodes : List State} {moves : Nat}
    {result : Result} (h : Explores m config task nodes moves result) (hvalid : task.Valid m) :
    Later task.start result.2 := by
  induction h with
  | @leaf levels s result empty solution =>
      exact (later_enterNode s).trans (.of_eq (solution?_frame solution))
  | @branch levels s t var values nodes moves result nonempty choose order below ih =>
      obtain ⟨hbranches, _, hcounters⟩ :=
        branches_of_choose hm hvalid.1 hvalid.2 nonempty choose order
      exact ((later_enterNode s).trans (.of_choose choose hcounters)).trans (ih hbranches)
  | exhausted release => exact .of_eq (release_frame release)
  | @failed _ _ _ t _ _ _ _ _ _ _ tried abandon next ih =>
      have ht := Branches.tried hm hvalid tried
      have hnext := (Branches.next hvalid ht (.refl t) abandon).1
      exact (ht.later.trans (.of_abandon abandon)).trans (ih hnext)
  | found tried below ih =>
      have ht := Branches.tried hm hvalid tried
      exact ht.later.trans (ih (Branches.child hvalid ht))
  | back tried below abandon next ihbelow ihnext =>
      have ht := Branches.tried hm hvalid tried
      have hchild := Branches.child hvalid ht
      have hnext := (Branches.next hvalid ht (below.restored hm hchild rfl) abandon).1
      exact ((ht.later.trans (ihbelow hchild)).trans (.of_abandon abandon)).trans (ihnext hnext)

/-! ## Two searches in step -/

namespace State

/-- Two searches that break ties in favour of the lowest variable, of which the one in `s` has done
no more than the one in `t`. -/
structure Ahead (s t : State) : Prop where
  counters : s.counters.AtMost t.counters
  ties : s.ties = .lowest
  others : t.ties = .lowest

variable {s s' t t' : State}

theorem Ahead.later (h : Ahead s t) (hlater : Later t t') : Ahead s t' :=
  ⟨h.counters.trans hlater.counters, h.ties, hlater.ties h.others⟩

theorem Ahead.enterNode (h : Ahead s t) : Ahead s.enterNode t.enterNode :=
  ⟨h.counters.countNode, h.ties, h.others⟩

theorem Ahead.of_eq (h : Ahead s t) (hs : s'.counters = s.counters ∧ s'.ties = s.ties)
    (ht : t'.counters = t.counters ∧ t'.ties = t.ties) : Ahead s' t' := by
  refine ⟨?_, hs.2.trans h.ties, ht.2.trans h.others⟩
  rw [hs.1, ht.1]
  exact h.counters

theorem Ahead.abandon (h : Ahead s t) {point point' : Nat} (hs : s.abandon point = .ok s')
    (ht : t.abandon point' = .ok t') : Ahead s' t' := by
  obtain ⟨hcounters, hties⟩ := abandon_frame hs
  obtain ⟨hcounters', hties'⟩ := abandon_frame ht
  refine ⟨?_, hties.trans h.ties, hties'.trans h.others⟩
  rw [hcounters, hcounters']
  exact h.counters.countBacktrack

end State

/-! ## An answer keeps what was assigned above it -/

section Answer

variable {levels : Nat} {node s t : State} {var : VarId} {value : ValId} {rest : List ValId}

theorem Branches.extends_child (h : Branches m levels node var rest s) {kept : Bool}
    (ht : Tried m config s var value kept t) : t.assignment.Extends node.assignment := by
  intro other v hv
  have hne : other ≠ var := by
    intro heq
    rw [heq, h.sound.free h.has] at hv
    cases hv
  rw [h.valueOf_child ht, if_neg hne, hv]

theorem Explores.getElem?_of_assigned (hm : m.WellFormed) {task : Task} {nodes : List State}
    {moves : Nat} {result : Result} (h : Explores m config task nodes moves result)
    (hvalid : task.Valid m) {values : List ValId} (hsome : result.1 = some values) {var : VarId}
    {v : ValId} (hv : task.origin.assignment.valueOf var = some v) : values[var]? = some v := by
  have hextends : ∀ s ∈ nodes, s.assignment.Extends task.origin.assignment :=
    h.forall_nodes hm (fun hnode hbranches ht => (hbranches.extends_child ht).trans hnode) hvalid
      (fun _ _ hv => hv)
  obtain ⟨leaf, hleaf, hcomplete, _⟩ := h.exists_leaf hsome
  rw [PartialAssignment.getElem?_of_complete? hcomplete]
  exact hextends leaf hleaf var v hv

/-- Where an answer is found, there is a solution with the values assigned so far. -/
theorem Explores.exists_fits (hm : m.WellFormed) {task : Task} {nodes : List State} {moves : Nat}
    {result : Result} (h : Explores m config task nodes moves result) (hvalid : task.Valid m)
    (horigin : AtNode m config task.origin) {values : List ValId}
    (hsome : result.1 = some values) :
    ∃ pick, m.Fits pick (m.collapsed task.origin.assignment) := by
  obtain ⟨_, _, _, hsolves⟩ := h.exists_solution hm hvalid horigin hsome
  refine ⟨fun var => values.getD var 0, ?_, hsolves.fits.compatible⟩
  intro var hvar
  refine ⟨hsolves.fits.mem hvar, fun v hv => ?_⟩
  rw [List.getD_eq_getElem?_getD, h.getElem?_of_assigned hm hvalid hsome hv]
  rfl

end Answer

/-! ## Two nodes with the same assignment -/

/-- A node of the search with arc consistency and one of the search without it that have the same
values assigned. -/
structure Parallel (m : Model) (config : Config) (s t : State) : Prop where
  swept : AtNode m (config.withAc3 true) s
  checked : AtNode m (config.withAc3 false) t
  pool : s.pool = t.pool
  assignment : s.assignment = t.assignment

namespace Parallel

theorem family_le (hm : m.WellFormed) {s t : State} (h : Parallel m config s t) :
    s.store.family ≤ t.store.family := by
  intro var b hb
  cases hvalue : s.assignment.valueOf var with
  | some a =>
      rw [h.checked.assigned (h.assignment ▸ hvalue), ← h.swept.assigned hvalue]
      exact hb
  | none =>
      rw [h.checked.checked rfl (h.assignment ▸ hvalue)]
      refine ⟨h.swept.pruned.family_le var hb, fun x v hx => ?_⟩
      rw [← h.assignment] at hx
      exact h.swept.compatible_of_mem hm hx hvalue hb

section Child

variable {levels levels' : Nat} {node node' s s' t t' : State} {var : VarId} {value : ValId}
  {rest rest' : List ValId} {kept kept' : Bool}

theorem pool_eq (h : Parallel m config node node') (hb : Branches m levels node var rest s)
    (hb' : Branches m levels' node' var rest' s') : s.pool = s'.pool := by
  have hremove := hb.branching.pool
  rw [h.pool, hb'.branching.pool] at hremove
  exact (Except.ok.inj hremove).symm

/-- The same value costs no more forward prunings, and survives arc consistency only if it survives
forward checking alone. -/
theorem tried_ahead (hm : m.WellFormed) (h : Parallel m config node node')
    (hb : Branches m levels node var (value :: rest) s)
    (hb' : Branches m levels' node' var (value :: rest') s')
    (ht : Tried m (config.withAc3 true) s var value kept t)
    (ht' : Tried m (config.withAc3 false) s' var value kept' t') (hahead : Ahead s s') :
    Ahead t t' ∧ (kept = true → kept' = true) := by
  obtain ⟨outcome, hrun, hforward, hkept, _⟩ := ht.forward
  obtain ⟨outcome', hrun', hforward', _, hkept'⟩ := ht'.forward
  rw [hb.branching.store] at hrun
  rw [hb'.branching.store, ← h.pool_eq hb hb'] at hrun'
  obtain ⟨hpruned, hwiped⟩ := ForwardCheck.run_le hm (hb.branching.sound hb.sound hb.has).pool
    hb.sound.store hb'.sound.store (h.family_le hm) (hb.has.lt hb.sound.pool)
    (hb.sound.store.bounded (hb.mem value (by simp))) hrun hrun'
  have hcounters : t.counters.AtMost t'.counters := by
    constructor
    · rw [ht.nodes, ht'.nodes]
      exact hahead.counters.nodes
    · rw [ht.backtracks, ht'.backtracks]
      exact hahead.counters.backtracks
    · rw [hforward, hforward']
      exact Nat.add_le_add hahead.counters.forwardPrunings hpruned
  exact ⟨⟨hcounters, ht.ties.trans hahead.ties, ht'.ties.trans hahead.others⟩,
    fun hyes => hkept' rfl (hwiped (hkept hyes))⟩

theorem child (hm : m.WellFormed) (h : Parallel m config node node')
    (hb : Branches m levels node var (value :: rest) s)
    (hb' : Branches m levels' node' var (value :: rest') s')
    (ht : Tried m (config.withAc3 true) s var value true t)
    (ht' : Tried m (config.withAc3 false) s' var value true t') : Parallel m config t t' where
  swept := h.swept.child hm hb ht
  checked := h.checked.child hm hb' ht'
  pool := by rw [ht.pool, ht'.pool, h.pool_eq hb hb']
  assignment := by
    have hset := ht.assignment
    rw [← PartialAssignment.set_of_clear hb.branching.assignment, h.assignment,
      PartialAssignment.set_of_clear hb'.branching.assignment, ht'.assignment] at hset
    exact (Except.ok.inj hset).symm

/-- A value below which the search without arc consistency finds an answer belongs to a solution
that fits the smaller domains. -/
theorem fits_of_found (hm : m.WellFormed) (h : Parallel m config node node')
    (hb' : Branches m levels' node' var (value :: rest') s')
    (ht' : Tried m (config.withAc3 false) s' var value true t') {nodes : List State} {moves : Nat}
    {values : List ValId} {u : State}
    (hbelow : Explores m (config.withAc3 false) (.node levels' t') nodes moves (some values, u)) :
    ∃ pick, m.Fits pick node.store.family ∧ pick var = value := by
  obtain ⟨pick, hpick⟩ :=
    hbelow.exists_fits hm (hb'.child ht') (h.checked.child hm hb' ht') rfl
  have hvalue : t'.assignment.valueOf var = some value := by
    rw [hb'.valueOf_child ht', if_pos rfl]
  refine ⟨pick, ?_, (hpick.mem (hb'.has.lt hb'.sound.pool)).2 value hvalue⟩
  refine Model.Fits.of_isGreatest hm ?_ (h.swept.swept rfl)
  rw [h.assignment]
  exact hpick.mono (Model.collapsed_le m (hb'.extends_child ht'))

end Child

section Branch

variable {s s' t t' : State} {var var' : VarId}

theorem var_eq (hstatic : config.Static) (h : Parallel m config s t) (hahead : Ahead s t)
    (hchoose : s.enterNode.chooseVariable m (config.withAc3 true) = .ok (some var, s'))
    (hchoose' : t.enterNode.chooseVariable m (config.withAc3 false) = .ok (some var', t')) :
    var = var' := by
  have hselect := selectVariable_of_choose hchoose
  have hselect' := selectVariable_of_choose hchoose'
  change Choice.selectVariable _ m s.store s.pool s.ties = _ at hselect
  change Choice.selectVariable _ m t.store t.pool t.ties = _ at hselect'
  have hsame : Choice.selectVariable (config.withAc3 true) m s.store t.pool .lowest =
      Choice.selectVariable (config.withAc3 false) m t.store t.pool .lowest :=
    Choice.selectVariable_static hstatic.mrv hstatic.mrv rfl s.store .lowest
  rw [hahead.ties, h.pool, hsame, ← hahead.others, hselect'] at hselect
  obtain ⟨hvar, _⟩ := Prod.mk.inj (Except.ok.inj hselect)
  exact (Option.some.inj hvar).symm

/-- With arc consistency, those of the values are tried that its domains still have. -/
theorem values_eq (hm : m.WellFormed) (hstatic : config.Static) (h : Parallel m config s t)
    (hs : s'.store = s.store) (ht : t'.store = t.store) {values values' : List ValId}
    (horder : s'.orderedValues m (config.withAc3 true) var = .ok values)
    (horder' : t'.orderedValues m (config.withAc3 false) var = .ok values') :
    ∃ domain, s.store.get var = .ok domain ∧ values = values'.filter domain.contains := by
  obtain ⟨domain, hget, rfl⟩ := Choice.orderValues_static hstatic.lcv horder
  obtain ⟨domain', hget', rfl⟩ := Choice.orderValues_static hstatic.lcv horder'
  rw [hs] at hget
  rw [ht] at hget'
  exact ⟨domain, hget,
    BitSet.toList_eq_filter (Store.contains_of_family_le (h.family_le hm) hget hget')⟩

end Branch

end Parallel

/-! ## Two whole searches -/

/-- The same part of both searches. The values left to try are those of the search without arc
consistency that the smaller domain of the other has. -/
def Task.Follows (m : Model) (config : Config) : Task → Task → Prop
  | .node _ s, .node _ t => Parallel m config s t
  | .values _ owner var rest _, .values _ other var' rest' _ =>
      Parallel m config owner other ∧ var = var' ∧
        ∃ domain, owner.store.get var = .ok domain ∧ rest = rest'.filter domain.contains
  | _, _ => False

/-- However the search with arc consistency makes the same part of the search, it comes to the same
answer and stays ahead. -/
def Task.Dominated (m : Model) (config : Config) (other : Task) (outcome : Result) : Prop :=
  ∀ ⦃task : Task⦄ ⦃nodes : List State⦄ ⦃moves : Nat⦄ ⦃result : Result⦄,
    Explores m (config.withAc3 true) task nodes moves result → task.Valid m →
    task.Follows m config other → Ahead task.start other.start →
    result.1 = outcome.1 ∧ Ahead result.2 outcome.2

section Step

variable {levels : Nat} {node s t u w : State} {var : VarId} {value : ValId} {rest : List ValId}
  {result : Result}

/-- The search below a value that both searches have tried with success. -/
theorem Task.Dominated.below (h : (Task.node levels t).Dominated m config result)
    (hm : m.WellFormed) {lower : Nat} {owner first child : State} {left : List ValId}
    (hparallel : Parallel m config owner node)
    (hb : Branches m lower owner var (value :: left) first)
    (hb' : Branches m levels node var (value :: rest) s)
    (hchild : Tried m (config.withAc3 true) first var value true child)
    (ht : Tried m (config.withAc3 false) s var value true t) (hahead : Ahead first s)
    {nodes : List State} {moves : Nat} {outcome : Result}
    (hrun : Explores m (config.withAc3 true) (.node lower child) nodes moves outcome) :
    outcome.1 = result.1 ∧ Ahead outcome.2 result.2 :=
  h hrun (hb.child hchild) (hparallel.child hm hb hb' hchild ht)
    (hparallel.tried_ahead hm hb hb' hchild ht hahead).1

theorem leaf_dominated (hempty : t.pool.isEmpty = true)
    (hsolution : t.enterNode.solution? m = .ok result) :
    (Task.node levels t).Dominated m config result := by
  intro task nodes moves outcome h hvalid hfollows hahead
  cases task with
  | values => exact hfollows.elim
  | node _ s =>
      have hparallel : Parallel m config s t := hfollows
      cases h with
      | leaf empty solution =>
          have hsame : s.enterNode.assignment = t.enterNode.assignment := hparallel.assignment
          exact ⟨solution?_congr hsame solution hsolution,
            hahead.enterNode.of_eq (solution?_frame solution) (solution?_frame hsolution)⟩
      | branch nonempty choose order below =>
          rw [hparallel.pool, hempty] at nonempty
          cases nonempty

theorem branch_dominated (hm : m.WellFormed) (hstatic : config.Static)
    (hvalid : (Task.node (levels + 1) t).Valid m) (hnonempty : t.pool.isEmpty = false)
    (hchoose : t.enterNode.chooseVariable m (config.withAc3 false) = .ok (some var, u))
    (horder : u.orderedValues m (config.withAc3 false) var = .ok rest)
    (hbelow : (Task.values levels t var rest u).Dominated m config result) :
    (Task.node (levels + 1) t).Dominated m config result := by
  intro task nodes moves outcome h hnode hfollows hahead
  cases task with
  | values => exact hfollows.elim
  | node _ s =>
      have hparallel : Parallel m config s t := hfollows
      cases h with
      | leaf empty solution =>
          rw [hparallel.pool, hnonempty] at empty
          cases empty
      | branch nonempty choose order below =>
          obtain rfl := hparallel.var_eq hstatic hahead choose hchoose
          obtain ⟨hb, _, hcounters⟩ := branches_of_choose hm hnode.1 hnode.2 nonempty choose order
          obtain ⟨hb', _, hcounters'⟩ :=
            branches_of_choose hm hvalid.1 hvalid.2 hnonempty hchoose horder
          have hvalues := hparallel.values_eq hm hstatic hb.branching.store hb'.branching.store
            order horder
          refine hbelow below hb ⟨hparallel, rfl, hvalues⟩ ⟨?_, ?_, ?_⟩
          · simp only [Task.start, hcounters, hcounters']
            exact hahead.counters.countNode
          · exact (Later.of_choose choose hcounters).ties hahead.ties
          · exact (Later.of_choose hchoose hcounters').ties hahead.others

theorem exhausted_dominated (hrelease : s.release var = .ok t) :
    (Task.values levels node var [] s).Dominated m config (none, t) := by
  intro task nodes moves outcome h hvalid hfollows hahead
  cases task with
  | node => exact hfollows.elim
  | values =>
      obtain ⟨_, rfl, _, _, rfl⟩ := hfollows
      cases h with
      | exhausted release =>
          exact ⟨rfl, hahead.of_eq (release_frame release) (release_frame hrelease)⟩

/-- A value that fails without arc consistency is left out with it, or it fails as well: `hpassed`
says that whenever it is tried, the search goes on behind it and is still ahead. -/
theorem passed_dominated (hlater : Later s w)
    (hpassed : ∀ {lower : Nat} {owner first : State} {left : List ValId} {nodes : List State}
      {moves : Nat} {outcome : Result}, Parallel m config owner node →
      Branches m lower owner var (value :: left) first → Ahead first s →
      Explores m (config.withAc3 true) (.values lower owner var (value :: left) first) nodes moves
        outcome →
      ∃ second nodes moves, Branches m lower owner var left second ∧ Ahead second w ∧
        Explores m (config.withAc3 true) (.values lower owner var left second) nodes moves outcome)
    (hrest : (Task.values levels node var rest w).Dominated m config result) :
    (Task.values levels node var (value :: rest) s).Dominated m config result := by
  intro task nodes moves outcome h hvalid hfollows hahead
  cases task with
  | node => exact hfollows.elim
  | values =>
      obtain ⟨hparallel, rfl, domain, hget, rfl⟩ := hfollows
      by_cases hin : domain.contains value = true
      · rw [List.filter_cons_of_pos hin] at h hvalid
        obtain ⟨second, _, _, hb, hsecond, hnext⟩ := hpassed hparallel hvalid hahead h
        exact hrest hnext hb ⟨hparallel, rfl, domain, hget, rfl⟩ hsecond
      · rw [List.filter_cons_of_neg hin] at h hvalid
        exact hrest h hvalid ⟨hparallel, rfl, domain, hget, rfl⟩ (hahead.later hlater)

theorem failed_dominated (hm : m.WellFormed) (hvalid : Branches m levels node var (value :: rest) s)
    (ht : Tried m (config.withAc3 false) s var value false t)
    (habandon : t.abandon node.store.checkpoint = .ok w)
    (hrest : (Task.values levels node var rest w).Dominated m config result) :
    (Task.values levels node var (value :: rest) s).Dominated m config result := by
  refine passed_dominated (ht.later.trans (.of_abandon habandon)) ?_ hrest
  -- What forward checking wipes out in larger domains, it wipes out in smaller ones: only `failed`
  -- is possible.
  intro lower owner first left nodes moves outcome hparallel hb hahead h
  cases h with
  | @failed _ _ _ t' _ _ _ _ _ _ _ tried abandon next =>
      have ht' := hb.tried hm tried
      have htried := (hparallel.tried_ahead hm hb hvalid ht' ht hahead).1
      exact ⟨_, _, _, (hb.next ht' (.refl t') abandon).1, htried.abandon abandon habandon, next⟩
  | found tried below =>
      cases (hparallel.tried_ahead hm hb hvalid (hb.tried hm tried) ht hahead).2 rfl
  | back tried below abandon next =>
      cases (hparallel.tried_ahead hm hb hvalid (hb.tried hm tried) ht hahead).2 rfl

theorem back_dominated (hm : m.WellFormed) (hvalid : Branches m levels node var (value :: rest) s)
    (ht : Tried m (config.withAc3 false) s var value true t) (hlater : Later t u)
    (hbelow : (Task.node levels t).Dominated m config (none, u))
    (habandon : u.abandon node.store.checkpoint = .ok w)
    (hrest : (Task.values levels node var rest w).Dominated m config result) :
    (Task.values levels node var (value :: rest) s).Dominated m config result := by
  refine passed_dominated ((ht.later.trans hlater).trans (.of_abandon habandon)) ?_ hrest
  intro lower owner first left nodes moves outcome hparallel hb hahead h
  cases h with
  | @failed _ _ _ t' _ _ _ _ _ _ _ tried abandon next =>
      have ht' := hb.tried hm tried
      have htried := (hparallel.tried_ahead hm hb hvalid ht' ht hahead).1
      exact ⟨_, _, _, (hb.next ht' (.refl t') abandon).1,
        (htried.later hlater).abandon abandon habandon, next⟩
  | found tried below =>
      cases (hbelow.below hm hparallel hb hvalid (hb.tried hm tried) ht hahead below).1
  | back tried below abandon next =>
      have ht' := hb.tried hm tried
      have hrestored := below.restored hm (hb.child ht') rfl
      have hbehind := (hbelow.below hm hparallel hb hvalid ht' ht hahead below).2
      exact ⟨_, _, _, (hb.next ht' hrestored abandon).1, hbehind.abandon abandon habandon, next⟩

theorem found_dominated (hm : m.WellFormed) (hvalid : Branches m levels node var (value :: rest) s)
    (ht : Tried m (config.withAc3 false) s var value true t) {nodes : List State} {moves : Nat}
    {values : List ValId}
    (hfound : Explores m (config.withAc3 false) (.node levels t) nodes moves (some values, u))
    (hbelow : (Task.node levels t).Dominated m config (some values, u)) :
    (Task.values levels node var (value :: rest) s).Dominated m config (some values, u) := by
  intro task nodes moves outcome h hb hfollows hahead
  cases task with
  | node => exact hfollows.elim
  | values =>
      obtain ⟨hparallel, rfl, domain, hget, rfl⟩ := hfollows
      -- The answer below `value` fits the smaller domains, so the value is among those tried there.
      obtain ⟨pick, hpick, hvalue⟩ := hparallel.fits_of_found hm hvalid ht hfound
      have hin : domain.contains value = true := by
        rw [← Store.mem_family (Checked.get_eq_ok.1 hget), ← hvalue]
        exact hpick.mem (hvalid.has.lt hvalid.sound.pool)
      rw [List.filter_cons_of_pos hin] at h hb
      cases h with
      | failed tried abandon next =>
          cases (Branches.kept_of_fits hm hb (Branches.tried hm hb tried) hpick hvalue).1
      | found tried below =>
          exact hbelow.below hm hparallel hb hvalid (Branches.tried hm hb tried) ht hahead below
      | back tried below abandon next =>
          have ht' := Branches.tried hm hb tried
          cases (hbelow.below hm hparallel hb hvalid ht' ht hahead below).1

end Step

theorem Explores.dominated (hm : m.WellFormed) (hstatic : config.Static) {task : Task}
    {nodes : List State} {moves : Nat} {result : Result}
    (h : Explores m (config.withAc3 false) task nodes moves result) (hvalid : task.Valid m) :
    task.Dominated m config result := by
  induction h with
  | leaf empty solution => exact leaf_dominated empty solution
  | branch nonempty choose order below ih =>
      have hbranches := (branches_of_choose hm hvalid.1 hvalid.2 nonempty choose order).1
      exact branch_dominated hm hstatic hvalid nonempty choose order (ih hbranches)
  | exhausted release => exact exhausted_dominated release
  | @failed _ _ _ t _ _ _ _ _ _ _ tried abandon next ih =>
      have ht := Branches.tried hm hvalid tried
      have hnext := (Branches.next hvalid ht (.refl t) abandon).1
      exact failed_dominated hm hvalid ht abandon (ih hnext)
  | found tried below ih =>
      have ht := Branches.tried hm hvalid tried
      exact found_dominated hm hvalid ht below (ih (Branches.child hvalid ht))
  | back tried below abandon next ihbelow ihnext =>
      have ht := Branches.tried hm hvalid tried
      have hchild := Branches.child hvalid ht
      have hnext := (Branches.next hvalid ht (below.restored hm hchild rfl) abandon).1
      exact back_dominated hm hvalid ht (below.later hm hchild) (ihbelow hchild) abandon
        (ihnext hnext)

/-! ## From the root -/

section Root

variable {root root' : State} {kept kept' : Bool}

theorem root_ahead (hm : m.WellFormed) (hstatic : config.Static)
    (hprepare : (State.initial m (config.withAc3 true)).prepare m (config.withAc3 true) =
      .ok (kept, root))
    (hprepare' : (State.initial m (config.withAc3 false)).prepare m (config.withAc3 false) =
      .ok (kept', root')) : Ahead root root' := by
  obtain ⟨_, _, hties, hcounters⟩ := prepare_frame hm (initial_sound _ hm) hprepare
  obtain ⟨_, _, hties', hcounters'⟩ := prepare_frame hm (initial_sound _ hm) hprepare'
  have hlowest : TieBreaker.ofPolicy config.tieBreak = .lowest := by
    rw [hstatic.tieBreak]
    rfl
  refine ⟨⟨?_, ?_, ?_⟩, hties.trans hlowest, hties'.trans hlowest⟩
  · rw [hcounters.nodes, hcounters'.nodes]
    exact Nat.le_refl 0
  · rw [hcounters.backtracks, hcounters'.backtracks]
    exact Nat.le_refl 0
  · rw [hcounters.forwardPrunings, hcounters'.forwardPrunings]
    exact Nat.le_refl 0

theorem root_parallel (hm : m.WellFormed)
    (hprepare : (State.initial m (config.withAc3 true)).prepare m (config.withAc3 true) =
      .ok (true, root))
    (hprepare' : (State.initial m (config.withAc3 false)).prepare m (config.withAc3 false) =
      .ok (true, root')) : Parallel m config root root' := by
  obtain ⟨hpool, hassignment, _⟩ := prepare_frame hm (initial_sound _ hm) hprepare
  obtain ⟨hpool', hassignment', _⟩ := prepare_frame hm (initial_sound _ hm) hprepare'
  exact ⟨atNode_root hm hprepare, atNode_root hm hprepare', hpool.trans hpool'.symm,
    hassignment.trans hassignment'.symm⟩

end Root

/-- Both searches end with the same answer, and the one with arc consistency has done no more. -/
theorem solve_atMost (hm : m.WellFormed) (hstatic : config.Static) (driver : Driver) :
    ∃ swept checked : Result,
      Strategy.solve ⟨driver, config.withAc3 true⟩ m = .ok swept.report ∧
      Strategy.solve ⟨driver, config.withAc3 false⟩ m = .ok checked.report ∧
      swept.1 = checked.1 ∧ swept.2.counters.AtMost checked.2.counters := by
  rcases solve_cases hm (config.withAc3 false) driver with
    ⟨root', hprepare', _⟩ | ⟨root', nodes', moves', checked, hprepare', hvalid', hrun', hchecked, _⟩
  · cases hprepare'
  rcases solve_cases hm (config.withAc3 true) driver with
    ⟨root, hprepare, hswept, _⟩ | ⟨root, nodes, moves, swept, hprepare, hvalid, hrun, hswept, _⟩
  · refine ⟨_, _, hswept, hchecked, ?_, ?_⟩
    · -- Arc consistency at the root fails only if there is no solution to find.
      obtain ⟨_, hsolve, _, hcomplete⟩ := solve_spec hm (config.withAc3 true) driver
      obtain ⟨_, hsolve', hsound, _⟩ := solve_spec hm (config.withAc3 false) driver
      obtain rfl := Except.ok.inj (hsolve.symm.trans hswept)
      obtain rfl := Except.ok.inj (hsolve'.symm.trans hchecked)
      cases hfound : checked.1 with
      | none => rfl
      | some ids => exact absurd (hsound ids hfound) (hcomplete rfl ids)
    · exact ((root_ahead hm hstatic hprepare hprepare').later (hrun'.later hm hvalid')).counters
  · obtain ⟨hsame, hahead⟩ := hrun'.dominated hm hstatic hvalid' hrun hvalid
      (root_parallel hm hprepare hprepare') (root_ahead hm hstatic hprepare hprepare')
    exact ⟨_, _, hswept, hchecked, hsame, hahead.counters⟩

end Search

section Values

variable {V : Type} {calls : List (Call V)} {p : Problem V}

/-- The assignment reported depends on the ids found alone. -/
theorem Problem.Faithful.exists_assignment (hp : p.Faithful calls) {found : Option (List ValId)}
    (hfound : ∀ ids, found = some ids → p.model.Solves ids) :
    ∃ assignment, ∀ (strategy : Strategy) (run : Run), strategy.solve p.model = .ok run →
      run.found = found →
      Solver.solve ⟨p, strategy⟩ = .ok ⟨assignment, run.stats, strategy.config⟩ := by
  cases found with
  | none =>
      refine ⟨none, ?_⟩
      rintro strategy ⟨_, stats, events⟩ hsolve rfl
      simp only [Solver.solve, hsolve, Checked.ok_bind]
      rfl
  | some ids =>
      obtain ⟨values, hmap, _⟩ := hp.mapM_value (hfound ids rfl)
      refine ⟨some ⟨values.toArray⟩, ?_⟩
      rintro strategy ⟨_, stats, events⟩ hsolve rfl
      simp only [Solver.solve, hsolve, Checked.ok_bind, hmap]
      rfl

variable [DecidableEq V]

/-- With a fixed order of variables and values, the solver of a built problem reports the same
assignment with arc consistency and without, and with it no more nodes, backtracks or forward
prunings. -/
theorem Solver.solve_sweep_costs_no_more (hp : Problem.ofCalls calls = .ok p) {config : Config}
    (hmrv : config.mrv = false) (hlcv : config.lcv = false) (hties : config.tieBreak = .lowest)
    (driver : Driver) :
    ∃ swept checked, Solver.solve ⟨p, driver, config.withAc3 true⟩ = .ok swept ∧
      Solver.solve ⟨p, driver, config.withAc3 false⟩ = .ok checked ∧
      swept.assignment = checked.assignment ∧
      swept.stats.nodes ≤ checked.stats.nodes ∧
      swept.stats.backtracks ≤ checked.stats.backtracks ∧
      swept.stats.forwardPrunings ≤ checked.stats.forwardPrunings := by
  have hfaithful := Problem.faithful_of_ofCalls hp
  have hm := hfaithful.wellFormed
  obtain ⟨swept, checked, hswept, hchecked, hsame, hcounters⟩ :=
    Search.solve_atMost hm ⟨hmrv, hlcv, hties⟩ driver
  obtain ⟨_, hsolve, hsound, _⟩ := Search.solve_spec hm (config.withAc3 false) driver
  obtain rfl := Except.ok.inj (hsolve.symm.trans hchecked)
  obtain ⟨assignment, hreport⟩ := hfaithful.exists_assignment hsound
  exact ⟨_, _, hreport _ _ hswept hsame, hreport _ _ hchecked rfl, rfl, hcounters.nodes,
    hcounters.backtracks, hcounters.forwardPrunings⟩

theorem Solver.solve_sweep_costs_no_more_chain :
    ∃ p swept checked, Problem.ofCalls Call.ascendingChain = .ok p ∧
      Solver.solve ⟨p, .explicit, false, true, false, true, .lowest⟩ = .ok swept ∧
      Solver.solve ⟨p, .explicit, false, true, false, false, .lowest⟩ = .ok checked ∧
      swept.assignment = checked.assignment ∧ checked.stats.nodes = 4 ∧
      checked.stats.backtracks = 1 ∧ checked.stats.forwardPrunings = 7 ∧
      swept.stats.nodes ≤ 4 ∧ swept.stats.backtracks ≤ 1 ∧ swept.stats.forwardPrunings ≤ 7 := by
  let config : Config := ⟨false, true, false, false, .lowest⟩
  have hcost : ((Problem.ofCalls Call.ascendingChain).toOption.bind fun p =>
      (Solver.solve ⟨p, .explicit, config⟩).toOption.map fun report =>
        (report.stats.nodes, report.stats.backtracks, report.stats.forwardPrunings)) =
        some (4, 1, 7) := by decide +kernel
  obtain ⟨p, hp⟩ := Call.exists_ofCalls_ascendingChain
  have hmrv : config.mrv = false := rfl
  obtain ⟨swept, checked, hswept, hchecked, hsame, hnodes, hbacktracks, hforward⟩ :=
    Solver.solve_sweep_costs_no_more hp hmrv rfl rfl .explicit
  obtain ⟨hfour, hone, hseven⟩ : checked.stats.nodes = 4 ∧ checked.stats.backtracks = 1 ∧
      checked.stats.forwardPrunings = 7 := by
    change Solver.solve ⟨p, .explicit, config⟩ = .ok checked at hchecked
    simpa [hp, hchecked, Except.toOption] using hcost
  rw [hfour] at hnodes
  rw [hone] at hbacktracks
  rw [hseven] at hforward
  exact ⟨p, swept, checked, hp, hswept, hchecked, hsame, hfour, hone, hseven, hnodes, hbacktracks,
    hforward⟩

end Values

end BinaryCsp
