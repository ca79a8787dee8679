import BinaryCsp.Proofs.Search.Nodes

/-! # The solver is sound and complete

A solution is followed down the search: at every node whose domains it fits, one of the values
tried is its own, and the node below that value fits it as well. So a search that comes back
without an answer has excluded every solution. The answer of a search that has one is the
assignment of a leaf, whose domains show that each of its values was a candidate.
-/

namespace BinaryCsp

structure Model.Solves (m : Model) (ids : List ValId) : Prop where
  length : ids.length = m.variableCount
  mem : ∀ {var : VarId} {a : ValId}, ids[var]? = some a →
    a ∈ (Store.ofDomains m.domains).family var
  compatible : ∀ {var other : VarId} {a b : ValId}, ids[var]? = some a → ids[other]? = some b →
    m.Compatible var a other b

theorem Model.Solves.fits {m : Model} {ids : List ValId} (h : m.Solves ids) :
    m.Fits (fun var => ids.getD var 0) (Store.ofDomains m.domains).family := by
  have hget : ∀ {var : VarId}, var < m.variableCount → ids[var]? = some (ids.getD var 0) := by
    intro var hvar
    rw [← h.length] at hvar
    rw [List.getD_eq_getElem?_getD, List.getElem?_eq_getElem hvar]
    rfl
  exact ⟨fun hvar => h.mem (hget hvar), fun hvar hother => h.compatible (hget hvar) (hget hother)⟩

namespace Search

open State

variable {m : Model} {config : Config} {s : State} {values : List ValId}

/-! ## Leaves -/

/-- The test of a complete assignment decides whether it is a solution. -/
theorem AtNode.isConsistent_eq (hm : m.WellFormed) (h : AtNode m config s)
    (hcomplete : s.assignment.complete? = some values) :
    ∃ flag, m.isConsistent values = .ok flag ∧ (flag = true ↔ m.Solves values) := by
  have hvalue : ∀ {var : VarId} {a : ValId}, values[var]? = some a → a ∈ s.store.family var := by
    intro var a ha
    rw [PartialAssignment.getElem?_of_complete? hcomplete] at ha
    rw [h.assigned ha]
    rfl
  have hlength := (PartialAssignment.length_of_complete? hcomplete).trans h.sound.slots
  obtain ⟨flag, heq, hflag⟩ := hm.isConsistent_eq hlength fun value hin => by
    obtain ⟨var, hvar⟩ := List.getElem?_of_mem hin
    exact h.sound.store.bounded (hvalue hvar)
  refine ⟨flag, heq, hflag.trans ⟨fun hall => ?_, fun hsolves => ?_⟩⟩
  · exact ⟨hlength, fun ha => h.pruned.family_le _ (hvalue ha), fun ha hb => hall _ _ _ _ ha hb⟩
  · exact fun var other a b ha hb => hsolves.compatible ha hb

/-- A choice that fits a leaf is the assignment there. -/
theorem AtNode.solves_of_fits (h : AtNode m config s) (hempty : s.pool.isEmpty = true)
    {pick : VarId → ValId} (hpick : m.Fits pick s.store.family) :
    ∃ values, s.assignment.complete? = some values ∧ m.Solves values := by
  have hvalueOf : ∀ {var : VarId}, var < m.variableCount →
      s.assignment.valueOf var = some (pick var) := by
    intro var hvar
    cases hvalue : s.assignment.valueOf var with
    | none =>
        have hout := (Pool.isEmpty_iff h.sound.pool).1 hempty var
        exact absurd (h.unassigned.2 ⟨hvar, hvalue⟩) hout
    | some a =>
        have hin := hpick.mem hvar
        rw [h.assigned hvalue] at hin
        rw [Set.mem_singleton_iff.1 hin]
  obtain ⟨values, hvalues⟩ : ∃ values, s.assignment.complete? = some values := by
    refine PartialAssignment.exists_complete? fun var hvar => ?_
    rw [h.sound.slots] at hvar
    rw [hvalueOf hvar]
    exact nofun
  have hlength := (PartialAssignment.length_of_complete? hvalues).trans h.sound.slots
  have hget : ∀ {var : VarId} {a : ValId}, values[var]? = some a →
      var < m.variableCount ∧ a = pick var := by
    intro var a ha
    have hvar : var < m.variableCount := hlength ▸ (List.getElem?_eq_some_iff.1 ha).1
    rw [PartialAssignment.getElem?_of_complete? hvalues, hvalueOf hvar] at ha
    exact ⟨hvar, (Option.some.inj ha).symm⟩
  refine ⟨values, hvalues, hlength, fun ha => ?_, fun ha hb => ?_⟩
  · obtain ⟨hvar, rfl⟩ := hget ha
    exact h.pruned.family_le _ (hpick.mem hvar)
  · obtain ⟨hvar, rfl⟩ := hget ha
    obtain ⟨hother, rfl⟩ := hget hb
    exact hpick.compatible hvar hother

/-! ## Soundness and completeness of the search -/

/-- An answer is the assignment of a node that was entered, and has passed the test there. -/
theorem Explores.exists_leaf {task : Task} {nodes : List State} {moves : Nat} {result : Result}
    (h : Explores m config task nodes moves result) (hsome : result.1 = some values) :
    ∃ leaf ∈ nodes, leaf.assignment.complete? = some values ∧
      m.isConsistent values = .ok true := by
  induction h with
  | @leaf levels s result empty solution =>
      obtain ⟨found, hfound, hcomplete, hconsistent, _⟩ | ⟨hnone, _⟩ := solution?_cases solution
      · obtain rfl := Option.some.inj (hsome.symm.trans hfound)
        exact ⟨s, by simp, hcomplete, hconsistent⟩
      · rw [hsome] at hnone
        cases hnone
  | branch nonempty choose order below ih =>
      obtain ⟨leaf, hleaf, h⟩ := ih hsome
      exact ⟨leaf, List.mem_cons_of_mem _ hleaf, h⟩
  | exhausted release => cases hsome
  | failed tried abandon next ih => exact ih hsome
  | found tried below ih => exact ih hsome
  | back tried below abandon next ihbelow ihnext =>
      obtain ⟨leaf, hleaf, h⟩ := ihnext hsome
      exact ⟨leaf, List.mem_append_right _ hleaf, h⟩

/-- An answer is a solution, and the assignment of a node that was entered. -/
theorem Explores.exists_solution (hm : m.WellFormed) {task : Task} {nodes : List State}
    {moves : Nat} {result : Result} (h : Explores m config task nodes moves result)
    (hvalid : task.Valid m) (horigin : AtNode m config task.origin)
    (hsome : result.1 = some values) :
    ∃ leaf ∈ nodes, leaf.assignment.complete? = some values ∧ m.Solves values := by
  obtain ⟨leaf, hleaf, hcomplete, htrue⟩ := h.exists_leaf hsome
  have hnode := h.atNode hm hvalid horigin leaf hleaf
  obtain ⟨flag, hflag, hiff⟩ := hnode.isConsistent_eq hm hcomplete
  rw [htrue] at hflag
  exact ⟨leaf, hleaf, hcomplete, hiff.1 (Except.ok.inj hflag).symm⟩

/-- Trying a value that belongs to a solution succeeds and keeps that solution. -/
theorem Branches.kept_of_fits (hm : m.WellFormed) {levels : Nat} {node s t : State} {var : VarId}
    {value : ValId} {rest : List ValId} (h : Branches m levels node var (value :: rest) s)
    {kept : Bool} (ht : Tried m config s var value kept t) {pick : VarId → ValId}
    (hpick : m.Fits pick node.store.family) (hvalue : pick var = value) :
    kept = true ∧ m.Fits pick t.store.family := by
  rw [← h.branching.store] at hpick
  cases kept with
  | false => exact absurd hvalue (ht.failed rfl pick hpick)
  | true => exact ⟨rfl, ht.fits hm hpick (h.has.lt h.sound.pool) hvalue⟩

/-- The value that `pick` gives to the variable at hand is still to be tried. -/
def Task.Awaits (pick : VarId → ValId) : Task → Prop
  | .node _ _ => True
  | .values _ _ var rest _ => pick var ∈ rest

/-- A part of a search that fails has excluded every choice that fits its node. -/
theorem Explores.not_awaits (hm : m.WellFormed) {task : Task} {nodes : List State} {moves : Nat}
    {result : Result} (h : Explores m config task nodes moves result) (hvalid : task.Valid m)
    (horigin : AtNode m config task.origin) (hnone : result.1 = none) {pick : VarId → ValId}
    (hpick : m.Fits pick task.origin.store.family) : ¬ task.Awaits pick := by
  induction h with
  | leaf empty solution =>
      obtain ⟨values, hcomplete, hsolves⟩ := horigin.solves_of_fits empty hpick
      obtain ⟨flag, hflag, hiff⟩ := horigin.isConsistent_eq hm hcomplete
      obtain ⟨_, hfound, _⟩ | ⟨_, _, hrejected⟩ := solution?_cases solution
      · rw [hnone] at hfound
        cases hfound
      · rw [hiff.2 hsolves, hrejected values hcomplete] at hflag
        cases hflag
  | branch nonempty choose order below ih =>
      obtain ⟨hbranches, hvalues, _⟩ :=
        branches_of_choose hm hvalid.1 hvalid.2 nonempty choose order
      intro _
      exact ih hbranches horigin hnone hpick
        ((hvalues _).2 (hpick.mem (hbranches.has.lt hbranches.sound.pool)))
  | exhausted release =>
      intro hin
      cases hin
  | @failed _ _ _ t _ _ _ _ _ _ _ tried abandon next ih =>
      have ht := Branches.tried hm hvalid tried
      have hnext := (Branches.next hvalid ht (.refl t) abandon).1
      intro hin
      rcases List.mem_cons.1 hin with hvalue | hin
      · cases (Branches.kept_of_fits hm hvalid ht hpick hvalue).1
      · exact ih hnext horigin hnone hpick hin
  | found tried below ih => cases hnone
  | back tried below abandon next ihbelow ihnext =>
      have ht := Branches.tried hm hvalid tried
      have hchild := Branches.child hvalid ht
      have hnext := (Branches.next hvalid ht (below.restored hm hchild rfl) abandon).1
      intro hin
      rcases List.mem_cons.1 hin with hvalue | hin
      · exact ihbelow hchild (horigin.child hm hvalid ht) rfl
          (Branches.kept_of_fits hm hvalid ht hpick hvalue).2 trivial
      · exact ihnext hnext horigin hnone hpick hin

/-- Arc consistency before the first node succeeds if there is a solution, and keeps it. -/
theorem fits_root (hm : m.WellFormed) {ids : List ValId} (hids : m.Solves ids) {kept : Bool}
    {root : State} (hprepare : (State.initial m config).prepare m config = .ok (kept, root)) :
    kept = true ∧ m.Fits (fun var => ids.getD var 0) root.store.family := by
  obtain ⟨kept', root', hprepare', hroot⟩ := prepare_spec config hm (initial_sound config hm)
  obtain ⟨rfl, rfl⟩ := Prod.mk.inj (Except.ok.inj (hprepare'.symm.trans hprepare))
  rcases hroot with ⟨_, hkept, rfl⟩ | ⟨_, hroot⟩
  · exact ⟨hkept, hids.fits⟩
  · cases kept' with
    | false => exact absurd hids.fits (hroot.failed rfl _)
    | true => exact ⟨rfl, hids.fits.of_isGreatest hm (hroot.greatest rfl)⟩

/-- A search finds a solution if there is one, and finds nothing else. -/
theorem solve_spec (hm : m.WellFormed) (config : Config) (driver : Driver) :
    ∃ run, Strategy.solve ⟨driver, config⟩ m = .ok run ∧
      (∀ ids, run.found = some ids → m.Solves ids) ∧
      (run.found = none → ∀ ids, ¬ m.Solves ids) := by
  obtain ⟨kept, root, hprepare, _⟩ := prepare_spec config hm (initial_sound config hm)
  cases kept with
  | false =>
      refine ⟨_, (solve_of_prepare_failed hprepare driver).1, nofun, fun _ ids hids => ?_⟩
      cases (fits_root hm hids hprepare).1
  | true =>
      obtain ⟨hvalid, _, nodes, moves, result, hrun, hmoves⟩ := exists_explores_root hm hprepare
      have hnode := atNode_root hm hprepare
      refine ⟨_, (hrun.solve_eq hprepare hmoves driver).1, fun ids hids => ?_,
        fun hnone ids hids => ?_⟩
      · obtain ⟨_, _, _, hsolves⟩ := hrun.exists_solution hm hvalid hnode hids
        exact hsolves
      · exact hrun.not_awaits hm hvalid hnode hnone (fits_root hm hids hprepare).2 trivial

end Search

/-! ## Ids and values -/

section Values

variable {V : Type} {calls : List (Call V)} {p : Problem V} {ids : List ValId} {values : List V}

/-- The ids stand for the values, one by one. -/
def Problem.Names (p : Problem V) (ids : List ValId) (values : List V) : Prop :=
  List.Forall₂ (fun id v => p.values.values[id]? = some v) ids values

theorem Call.Solution.getElem? (h : Call.Solution calls values) {var : VarId} {x : V}
    (hx : values[var]? = some x) :
    ∃ domain, (Call.domains calls)[var]? = some domain ∧ x ∈ domain :=
  Checked.exists_of_forall₂_left h.candidates hx

/-- Ids solve the model exactly when the values they stand for are a solution of the calls. -/
theorem Problem.Faithful.solves_iff (hp : p.Faithful calls) (h : p.Names ids values) :
    p.model.Solves ids ↔ Call.Solution calls values := by
  constructor
  · intro hids
    refine ⟨?_, ?_⟩
    · have hlength : values.length = (Call.domains calls).length := by
        rw [← h.length_eq, hids.length, hp.variableCount]
      refine List.forall₂_iff_get.2 ⟨hlength, fun var hvar hdomain => ?_⟩
      obtain ⟨id, hid, hx⟩ := Checked.exists_of_forall₂_right h (List.getElem?_eq_getElem hvar)
      obtain ⟨v, hv, hx'⟩ := (hp.initial (List.getElem?_eq_getElem hdomain) id).1 (hids.mem hid)
      obtain rfl := Option.some.inj (hx.symm.trans hx')
      exact hv
    · intro a b allowed hcall
      obtain ⟨ha, hb⟩ := hp.endpoints hcall
      rw [← hids.length] at ha hb
      obtain ⟨x, hx, hidx⟩ := Checked.exists_of_forall₂_left h (List.getElem?_eq_getElem ha)
      obtain ⟨y, hy, hidy⟩ := Checked.exists_of_forall₂_left h (List.getElem?_eq_getElem hb)
      have hcompat := hids.compatible (List.getElem?_eq_getElem ha) (List.getElem?_eq_getElem hb)
      exact ⟨x, y, hx, hy, ((hp.compatible hidx hidy).1 hcompat).1 allowed hcall⟩
  · intro hvalues
    -- A relation call between two variables lists their values, whichever comes first.
    have hlisted : ∀ {var other : VarId} {x y : V} {allowed : List (V × V)},
        values[var]? = some x → values[other]? = some y →
        .relation var other allowed ∈ calls → (x, y) ∈ allowed := by
      intro var other x y allowed hx hy hcall
      obtain ⟨x', y', hx', hy', hin⟩ := hvalues.related hcall
      obtain rfl := Option.some.inj (hx.symm.trans hx')
      obtain rfl := Option.some.inj (hy.symm.trans hy')
      exact hin
    refine ⟨?_, ?_, ?_⟩
    · rw [h.length_eq, hvalues.candidates.length_eq, hp.variableCount]
    · intro var a ha
      obtain ⟨x, hx, hid⟩ := Checked.exists_of_forall₂_left h ha
      obtain ⟨domain, hdomain, hin⟩ := hvalues.getElem? hx
      exact (hp.initial hdomain a).2 ⟨x, hin, hid⟩
    · intro var other a b ha hb
      obtain ⟨x, hx, hidx⟩ := Checked.exists_of_forall₂_left h ha
      obtain ⟨y, hy, hidy⟩ := Checked.exists_of_forall₂_left h hb
      exact (hp.compatible hidx hidy).2
        ⟨fun allowed hcall => hlisted hx hy hcall, fun allowed hcall => hlisted hy hx hcall⟩

theorem Problem.Faithful.exists_names (hp : p.Faithful calls) (h : Call.Solution calls values) :
    ∃ ids, p.Names ids values := by
  have hall : ∀ v ∈ values, ∃ id : ValId, p.values.values[id]? = some v := by
    intro v hv
    obtain ⟨var, hvar⟩ := List.getElem?_of_mem hv
    obtain ⟨domain, hdomain, hin⟩ := h.getElem? hvar
    exact hp.numbered hdomain v hin
  clear h
  induction values with
  | nil => exact ⟨[], .nil⟩
  | cons v rest ih =>
      obtain ⟨id, hid⟩ := hall v (by simp)
      obtain ⟨ids, hids⟩ := ih fun w hw => hall w (by simp [hw])
      exact ⟨id :: ids, .cons hid hids⟩

theorem Problem.Faithful.mapM_value (hp : p.Faithful calls) (h : p.model.Solves ids) :
    ∃ values, ids.mapM p.value = .ok values ∧ p.Names ids values := by
  obtain ⟨values, hvalues⟩ : ∃ values, ids.mapM p.value = .ok values := by
    refine Checked.exists_mapM_eq_ok fun id hid => ?_
    obtain ⟨var, hvar⟩ := List.getElem?_of_mem hid
    have hlt := hp.wellFormed.domains.bounded (h.mem hvar)
    rw [hp.valueCount] at hlt
    exact ⟨_, Checked.get_of_lt hlt⟩
  refine ⟨values, hvalues, ?_⟩
  exact (Checked.mapM_eq_ok.1 hvalues).imp fun id v hid => Checked.get_eq_ok.1 hid

/-- A solver of a built problem always comes to a report: its counters are those of the search, and
it has an assignment exactly when the calls have a solution. -/
theorem Problem.Faithful.exists_report (hp : p.Faithful calls) (strategy : Strategy) :
    ∃ run report, strategy.solve p.model = .ok run ∧ Solver.solve ⟨p, strategy⟩ = .ok report ∧
      report.stats = run.stats ∧
      (report.isSolved = true ↔ ∃ values, Call.Solution calls values) ∧
      ∀ a, report.assignment = some a → Call.Solution calls a.values.toList := by
  obtain ⟨driver, config⟩ := strategy
  obtain ⟨⟨found, stats, events⟩, hsolve, hsound, hcomplete⟩ :=
    Search.solve_spec hp.wellFormed config driver
  cases found with
  | none =>
      refine ⟨_, ⟨none, stats, config⟩, hsolve, ?_, rfl, ⟨nofun, ?_⟩, nofun⟩
      · simp only [Solver.solve, hsolve, Checked.ok_bind]
        rfl
      · rintro ⟨values, hvalues⟩
        obtain ⟨ids, hids⟩ := hp.exists_names hvalues
        exact absurd ((hp.solves_iff hids).2 hvalues) (hcomplete rfl ids)
  | some ids =>
      obtain ⟨values, hmap, hnames⟩ := hp.mapM_value (hsound ids rfl)
      have hsolution := (hp.solves_iff hnames).1 (hsound ids rfl)
      refine ⟨_, ⟨some ⟨values.toArray⟩, stats, config⟩, hsolve, ?_, rfl,
        iff_of_true rfl ⟨values, hsolution⟩, ?_⟩
      · simp only [Solver.solve, hsolve, Checked.ok_bind, hmap]
        rfl
      · rintro a ha
        obtain rfl := Option.some.inj ha
        exact hsolution

variable [DecidableEq V]

/-- Whatever the switches, the solver of a built problem reports an assignment exactly when the
calls have a solution, and then reports one of their solutions. -/
theorem Solver.solve_finds_solution (hp : Problem.ofCalls calls = .ok p) (config : Config) :
    ∃ report, (Solver.recursive p config).solve = .ok report ∧
      (report.isSolved = true ↔ ∃ values, Call.Solution calls values) ∧
      ∀ a, report.assignment = some a → Call.Solution calls a.values.toList := by
  obtain ⟨_, report, _, hsolve, _, hreported⟩ :=
    (Problem.faithful_of_ofCalls hp).exists_report ⟨.recursive, config⟩
  exact ⟨report, hsolve, hreported⟩

theorem Solver.solve_finds_solution_chain :
    ∃ p report, Problem.ofCalls Call.ascendingChain = .ok p ∧
      (Solver.recursive p .standard).solve = .ok report ∧ report.isSolved = true := by
  obtain ⟨p, hp⟩ := Call.exists_ofCalls_ascendingChain
  obtain ⟨report, hsolve, hiff, _⟩ := Solver.solve_finds_solution hp .standard
  exact ⟨p, report, hp, hsolve, hiff.2 ⟨_, Call.solution_ascendingChain⟩⟩

end Values

end BinaryCsp
