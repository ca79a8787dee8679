import BinaryCsp.Proofs.Forest
import BinaryCsp.Proofs.Solver

/-! # Search without backtracking on constraint graphs without cycles

At each node of a search with arc consistency the domains are arc consistent. If none of them is
empty and the constraint graph has no cycle, the value tried first belongs to a solution, so neither
its propagation nor the search below it can fail. The search goes straight down, one node for each
variable.
-/

namespace BinaryCsp.Search

open State

variable {m : Model} {config : Config}

def State.Full (m : Model) (s : State) : Prop :=
  ∀ var < m.variableCount, (s.store.family var).Nonempty

section Descent

variable {levels : Nat} {node s t : State} {var : VarId} {value : ValId} {rest : List ValId}

/-- A value that is about to be tried belongs to a solution. -/
theorem Branches.exists_fits (hm : m.WellFormed) (hacyclic : m.graph.IsAcyclic)
    (hac3 : config.ac3 = true) (hnode : AtNode m config node) (hfull : node.Full m)
    (h : Branches m levels node var (value :: rest) s) :
    ∃ pick, m.Fits pick node.store.family ∧ pick var = value :=
  Model.exists_fits_of_acyclic hm hacyclic (hnode.swept hac3).1.2 hfull (h.mem value (by simp))

end Descent

def Task.HasValue : Task → Prop
  | .node _ _ => True
  | .values _ _ _ rest _ => rest ≠ []

/-- Where every value that is about to be tried belongs to a solution, and every node below is like
that as well, the search gives up no value and enters one node for each unassigned variable and one
more. -/
theorem Explores.straight_of {P : State → Prop} (hm : m.WellFormed)
    (hnode : ∀ {s : State}, P s → AtNode m config s) (hfull : ∀ {s : State}, P s → s.Full m)
    (hfits : ∀ {levels : Nat} {node s : State} {var : VarId} {value : ValId} {rest : List ValId},
      P node → Branches m levels node var (value :: rest) s →
        ∃ pick, m.Fits pick node.store.family ∧ pick var = value)
    (hchild : ∀ {levels : Nat} {node s t : State} {var : VarId} {value : ValId}
      {rest : List ValId}, P node → Branches m levels node var (value :: rest) s →
        Tried m config s var value true t → P t)
    {task : Task} {nodes : List State} {moves : Nat} {result : Result}
    (h : Explores m config task nodes moves result) (hvalid : task.Valid m)
    (horigin : P task.origin) (hvalue : task.HasValue) :
    result.2.counters.backtracks = task.start.counters.backtracks ∧
      nodes.length = task.start.pool.count + 1 := by
  induction h with
  | @leaf levels s result empty solution =>
      have hcount : s.pool.count = 0 := by simpa [Pool.isEmpty] using empty
      rw [(Restored.of_solution? solution).2]
      exact ⟨rfl, by simp [Task.start, hcount]⟩
  | @branch levels s t var values nodes moves result nonempty choose order below ih =>
      obtain ⟨hbranches, hvalues, hcounters⟩ :=
        branches_of_choose hm hvalid.1 hvalid.2 nonempty choose order
      have hsome : values ≠ [] := by
        obtain ⟨a, ha⟩ := hfull horigin var (hbranches.has.lt hbranches.sound.pool)
        exact List.ne_nil_of_mem ((hvalues a).2 ha)
      obtain ⟨hback, hlength⟩ := ih hbranches horigin hsome
      have hcount := hbranches.branching.count hbranches.sound hbranches.has
      simp only [Task.start] at hback hlength ⊢
      refine ⟨?_, ?_⟩
      · rw [hback, hcounters]
        rfl
      · rw [List.length_cons, hlength]
        omega
  | exhausted release => exact absurd rfl hvalue
  | failed tried abandon next ih =>
      obtain ⟨pick, hpick, hpicked⟩ := hfits horigin hvalid
      have hkept := (Branches.kept_of_fits hm hvalid (Branches.tried hm hvalid tried) hpick
        hpicked).1
      cases hkept
  | @found levels node s t u var value rest nodes moves values tried below ih =>
      have ht := Branches.tried hm hvalid tried
      obtain ⟨hback, hlength⟩ :=
        ih (Branches.child hvalid ht) (hchild horigin hvalid ht) trivial
      simp only [Task.start] at hback hlength ⊢
      rw [hback, hlength, ht.backtracks, ht.pool]
      exact ⟨rfl, rfl⟩
  | back tried below abandon next ihbelow ihnext =>
      have ht := Branches.tried hm hvalid tried
      obtain ⟨pick, hpick, hpicked⟩ := hfits horigin hvalid
      have hkept := (Branches.kept_of_fits hm hvalid ht hpick hpicked).2
      exact absurd trivial (below.not_awaits hm (Branches.child hvalid ht)
        ((hnode horigin).child hm hvalid ht) rfl hkept)

/-- From a node whose domains are arc consistent and not empty, the search goes straight down. -/
theorem Explores.straight (hm : m.WellFormed) (hacyclic : m.graph.IsAcyclic)
    (hac3 : config.ac3 = true) {task : Task} {nodes : List State} {moves : Nat} {result : Result}
    (h : Explores m config task nodes moves result) (hvalid : task.Valid m)
    (horigin : AtNode m config task.origin) (hfull : task.origin.Full m)
    (hvalue : task.HasValue) :
    result.2.counters.backtracks = task.start.counters.backtracks ∧
      nodes.length = task.start.pool.count + 1 := by
  refine h.straight_of (P := fun s => AtNode m config s ∧ s.Full m) hm And.left And.right ?_ ?_
    hvalid ⟨horigin, hfull⟩ hvalue
  · intro levels node s var value rest hnode hbranches
    exact hbranches.exists_fits hm hacyclic hac3 hnode.1 hnode.2
  · intro levels node s t var value rest hnode hbranches ht
    obtain ⟨pick, hpick, hpicked⟩ := hbranches.exists_fits hm hacyclic hac3 hnode.1 hnode.2
    have hfits := (hbranches.kept_of_fits hm ht hpick hpicked).2
    exact ⟨hnode.1.child hm hbranches ht, fun other hother => ⟨pick other, hfits.mem hother⟩⟩

/-- Arc consistency before the first node leaves a full store full. -/
theorem root_full (hm : m.WellFormed)
    (hfull : ∀ domain ∈ m.domains, domain.isEmpty = false) {root : State}
    (hprepare : (State.initial m config).prepare m config = .ok (true, root)) : root.Full m := by
  have hinitial : (State.initial m config).Full m := by
    intro var hvar
    obtain ⟨domain, _, hget, hcounted, hmem⟩ := hm.domains.get_eq hvar
    have hsome := hfull domain (Array.mem_of_getElem? hget)
    by_contra hempty
    have hnone : domain.isEmpty = true := by
      refine hcounted.isEmpty_iff.2 fun a => ?_
      rw [Bool.eq_false_iff]
      intro ha
      exact hempty ⟨a, (hmem a).1 ha⟩
    rw [hnone] at hsome
    cases hsome
  obtain ⟨kept, t, hprepare', hcases⟩ := prepare_spec config hm (initial_sound config hm)
  rw [hprepare] at hprepare'
  cases hprepare'
  rcases hcases with ⟨_, _, rfl⟩ | ⟨_, h⟩
  · exact hinitial
  · exact fun var hvar => h.nonempty rfl (hinitial var hvar)

variable {V : Type} [DecidableEq V]

/-- With arc consistency on, a built model without empty domains whose relations close no cycle is
found unsolvable before the first node, or solved without giving up a value. -/
theorem solve_acyclic_backtrack_free {calls : List (Call V)} {p : Problem V}
    (hp : Problem.ofCalls calls = .ok p)
    (hfull : ∀ domain ∈ p.model.domains, domain.isEmpty = false)
    (hacyclic : p.model.graph.IsAcyclic) {config : Config} (hac3 : config.ac3 = true)
    (driver : Driver) :
    ∃ run, Strategy.solve ⟨driver, config⟩ p.model = .ok run ∧
      (run.found = none ∧ run.stats.nodes = 0 ∨
        run.found ≠ none ∧ run.stats.backtracks = 0 ∧
          run.stats.nodes = p.model.variableCount + 1) := by
  have hm := (Problem.faithful_of_ofCalls hp).wellFormed
  have hinitial := initial_sound config hm
  rcases solve_cases hm config driver with
    ⟨root, hprepare, hsolve, _⟩ | ⟨root, nodes, moves, result, hprepare, hvalid, hrun, hsolve, _⟩
  · obtain ⟨_, _, _, hcounters⟩ := prepare_frame hm hinitial hprepare
    exact ⟨_, hsolve, .inl ⟨rfl, hcounters.nodes⟩⟩
  · obtain ⟨hpool, _, _, hcounters⟩ := prepare_frame hm hinitial hprepare
    have hnode := atNode_root hm hprepare
    have hroot := root_full hm hfull hprepare
    obtain ⟨hback, hlength⟩ := hrun.straight hm hacyclic hac3 hvalid hnode hroot trivial
    refine ⟨_, hsolve, .inr ⟨fun hnone => ?_, ?_, ?_⟩⟩
    · obtain ⟨pick, hpick⟩ :=
        Model.exists_fits_of_full hm hacyclic (hnode.swept hac3).1.2 hroot
      exact hrun.not_awaits hm hvalid hnode hnone hpick trivial
    · exact hback.trans hcounters.backtracks
    · change result.2.counters.nodes = p.model.variableCount + 1
      rw [hrun.count_nodes hm hvalid, hlength, Task.start, hcounters.nodes, hpool]
      simp [State.initial, Counters.zero, Pool.full]

theorem graph_ascendingChain_acyclic {p : Problem Nat}
    (hp : Problem.ofCalls Call.ascendingChain = .ok p) : p.model.graph.IsAcyclic := by
  have hpairs : ((Problem.ofCalls Call.ascendingChain).toOption.map fun p =>
      p.model.relations.toList.map (·.pair)) = some [⟨0, 1⟩, ⟨1, 2⟩] := by decide +kernel
  have hrelations : p.model.relations.toList.map (·.pair) = [⟨0, 1⟩, ⟨1, 2⟩] := by
    simpa [hp, Except.toOption] using hpairs
  obtain ⟨first, rest, hlist, hfirst, hrest⟩ := List.map_eq_cons_iff.1 hrelations
  obtain ⟨second, none, rfl, hsecond, hnone⟩ := List.map_eq_cons_iff.1 hrest
  obtain rfl := List.map_eq_nil_iff.1 hnone
  unfold Model.graph
  rw [hlist, Relation.graph_cons, Relation.graph_cons, Relation.graph_nil, hfirst, hsecond]
  have hone := SimpleGraph.isAcyclic_bot.sup_edge_of_not_reachable
    (show ¬ (⊥ : SimpleGraph VarId).Reachable 1 2 by simp)
  refine hone.sup_edge_of_not_reachable ?_
  rintro ⟨walk⟩
  cases walk with
  | cons hadj _ => simp [SimpleGraph.edge_adj] at hadj

theorem solve_acyclic_backtrack_free_chain :
    ∃ p run, Problem.ofCalls Call.ascendingChain = .ok p ∧
      Strategy.solve ⟨.explicit, true, true, true, true, .seeded 7⟩ p.model = .ok run ∧
      run.found = some [0, 1, 2] ∧ run.stats.backtracks = 0 ∧ run.stats.nodes = 4 := by
  let config : Config := ⟨true, true, true, true, .seeded 7⟩
  have hanswer : ((Problem.ofCalls Call.ascendingChain).toOption.bind fun p =>
      (Strategy.solve ⟨.explicit, config⟩ p.model).toOption.map fun run =>
        (run.found, p.model.variableCount,
          p.model.domains.toList.all fun domain => !domain.isEmpty)) =
        some (some [0, 1, 2], 3, true) := by decide +kernel
  have hac3 : config.ac3 = true := rfl
  obtain ⟨p, hp⟩ := Call.exists_ofCalls_ascendingChain
  cases hsolve : Strategy.solve ⟨.explicit, config⟩ p.model with
  | error fault => simp [hp, hsolve, Except.toOption] at hanswer
  | ok run =>
      simp only [hp, hsolve, Except.toOption, Option.bind_some, Option.map_some, Option.some.injEq,
        Prod.mk.injEq, List.all_eq_true] at hanswer
      obtain ⟨hfound, hcount, hall⟩ := hanswer
      have hfull : ∀ domain ∈ p.model.domains, domain.isEmpty = false :=
        fun domain hdomain => by simpa using hall domain (Array.mem_toList_iff.2 hdomain)
      obtain ⟨run', hrun', hcases⟩ := solve_acyclic_backtrack_free hp hfull
        (graph_ascendingChain_acyclic hp) hac3 .explicit
      obtain rfl : run = run' := Except.ok.inj (hsolve.symm.trans hrun')
      rcases hcases with ⟨hnone, _⟩ | ⟨_, hback, hnodes⟩
      · rw [hfound] at hnone
        cases hnone
      · rw [hcount] at hnodes
        exact ⟨p, run, hp, hsolve, hfound, hback, hnodes⟩

end BinaryCsp.Search
