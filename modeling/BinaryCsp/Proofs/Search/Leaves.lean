import BinaryCsp.Proofs.Solver

/-! # Every leaf is a solution

The assignment is tested at a leaf, but the test cannot fail there: a value is tried only if it is
still in its domain, and the domain of an unassigned variable goes with every value assigned. So
the values assigned go with each other at every node, the first leaf that is entered ends the
search, and its assignment is the answer.
-/

namespace BinaryCsp.Search

open State

variable {m : Model} {config : Config} {s : State}

def State.Agrees (m : Model) (s : State) : Prop :=
  ∀ x y v w, s.assignment.valueOf x = some v → s.assignment.valueOf y = some w →
    m.Compatible x v y w

/-- What is left to an unassigned variable goes with every value assigned. -/
theorem AtNode.compatible_of_mem (hm : m.WellFormed) (h : AtNode m config s) {x y : VarId}
    {v b : ValId} (hx : s.assignment.valueOf x = some v) (hy : s.assignment.valueOf y = none)
    (hb : b ∈ s.store.family y) : m.Compatible x v y b := by
  cases hac3 : config.ac3 with
  | false =>
      rw [h.checked hac3 hy] at hb
      exact hb.2 x v hx
  | true =>
      refine (h.swept hac3).1.2.compatible hm (fun c hc => ?_) hb
      rwa [h.assigned hx] at hc

theorem Agrees.child (hm : m.WellFormed) {levels : Nat} {node s t : State} {var : VarId}
    {value : ValId} {rest : List ValId} (hnode : AtNode m config node) (hagrees : node.Agrees m)
    (h : Branches m levels node var (value :: rest) s)
    (ht : Tried m config s var value true t) : t.Agrees m := by
  -- A variable assigned before, against the one assigned now.
  have hnew : ∀ x v, x ≠ var → t.assignment.valueOf x = some v → m.Compatible x v var value := by
    intro x v hne hx
    rw [h.valueOf_child ht, if_neg hne] at hx
    exact hnode.compatible_of_mem hm hx (h.sound.free h.has) (h.mem value (by simp))
  intro x y v w hx hy
  have hxvar : x = var → v = value := by
    intro heq
    rw [h.valueOf_child ht, if_pos heq] at hx
    exact (Option.some.inj hx).symm
  have hyvar : y = var → w = value := by
    intro heq
    rw [h.valueOf_child ht, if_pos heq] at hy
    exact (Option.some.inj hy).symm
  by_cases hxnew : x = var
  · by_cases hynew : y = var
    · rw [hxnew, hynew]
      exact hm.compatible_self
    · rw [hm.compatible_comm, hxvar hxnew, hxnew]
      exact hnew y w hynew hy
  · by_cases hynew : y = var
    · rw [hyvar hynew, hynew]
      exact hnew x v hxnew hx
    · rw [h.valueOf_child ht, if_neg hxnew] at hx
      rw [h.valueOf_child ht, if_neg hynew] at hy
      exact hagrees x y v w hx hy

/-- At a leaf the assignment is complete and passes the test. -/
theorem AtNode.leaf_accepted (hm : m.WellFormed) (h : AtNode m config s) (hagrees : s.Agrees m)
    (hempty : s.pool.isEmpty = true) :
    ∃ values, s.assignment.complete? = some values ∧ m.isConsistent values = .ok true := by
  have hassigned : ∀ {var : VarId}, var < m.variableCount →
      s.assignment.valueOf var = some ((s.assignment.valueOf var).getD 0) := by
    intro var hvar
    cases hvalue : s.assignment.valueOf var with
    | some a => rfl
    | none =>
        have hout := (Pool.isEmpty_iff h.sound.pool).1 hempty var
        exact absurd (h.unassigned.2 ⟨hvar, hvalue⟩) hout
  have hfits : m.Fits (fun var => (s.assignment.valueOf var).getD 0) s.store.family := by
    refine ⟨fun hvar => ?_, fun hvar hother => ?_⟩
    · rw [h.assigned (hassigned hvar)]
      rfl
    · exact hagrees _ _ _ _ (hassigned hvar) (hassigned hother)
  obtain ⟨values, hcomplete, hsolves⟩ := h.solves_of_fits hempty hfits
  obtain ⟨flag, hflag, hiff⟩ := h.isConsistent_eq hm hcomplete
  rw [hiff.2 hsolves] at hflag
  exact ⟨values, hcomplete, hflag⟩

section Root

variable {root : State} {nodes : List State} {moves : Nat} {result : Result}

theorem root_agrees (hm : m.WellFormed)
    (hprepare : (State.initial m config).prepare m config = .ok (true, root)) : root.Agrees m := by
  obtain ⟨_, hassignment, _⟩ := prepare_frame hm (initial_sound config hm) hprepare
  intro x y v w hx
  rw [hassignment] at hx
  change (PartialAssignment.unassigned m.variableCount).valueOf x = some v at hx
  rw [PartialAssignment.valueOf_unassigned] at hx
  cases hx

/-- No leaf of a search from the root is turned down. -/
theorem Explores.leaves_accepted (hm : m.WellFormed)
    (hprepare : (State.initial m config).prepare m config = .ok (true, root))
    (hvalid : (Task.node root.pool.count root).Valid m)
    (h : Explores m config (.node root.pool.count root) nodes moves result) :
    ∀ s ∈ nodes, s.pool.isEmpty = true →
      ∃ values, s.assignment.complete? = some values ∧ m.isConsistent values = .ok true := by
  have hall : ∀ s ∈ nodes, AtNode m config s ∧ s.Agrees m :=
    h.forall_nodes hm (fun hnode hbranches ht =>
      ⟨hnode.1.child hm hbranches ht, Agrees.child hm hnode.1 hnode.2 hbranches ht⟩) hvalid
      ⟨atNode_root hm hprepare, root_agrees hm hprepare⟩
  intro s hs hempty
  exact (hall s hs).1.leaf_accepted hm (hall s hs).2 hempty

end Root

/-- If no leaf is turned down, a search enters no leaf or ends with the first one. -/
theorem Explores.first_leaf {task : Task} {nodes : List State} {moves : Nat} {result : Result}
    (h : Explores m config task nodes moves result)
    (haccepted : ∀ s ∈ nodes, s.pool.isEmpty = true →
      ∃ values, s.assignment.complete? = some values ∧ m.isConsistent values = .ok true) :
    (result.1 = none ∧ ∀ s ∈ nodes, s.pool.isEmpty = false) ∨
    ∃ front leaf values, nodes = front ++ [leaf] ∧ result.1 = some values ∧
      leaf.pool.isEmpty = true ∧ leaf.assignment.complete? = some values ∧
      ∀ s ∈ front, s.pool.isEmpty = false := by
  induction h with
  | @leaf levels s result empty solution =>
      obtain ⟨values, hcomplete, hconsistent⟩ := haccepted s (by simp) empty
      rcases solution?_cases solution with ⟨found, hfound, hsame, _⟩ | ⟨_, _, hrejected⟩
      · exact .inr ⟨[], s, found, rfl, hfound, empty, hsame, nofun⟩
      · have hfalse := hrejected values hcomplete
        rw [hconsistent] at hfalse
        cases hfalse
  | @branch levels s t var values nodes moves result nonempty choose order below ih =>
      rcases ih fun s hs => haccepted s (List.mem_cons_of_mem _ hs) with
        ⟨hnone, hall⟩ | ⟨front, leaf, found, rfl, hrest⟩
      · refine .inl ⟨hnone, ?_⟩
        simpa [nonempty] using hall
      · obtain ⟨hfound, hleaf, hcomplete, hall⟩ := hrest
        refine .inr ⟨s :: front, leaf, found, rfl, hfound, hleaf, hcomplete, ?_⟩
        simpa [nonempty] using hall
  | exhausted release => exact .inl ⟨rfl, nofun⟩
  | failed tried abandon next ih => exact ih haccepted
  | found tried below ih => exact ih haccepted
  | @back levels node s t u w var value rest nodes later moves more result tried below abandon next
      ihbelow ihnext =>
      have hbelow : ∀ s ∈ nodes, s.pool.isEmpty = false := by
        rcases ihbelow fun s hs => haccepted s (List.mem_append_left _ hs) with
          ⟨_, hall⟩ | ⟨_, _, _, _, hsome, _⟩
        · exact hall
        · cases hsome
      rcases ihnext fun s hs => haccepted s (List.mem_append_right _ hs) with
        ⟨hnone, hall⟩ | ⟨front, leaf, found, rfl, hfound, hleaf, hcomplete, hall⟩
      · refine .inl ⟨hnone, fun s hs => ?_⟩
        exact (List.mem_append.1 hs).elim (hbelow s) (hall s)
      · refine .inr ⟨nodes ++ front, leaf, found, by simp, hfound, hleaf, hcomplete, ?_⟩
        intro s hs
        exact (List.mem_append.1 hs).elim (hbelow s) (hall s)

variable {V : Type} [DecidableEq V]

/-- On a built model, a node that is entered with no variable unassigned has a complete assignment
that passes the test. It is the last node entered, and its assignment is what the search reports. -/
theorem leaf_entered_is_result {calls : List (Call V)} {p : Problem V}
    (hp : Problem.ofCalls calls = .ok p) (config : Config) (driver : Driver) :
    ∃ run nodes, Strategy.solve ⟨driver, config⟩ p.model = .ok run ∧
      nodesEntered driver p.model config = .ok nodes ∧ run.stats.nodes = nodes.length ∧
      (∀ (i : Nat) (s : State), nodes[i]? = some s → s.counters.nodes = i) ∧
      (∀ (i : Nat) (s : State), nodes[i]? = some s → s.pool.isEmpty = true →
        ∃ values t, s.assignment.complete? = some values ∧
          p.model.isConsistent values = .ok true ∧
          s.enterNode.solution? p.model = .ok (some values, t) ∧
          run.found = some values ∧ i + 1 = nodes.length) ∧
      ∀ values, run.found = some values →
        ∃ s ∈ nodes, s.pool.isEmpty = true ∧ s.assignment.complete? = some values := by
  have hm := (Problem.faithful_of_ofCalls hp).wellFormed
  obtain ⟨run, nodes, hsolve, hnodes, hcount, hbefore, _⟩ := exists_nodesEntered config hm driver
  refine ⟨run, nodes, hsolve, hnodes, hcount, hbefore, ?_⟩
  rcases solve_cases hm config driver with
    ⟨root, _, hsolve', hnodes'⟩ | ⟨root, nodes', moves, result, hprepare, hvalid, hrun, hsolve',
      hnodes'⟩
  · obtain rfl : nodes = [] := Except.ok.inj (hnodes.symm.trans hnodes')
    obtain rfl : run = _ := Except.ok.inj (hsolve.symm.trans hsolve')
    exact ⟨nofun, nofun⟩
  · obtain rfl : nodes = nodes' := Except.ok.inj (hnodes.symm.trans hnodes')
    obtain rfl : run = _ := Except.ok.inj (hsolve.symm.trans hsolve')
    have haccepted := hrun.leaves_accepted hm hprepare hvalid
    have hfirst := hrun.first_leaf haccepted
    refine ⟨fun i s hs hempty => ?_, fun values hvalues => ?_⟩
    · have hin := List.mem_of_getElem? hs
      obtain ⟨values, hcomplete, hconsistent⟩ := haccepted s hin hempty
      refine ⟨values, _, hcomplete, hconsistent,
        solution?_of_consistent hcomplete hconsistent, ?_⟩
      rcases hfirst with ⟨_, hinner⟩ | ⟨front, leaf, found, rfl, hfound, _, hleaf, hinner⟩
      · exact absurd hempty (Bool.eq_false_iff.1 (hinner s hin))
      · rw [List.getElem?_append] at hs
        split at hs
        · exact absurd hempty (Bool.eq_false_iff.1 (hinner s (List.mem_of_getElem? hs)))
        · obtain ⟨hi, rfl⟩ : i - front.length = 0 ∧ leaf = s := by
            simpa [List.getElem?_singleton] using hs
          rw [hcomplete] at hleaf
          refine ⟨hfound.trans hleaf.symm, ?_⟩
          rw [List.length_append, List.length_singleton]
          omega
    · rcases hfirst with ⟨hnone, _⟩ | ⟨front, leaf, found, rfl, hfound, hempty, hcomplete, _⟩
      · exact absurd (hnone.symm.trans hvalues) nofun
      · obtain rfl : found = values := Option.some.inj (hfound.symm.trans hvalues)
        exact ⟨leaf, by simp, hempty, hcomplete⟩

theorem leaf_entered_is_result_chain :
    ∃ p run nodes leaf, Problem.ofCalls Call.ascendingChain = .ok p ∧
      Strategy.solve ⟨.explicit, .plain⟩ p.model = .ok run ∧ run.found = some [0, 1, 2] ∧
      nodesEntered .explicit p.model .plain = .ok nodes ∧ leaf ∈ nodes ∧
      leaf.assignment.complete? = some [0, 1, 2] ∧ p.model.isConsistent [0, 1, 2] = .ok true := by
  have hanswer : ((Problem.ofCalls Call.ascendingChain).toOption.bind fun p =>
      (Strategy.solve ⟨.explicit, .plain⟩ p.model).toOption.bind (·.found)) =
        some [0, 1, 2] := by decide +kernel
  obtain ⟨p, hp⟩ := Call.exists_ofCalls_ascendingChain
  obtain ⟨run, nodes, hsolve, hnodes, _, _, haccepted, hresult⟩ :=
    leaf_entered_is_result hp .plain .explicit
  have hfound : run.found = some [0, 1, 2] := by
    simpa [hp, hsolve, Except.toOption] using hanswer
  obtain ⟨leaf, hleaf, hempty, hcomplete⟩ := hresult _ hfound
  obtain ⟨i, hi⟩ := List.getElem?_of_mem hleaf
  obtain ⟨values, _, hvalues, hconsistent, _⟩ := haccepted i leaf hi hempty
  obtain rfl : values = [0, 1, 2] := Option.some.inj (hvalues.symm.trans hcomplete)
  exact ⟨p, run, nodes, leaf, hp, hsolve, hfound, hnodes, hleaf, hcomplete, hconsistent⟩

end BinaryCsp.Search
