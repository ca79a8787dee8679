import BinaryCsp.Proofs.Operations
import BinaryCsp.Proofs.Search.Drivers

/-! # A failed search leaves no trace

A search need not start at the root. Its domains, unassigned variables and assignment may come out
of any operations, as long as no unassigned variable has a value: then the state is sound, and a
search below it that finds nothing hands it back unchanged, down to the words of the domains and
the order of the trail.
-/

namespace BinaryCsp.Search

open State

variable {m : Model} {s : State}

/-- The domains, the unassigned variables and the assignment come from those at the start by
operations of their own. There is a tally for each relation. -/
structure State.Reached (m : Model) (s : State) : Prop where
  store : ∃ ops : List Store.Op, ops.foldlM Store.apply (.ofDomains m.domains) = .ok s.store
  pool : ∃ ops : List Pool.Op, ops.foldlM Pool.apply (.full m.variableCount) = .ok s.pool
  assignment : ∃ ops : List PartialAssignment.Op,
    ops.foldlM PartialAssignment.apply (.unassigned m.variableCount) = .ok s.assignment
  tallies : s.counters.tallies.size = m.relations.size

theorem State.Reached.sound (hm : m.WellFormed) (h : s.Reached m)
    (hfree : ∀ var, s.pool.Has var → s.assignment.valueOf var = none) : s.Sound m where
  store := by
    obtain ⟨ops, hops⟩ := h.store
    exact (Store.pruned_of_operations hm.domains hops).sound hm.domains
  pool := by
    obtain ⟨ops, hops⟩ := h.pool
    exact Pool.sound_of_operations hops
  slots := by
    obtain ⟨ops, hops⟩ := h.assignment
    exact PartialAssignment.size_of_operations hops
  tallies := h.tallies
  free := fun hvar => hfree _ hvar

variable {V : Type} [DecidableEq V]

/-- Below any state that operations can lead to, with no value at an unassigned variable and a
level for each of these, a search that finds nothing leaves the domains with their trail, the
unassigned variables and the assignment as they were. It comes to a result unless a value was
assigned that is none of the model. -/
theorem descend_leaves_no_trace {calls : List (Call V)} {p : Problem V}
    (hp : Problem.ofCalls calls = .ok p) (config : Config) {s : State} (hs : s.Reached p.model)
    (hfree : ∀ var, s.pool.Has var → s.assignment.valueOf var = none) {levels : Nat}
    (hlevels : s.pool.count ≤ levels) :
    (∀ t, descend p.model config levels s = .ok (none, t) →
      t.store = s.store ∧ t.pool = s.pool ∧ t.assignment = s.assignment) ∧
    ((∃ result, descend p.model config levels s = .ok result) ∨
      ¬ s.InRange p.model ∧
        ∃ index size, descend p.model config levels s = .error (.outOfRange index size)) := by
  have hm := (Problem.faithful_of_ofCalls hp).wellFormed
  have hvalid : (Task.node levels s).Valid p.model := ⟨hs.sound hm hfree, hlevels⟩
  have hends : (Task.node levels s).Ends p.model config (nodeBound p.model s.pool.count) :=
    node_ends hm hvalid
  rcases hends with ⟨nodes, moves, result, hrun, _⟩ | hfault
  · have hresult : descend p.model config levels s = .ok result := hrun.run_eq
    refine ⟨fun t ht => ?_, .inl ⟨result, hresult⟩⟩
    obtain rfl : result = (none, t) := Except.ok.inj (hresult.symm.trans ht)
    have hrestored := hrun.restored hm hvalid rfl
    exact ⟨hrestored.store, hrestored.pool, hrestored.assignment⟩
  · refine ⟨fun t ht => ?_, .inr hfault⟩
    obtain ⟨_, index, size, herror⟩ := hfault
    have hresult : (Task.node levels s).run p.model config = .ok (none, t) := ht
    rw [herror] at hresult
    cases hresult

/-- With its highest value gone, the last variable of the chain cannot follow two others. -/
theorem descend_leaves_no_trace_chain :
    ∃ p store t, Problem.ofCalls Call.ascendingChain = .ok p ∧
      [Store.Op.remove 2 0, .assign 0 1, .restore 1, .remove 2 2].foldlM Store.apply
        (.ofDomains p.model.domains) = .ok store ∧
      descend p.model .plain 3 { State.initial p.model .plain with store := store } =
        .ok (none, t) ∧ t.store = store ∧ t.pool = .full 3 ∧ t.assignment = .unassigned 3 := by
  let ops := [Store.Op.remove 2 0, .assign 0 1, .restore 1, .remove 2 2]
  let below (p : Problem Nat) (store : Store) : Checked Result :=
    descend p.model .plain 3 { State.initial p.model .plain with store := store }
  have hfails : ((Problem.ofCalls Call.ascendingChain).toOption.bind fun p =>
      (ops.foldlM Store.apply (.ofDomains p.model.domains) >>= below p).toOption.map fun result =>
        (p.model.variableCount, result.1)) = some (3, none) := by decide +kernel
  obtain ⟨p, hp⟩ := Call.exists_ofCalls_ascendingChain
  cases hstore : ops.foldlM Store.apply (.ofDomains p.model.domains) with
  | error fault => simp [hp, hstore, Except.toOption] at hfails
  | ok store =>
      cases hrun : below p store with
      | error fault => simp [hp, hstore, hrun, Except.toOption] at hfails
      | ok result =>
          obtain ⟨found, t⟩ := result
          obtain ⟨hcount, rfl⟩ : p.model.variableCount = 3 ∧ found = none := by
            simpa [hp, hstore, hrun, Except.toOption] using hfails
          have hreached : State.Reached p.model
              { State.initial p.model .plain with store := store } :=
            ⟨⟨ops, hstore⟩, ⟨[], rfl⟩, ⟨[], rfl⟩, by simp [State.initial, Counters.zero]⟩
          have hfree := PartialAssignment.valueOf_unassigned p.model.variableCount
          have hlevels : (Pool.full p.model.variableCount).count ≤ 3 := Nat.le_of_eq hcount
          obtain ⟨htrace, _⟩ :=
            descend_leaves_no_trace hp .plain hreached (fun var _ => hfree var) hlevels
          obtain ⟨hsame, hpool, hassignment⟩ := htrace t hrun
          exact ⟨p, store, t, hp, hstore, hrun, hsame, hcount ▸ hpool, hcount ▸ hassignment⟩

end BinaryCsp.Search
