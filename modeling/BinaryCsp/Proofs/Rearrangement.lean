import BinaryCsp.Proofs.Agreement

/-! # What the order of the calls is for

Only the calls for new variables are told apart by their order, which numbers the variables and
their values. The calls on pairs of variables count as a set: they may come in any order and at any
time, be repeated, and be made from either of the two variables, and a pair with a relation may or
may not be called neighbours as well. None of this shows in the problem.
-/

namespace BinaryCsp

variable {V : Type}

namespace Call

/-- Whatever `calls` says about pairs of variables is said by the `others`: of neighbours that they
are neighbours, of a relation the same, perhaps from its other end and with the pairs listed
differently. -/
structure Within (calls others : List (Call V)) : Prop where
  neighbour : ∀ {a b : VarId}, .neighbour a b ∈ calls → Joined others a b
  relation : ∀ {a b : VarId} {allowed : List (V × V)}, .relation a b allowed ∈ calls →
    ∃ listed, SameMembers allowed listed ∧
      (.relation a b listed ∈ others ∨ .relation b a (listed.map Prod.swap) ∈ others)

/-- The same variables in the same order, and calls on pairs of them that say the same. -/
structure Rearranged (calls others : List (Call V)) : Prop where
  domains : domains calls = domains others
  within : Within calls others
  back : Within others calls

variable {calls others : List (Call V)}

theorem Rearranged.symm (h : Rearranged calls others) : Rearranged others calls :=
  ⟨h.domains.symm, h.back, h.within⟩

namespace Within

theorem joined (h : Within calls others) {a b : VarId} (hjoined : Joined calls a b) :
    Joined others a b := by
  have hends : ∀ {call : Call V} {x y : VarId}, call ∈ calls → call.ends? = some (x, y) →
      Joined others x y := by
    intro call x y hcall hends
    cases call with
    | newVariable domain => cases hends
    | neighbour x' y' =>
        cases hends
        exact h.neighbour hcall
    | relation x' y' allowed =>
        cases hends
        obtain ⟨_, _, hcall' | hcall'⟩ := h.relation hcall
        · exact ⟨_, hcall', .inl rfl⟩
        · exact ⟨_, hcall', .inr rfl⟩
  obtain ⟨call, hcall, hfirst | hsecond⟩ := hjoined
  · exact hends hcall hfirst
  · exact (hends hcall hsecond).symm

/-- A pair of variables with a relation has one there as well. -/
theorem exists_relation (h : Within calls others) {pair : VarPair}
    (hpair : ∃ x y allowed, Call.relation x y allowed ∈ calls ∧ pair = VarPair.of x y) :
    ∃ x y allowed, Call.relation x y allowed ∈ others ∧ pair = VarPair.of x y := by
  obtain ⟨x, y, allowed, hcall, rfl⟩ := hpair
  obtain ⟨_, _, hcall' | hcall'⟩ := h.relation hcall
  · exact ⟨x, y, _, hcall', rfl⟩
  · exact ⟨y, x, _, hcall', VarPair.of_comm x y⟩

/-- Values that the others list for a pair, in whichever order, are listed by the calls. -/
theorem listed_of (h : Within calls others) {var other : VarId} {x y : V}
    (hothers : (∀ allowed, .relation var other allowed ∈ others → (x, y) ∈ allowed) ∧
      ∀ allowed, .relation other var allowed ∈ others → (y, x) ∈ allowed) :
    (∀ allowed, .relation var other allowed ∈ calls → (x, y) ∈ allowed) ∧
      ∀ allowed, .relation other var allowed ∈ calls → (y, x) ∈ allowed := by
  obtain ⟨hforward, hbackward⟩ := hothers
  constructor
  · intro allowed hcall
    obtain ⟨listed, hsame, hcall' | hcall'⟩ := h.relation hcall
    · exact (hsame _).2 (hforward listed hcall')
    · exact (hsame _).2 (by simpa using hbackward _ hcall')
  · intro allowed hcall
    obtain ⟨listed, hsame, hcall' | hcall'⟩ := h.relation hcall
    · exact (hsame _).2 (hbackward listed hcall')
    · exact (hsame _).2 (by simpa using hforward _ hcall')

end Within

/-- Rearranging a description does not change whether it makes a model. -/
theorem Rearranged.acceptable (h : Rearranged calls others) (hcalls : Acceptable calls) :
    Acceptable others := by
  obtain ⟨hjoined, hlisted⟩ := acceptable_iff.1 hcalls
  have hcandidates : candidates others = candidates calls := by
    rw [candidates, candidates, h.domains]
  refine acceptable_iff.2 ⟨fun a b hab => h.domains ▸ hjoined a b (h.back.joined hab), ?_⟩
  intro a b allowed hcall x y hin
  rw [hcandidates]
  obtain ⟨listed, hsame, hcall' | hcall'⟩ := h.back.relation hcall
  · exact hlisted hcall' ((hsame _).1 hin)
  · exact (hlisted hcall' (by simpa using (hsame _).1 hin)).symm

end Call

variable [DecidableEq V] {calls others : List (Call V)} {p q : Problem V}

theorem Problem.agrees_of_rearranged (h : Call.Rearranged calls others)
    (hp : Problem.ofCalls calls = .ok p) (hq : Problem.ofCalls others = .ok q) : p.Agrees q := by
  have hpCalls := represents_of_ofCalls hp
  have hqCalls := represents_of_ofCalls hq
  have hpFaithful := faithful_of_ofCalls hp
  have hqFaithful := faithful_of_ofCalls hq
  have hvalues : p.values = q.values := by
    have hlist : p.values.values.toList = q.values.values.toList := by
      rw [hpCalls.values, hqCalls.values, Call.candidates, Call.candidates, h.domains]
    exact ValueTable.ext_values (Array.toList_inj.1 hlist)
  have hcount : p.model.variableCount = q.model.variableCount := by
    rw [hpCalls.variableCount, hqCalls.variableCount, h.domains]
  refine ⟨hvalues, hcount, ?_, ?_, ?_, ?_⟩
  · intro var other
    rw [hpCalls.adjacent_iff, hqCalls.adjacent_iff, hcount]
    exact and_congr_right' ⟨h.within.joined, h.back.joined⟩
  · ext var id
    rw [hpFaithful.mem_family_iff, hqFaithful.mem_family_iff, h.domains, hvalues]
  · intro pair
    rw [Model.Constrained, Model.Constrained, hpCalls.relations_given, hqCalls.relations_given]
    exact ⟨h.within.exists_relation, h.back.exists_relation⟩
  · intro var other a b ha hb
    obtain ⟨x, hx⟩ := exists_value hpFaithful ha
    obtain ⟨y, hy⟩ := exists_value hpFaithful hb
    have hx' := Checked.get_eq_ok.1 hx
    have hy' := Checked.get_eq_ok.1 hy
    rw [hpFaithful.compatible hx' hy', hqFaithful.compatible (hvalues ▸ hx') (hvalues ▸ hy')]
    exact ⟨h.back.listed_of, h.within.listed_of⟩

/-- Two descriptions that differ only in how their calls on pairs are arranged are both turned down,
or make the very same problem. -/
theorem Problem.ofCalls_rearranged (h : Call.Rearranged calls others) :
    (∃ p, Problem.ofCalls calls = .ok p ∧ Problem.ofCalls others = .ok p) ∨
      ((∃ error, Problem.ofCalls calls = .error error) ∧
        ∃ error, Problem.ofCalls others = .error error) := by
  have hiff : (∃ p, Problem.ofCalls calls = .ok p) ↔ ∃ q, Problem.ofCalls others = .ok q := by
    rw [exists_ofCalls_iff, exists_ofCalls_iff]
    exact ⟨h.acceptable, h.symm.acceptable⟩
  cases hp : Problem.ofCalls calls with
  | ok p =>
      obtain ⟨q, hq⟩ := hiff.1 ⟨p, hp⟩
      obtain rfl := eq_of_agrees hp hq (agrees_of_rearranged h hp hq)
      exact .inl ⟨p, rfl, hq⟩
  | error error =>
      refine .inr ⟨⟨error, rfl⟩, ?_⟩
      cases hq : Problem.ofCalls others with
      | error error' => exact ⟨error', rfl⟩
      | ok q =>
          obtain ⟨p, hp'⟩ := hiff.2 ⟨q, hq⟩
          rw [hp] at hp'
          cases hp'

namespace Call

/-- The ascending chain from its other ends: the relations come first or between the variables, one
is given twice, one lists a pair twice, and two neighbours are called so. -/
def shuffledChain : List (Call Nat) :=
  [.relation 1 2 [(1, 3), (2, 3), (1, 2)], .newVariable [1, 2, 3], .neighbour 1 0,
    .newVariable [1, 2, 3], .relation 0 1 [(2, 3), (1, 2), (1, 3), (1, 2)],
    .newVariable [1, 2, 3], .relation 1 0 [(3, 1), (3, 2), (2, 1)]]

theorem rearranged_shuffledChain : Rearranged ascendingChain shuffledChain := by
  refine ⟨rfl, ⟨?_, ?_⟩, ⟨?_, ?_⟩⟩
  · intro a b hcall
    simp [ascendingChain] at hcall
  · intro a b allowed hcall
    simp only [ascendingChain, List.mem_cons, List.not_mem_nil, or_false, reduceCtorEq, false_or,
      Call.relation.injEq] at hcall
    rcases hcall with ⟨rfl, rfl, rfl⟩ | ⟨rfl, rfl, rfl⟩
    · exact ⟨[(2, 3), (1, 2), (1, 3), (1, 2)], by decide, .inl (by simp [shuffledChain])⟩
    · exact ⟨[(3, 1), (3, 2), (2, 1)], by decide, .inr (by simp [shuffledChain])⟩
  · intro a b hcall
    simp only [shuffledChain, List.mem_cons, List.not_mem_nil, or_false, reduceCtorEq, false_or,
      Call.neighbour.injEq] at hcall
    obtain ⟨rfl, rfl⟩ := hcall
    exact ⟨.relation 0 1 [(1, 2), (1, 3), (2, 3)], by simp [ascendingChain], .inr rfl⟩
  · intro a b allowed hcall
    simp only [shuffledChain, List.mem_cons, List.not_mem_nil, or_false, reduceCtorEq, false_or,
      Call.relation.injEq] at hcall
    rcases hcall with ⟨rfl, rfl, rfl⟩ | ⟨rfl, rfl, rfl⟩ | ⟨rfl, rfl, rfl⟩
    · exact ⟨[(1, 2), (1, 3), (2, 3)], by decide, .inr (by simp [ascendingChain])⟩
    · exact ⟨[(1, 2), (1, 3), (2, 3)], by decide, .inl (by simp [ascendingChain])⟩
    · exact ⟨[(2, 1), (3, 1), (3, 2)], by decide, .inr (by simp [ascendingChain])⟩

end Call

theorem Problem.ofCalls_rearranged_chain :
    Call.Rearranged Call.ascendingChain Call.shuffledChain ∧
      ∃ p, Problem.ofCalls Call.ascendingChain = .ok p ∧
        Problem.ofCalls Call.shuffledChain = .ok p := by
  refine ⟨Call.rearranged_shuffledChain, ?_⟩
  obtain ⟨p, hp⟩ := Call.exists_ofCalls_ascendingChain
  rcases Problem.ofCalls_rearranged Call.rearranged_shuffledChain with hmade | ⟨⟨_, hdown⟩, _⟩
  · exact hmade
  · rw [hp] at hdown
    cases hdown

end BinaryCsp
