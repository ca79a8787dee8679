import BinaryCsp.Proofs.Choice
import BinaryCsp.Proofs.Representation
import Mathlib.Data.Set.Subsingleton
import Mathlib.Order.Bounds.Basic

/-! # The variable that is chosen

The heuristics that are on decide which of the unassigned variables are the best. The tie-break
chooses among these only, and without a heuristic it is not asked. The random stream moves only if
there are two best variables at least.
-/

namespace BinaryCsp.Choice

variable {m : Model} {store : Store} {pool : Pool} {config : Config} {ties : TieBreaker}
  {vars best : List VarId} {chosen : Set VarId}

theorem Picks.isLeast (h : Picks vars best chosen) (hvars : vars.Pairwise (· < ·)) {var : VarId}
    (hhead : best.head? = some var) : IsLeast chosen var := by
  obtain ⟨rest, rfl⟩ : ∃ rest, best = var :: rest := List.head?_eq_some_iff.1 hhead
  have hbest := List.pairwise_cons.1 (hvars.sublist h.sublist)
  refine ⟨h.mem.1 (by simp), fun other hother => ?_⟩
  rcases List.mem_cons.1 (h.mem.2 hother) with rfl | hin
  · exact le_rfl
  · exact Nat.le_of_lt (hbest.1 other hin)

/-- What the choice of `choice`, which leaves the tie-break at `after`, has to be like. -/
structure Selects (config : Config) (m : Model) (store : Store) (pool : Pool) (ties : TieBreaker)
    (choice : Option VarId) (after : TieBreaker) : Prop where
  none_iff : choice = none ↔ ∀ var, ¬ pool.Has var
  best : ∀ var, choice = some var → var ∈ preferred config m store pool
  /-- The lowest of the best variables is chosen, unless a heuristic is on and ties are broken at
  random. -/
  lowest : ties = .lowest ∨ (config.mrv = false ∧ config.degree = false) →
    ∀ var, choice = some var → IsLeast (preferred config m store pool) var
  /-- The random stream moves only on a tie, and only for a heuristic. -/
  draws : after ≠ ties → (∃ stream, ties = .seeded stream) ∧
    (config.mrv = true ∨ config.degree = true) ∧ (preferred config m store pool).Nontrivial

section Ties

variable (h : Picks pool.toList best (preferred config m store pool))

include h

theorem Picks.eq_nil_iff : best = [] ↔ ∀ var, ¬ pool.Has var := by
  rw [← Pool.toList_eq_nil_iff]
  constructor
  · exact fun hnil => not_imp_comm.1 h.nonempty (by simpa using hnil)
  · intro hnil
    have hsub := h.sublist
    rwa [hnil, List.sublist_nil] at hsub

theorem Picks.selects_pick (hon : config.mrv = true ∨ config.degree = true) :
    Selects config m store pool ties (ties.pick best).1 (ties.pick best).2 where
  none_iff := by rw [ties.pick_eq_none, h.eq_nil_iff]
  best var hvar := h.mem.1 (TieBreaker.mem_of_pick hvar)
  lowest := by
    rintro (rfl | hoff) var hvar
    · exact h.isLeast pool.toList_ascending hvar
    · simp [hoff] at hon
  draws hmoves := by
    obtain ⟨hseeded, first, second, rest, rfl⟩ := TieBreaker.exists_of_pick_ne hmoves
    have hascending := pool.toList_ascending.sublist h.sublist
    have hlt := (List.pairwise_cons.1 hascending).1 second (by simp)
    exact ⟨hseeded, hon, first, h.mem.1 (by simp), second, h.mem.1 (by simp), Nat.ne_of_lt hlt⟩

theorem Picks.selects_head : Selects config m store pool ties best.head? ties where
  none_iff := by rw [List.head?_eq_none_iff, h.eq_nil_iff]
  best var hvar := h.mem.1 (List.mem_of_head? hvar)
  lowest _ var hvar := h.isLeast pool.toList_ascending hvar
  draws hmoves := absurd rfl hmoves

end Ties

variable {V : Type} [DecidableEq V]

/-- With any domain for each variable of a built model, and any variables unassigned, a variable
that is the best by the heuristics is chosen, if any is unassigned. -/
theorem selectVariable_selects {calls : List (Call V)} {p : Problem V}
    (hp : Problem.ofCalls calls = .ok p) (hsize : store.domains.size = p.model.variableCount)
    (hpool : pool.Sound p.model.variableCount) (config : Config) (ties : TieBreaker) :
    ∃ choice after, selectVariable config p.model store pool ties = .ok (choice, after) ∧
      Selects config p.model store pool ties choice after := by
  have hm := (Problem.faithful_of_ofCalls hp).wellFormed
  obtain ⟨best, hbest, heq⟩ := exists_preferred config ties hm hsize hpool
  by_cases hon : (config.mrv || config.degree) = true
  · rw [if_pos hon] at heq
    exact ⟨_, _, heq, hbest.selects_pick (Bool.or_eq_true_iff.1 hon)⟩
  · rw [if_neg hon] at heq
    exact ⟨_, _, heq, hbest.selects_head⟩

/-- Of three variables with as many values, the one with two unassigned neighbours is chosen. -/
theorem selectVariable_selects_chain :
    ∃ p after, Problem.ofCalls Call.ascendingChain = .ok p ∧
      selectVariable ⟨true, true, false, false, .lowest⟩ p.model (.ofDomains p.model.domains)
        (.full p.model.variableCount) .lowest = .ok (some 1, after) ∧
      Selects ⟨true, true, false, false, .lowest⟩ p.model (.ofDomains p.model.domains)
        (.full p.model.variableCount) .lowest (some 1) after := by
  obtain ⟨p, hp⟩ := Call.exists_ofCalls_ascendingChain
  have hm := (Problem.faithful_of_ofCalls hp).wellFormed
  have hchoice : ((Problem.ofCalls Call.ascendingChain).toOption.bind fun p =>
      (selectVariable ⟨true, true, false, false, .lowest⟩ p.model (.ofDomains p.model.domains)
        (.full p.model.variableCount) .lowest).toOption.map (·.1)) = some (some 1) := by
    decide +kernel
  obtain ⟨choice, after, heq, hselects⟩ := selectVariable_selects hp hm.domains.size
    (Pool.full_sound _) ⟨true, true, false, false, .lowest⟩ .lowest
  simp only [hp, heq, Except.toOption, Option.bind_some, Option.map_some,
    Option.some.injEq] at hchoice
  obtain rfl := hchoice
  exact ⟨p, after, hp, heq, hselects⟩

end BinaryCsp.Choice
