import BinaryCsp.Proofs.Search.Cost
import Mathlib.Data.List.Lex
import Mathlib.Order.Bounds.Basic

/-! # The first solution of a static search is the least

With its heuristics off, a search branches on the least unassigned variable and tries the values by
ascending id. Whatever propagation removes, it removes no solution, so a value that is passed over
belongs to none. The answer is then least among the solutions, by variable and then by value.
-/

namespace BinaryCsp

structure Model.Admits (m : Model) (ids : List ValId) : Prop where
  domains : List.Forall₂ (fun a domain => domain.contains a = true) ids m.domains.toList
  consistent : m.isConsistent ids = .ok true

theorem Model.WellFormed.admits_iff {m : Model} (hm : m.WellFormed) {ids : List ValId} :
    m.Admits ids ↔ m.Solves ids := by
  have hcount : m.domains.toList.length = m.variableCount := hm.domains.size
  constructor
  · rintro ⟨hdomains, hconsistent⟩
    have hlength := hdomains.length_eq.trans hcount
    have hmem : ∀ {var : VarId} {a : ValId}, ids[var]? = some a →
        a ∈ (Store.ofDomains m.domains).family var := by
      intro var a ha
      obtain ⟨domain, hdomain, hin⟩ := Checked.exists_of_forall₂_left hdomains ha
      exact ⟨domain, by rwa [Array.getElem?_toList] at hdomain, hin⟩
    obtain ⟨flag, hflag, hiff⟩ := hm.isConsistent_eq hlength fun a ha => by
      obtain ⟨var, hvar⟩ := List.getElem?_of_mem ha
      exact hm.domains.bounded (hmem hvar)
    obtain rfl := Except.ok.inj (hconsistent.symm.trans hflag)
    exact ⟨hlength, hmem, fun ha hb => hiff.1 rfl _ _ _ _ ha hb⟩
  · intro hids
    refine ⟨List.forall₂_iff_get.2 ⟨hids.length.trans hcount.symm, fun var hvar hdomain => ?_⟩, ?_⟩
    · have hget : (Store.ofDomains m.domains).domains[var]? =
          some (m.domains.toList.get ⟨var, hdomain⟩) := by
        rw [Store.ofDomains, ← Array.getElem?_toList]
        exact List.getElem?_eq_getElem hdomain
      exact (Store.mem_family hget).1 (hids.mem (List.getElem?_eq_getElem hvar))
    · obtain ⟨flag, hflag, hiff⟩ := hm.isConsistent_eq hids.length fun a ha => by
        obtain ⟨var, hvar⟩ := List.getElem?_of_mem ha
        exact hm.domains.bounded (hids.mem hvar)
      rw [hflag, hiff.2 fun _ _ _ _ ha hb => hids.compatible ha hb]

namespace Search

open State

variable {m : Model} {config : Config}

/-! ## The order of a static search -/

section Order

variable {s t : State} {var : VarId}

theorem chooseVariable_least (hmrv : config.mrv = false) (hdegree : config.degree = false)
    (h : s.chooseVariable m config = .ok (some var, t)) {other : VarId}
    (hother : s.pool.Has other) : var ≤ other := by
  have hselect := selectVariable_of_choose h
  simp only [Choice.selectVariable, hmrv, hdegree, Bool.false_eq_true, if_false,
    Checked.pure_eq_ok, Except.ok.injEq, Prod.mk.injEq] at hselect
  obtain ⟨rest, hlist⟩ := List.head?_eq_some_iff.1 hselect.1
  have hascending := s.pool.toList_ascending
  have hin := Pool.mem_toList.2 hother
  rw [hlist] at hascending hin
  rcases List.mem_cons.1 hin with rfl | hin
  · exact Nat.le_refl _
  · exact Nat.le_of_lt ((List.pairwise_cons.1 hascending).1 other hin)

theorem orderedValues_ascending (hlcv : config.lcv = false) {values : List ValId}
    (h : s.orderedValues m config var = .ok values) : values.Pairwise (· < ·) := by
  obtain ⟨domain, _, rfl⟩ := Choice.orderValues_static hlcv h
  exact domain.toList_ascending

end Order

/-- The variable at hand is the least one unassigned, and its values are to be tried in ascending
order. -/
def Task.Ascending : Task → Prop
  | .node _ _ => True
  | .values _ owner var rest _ =>
      (∀ other, owner.pool.Has other → var ≤ other) ∧ rest.Pairwise (· < ·)

/-! ## Nothing comes before the answer -/

/-- The values are those of `pick`, or the first of them that is not is less. -/
def Leads (values : List ValId) (pick : VarId → ValId) : Prop :=
  (∀ var a, values[var]? = some a → a = pick var) ∨
    ∃ var a, values[var]? = some a ∧ a < pick var ∧
      ∀ earlier < var, ∀ b, values[earlier]? = some b → b = pick earlier

section Leads

variable {levels : Nat} {node s t : State} {var : VarId} {value : ValId} {rest : List ValId}
  {values : List ValId} {pick : VarId → ValId}

theorem AtNode.leads_leaf (h : AtNode m config s) (hcomplete : s.assignment.complete? = some values)
    (hpick : m.Fits pick s.store.family) : Leads values pick := by
  have hlength := (PartialAssignment.length_of_complete? hcomplete).trans h.sound.slots
  refine .inl fun var a ha => ?_
  have hvar : var < m.variableCount := hlength ▸ (List.getElem?_eq_some_iff.1 ha).1
  rw [PartialAssignment.getElem?_of_complete? hcomplete] at ha
  have hin := hpick.mem hvar
  rw [h.assigned ha] at hin
  exact hin.symm

/-- An answer below `value` leads a choice that gives a later value to the same variable. -/
theorem Branches.leads_later (hm : m.WellFormed) (hnode : AtNode m config node)
    (h : Branches m levels node var (value :: rest) s)
    (hleast : ∀ other, node.pool.Has other → var ≤ other)
    (ht : Tried m config s var value true t) {nodes : List State} {moves : Nat} {u : State}
    (below : Explores m config (.node levels t) nodes moves (some values, u))
    (hpick : m.Fits pick node.store.family) (hlt : value < pick var) : Leads values pick := by
  have hkept : ∀ {other : VarId} {a : ValId}, t.assignment.valueOf other = some a →
      values[other]? = some a :=
    fun ha => below.getElem?_of_assigned hm (h.child ht) rfl ha
  refine .inr ⟨var, value, hkept ?_, hlt, fun earlier hearlier b hb => ?_⟩
  · rw [h.valueOf_child ht, if_pos rfl]
  · -- The variables before `var` were assigned above, and their domains are down to their values.
    have hcount := Nat.lt_trans hearlier (h.has.lt h.sound.pool)
    have hout : ¬ node.pool.Has earlier :=
      fun hin => Nat.not_lt.2 (hleast earlier hin) hearlier
    cases hvalue : node.assignment.valueOf earlier with
    | none => exact absurd (hnode.unassigned.2 ⟨hcount, hvalue⟩) hout
    | some a =>
        have hchild : t.assignment.valueOf earlier = some a := by
          rw [h.valueOf_child ht, if_neg (Nat.ne_of_lt hearlier), hvalue]
        have hin := hpick.mem hcount
        rw [hnode.assigned hvalue] at hin
        rw [hkept hchild] at hb
        exact (Option.some.inj hb).symm.trans hin.symm

/-- The answer of a part of a static search leads every choice that this part has to try. -/
theorem Explores.leads (hm : m.WellFormed) (hmrv : config.mrv = false)
    (hdegree : config.degree = false) (hlcv : config.lcv = false) {task : Task}
    {nodes : List State} {moves : Nat} {result : Result}
    (h : Explores m config task nodes moves result) (hvalid : task.Valid m)
    (horigin : AtNode m config task.origin) (hascending : task.Ascending)
    (hsome : result.1 = some values) (hpick : m.Fits pick task.origin.store.family)
    (hawaits : task.Awaits pick) : Leads values pick := by
  induction h with
  | leaf empty solution =>
      obtain ⟨found, hfound, hcomplete, _⟩ | ⟨hnone, _⟩ := solution?_cases solution
      · obtain rfl := Option.some.inj (hsome.symm.trans hfound)
        exact horigin.leads_leaf hcomplete hpick
      · rw [hsome] at hnone
        cases hnone
  | branch nonempty choose order below ih =>
      obtain ⟨hbranches, hvalues, _⟩ :=
        branches_of_choose hm hvalid.1 hvalid.2 nonempty choose order
      exact ih hbranches horigin
        ⟨fun other hother => chooseVariable_least hmrv hdegree choose hother,
          orderedValues_ascending hlcv order⟩ hsome hpick
        ((hvalues _).2 (hpick.mem (hbranches.has.lt hbranches.sound.pool)))
  | exhausted release => cases hsome
  | @failed _ _ _ t _ _ _ _ _ _ _ tried abandon next ih =>
      have ht := Branches.tried hm hvalid tried
      have hnext := (Branches.next hvalid ht (.refl t) abandon).1
      obtain ⟨hleast, hrest⟩ := hascending
      rcases List.mem_cons.1 hawaits with hvalue | hin
      · cases (Branches.kept_of_fits hm hvalid ht hpick hvalue).1
      · exact ih hnext horigin ⟨hleast, hrest.of_cons⟩ hsome hpick hin
  | found tried below ih =>
      have ht := Branches.tried hm hvalid tried
      obtain ⟨hleast, hrest⟩ := hascending
      obtain rfl := Option.some.inj hsome
      rcases List.mem_cons.1 hawaits with hvalue | hin
      · exact ih (Branches.child hvalid ht) (horigin.child hm hvalid ht) trivial rfl
          (Branches.kept_of_fits hm hvalid ht hpick hvalue).2 trivial
      · exact Branches.leads_later hm horigin hvalid hleast ht below hpick
          ((List.pairwise_cons.1 hrest).1 _ hin)
  | back tried below abandon next ihbelow ihnext =>
      have ht := Branches.tried hm hvalid tried
      have hchild := Branches.child hvalid ht
      have hnext := (Branches.next hvalid ht (below.restored hm hchild rfl) abandon).1
      obtain ⟨hleast, hrest⟩ := hascending
      rcases List.mem_cons.1 hawaits with hvalue | hin
      · exact absurd trivial (below.not_awaits hm hchild (horigin.child hm hvalid ht) rfl
          (Branches.kept_of_fits hm hvalid ht hpick hvalue).2)
      · exact ihnext hnext horigin ⟨hleast, hrest.of_cons⟩ hsome hpick hin

/-- To lead a choice of values is to come before the list of them, or to be that list. -/
theorem Leads.le (h : Leads values pick) {other : List ValId}
    (hlength : values.length = other.length)
    (hpick : ∀ {var : VarId} {b : ValId}, other[var]? = some b → pick var = b) :
    values ≤ other := by
  rcases h with hall | ⟨var, a, ha, hlt, hbefore⟩
  · refine Eq.le (List.ext_getElem hlength fun var hvar hvar' => ?_)
    rw [hall var _ (List.getElem?_eq_getElem hvar), hpick (List.getElem?_eq_getElem hvar')]
  · obtain ⟨hvar, rfl⟩ := List.getElem?_eq_some_iff.1 ha
    have hvar' : var < other.length := hlength ▸ hvar
    rw [hpick (List.getElem?_eq_getElem hvar')] at hlt
    refine le_of_lt (List.lt_iff_exists.2
      (.inr ⟨var, hvar, hvar', fun earlier hearlier => ?_, hlt⟩))
    have hget := Nat.lt_trans hearlier hvar
    rw [hbefore earlier hearlier _ (List.getElem?_eq_getElem hget),
      hpick (List.getElem?_eq_getElem (hlength ▸ hget))]

end Leads

/-! ## Whole searches -/

variable {V : Type} [DecidableEq V]

/-- Without heuristics, the answer is least among the lists of ids that take each value from the
initial domain of its variable and are consistent, and there is none only if there is no such list.
Arc consistency, the tie-break and the driver make no difference. -/
theorem solve_least {calls : List (Call V)} {p : Problem V} (hp : Problem.ofCalls calls = .ok p)
    {config : Config} (hmrv : config.mrv = false) (hdegree : config.degree = false)
    (hlcv : config.lcv = false) (driver : Driver) :
    ∃ run, Strategy.solve ⟨driver, config⟩ p.model = .ok run ∧
      (∀ ids, run.found = some ids → IsLeast {ids | p.model.Admits ids} ids) ∧
      (run.found = none ↔ ∀ ids, ¬ p.model.Admits ids) := by
  have hm := (Problem.faithful_of_ofCalls hp).wellFormed
  obtain ⟨run, hsolve, hsound, hcomplete⟩ := solve_spec hm config driver
  refine ⟨run, hsolve, fun ids hids => ⟨hm.admits_iff.2 (hsound ids hids), fun other hother => ?_⟩,
    fun hnone ids hids => hcomplete hnone ids (hm.admits_iff.1 hids), fun hall => ?_⟩
  · have hother := hm.admits_iff.1 hother
    rcases solve_cases hm config driver with ⟨root, hprepare, hsolve', _⟩ |
      ⟨root, nodes, moves, result, hprepare, hvalid, hrun, hsolve', _⟩
    · cases (fits_root hm hother hprepare).1
    · obtain rfl := Except.ok.inj (hsolve.symm.trans hsolve')
      have hleads := hrun.leads hm hmrv hdegree hlcv hvalid (atNode_root hm hprepare) trivial hids
        (fits_root hm hother hprepare).2 trivial
      refine hleads.le ((hsound ids hids).length.trans hother.length.symm) fun {var b} hb => ?_
      rw [List.getD_eq_getElem?_getD, hb]
      rfl
  · cases hfound : run.found with
    | none => rfl
    | some ids => exact absurd (hm.admits_iff.2 (hsound ids hfound)) (hall ids)

/-- The first value of the first variable goes with no solution, and the second goes with three. -/
def fork : List (Call Nat) :=
  [.newVariable [1, 2], .newVariable [1, 2, 3], .newVariable [2, 3],
    .relation 0 1 [(1, 2), (2, 1), (2, 3)], .relation 1 2 [(1, 2), (1, 3), (3, 2)]]

theorem solve_least_fork :
    ∃ p run, Problem.ofCalls fork = .ok p ∧
      Strategy.solve ⟨.explicit, false, false, false, false, .seeded 7⟩ p.model = .ok run ∧
      run.found = some [1, 0, 1] ∧ IsLeast {ids | p.model.Admits ids} [1, 0, 1] := by
  let config : Config := ⟨false, false, false, false, .seeded 7⟩
  have hanswer : ((Problem.ofCalls fork).toOption.bind fun p =>
      (Strategy.solve ⟨.explicit, config⟩ p.model).toOption.map (·.found)) =
        some (some [1, 0, 1]) := by decide +kernel
  cases hp : Problem.ofCalls fork with
  | error error => simp [hp, Except.toOption] at hanswer
  | ok p =>
      have hmrv : config.mrv = false := rfl
      obtain ⟨run, hsolve, hleast, _⟩ := solve_least hp hmrv rfl rfl .explicit
      have hfound : run.found = some [1, 0, 1] := by
        simpa [hp, hsolve, Except.toOption] using hanswer
      exact ⟨p, run, rfl, hsolve, hfound, hleast _ hfound⟩

end Search

end BinaryCsp
