import BinaryCsp.Proofs.Choice
import BinaryCsp.Proofs.ForwardEffect

/-! # Conflicts and forward checking

The conflicts of a value are counted from the sizes of intersections, and forward checking removes
values one at a time. Both are about the same pairs: an unassigned variable at the end of a link,
and a value left to it that does not go with the assignment. Forward checking removes them all if
it succeeds, and none but these if it fails. So the least constraining values come first in an order
by what forward checking would remove.
-/

namespace BinaryCsp

theorem Model.WellFormed.allows_eq_false_iff {m : Model} (hm : m.WellFormed) {var other : VarId}
    {a b : ValId} (ha : a < m.valueCount) (hb : b < m.valueCount) :
    m.allows var a other b = .ok false ↔ ¬ m.Compatible var a other b := by
  obtain ⟨flag, hflag⟩ := hm.allows_eq_ok var other ha hb
  simp [Compatible, hflag]

namespace Choice

variable {m : Model} {store : Store} {pool : Pool} {config : Config} {var : VarId} {value : ValId}
  {links : List Link}

/-! ## Counting the conflicts -/

/-- `lost` lists, each of them once, the values of the unassigned variables of `among` that do not
go with `value` of `var`. -/
structure Conflicting (m : Model) (store : Store) (pool : Pool) (var : VarId) (value : ValId)
    (among : Set VarId) (lost : List (VarId × ValId)) : Prop where
  nodup : lost.Nodup
  mem : ∀ {other : VarId} {b : ValId}, (other, b) ∈ lost ↔ other ∈ among ∧ pool.Has other ∧
    b ∈ store.family other ∧ m.allows var value other b = .ok false

theorem Conflicting.append {s t : Set VarId} {xs ys : List (VarId × ValId)}
    (h : Conflicting m store pool var value s xs) (h' : Conflicting m store pool var value t ys)
    (hapart : ∀ other ∈ s, other ∉ t) :
    Conflicting m store pool var value (s ∪ t) (xs ++ ys) where
  nodup := by
    refine List.nodup_append.2 ⟨h.nodup, h'.nodup, ?_⟩
    rintro ⟨other, b⟩ hleft _ hright rfl
    exact hapart other (h.mem.1 hleft).1 (h'.mem.1 hright).1
  mem := by
    intro other b
    rw [List.mem_append, h.mem, h'.mem, Set.mem_union, or_and_right]

def ends (links : List Link) : Set VarId := { other | ∃ link ∈ links, link.other = other }

theorem ends_cons (link : Link) (rest : List Link) :
    ends (link :: rest) = {link.other} ∪ ends rest := by
  ext other
  simp [ends, eq_comm]

theorem exists_conflicting_link (hm : m.WellFormed)
    (hs : store.Sound m.variableCount m.valueCount) (hp : pool.Sound m.variableCount)
    (hvalue : value < m.valueCount) {link : Link} (hlink : m.Connects var link) :
    ∃ lost, linkConflicts m store pool value link = .ok lost.length ∧
      Conflicting m store pool var value {link.other} lost := by
  obtain ⟨values, hcount, hnodup, hmem⟩ := linkConflicts_spec hm hs hp hvalue hlink
  refine ⟨values.map (link.other, ·), by rw [hcount, List.length_map], ?_, ?_⟩
  · exact hnodup.map fun a b hab => (Prod.mk.inj hab).2
  · intro other b
    rw [List.mem_map, Set.mem_singleton_iff]
    constructor
    · rintro ⟨c, hc, hpair⟩
      obtain ⟨rfl, rfl⟩ := Prod.mk.inj hpair
      obtain ⟨hhas, hb, hcompat⟩ := (hmem c).1 hc
      exact ⟨rfl, hhas, hb, (hm.allows_eq_false_iff hvalue (hs.bounded hb)).2 hcompat⟩
    · rintro ⟨rfl, hhas, hb, hfalse⟩
      have hcompat := (hm.allows_eq_false_iff hvalue (hs.bounded hb)).1 hfalse
      exact ⟨b, (hmem b).2 ⟨hhas, hb, hcompat⟩, rfl⟩

/-- Links to different variables count different pairs. -/
theorem exists_conflicting_links (hm : m.WellFormed)
    (hs : store.Sound m.variableCount m.valueCount) (hp : pool.Sound m.variableCount)
    (hvalue : value < m.valueCount) (hconnects : ∀ link ∈ links, m.Connects var link)
    (happart : links.Pairwise fun link later => link.other < later.other) :
    ∃ counts lost, links.mapM (linkConflicts m store pool value) = .ok counts ∧
      counts.sum = lost.length ∧ Conflicting m store pool var value (ends links) lost := by
  induction links with
  | nil => exact ⟨[], [], rfl, rfl, .nil, by simp [ends]⟩
  | cons link rest ih =>
      obtain ⟨hfirst, hrest⟩ := List.pairwise_cons.1 happart
      obtain ⟨counts, later, hcounts, hsum, hlater⟩ :=
        ih (fun link hlink => hconnects link (by simp [hlink])) hrest
      obtain ⟨lost, hcount, hlost⟩ :=
        exists_conflicting_link hm hs hp hvalue (hconnects link (by simp))
      refine ⟨lost.length :: counts, lost ++ later, ?_, by simp [hsum], ?_⟩
      · rw [List.mapM_cons, hcount, Checked.ok_bind, hcounts]
        rfl
      · rw [ends_cons]
        refine hlost.append hlater ?_
        rintro _ rfl ⟨back, hback, hsame⟩
        exact Nat.ne_of_gt (hfirst back hback) hsame

theorem exists_conflicting (hm : m.WellFormed) (hs : store.Sound m.variableCount m.valueCount)
    (hp : pool.Sound m.variableCount) (hvalue : value < m.valueCount)
    (hlinks : m.linksOf var = .ok links)
    (hascending : links.Pairwise fun link later => link.other < later.other) :
    ∃ lost, conflicts m store pool var value = .ok lost.length ∧
      Conflicting m store pool var value (ends links) lost := by
  have hconnects := hm.links (Checked.get_eq_ok.1 hlinks)
  obtain ⟨counts, lost, hcounts, hsum, hlost⟩ := exists_conflicting_links hm hs hp hvalue
    (fun link hlink => (hconnects link).1 hlink) hascending
  refine ⟨lost, ?_, hlost⟩
  rw [conflicts, hlinks, Checked.ok_bind, hcounts, Checked.ok_bind, ← hsum, List.sum_eq_foldl]
  rfl

/-! ## What forward checking removes -/

section Forward

variable {lost : List (VarId × ValId)} {outcome : ForwardCheck.Outcome}
  (hm : m.WellFormed) (hs : store.Sound m.variableCount m.valueCount)
  (hvalue : value < m.valueCount) (hlinks : m.linksOf var = .ok links)
  (h : Conflicting m store pool var value (ends links) lost)
  (heffect : ForwardCheck.Effect m pool var value links store outcome)

include hm hs hvalue hlinks h heffect

/-- What forward checking takes from another variable conflicts with the assignment. -/
theorem Conflicting.of_removed {other : VarId} {b : ValId} (hother : other ≠ var)
    (hold : b ∈ store.family other) (hnew : b ∉ outcome.store.family other) :
    (other, b) ∈ lost := by
  -- A variable that is not as it was is unassigned, at the end of a link, and has been reached.
  obtain ⟨link, hlink, rfl, hhas⟩ : ∃ link ∈ links, link.other = other ∧ pool.Has other := by
    by_contra hnone
    push Not at hnone
    exact hnew (heffect.frame other hother hnone ▸ hold)
  have hreached : ∀ last, outcome.wiped = some last → link.other ≤ last := by
    intro last hwiped
    by_contra hbeyond
    exact hnew (heffect.beyond link hlink last hwiped (Nat.lt_of_not_le hbeyond) ▸ hold)
  have hconnects := (hm.links (Checked.get_eq_ok.1 hlinks) link).1 hlink
  rw [heffect.restricted link hlink hhas hreached, Set.mem_inter_iff,
    hm.mem_supported hconnects hvalue] at hnew
  have hcompat : ¬ m.Compatible var value link.other b := fun hc => hnew ⟨hold, hc⟩
  exact h.mem.2 ⟨⟨link, hlink, rfl⟩, hhas, hold,
    (hm.allows_eq_false_iff hvalue (hs.bounded hold)).2 hcompat⟩

/-- Forward checking that succeeds takes all that conflicts with the assignment. -/
theorem Conflicting.removed (hnone : outcome.wiped = none) {other : VarId} {b : ValId}
    (hlost : (other, b) ∈ lost) :
    other ≠ var ∧ b ∈ store.family other ∧ b ∉ outcome.store.family other := by
  obtain ⟨⟨link, hlink, rfl⟩, hhas, hold, hfalse⟩ := h.mem.1 hlost
  have hconnects := (hm.links (Checked.get_eq_ok.1 hlinks) link).1 hlink
  refine ⟨(hm.connects_bounds hconnects).2.2.symm, hold, ?_⟩
  rw [heffect.restricted link hlink hhas (by simp [hnone]), Set.mem_inter_iff,
    hm.mem_supported hconnects hvalue]
  exact fun hin => (hm.allows_eq_false_iff hvalue (hs.bounded hold)).1 hfalse hin.2

/-- So the conflicts bound what forward checking removes, and are what it removes if it succeeds. -/
theorem Conflicting.pruned :
    outcome.pruned ≤ lost.length ∧ (outcome.wiped = none → outcome.pruned = lost.length) := by
  obtain ⟨own, others, hrecords, hown, hothers, hcount⟩ := heffect.records
  have hnodup := (List.nodup_append.1 hrecords.nodup).2.1
  have hsub : others ⊆ lost := by
    rintro ⟨other, b⟩ hin
    obtain ⟨hold, hnew⟩ := hrecords.mem.1 (List.mem_append_right own hin)
    exact h.of_removed hm hs hvalue hlinks heffect (hothers _ hin) hold hnew
  have hle := (List.subperm_of_subset hnodup hsub).length_le
  refine ⟨by omega, fun hnone => ?_⟩
  have hsub' : lost ⊆ others := by
    rintro ⟨other, b⟩ hin
    obtain ⟨hother, hgone⟩ := h.removed hm hs hvalue hlinks heffect hnone hin
    rcases List.mem_append.1 (hrecords.mem.2 hgone) with hin | hin
    · exact absurd (hown _ hin) hother
    · exact hin
  have hge := (List.subperm_of_subset h.nodup hsub').length_le
  omega

end Forward

/-! ## The order of the values -/

/-- Sorting by the score keeps the order of entries that score the same. -/
theorem mergeSort_stable {pairs : List (Nat × ValId)}
    (hascending : pairs.Pairwise fun p q => p.2 < q.2) :
    (pairs.mergeSort fun p q => decide (p.1 ≤ q.1)).Pairwise fun p q =>
      p.1 < q.1 ∨ p.1 = q.1 ∧ p.2 < q.2 := by
  have htrans : ∀ p q r : Nat × ValId, decide (p.1 ≤ q.1) = true → decide (q.1 ≤ r.1) = true →
      decide (p.1 ≤ r.1) = true := by
    intro p q r hpq hqr
    simp only [decide_eq_true_eq] at hpq hqr ⊢
    omega
  have htotal : ∀ p q : Nat × ValId, (decide (p.1 ≤ q.1) || decide (q.1 ≤ p.1)) = true := by
    intro p q
    simp only [Bool.or_eq_true, decide_eq_true_eq]
    omega
  induction pairs with
  | nil => simp
  | cons pair rest ih =>
      obtain ⟨hfirst, hrest⟩ := List.pairwise_cons.1 hascending
      -- The first entry comes after those that score less and before all others.
      obtain ⟨below, above, hsort, hsort', hbelow⟩ := List.mergeSort_cons htrans htotal pair rest
      have hsorted := List.pairwise_mergeSort htrans htotal (pair :: rest)
      have hmem : ∀ q ∈ below ++ above, pair.2 < q.2 := by
        intro q hq
        exact hfirst q (by rwa [← hsort', List.mem_mergeSort] at hq)
      have hthen := ih hrest
      rw [hsort', List.pairwise_append] at hthen
      rw [hsort, List.pairwise_append, List.pairwise_cons] at hsorted
      rw [hsort, List.pairwise_append, List.pairwise_cons]
      obtain ⟨hleft, hright, hacross⟩ := hthen
      refine ⟨hleft, ⟨fun q hq => ?_, hright⟩, fun p hp q hq => ?_⟩
      · have hle : pair.1 ≤ q.1 := by simpa using hsorted.2.1.1 q hq
        have hlt := hmem q (List.mem_append_right below hq)
        rcases Nat.lt_or_eq_of_le hle with hless | hsame
        · exact .inl hless
        · exact .inr ⟨hsame, hlt⟩
      · rcases List.mem_cons.1 hq with rfl | hq
        · have hless : p.1 < q.1 := by simpa using hbelow p hp
          exact .inl hless
        · exact hacross p hp q hq

/-- The values that are left come in the order of their conflicts, and in ascending order where
these are as many. -/
theorem orderValues_sorted (hlcv : config.lcv = true) (hm : m.WellFormed)
    (hs : store.Sound m.variableCount m.valueCount) (hp : pool.Sound m.variableCount)
    (hvar : var < m.variableCount) :
    ∃ domain values, store.get var = .ok domain ∧
      orderValues config m store pool var = .ok values ∧ values.Perm domain.toList ∧
      values.Pairwise fun a b => ∃ s t, conflicts m store pool var a = .ok s ∧
        conflicts m store pool var b = .ok t ∧ (s < t ∨ s = t ∧ a < b) := by
  obtain ⟨domain, pairs, hget, hscored, hpairs, horder⟩ := orderValues_lcv hlcv hm hs hp hvar
  have hperm := List.mergeSort_perm pairs fun p q => decide (p.1 ≤ q.1)
  have hascending : pairs.Pairwise fun p q => p.2 < q.2 := by
    have hvalues := domain.toList_ascending
    rwa [← hpairs, List.pairwise_map] at hvalues
  refine ⟨domain, _, hget, horder, hpairs ▸ hperm.map _, ?_⟩
  rw [List.pairwise_map]
  refine (mergeSort_stable hascending).imp_of_mem fun hp hq hlt => ?_
  exact ⟨_, _, ((mem_scored hscored).1 (hperm.mem_iff.1 hp)).2,
    ((mem_scored hscored).1 (hperm.mem_iff.1 hq)).2, hlt⟩

variable {V : Type} [DecidableEq V]

/-- On any domains over a built model, with any variables unassigned: the score of a value is the
number of pairs that conflict with it. Forward checking removes as many if it succeeds and no more
if it fails. The least constraining value first is the order by this score. -/
theorem conflicts_agree {calls : List (Call V)} {p : Problem V} (hp : Problem.ofCalls calls = .ok p)
    (hs : store.Sound p.model.variableCount p.model.valueCount)
    (hpool : pool.Sound p.model.variableCount) (hvar : var < p.model.variableCount) :
    (∀ value < p.model.valueCount, ∃ links lost outcome, p.model.linksOf var = .ok links ∧
      Conflicting p.model store pool var value (ends links) lost ∧
      conflicts p.model store pool var value = .ok lost.length ∧
      ForwardCheck.run p.model store pool var value = .ok outcome ∧
      outcome.pruned ≤ lost.length ∧ (outcome.wiped = none → outcome.pruned = lost.length)) ∧
    ∀ config : Config, config.lcv = true → ∃ domain values, store.get var = .ok domain ∧
      orderValues config p.model store pool var = .ok values ∧ values.Perm domain.toList ∧
      values.Pairwise fun a b => ∃ s t, conflicts p.model store pool var a = .ok s ∧
        conflicts p.model store pool var b = .ok t ∧ (s < t ∨ s = t ∧ a < b) := by
  have hm := (Problem.faithful_of_ofCalls hp).wellFormed
  refine ⟨fun value hvalue => ?_, fun config hlcv => orderValues_sorted hlcv hm hs hpool hvar⟩
  obtain ⟨links, hlinks, hascending, _⟩ := (Problem.represents_of_ofCalls hp).links hvar
  obtain ⟨lost, hconflicts, hlost⟩ := exists_conflicting hm hs hpool hvalue hlinks hascending
  obtain ⟨outcome, hrun, heffect⟩ :=
    ForwardCheck.exists_effect hm hpool hs hvar hvalue hlinks hascending
  obtain ⟨hle, heq⟩ := hlost.pruned hm hs hvalue hlinks heffect
  exact ⟨links, lost, outcome, hlinks, hlost, hconflicts, hrun, hle, heq⟩

/-! ## A chain with its lower end unassigned -/

theorem conflicts_ascendingChain {p : Problem Nat}
    (hp : Problem.ofCalls Call.ascendingChain = .ok p) {a n : Nat} (ha : a < 3)
    (h : conflicts p.model (.ofDomains p.model.domains) ⟨#[true, false, false], 1⟩ 1 a = .ok n) :
    n = 3 - a := by
  have hscores : ∀ a < 3, ((Problem.ofCalls Call.ascendingChain).toOption.bind fun p =>
      (conflicts p.model (.ofDomains p.model.domains) ⟨#[true, false, false], 1⟩ 1 a).toOption) =
        some (3 - a) := by
    decide +kernel
  have hscore := hscores a ha
  simp only [hp, h, Except.toOption, Option.bind_some, Option.some.injEq] at hscore
  exact hscore

theorem eq_of_sorted_ascendingChain {p : Problem Nat}
    (hp : Problem.ofCalls Call.ascendingChain = .ok p) {values : List ValId}
    (hperm : values.Perm [0, 1, 2]) (hsorted : values.Pairwise fun a b => ∃ s t,
      conflicts p.model (.ofDomains p.model.domains) ⟨#[true, false, false], 1⟩ 1 a = .ok s ∧
      conflicts p.model (.ofDomains p.model.domains) ⟨#[true, false, false], 1⟩ 1 b = .ok t ∧
        (s < t ∨ s = t ∧ a < b)) : values = [2, 1, 0] := by
  have hsmall : ∀ a ∈ values, a < 3 := by
    intro a ha
    have hin := hperm.mem_iff.1 ha
    simp only [List.mem_cons, List.not_mem_nil, or_false] at hin
    lia
  have hfalls : values.Pairwise (· > ·) := by
    refine hsorted.imp_of_mem fun {a b} ha hb hscored => ?_
    obtain ⟨s, t, hs, ht, hlt⟩ := hscored
    have hs' := conflicts_ascendingChain hp (hsmall a ha) hs
    have ht' := conflicts_ascendingChain hp (hsmall b hb) ht
    have hfirst := hsmall a ha
    have hsecond := hsmall b hb
    lia
  have hperm' : values.Perm [2, 1, 0] := hperm.trans (by decide)
  exact hperm'.eq_of_pairwise (fun a b _ _ hab hba => absurd hab (Nat.lt_asymm hba)) hfalls
    (by decide)

/-- With the lower neighbour unassigned, the highest value takes the fewest values from it. -/
theorem conflicts_agree_chain :
    ∃ p links lost outcome, Problem.ofCalls Call.ascendingChain = .ok p ∧
      Conflicting p.model (.ofDomains p.model.domains) ⟨#[true, false, false], 1⟩ 1 1 (ends links)
        lost ∧
      conflicts p.model (.ofDomains p.model.domains) ⟨#[true, false, false], 1⟩ 1 1 =
        .ok lost.length ∧
      ForwardCheck.run p.model (.ofDomains p.model.domains) ⟨#[true, false, false], 1⟩ 1 1 =
        .ok outcome ∧
      outcome.pruned = lost.length ∧ lost.length = 2 ∧
      orderValues .standard p.model (.ofDomains p.model.domains) ⟨#[true, false, false], 1⟩ 1 =
        .ok [2, 1, 0] := by
  obtain ⟨p, hp⟩ := Call.exists_ofCalls_ascendingChain
  have hm := (Problem.faithful_of_ofCalls hp).wellFormed
  obtain ⟨hvars, hvals⟩ := Call.counts_ascendingChain hp
  have hends : ((Problem.ofCalls Call.ascendingChain).toOption.bind fun p =>
      (ForwardCheck.run p.model (.ofDomains p.model.domains) ⟨#[true, false, false], 1⟩ 1
        1).toOption.map fun outcome => outcome.wiped) = some none := by
    decide +kernel
  have hvalues : ((Problem.ofCalls Call.ascendingChain).toOption.bind fun p =>
      ((Store.ofDomains p.model.domains).get 1).toOption.map (·.toList)) = some [0, 1, 2] := by
    decide +kernel
  have hpool : Pool.Sound p.model.variableCount ⟨#[true, false, false], 1⟩ := by
    rw [hvars]
    exact ⟨rfl, by decide⟩
  obtain ⟨hscore, horder⟩ := conflicts_agree hp hm.domains hpool
    (show 1 < p.model.variableCount by omega)
  obtain ⟨links, lost, outcome, _, hlost, hconflicts, hrun, _, heq⟩ :=
    hscore 1 (show 1 < p.model.valueCount by omega)
  obtain ⟨domain, values, hget, hordered, hperm, hsorted⟩ := horder .standard rfl
  simp only [hp, hrun, Except.toOption, Option.bind_some, Option.map_some,
    Option.some.injEq] at hends
  simp only [hp, hget, Except.toOption, Option.bind_some, Option.map_some,
    Option.some.injEq] at hvalues
  have hlength := conflicts_ascendingChain hp (by decide) hconflicts
  have hlist := eq_of_sorted_ascendingChain hp (hvalues ▸ hperm) hsorted
  exact ⟨p, links, lost, outcome, hp, hlost, hconflicts, hrun, heq hends, hlength,
    hlist ▸ hordered⟩

end Choice

end BinaryCsp
