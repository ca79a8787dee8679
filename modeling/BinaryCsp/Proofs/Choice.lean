import BinaryCsp.Choice.Value
import BinaryCsp.Choice.Variable
import BinaryCsp.Proofs.Ascending
import BinaryCsp.Proofs.Model
import BinaryCsp.Proofs.Pool
import Mathlib.Data.List.Induction

/-! # What the heuristics may choose

The search depends on little of what the heuristics do. The variable chosen is unassigned, and
there is one as long as any is left. The values tried are those of the domain, each of them once.
With the heuristics that look at domains switched off, the variable depends on the unassigned ones
alone and the values are tried in ascending order.
-/

namespace BinaryCsp

open Chance

/-! ## Breaking ties -/

theorem Chance.Stream.drawBelow_lt {bound : Nat} (hbound : 0 < bound) (tries : Nat) (s : Stream) :
    (drawBelow bound tries s).1 < bound := by
  induction tries generalizing s with
  | zero => exact hbound
  | succ tries ih =>
      simp only [drawBelow]
      split
      · -- A word is below `2 ^ 32`, so the high half of its product is below the bound.
        rw [Nat.div_lt_iff_lt_mul (by decide), Nat.mul_comm]
        exact Nat.mul_lt_mul_of_pos_left s.next.1.toNat_lt hbound
      · exact ih _

theorem TieBreaker.exists_pick (t : TieBreaker) {candidates : List VarId}
    (h : candidates ≠ []) : ∃ var ∈ candidates, (t.pick candidates).1 = some var := by
  obtain ⟨first, rest, rfl⟩ := List.exists_cons_of_ne_nil h
  cases t with
  | lowest => exact ⟨first, by simp, rfl⟩
  | seeded stream =>
      cases rest with
      | nil => exact ⟨first, by simp, rfl⟩
      | cons second rest =>
          have hlt : (stream.below (first :: second :: rest).length).1 <
              (first :: second :: rest).length := Stream.drawBelow_lt (by simp) _ _
          exact ⟨_, List.getElem_mem hlt, List.getElem?_eq_getElem hlt⟩

theorem TieBreaker.pick_eq_none (t : TieBreaker) {candidates : List VarId} :
    (t.pick candidates).1 = none ↔ candidates = [] := by
  constructor
  · intro hnone
    by_contra hne
    obtain ⟨var, _, hsome⟩ := t.exists_pick hne
    rw [hnone] at hsome
    cases hsome
  · rintro rfl
    cases t <;> rfl

theorem TieBreaker.mem_of_pick {t : TieBreaker} {candidates : List VarId} {var : VarId}
    (h : (t.pick candidates).1 = some var) : var ∈ candidates := by
  have hne : candidates ≠ [] := by
    rintro rfl
    rw [t.pick_eq_none.2 rfl] at h
    cases h
  obtain ⟨other, hother, heq⟩ := t.exists_pick hne
  rwa [Option.some.inj (h.symm.trans heq)]

/-- The random stream moves on a real tie only. -/
theorem TieBreaker.exists_of_pick_ne {t : TieBreaker} {candidates : List VarId}
    (h : (t.pick candidates).2 ≠ t) :
    (∃ stream, t = .seeded stream) ∧ ∃ first second rest, candidates = first :: second :: rest := by
  unfold pick at h
  split at h
  · next stream first second rest => exact ⟨⟨stream, rfl⟩, first, second, rest, rfl⟩
  · exact absurd rfl h

@[simp] theorem TieBreaker.pick_lowest (candidates : List VarId) :
    TieBreaker.lowest.pick candidates = (candidates.head?, .lowest) := rfl

namespace Choice

variable {m : Model} {store : Store} {pool : Pool} {config : Config} {var : VarId}

/-! ## Narrowing the candidates -/

theorem vars_of_scored {score : VarId → Checked Nat} {vars : List VarId}
    {pairs : List (Nat × VarId)} (h : scored score vars = .ok pairs) : pairs.map (·.2) = vars := by
  have hall := Checked.mapM_eq_ok.1 h
  clear h
  induction hall with
  | nil => rfl
  | cons hhead _ ih =>
      obtain ⟨n, _, hpair⟩ := Checked.bind_eq_ok.1 hhead
      obtain rfl := Except.ok.inj hpair
      rw [List.map_cons, ih]

theorem mem_scored {score : VarId → Checked Nat} {vars : List VarId}
    {pairs : List (Nat × VarId)} (h : scored score vars = .ok pairs) {n : Nat} {var : VarId} :
    (n, var) ∈ pairs ↔ var ∈ vars ∧ score var = .ok n := by
  rw [Checked.mem_of_mapM_eq_ok h]
  constructor
  · rintro ⟨other, hother, heq⟩
    obtain ⟨k, hk, hpair⟩ := Checked.bind_eq_ok.1 heq
    obtain ⟨rfl, rfl⟩ := Prod.mk.inj (Except.ok.inj hpair)
    exact ⟨hother, hk⟩
  · rintro ⟨hvar, hn⟩
    exact ⟨var, hvar, by rw [hn]; rfl⟩

theorem exists_scored {score : VarId → Checked Nat} {vars : List VarId}
    (h : ∀ var ∈ vars, ∃ n, score var = .ok n) : ∃ pairs, scored score vars = .ok pairs := by
  refine Checked.exists_mapM_eq_ok fun var hvar => ?_
  obtain ⟨n, hn⟩ := h var hvar
  exact ⟨(n, var), by rw [hn]; rfl⟩

section Best

variable {better : Nat → Nat → Bool} {seen : List (Nat × VarId)} {s : Array VarId × Nat}

/-- What is kept of the variables `seen`: those whose score no other one beats. -/
structure Kept (better : Nat → Nat → Bool) (seen : List (Nat × VarId)) (s : Array VarId × Nat) :
    Prop where
  listed : s.1.toList = (seen.filter (·.1 == s.2)).map (·.2)
  unbeaten : ∀ pair ∈ seen, better pair.1 s.2 = false
  attained : seen ≠ [] → ∃ pair ∈ seen, pair.1 = s.2

theorem Kept.nonempty (h : Kept better seen s) (hseen : seen ≠ []) : s.1.toList ≠ [] := by
  obtain ⟨pair, hpair, hscore⟩ := h.attained hseen
  have hin : pair ∈ seen.filter (·.1 == s.2) := List.mem_filter.2 ⟨hpair, by simp [hscore]⟩
  rw [h.listed, ne_eq, List.map_eq_nil_iff]
  exact List.ne_nil_of_mem hin

/-- Before a variable that starts the list anew, no score is as good. -/
theorem Kept.beaten (hbetter : Ascending.Strict better) (h : Kept better seen s) {n : Nat}
    (hnew : (s.1.isEmpty || better n s.2) = true) {pair : Nat × VarId} (hpair : pair ∈ seen) :
    better n pair.1 = true := by
  rcases Bool.or_eq_true_iff.1 hnew with hnone | hbeats
  · exact absurd (by simpa using hnone) (h.nonempty (List.ne_nil_of_mem hpair))
  · by_contra hnot
    -- A score that is not beaten by `n` would beat the best one so far, or be it.
    have hout := h.unbeaten pair hpair
    cases hback : better pair.1 n with
    | true => simp [hbetter.trans hback hbeats] at hout
    | false =>
        obtain rfl := hbetter.eq_of_not (Bool.eq_false_iff.2 hnot) hback
        simp [hbeats] at hout

/-- A variable that starts the list anew is the only one with its score. -/
theorem Kept.renew (hbetter : Ascending.Strict better) (h : Kept better seen s) {n : Nat}
    (hnew : (s.1.isEmpty || better n s.2) = true) (var : VarId) :
    Kept better (seen ++ [(n, var)]) (#[var], n) where
  listed := by
    have hnone : seen.filter (·.1 == n) = [] := by
      refine List.filter_eq_nil_iff.2 fun pair hpair => ?_
      have hne := hbetter.ne (h.beaten hbetter hnew hpair)
      simpa using hne.symm
    simp [hnone]
  unbeaten := by
    intro pair hpair
    rcases List.mem_append.1 hpair with hin | hin
    · by_contra hbeats
      have hcycle := hbetter.trans (h.beaten hbetter hnew hin) (Bool.eq_true_of_not_eq_false hbeats)
      simp [hbetter.irrefl] at hcycle
    · rw [List.mem_singleton.1 hin]
      exact hbetter.irrefl n
  attained := fun _ => ⟨(n, var), by simp, rfl⟩

/-- A variable that does not start the list anew leaves the best score as it is. -/
theorem Kept.retain (h : Kept better seen s) {n : Nat}
    (hold : ¬ (s.1.isEmpty || better n s.2) = true) (var : VarId) {kept : Array VarId}
    (hlisted : kept.toList = ((seen ++ [(n, var)]).filter (·.1 == s.2)).map (·.2)) :
    Kept better (seen ++ [(n, var)]) (kept, s.2) where
  listed := hlisted
  unbeaten := by
    intro pair hpair
    rcases List.mem_append.1 hpair with hin | hin
    · exact h.unbeaten pair hin
    · rw [Bool.or_eq_true, not_or] at hold
      rw [List.mem_singleton.1 hin]
      exact Bool.eq_false_iff.2 hold.2
  attained := by
    intro _
    have hseen : seen ≠ [] := by
      rintro rfl
      have hnone : s.1 = #[] := by simpa using h.listed
      simp [hnone] at hold
    obtain ⟨pair, hpair, hscore⟩ := h.attained hseen
    exact ⟨pair, List.mem_append_left _ hpair, hscore⟩

theorem Kept.keep (hbetter : Ascending.Strict better) (h : Kept better seen s) (n : Nat)
    (var : VarId) : Kept better (seen ++ [(n, var)]) (Choice.keep better s (n, var)) := by
  by_cases hnew : (s.1.isEmpty || better n s.2) = true
  · have hkeep : Choice.keep better s (n, var) = (#[var], n) := if_pos hnew
    rw [hkeep]
    exact h.renew hbetter hnew var
  · by_cases hsame : (n == s.2) = true
    · have hkeep : Choice.keep better s (n, var) = (s.1.push var, s.2) := by
        simp only [Choice.keep, hnew, hsame, Bool.false_eq_true, if_false, if_true]
      rw [hkeep]
      exact h.retain hnew var (by simp [h.listed, beq_iff_eq.1 hsame])
    · have hkeep : Choice.keep better s (n, var) = s := by
        simp only [Choice.keep, hnew, hsame, Bool.false_eq_true, if_false]
      rw [hkeep]
      exact h.retain hnew var (by simp [h.listed, mt beq_iff_eq.2 hsame])

theorem kept_foldl (hbetter : Ascending.Strict better) (pairs : List (Nat × VarId)) :
    Kept better pairs (pairs.foldl (Choice.keep better) (#[], 0)) := by
  induction pairs using List.reverseRecOn with
  | nil => exact ⟨rfl, by simp, by simp⟩
  | append_singleton seen pair ih =>
      rw [List.foldl_append]
      exact ih.keep hbetter pair.1 pair.2

/-- The best variables are those whose score no other one beats. -/
theorem mem_best (hbetter : Ascending.Strict better) {pairs : List (Nat × VarId)} {var : VarId} :
    var ∈ best better pairs ↔
      ∃ n, (n, var) ∈ pairs ∧ ∀ pair ∈ pairs, better pair.1 n = false := by
  have hkept := kept_foldl hbetter pairs
  rw [best, hkept.listed, List.mem_map]
  constructor
  · rintro ⟨⟨n, var⟩, hin, rfl⟩
    obtain ⟨hin, hscore⟩ := List.mem_filter.1 hin
    obtain rfl := beq_iff_eq.1 hscore
    exact ⟨_, hin, hkept.unbeaten⟩
  · rintro ⟨n, hin, hfirst⟩
    obtain ⟨top, htop, hscore⟩ := hkept.attained (List.ne_nil_of_mem hin)
    -- Neither its score nor the best one beats the other.
    have hsame := hbetter.eq_of_not (hkept.unbeaten _ hin) (hscore ▸ hfirst top htop)
    exact ⟨(n, var), List.mem_filter.2 ⟨hin, beq_iff_eq.2 hsame⟩, rfl⟩

end Best

def extremal (le : Nat → Nat → Prop) (score : VarId → Checked Nat) (among : Set VarId) :
    Set VarId :=
  { var | var ∈ among ∧
    ∃ n, score var = .ok n ∧ ∀ other ∈ among, ∃ k, score other = .ok k ∧ le n k }

/-- `best` lists the chosen variables, in the order of `vars`, of which there is at least one if
`vars` has any. -/
structure Picks (vars best : List VarId) (chosen : Set VarId) : Prop where
  mem : ∀ {var : VarId}, var ∈ best ↔ var ∈ chosen
  sublist : best.Sublist vars
  nonempty : vars ≠ [] → best ≠ []

theorem Picks.trans {vars best better : List VarId} {among chosen : Set VarId}
    (h : Picks best better chosen) (h' : Picks vars best among) : Picks vars better chosen :=
  ⟨h.mem, h.sublist.trans h'.sublist, fun hne => h.nonempty (h'.nonempty hne)⟩

/-- Where there is only one variable, it comes first in every order. -/
theorem Picks.extremal_eq {vars best : List VarId} {chosen : Set VarId} (h : Picks vars best chosen)
    (hlength : best.length ≤ 1) {le : Nat → Nat → Prop} (hrefl : ∀ n, le n n)
    {score : VarId → Checked Nat} (hscore : ∀ var ∈ best, ∃ n, score var = .ok n) :
    extremal le score chosen = chosen := by
  ext var
  refine ⟨fun hvar => hvar.1, fun hvar => ?_⟩
  obtain ⟨n, hn⟩ := hscore var (h.mem.2 hvar)
  refine ⟨hvar, n, hn, fun other hother => ?_⟩
  obtain ⟨only, honly⟩ : ∃ only, best = [only] :=
    List.length_eq_one_iff.1 (Nat.le_antisymm hlength (List.length_pos_of_mem (h.mem.2 hvar)))
  have hsame : ∀ x ∈ chosen, x = only := by
    intro x hx
    simpa [honly] using h.mem.2 hx
  rw [hsame other hother, ← hsame var hvar]
  exact ⟨n, hn, hrefl n⟩

theorem picks_best {better : Nat → Nat → Bool} (hbetter : Ascending.Strict better)
    {le : Nat → Nat → Prop} (hle : ∀ {n k}, better k n = false ↔ le n k)
    {score : VarId → Checked Nat} {vars : List VarId} {among : Set VarId}
    (hvars : ∀ {var}, var ∈ vars ↔ var ∈ among) {pairs : List (Nat × VarId)}
    (h : scored score vars = .ok pairs) :
    Picks vars (best better pairs) (extremal le score among) := by
  have hkept := kept_foldl hbetter pairs
  have hall := vars_of_scored h
  refine ⟨fun {var} => ?_, ?_, ?_⟩
  · rw [mem_best hbetter]
    constructor
    · rintro ⟨n, hin, hfirst⟩
      obtain ⟨hvar, hn⟩ := (mem_scored h).1 hin
      refine ⟨hvars.1 hvar, n, hn, fun other hother => ?_⟩
      rw [← hvars, ← hall, List.mem_map] at hother
      obtain ⟨⟨k, other⟩, hin', rfl⟩ := hother
      exact ⟨k, ((mem_scored h).1 hin').2, hle.1 (hfirst _ hin')⟩
    · rintro ⟨hvar, n, hn, hfirst⟩
      refine ⟨n, (mem_scored h).2 ⟨hvars.2 hvar, hn⟩, ?_⟩
      rintro ⟨k, other⟩ hother
      obtain ⟨hin, hk⟩ := (mem_scored h).1 hother
      obtain ⟨k', hk', hnk⟩ := hfirst other (hvars.1 hin)
      obtain rfl := Except.ok.inj (hk.symm.trans hk')
      exact hle.2 hnk
  · rw [best, hkept.listed, ← hall]
    exact List.filter_sublist.map _
  · intro hne
    refine hkept.nonempty ?_
    rintro rfl
    exact hne hall.symm

theorem degree_eq_ok (hm : m.WellFormed) (hp : pool.Sound m.variableCount)
    (hvar : var < m.variableCount) : ∃ n, degree m pool var = .ok n := by
  have hget : m.neighboursOf var = .ok m.neighbours[var] := Checked.get_of_lt hvar
  obtain ⟨flags, hflags⟩ : ∃ flags, m.neighbours[var].mapM pool.contains = .ok flags := by
    refine Checked.exists_mapM_eq_ok fun other hother => ?_
    have hlt := hm.neighbours (Array.getElem?_eq_getElem hvar) other hother
    obtain ⟨flag, hflag, _⟩ := Pool.contains_eq_ok hp hlt
    exact ⟨flag, hflag⟩
  exact ⟨flags.count true, by rw [degree, hget, Checked.ok_bind, hflags]; rfl⟩

theorem mostConnected_spec (hm : m.WellFormed) (hp : pool.Sound m.variableCount)
    {vars : List VarId} (hvars : ∀ var ∈ vars, var < m.variableCount) {among : Set VarId}
    (hmem : ∀ {var}, var ∈ vars ↔ var ∈ among) :
    ∃ best, mostConnected m pool vars = .ok best ∧
      Picks vars best (extremal (· ≥ ·) (degree m pool) among) := by
  obtain ⟨pairs, heq⟩ := exists_scored fun var hvar => degree_eq_ok hm hp (hvars var hvar)
  refine ⟨_, by rw [mostConnected, heq]; rfl, picks_best Ascending.natLt_strict.flip ?_ hmem heq⟩
  simp [Ascending.natLt]

/-- Of the domains only their sizes are read, so it is enough that there are as many as
variables. -/
theorem fewestValues_spec {count : Nat} (hsize : store.domains.size = count)
    (hp : pool.Sound count) :
    ∃ best, fewestValues store pool = .ok best ∧
      Picks pool.toList best (extremal (· ≤ ·) store.sizeOf { var | pool.Has var }) := by
  obtain ⟨pairs, heq⟩ := exists_scored fun var hvar =>
    Store.sizeOf_of_lt (hsize ▸ (Pool.mem_toList.1 hvar).lt hp)
  refine ⟨_, by rw [fewestValues, heq]; rfl,
    picks_best Ascending.natLt_strict ?_ Pool.mem_toList heq⟩
  simp [Ascending.natLt]

def preferred (config : Config) (m : Model) (store : Store) (pool : Pool) : Set VarId :=
  let smallest := if config.mrv then extremal (· ≤ ·) store.sizeOf { var | pool.Has var }
    else { var | pool.Has var }
  if config.degree then extremal (· ≥ ·) (degree m pool) smallest else smallest

/-- With a heuristic on, ties among the best variables are broken. Without, the lowest one is
chosen. -/
theorem exists_preferred (config : Config) (ties : TieBreaker) (hm : m.WellFormed)
    (hsize : store.domains.size = m.variableCount) (hp : pool.Sound m.variableCount) :
    ∃ best, Picks pool.toList best (preferred config m store pool) ∧
      selectVariable config m store pool ties =
        .ok (if config.mrv || config.degree then ties.pick best else (best.head?, ties)) := by
  have hlt : ∀ var ∈ pool.toList, var < m.variableCount :=
    fun var hvar => (Pool.mem_toList.1 hvar).lt hp
  unfold selectVariable preferred
  by_cases hmrv : config.mrv = true
  · obtain ⟨smallest, hsmallest, hfewest⟩ := fewestValues_spec hsize hp
    have hbound : ∀ var ∈ smallest, var < m.variableCount :=
      fun var hvar => hlt var (hfewest.sublist.subset hvar)
    simp only [hmrv, if_true, hsmallest, Checked.ok_bind, Bool.true_or]
    by_cases hdegree : config.degree = true
    · simp only [hdegree, if_true, Bool.true_and]
      by_cases htie : 1 < smallest.length
      · obtain ⟨best, hbest, hmost⟩ := mostConnected_spec hm hp hbound hfewest.mem
        exact ⟨best, hmost.trans hfewest, by simp [htie, hbest]⟩
      · refine ⟨smallest, ?_, by simp [htie]⟩
        have hrefl : ∀ n : Nat, n ≥ n := Nat.le_refl
        rwa [hfewest.extremal_eq (Nat.le_of_not_lt htie) hrefl
          fun var hvar => degree_eq_ok hm hp (hbound var hvar)]
    · exact ⟨smallest, by simpa [hdegree] using hfewest, by simp [hdegree]⟩
  · simp only [hmrv, Bool.false_eq_true, if_false, Bool.false_or]
    by_cases hdegree : config.degree = true
    · have hmem : ∀ {var}, var ∈ pool.toList ↔ var ∈ { var | pool.Has var } := Pool.mem_toList
      obtain ⟨best, hbest, hmost⟩ := mostConnected_spec hm hp hlt hmem
      exact ⟨best, by simpa [hdegree] using hmost, by simp [hdegree, hbest]⟩
    · refine ⟨pool.toList, ?_, by simp [hdegree]⟩
      rw [if_neg hdegree]
      exact ⟨Pool.mem_toList, .refl _, id⟩

/-- As long as a variable is unassigned, an unassigned one is chosen. -/
theorem selectVariable_spec (config : Config) (ties : TieBreaker) (hm : m.WellFormed)
    (hsize : store.domains.size = m.variableCount) (hp : pool.Sound m.variableCount)
    (hnonempty : pool.toList ≠ []) :
    ∃ var ties', selectVariable config m store pool ties = .ok (some var, ties') ∧
      pool.Has var := by
  obtain ⟨best, hbest, heq⟩ := exists_preferred config ties hm hsize hp
  have hne := hbest.nonempty hnonempty
  rw [heq]
  by_cases hon : (config.mrv || config.degree) = true
  · obtain ⟨var, hvar, hpick⟩ := ties.exists_pick hne
    exact ⟨var, (ties.pick best).2, by rw [if_pos hon, ← hpick],
      Pool.mem_toList.1 (hbest.sublist.subset hvar)⟩
  · obtain ⟨first, rest, rfl⟩ := List.exists_cons_of_ne_nil hne
    exact ⟨first, ties, by rw [if_neg hon]; rfl,
      Pool.mem_toList.1 (hbest.sublist.subset (by simp))⟩

/-- Without a look at the domains, the choice depends on the unassigned variables alone. -/
theorem selectVariable_static {other : Config} (hmrv : config.mrv = false)
    (hmrv' : other.mrv = false) (hdegree : other.degree = config.degree) (store' : Store)
    (ties : TieBreaker) :
    selectVariable other m store' pool ties = selectVariable config m store pool ties := by
  simp only [selectVariable, hmrv, hmrv', hdegree, Bool.false_eq_true, if_false]

theorem selectVariable_lowest {choice : Option VarId} {ties : TieBreaker}
    (h : selectVariable config m store pool .lowest = .ok (choice, ties)) : ties = .lowest := by
  -- Each branch ends in a pick, or in the head of the list with the tie-break as it was.
  unfold selectVariable at h
  split at h
  · obtain ⟨smallest, _, h⟩ := Checked.bind_eq_ok.1 h
    split at h
    · obtain ⟨best, _, h⟩ := Checked.bind_eq_ok.1 h
      exact (Prod.mk.inj (Except.ok.inj h)).2.symm
    · exact (Prod.mk.inj (Except.ok.inj h)).2.symm
  · split at h
    · obtain ⟨best, _, h⟩ := Checked.bind_eq_ok.1 h
      exact (Prod.mk.inj (Except.ok.inj h)).2.symm
    · exact (Prod.mk.inj (Except.ok.inj h)).2.symm

/-! ## Ordering the values -/

/-- The score of a link is the number of values at its other end that do not go with `value`. -/
theorem linkConflicts_spec (hm : m.WellFormed) (hs : store.Sound m.variableCount m.valueCount)
    (hp : pool.Sound m.variableCount) {value : ValId} (hvalue : value < m.valueCount)
    {link : Link} (hlink : m.Connects var link) :
    ∃ lost : List ValId, linkConflicts m store pool value link = .ok lost.length ∧ lost.Nodup ∧
      ∀ b, b ∈ lost ↔ pool.Has link.other ∧ b ∈ store.family link.other ∧
        ¬ m.Compatible var value link.other b := by
  have hother := (hm.connects_bounds hlink).2.1
  obtain ⟨flag, hflag, hhas⟩ := Pool.contains_eq_ok hp hother
  cases flag with
  | false =>
      have hout : ¬ pool.Has link.other := mt hhas.2 (by simp)
      exact ⟨[], by rw [linkConflicts, hflag]; rfl, .nil, by simp [hout]⟩
  | true =>
      obtain ⟨domain, hget, _, hcounted, hmem⟩ := hs.get_eq hother
      obtain ⟨row, hrow, hsupports⟩ := hm.supports_eq hlink hvalue
      refine ⟨domain.toList.filter fun b => !row.contains b, ?_, domain.toList_nodup.filter _, ?_⟩
      · rw [linkConflicts, hflag, Checked.ok_bind, if_pos rfl, hget, Checked.ok_bind, hrow,
          Checked.ok_bind, Checked.sub_of_le (BitSet.interSize_le hcounted row),
          BitSet.size_sub_interSize hcounted]
      · intro b
        rw [List.mem_filter, BitSet.mem_toList, hmem, ← hsupports]
        simp [hhas.1 rfl]

theorem conflicts_eq_ok (hm : m.WellFormed) (hs : store.Sound m.variableCount m.valueCount)
    (hp : pool.Sound m.variableCount) (hvar : var < m.variableCount) {value : ValId}
    (hvalue : value < m.valueCount) : ∃ n, conflicts m store pool var value = .ok n := by
  obtain ⟨links, hlinks, hconnects⟩ := hm.linksOf_eq hvar
  obtain ⟨counts, hcounts⟩ : ∃ counts, links.mapM (linkConflicts m store pool value) =
      .ok counts := by
    refine Checked.exists_mapM_eq_ok fun link hlink => ?_
    obtain ⟨lost, hlost, _⟩ := linkConflicts_spec hm hs hp hvalue ((hconnects link).1 hlink)
    exact ⟨_, hlost⟩
  exact ⟨_, by rw [conflicts, hlinks, Checked.ok_bind, hcounts]; rfl⟩

theorem orderValues_lcv (hlcv : config.lcv = true) (hm : m.WellFormed)
    (hs : store.Sound m.variableCount m.valueCount) (hp : pool.Sound m.variableCount)
    (hvar : var < m.variableCount) :
    ∃ domain pairs, store.get var = .ok domain ∧
      scored (conflicts m store pool var) domain.toList = .ok pairs ∧
      pairs.map (·.2) = domain.toList ∧
      orderValues config m store pool var =
        .ok ((pairs.mergeSort fun p q => decide (p.1 ≤ q.1)).map (·.2)) := by
  obtain ⟨domain, hget, _, _, hmem⟩ := hs.get_eq hvar
  have hscores : ∀ value ∈ domain.toList, ∃ n, conflicts m store pool var value = .ok n := by
    intro value hvalue
    have hin := (hmem value).1 (BitSet.mem_toList.1 hvalue)
    exact conflicts_eq_ok hm hs hp hvar (hs.bounded hin)
  obtain ⟨pairs, heq⟩ := exists_scored hscores
  have hpairs := vars_of_scored heq
  refine ⟨domain, pairs, hget, heq, hpairs, ?_⟩
  unfold orderValues
  rw [hget, Checked.ok_bind]
  by_cases hmany : 1 < domain.toList.length
  · have hboth : (config.lcv && decide (1 < domain.toList.length)) = true := by simp [hlcv, hmany]
    unfold scored at heq
    rw [if_pos hboth, heq]
    rfl
  · -- Up to one value is in order as it is.
    have hlength : pairs.length ≤ 1 := by
      have hsame := congrArg List.length hpairs
      rw [List.length_map] at hsame
      omega
    have hsorted : (pairs.mergeSort fun p q => decide (p.1 ≤ q.1)) = pairs := by
      cases pairs with
      | nil => exact List.mergeSort_nil
      | cons pair rest =>
          obtain rfl : rest = [] := by simpa using hlength
          exact List.mergeSort_singleton pair
    rw [hsorted, hpairs]
    simp only [hmany, decide_false, Bool.and_false, Bool.false_eq_true, if_false,
      Checked.pure_eq_ok]

/-- The values to be tried are those of the domain, each of them once. -/
theorem orderValues_spec (config : Config) (hm : m.WellFormed)
    (hs : store.Sound m.variableCount m.valueCount) (hp : pool.Sound m.variableCount)
    (hvar : var < m.variableCount) :
    ∃ values, orderValues config m store pool var = .ok values ∧ values.Nodup ∧
      ∀ value, value ∈ values ↔ value ∈ store.family var := by
  obtain ⟨domain, hget, _, _, hmem⟩ := hs.get_eq hvar
  obtain ⟨values, heq, hperm⟩ : ∃ values, orderValues config m store pool var = .ok values ∧
      values.Perm domain.toList := by
    by_cases hlcv : config.lcv = true
    · obtain ⟨domain', pairs, hget', _, hpairs, heq⟩ := orderValues_lcv hlcv hm hs hp hvar
      obtain rfl := Except.ok.inj (hget.symm.trans hget')
      refine ⟨_, heq, ?_⟩
      rw [← hpairs]
      exact (List.mergeSort_perm pairs _).map _
    · refine ⟨domain.toList, ?_, .refl _⟩
      simp [orderValues, hget, hlcv]
  refine ⟨values, heq, hperm.nodup_iff.2 domain.toList_nodup, fun value => ?_⟩
  rw [hperm.mem_iff, BitSet.mem_toList, hmem]

theorem orderValues_static (hlcv : config.lcv = false) {values : List ValId}
    (h : orderValues config m store pool var = .ok values) :
    ∃ domain, store.get var = .ok domain ∧ values = domain.toList := by
  obtain ⟨domain, hget, h⟩ := Checked.bind_eq_ok.1 h
  simp only [hlcv, Bool.false_and, Bool.false_eq_true, if_false] at h
  exact ⟨domain, hget, (Except.ok.inj h).symm⟩

end Choice

end BinaryCsp
