import BinaryCsp.Proofs.ArcConsistency
import BinaryCsp.Proofs.Trail
import Mathlib.Algebra.Order.BigOperators.Group.Finset

/-! # How many revisions a sweep takes

A sweep revises each arc once, and an arc again only after the domain at its head has shrunk and
kept a value. A variable with `d` values can shrink in this way `d - 1` times, and each time all but
one of the arcs into it are queued at most. So the waiting arcs and the arcs that may still be
queued go down with each revision, which bounds the sweep without a look at the order of the
revisions.
-/

namespace BinaryCsp

def Tally.count (removed : Nat) (tally : Tally) : Tally :=
  ⟨tally.revisions + 1, tally.prunings + removed⟩

namespace Counters

variable {c c' : Counters} {relation : RelationId} {removed : Nat}

def totalRevisions (c : Counters) : Nat := (c.tallies.toList.map (·.revisions)).sum

def totalPrunings (c : Counters) : Nat := (c.tallies.toList.map (·.prunings)).sum

theorem countRevision_eq_ok (h : c.countRevision relation removed = .ok c') :
    ∃ tally, c.tallies[relation]? = some tally ∧
      c'.tallies = c.tallies.modify relation (.count removed) := by
  obtain ⟨tally, hget, h⟩ := Checked.bind_eq_ok.1 h
  have hentry := Checked.get_eq_ok.1 hget
  have hset := Store.set_eq_modify (Tally.count removed) hentry
  obtain ⟨tallies, hset', h⟩ := Checked.bind_eq_ok.1 h
  obtain rfl := Except.ok.inj (hset.symm.trans hset')
  cases h
  exact ⟨tally, hentry, rfl⟩

theorem totals_of_countRevision (h : c.countRevision relation removed = .ok c') :
    c'.totalRevisions = c.totalRevisions + 1 ∧
      c'.totalPrunings = c.totalPrunings + removed := by
  obtain ⟨tally, hget, htallies⟩ := countRevision_eq_ok h
  have hentry : c.tallies.toList[relation]? = some tally := by simpa using hget
  have hrevisions := sum_map_modify (F := (·.revisions)) (f := .count removed) hentry
  have hprunings := sum_map_modify (F := (·.prunings)) (f := .count removed) hentry
  simp only [totalRevisions, totalPrunings, htallies, Array.toList_modify, Tally.count] at *
  omega

end Counters

def Model.linkCount (m : Model) (var : VarId) : Nat := m.links[var]?.elim 0 List.length

namespace ArcConsistency

variable {m : Model}

/-! ## The trail of one revision -/

theorem unsupported_sublist {rows : Array BitSet} {head : BitSet} {values doomed : List ValId}
    (h : unsupported rows head values = .ok doomed) : doomed.Sublist values := by
  induction values generalizing doomed with
  | nil =>
      cases h
      exact .slnil
  | cons value rest ih =>
      obtain ⟨row, _, h⟩ := Checked.bind_eq_ok.1 h
      obtain ⟨doomedRest, hrest, h⟩ := Checked.bind_eq_ok.1 h
      have hsub := ih hrest
      cases h
      split
      · exact hsub.cons value
      · exact hsub.cons_cons value

theorem trail_of_revise {count bound : Nat} {store t : Store} {arc : Arc} {removed : Nat}
    (hs : store.Sound count bound) (h : revise m store arc = .ok (removed, t)) :
    t.trail.size = store.trail.size + removed := by
  obtain ⟨head, _, h⟩ := Checked.bind_eq_ok.1 h
  obtain ⟨tail, hget, h⟩ := Checked.bind_eq_ok.1 h
  obtain ⟨rows, _, h⟩ := Checked.bind_eq_ok.1 h
  obtain ⟨doomed, hdoomed, h⟩ := Checked.bind_eq_ok.1 h
  obtain ⟨left, hremove, h⟩ := Checked.bind_eq_ok.1 h
  cases h
  have hsub := unsupported_sublist hdoomed
  have hmem : ∀ value ∈ doomed, value ∈ store.family arc.tail := by
    intro value hvalue
    have hin := BitSet.mem_toList.1 (hsub.subset hvalue)
    exact (Store.mem_family (Checked.get_eq_ok.1 hget)).2 hin
  have htrail := Store.trail_of_removeAll hs (hsub.nodup tail.toList_nodup) hmem hremove
  simpa using congrArg List.length htrail

/-! ## What may still be queued -/

/-- The number of arcs that removals at `var` can have queued again: each time a value is lost and
another is kept, the arcs into `var` except the one back to the arc just revised. -/
def requeuesAt (m : Model) (store : Store) (var : VarId) : Nat :=
  (store.sizeAt var - 1) * (m.linkCount var - 1)

def requeues (m : Model) (store : Store) : Nat :=
  ∑ var ∈ Finset.range m.variableCount, requeuesAt m store var

section Requeues

variable {s t : Store} {var : VarId} {value kept : ValId}

theorem requeuesAt_le (hs : s.Sound m.variableCount m.valueCount)
    (ht : t.Sound m.variableCount m.valueCount) (hle : t.family ≤ s.family)
    (hvar : var < m.variableCount) : requeuesAt m t var ≤ requeuesAt m s var :=
  Nat.mul_le_mul_right _ (Nat.sub_le_sub_right (Store.sizeAt_le hs ht hle hvar) 1)

theorem requeues_le (hs : s.Sound m.variableCount m.valueCount)
    (ht : t.Sound m.variableCount m.valueCount) (hle : t.family ≤ s.family) :
    requeues m t ≤ requeues m s :=
  Finset.sum_le_sum fun _ hvar => requeuesAt_le hs ht hle (Finset.mem_range.1 hvar)

/-- A variable that loses a value and keeps another pays for the arcs into it. -/
theorem requeues_of_removed (hs : s.Sound m.variableCount m.valueCount)
    (ht : t.Sound m.variableCount m.valueCount) (hle : t.family ≤ s.family)
    (hold : value ∈ s.family var) (hnew : value ∉ t.family var) (hkept : kept ∈ t.family var) :
    requeues m t + (m.linkCount var - 1) ≤ requeues m s := by
  have hvar := hs.lt_of_mem hold
  have hless := Store.sizeAt_lt hs ht hle hvar hold hnew
  have hpos := Store.sizeAt_pos ht hkept
  have hhere : requeuesAt m t var + (m.linkCount var - 1) ≤ requeuesAt m s var := by
    rw [requeuesAt, requeuesAt, ← Nat.succ_mul]
    exact Nat.mul_le_mul_right _ (by omega)
  let others := (Finset.range m.variableCount).erase var
  have hothers : ∀ other ∈ others, requeuesAt m t other ≤ requeuesAt m s other :=
    fun other hother =>
      requeuesAt_le hs ht hle (Finset.mem_range.1 (Finset.mem_of_mem_erase hother))
  have hsplit (f : VarId → Nat) := Finset.add_sum_erase _ f (Finset.mem_range.2 hvar)
  calc requeues m t + (m.linkCount var - 1)
      = requeuesAt m t var + (m.linkCount var - 1) + ∑ other ∈ others, requeuesAt m t other := by
        rw [requeues, ← hsplit, Nat.add_right_comm]
    _ ≤ requeuesAt m s var + ∑ other ∈ others, requeuesAt m s other :=
        Nat.add_le_add hhere (Finset.sum_le_sum hothers)
    _ = requeues m s := hsplit _

/-- The arc back to the head is not among the arcs that are queued again. -/
theorem length_arcsInto (hm : m.WellFormed) {arc : Arc} (harc : ArcQueue.Valid m arc)
    {links : List Link} (hlinks : m.linksOf arc.tail = .ok links) :
    (arcsInto arc links).length ≤ m.linkCount arc.tail - 1 := by
  have hget := Checked.get_eq_ok.1 hlinks
  have hown : arc.link ∈ links := (hm.links hget arc.link).2 harc
  have hfew : (links.filter (·.other != arc.link.other)).length < links.length :=
    List.length_filter_lt_length_iff_exists.2 ⟨arc.link, hown, by simp⟩
  have hcount : m.linkCount arc.tail = links.length := by
    rw [Model.linkCount, hget, Option.elim_some]
  rw [arcsInto, List.length_map, hcount]
  omega

end Requeues

/-! ## The accounts of a sweep -/

/-- Arcs that wait, and arcs that may still be queued. -/
def Sweep.pending (m : Model) (sweep : Sweep) : Nat := sweep.queue.size + requeues m sweep.store

def waiting (relation : RelationId) (w : ArcQueue) : Nat :=
  w.toList.countP (·.link.relation == relation)

/-- The revisions that each relation has had since the start and those that its waiting arcs stand
for are two at least. -/
def Covers (start : Counters) (sweep : Sweep) : Prop :=
  ∀ (relation : RelationId) (before : Tally), start.tallies[relation]? = some before →
    ∃ now, sweep.counters.tallies[relation]? = some now ∧
      before.revisions + 2 ≤ now.revisions + waiting relation sweep.queue

/-- What the counters say between two revisions of a sweep that started from the store `entry` and
the counters `start`. -/
structure Accounts (m : Model) (entry : Store) (start : Counters) (sweep : Sweep) : Prop where
  revisions : sweep.counters.totalRevisions + sweep.pending m ≤
    start.totalRevisions + (2 * m.relations.size + requeues m entry)
  prunings : sweep.counters.totalPrunings + entry.trail.size =
    start.totalPrunings + sweep.store.trail.size
  covers : Covers start sweep

/-- What the counters say when the sweep has ended. -/
structure Audited (m : Model) (entry : Store) (start : Counters) (outcome : Outcome) : Prop where
  revisions : outcome.counters.totalRevisions ≤
    start.totalRevisions + (2 * m.relations.size + requeues m entry)
  prunings : outcome.counters.totalPrunings + entry.trail.size =
    start.totalPrunings + outcome.store.trail.size
  /-- If no domain was left empty, both arcs of each relation were revised. -/
  twice : outcome.wiped = none → ∀ {relation : RelationId} {before : Tally},
    start.tallies[relation]? = some before →
    ∃ after, outcome.counters.tallies[relation]? = some after ∧
      before.revisions + 2 ≤ after.revisions

section Step

variable {entry : Store} {start : Counters} {sweep next : Sweep} {arc : Arc} {removed : Nat}

theorem Revises.totals (hs : sweep.store.Sound m.variableCount m.valueCount)
    (hr : Revises m start sweep arc removed next) :
    next.counters.totalRevisions = sweep.counters.totalRevisions + 1 ∧
      next.counters.totalPrunings + sweep.store.trail.size =
        sweep.counters.totalPrunings + next.store.trail.size := by
  obtain ⟨hrevisions, hprunings⟩ := Counters.totals_of_countRevision hr.count_eq
  have htrail := trail_of_revise hs hr.revise_eq
  omega

/-- The arc that is taken out is one that its relation waited for. -/
theorem Revises.covers (hr : Revises m start sweep arc removed next) (h : Covers start sweep) :
    Covers start next := by
  intro relation before hbefore
  obtain ⟨now, hnow, hle⟩ := h relation before hbefore
  obtain ⟨tally, _, htallies⟩ := Counters.countRevision_eq_ok hr.count_eq
  simp only [waiting, hr.waiting, List.countP_cons, beq_iff_eq] at hle
  rw [htallies, Array.getElem?_modify]
  by_cases hsame : arc.link.relation = relation
  · refine ⟨now.count removed, by rw [if_pos hsame, hnow]; rfl, ?_⟩
    rw [if_pos hsame] at hle
    simp only [Tally.count, waiting]
    omega
  · rw [if_neg hsame] at hle ⊢
    exact ⟨now, hnow, hle⟩

theorem Revises.pending_lt (hs : sweep.store.Sound m.variableCount m.valueCount)
    (hr : Revises m start sweep arc removed next) : next.pending m < sweep.pending m := by
  have hsize := hr.queue_size
  have hle := requeues_le hs (hr.pruned.sound hs) hr.pruned.family_le
  simp only [Sweep.pending]
  omega

/-- Queueing the arcs into a tail that has shrunk is paid for by the value that it lost. -/
theorem Revises.requeued_pending_lt (hm : m.WellFormed)
    (hs : sweep.store.Sound m.variableCount m.valueCount)
    (hr : Revises m start sweep arc removed next) (hshrunk : removed ≠ 0)
    (hkept : (next.store.family arc.tail).Nonempty) {links : List Link}
    (hlinks : m.linksOf arc.tail = .ok links) {queue : ArcQueue}
    (hqueue : queue.size ≤ next.queue.size + (arcsInto arc links).length) :
    Sweep.pending m ⟨queue, next.store, next.counters⟩ < sweep.pending m := by
  obtain ⟨value, hold, hnew⟩ := hr.exists_removed hshrunk
  obtain ⟨kept, hkept⟩ := hkept
  have hpaid := requeues_of_removed hs (hr.pruned.sound hs) hr.pruned.family_le hold hnew hkept
  have hfew := length_arcsInto hm hr.valid hlinks
  have hsize := hr.queue_size
  simp only [Sweep.pending]
  omega

/-- Queueing arcs keeps those that wait already. -/
theorem Covers.push {queue : ArcQueue} (h : Covers start next) (hnodup : next.queue.toList.Nodup)
    (hsub : next.queue.toList ⊆ queue.toList) :
    Covers start ⟨queue, next.store, next.counters⟩ := by
  intro relation before hbefore
  obtain ⟨now, hnow, hle⟩ := h relation before hbefore
  have hmore : waiting relation next.queue ≤ waiting relation queue :=
    (List.subperm_of_subset hnodup hsub).countP_le _
  exact ⟨now, hnow, Nat.le_trans hle (Nat.add_le_add_left hmore _)⟩

/-- One step keeps the accounts and uses up something, or ends the sweep. -/
theorem accounts_step (hm : m.WellFormed) (hentry : entry.Sound m.variableCount m.valueCount)
    (hstart : start.tallies.size = m.relations.size) (h : Invariant m entry start sweep)
    (ha : Accounts m entry start sweep) :
    (∃ next, step m sweep = .ok (.running next) ∧ (Invariant m entry start next ∧
      Accounts m entry start next) ∧ next.pending m < sweep.pending m) ∨
    ∃ outcome, step m sweep = .ok (.finished outcome) ∧ Audited m entry start outcome := by
  have hs := h.pruned.sound hentry
  obtain ⟨progress, hstep, hstepped⟩ := exists_stepped hm hentry hstart h
  have hrevisions := ha.revisions
  have hprunings := ha.prunings
  have hkeeps : ∀ next, progress = .running next → Invariant m entry start next := by
    rintro next rfl
    rcases step_spec hm hentry hstart h with ⟨next', hnext, hinvariant, _⟩ | ⟨outcome, hend, _⟩
    · cases hstep.symm.trans hnext
      exact hinvariant
    · cases hstep.symm.trans hend
  cases hstepped with
  | done hlist =>
      refine .inr ⟨_, hstep, ?_, ha.prunings, fun _ relation before hbefore => ?_⟩
      · dsimp only
        omega
      · obtain ⟨now, hnow, hle⟩ := ha.covers relation before hbefore
        exact ⟨now, hnow, by simpa [waiting, hlist] using hle⟩
  | @unchanged arc next hr =>
      obtain ⟨hmore, hsum⟩ := hr.totals hs
      have hless := hr.pending_lt hs
      refine .inl ⟨next, hstep, ⟨hkeeps _ rfl, ?_, ?_, hr.covers ha.covers⟩, hless⟩ <;> omega
  | @emptied arc removed next hr hshrunk hempty =>
      obtain ⟨hmore, hsum⟩ := hr.totals hs
      have hless := hr.pending_lt hs
      refine .inr ⟨_, hstep, ?_, ?_, nofun⟩ <;> dsimp only <;> omega
  | @requeued arc removed next links queue hr hshrunk hkept hlinks hpush =>
      obtain ⟨hmore, hsum⟩ := hr.totals hs
      obtain ⟨links', hlinks', hconnects⟩ := hm.linksOf_eq (hm.connects_bounds hr.valid).1
      obtain rfl := Except.ok.inj (hlinks'.symm.trans hlinks)
      obtain ⟨queue', hpush', _, hsize, hmem⟩ := ArcQueue.pushAll_spec hr.queue
        fun other hother => ((mem_arcsInto hconnects).1 hother).1
      obtain rfl := Except.ok.inj (hpush'.symm.trans hpush)
      have hless := hr.requeued_pending_lt hm hs hshrunk hkept hlinks hsize
      have hcovers := (hr.covers ha.covers).push hr.queue.nodup fun other hother =>
        (hmem other).2 (.inl hother)
      refine .inl ⟨_, hstep, ⟨hkeeps _ rfl, ?_, ?_, hcovers⟩, hless⟩ <;> dsimp only at * <;> omega

end Step

/-! ## The whole sweep -/

/-- At the start both arcs of each relation wait. -/
theorem covers_start (hm : m.WellFormed) {entry : Store} {counters : Counters}
    (hcounters : counters.tallies.size = m.relations.size) {queue : ArcQueue}
    (hall : ∀ arc, ArcQueue.Valid m arc → arc ∈ queue.toList) :
    Covers counters ⟨queue, entry, counters⟩ := by
  intro relation before hbefore
  have hlt : relation < m.relations.size := by
    rw [← hcounters]
    exact (Array.getElem?_eq_some_iff.1 hbefore).1
  have hget := Array.getElem?_eq_getElem hlt
  have hne := Nat.ne_of_lt (hm.ordered hget).1
  generalize m.relations[relation] = r at hget hne
  let arcs : List Arc :=
    [⟨r.pair.lower, r.pair.higher, relation, false⟩, ⟨r.pair.higher, r.pair.lower, relation, true⟩]
  have hnodup : arcs.Nodup := by simp [arcs, hne]
  have hsub : arcs ⊆ queue.toList := by
    intro arc harc
    refine hall arc ⟨r, ?_⟩
    simp only [arcs, List.mem_cons, List.not_mem_nil, or_false] at harc
    rcases harc with rfl | rfl
    · exact ⟨hget, by simp⟩
    · exact ⟨hget, by simp⟩
  have htwo : arcs.countP (·.link.relation == relation) ≤ waiting relation queue :=
    (List.subperm_of_subset hnodup hsub).countP_le _
  have hboth : arcs.countP (·.link.relation == relation) = 2 := by simp [arcs]
  rw [hboth] at htwo
  exact ⟨before, hbefore, Nat.add_le_add_left htwo _⟩

/-- A sweep ends within the arcs of the model and those that removals can have queued again. -/
theorem enforce_audited (hm : m.WellFormed) {entry : Store} {counters : Counters}
    (hentry : entry.Sound m.variableCount m.valueCount)
    (hcounters : counters.tallies.size = m.relations.size) {arcs : List Arc} {queue : ArcQueue}
    (harcs : arcsOf m m.vars = .ok arcs)
    (hpush : (ArcQueue.empty m.relations.size).pushAll arcs = .ok queue) {budget : Nat}
    (hbudget : 2 * m.relations.size + requeues m entry < budget) :
    ∃ outcome, settle m budget ⟨queue, entry, counters⟩ = .ok outcome ∧
      Audited m entry counters outcome := by
  obtain ⟨arcs', harcs', hvalid⟩ := arcsOf_vars hm
  obtain rfl := Except.ok.inj (harcs'.symm.trans harcs)
  obtain ⟨queue', hpush', hqueue, _, hmem⟩ :=
    ArcQueue.pushAll_spec (ArcQueue.empty_sound m) fun arc harc => (hvalid arc).1 harc
  obtain rfl := Except.ok.inj (hpush'.symm.trans hpush)
  have hall : ∀ arc, ArcQueue.Valid m arc → arc ∈ queue'.toList :=
    fun arc harc => (hmem arc).2 (.inr ((hvalid arc).2 harc))
  have hpending : Sweep.pending m ⟨queue', entry, counters⟩ ≤
      2 * m.relations.size + requeues m entry := Nat.add_le_add_right hqueue.size_le _
  have haccounts : Accounts m entry counters ⟨queue', entry, counters⟩ :=
    ⟨Nat.add_le_add_left hpending _, rfl, covers_start hm hcounters hall⟩
  exact settle_of_steps (fun _ hs => accounts_step hm hentry hcounters hs.1 hs.2)
    ⟨invariant_start counters hqueue hall, haccounts⟩ (by omega)

variable {V : Type} [DecidableEq V]

/-- On any domains over a built model the sweep ends, whatever budget above the bound it is given.
It revises each relation at least twice unless it leaves a domain empty, and all of them together
no more often than the bound. The prunings it counts are the values that it puts on the trail, which
are those gone from the domains, each of them once. -/
theorem enforce_counts {calls : List (Call V)} {p : Problem V}
    (hp : Problem.ofCalls calls = .ok p) {entry : Store}
    (hentry : entry.Sound p.model.variableCount p.model.valueCount) {counters : Counters}
    (hcounters : counters.tallies.size = p.model.relations.size) :
    ∃ outcome removed, enforce p.model entry counters = .ok outcome ∧
      (∀ arcs queue, arcsOf p.model p.model.vars = .ok arcs →
        (ArcQueue.empty p.model.relations.size).pushAll arcs = .ok queue →
        ∀ budget, 2 * p.model.relations.size + requeues p.model entry < budget →
          settle p.model budget ⟨queue, entry, counters⟩ = .ok outcome) ∧
      outcome.counters.totalRevisions ≤
        counters.totalRevisions + (2 * p.model.relations.size + requeues p.model entry) ∧
      (outcome.wiped = none → ∀ {relation : RelationId} {before : Tally},
        counters.tallies[relation]? = some before →
        ∃ after, outcome.counters.tallies[relation]? = some after ∧
          before.revisions + 2 ≤ after.revisions) ∧
      outcome.counters.totalPrunings = counters.totalPrunings + removed.length ∧
      outcome.store.totalSize + removed.length = entry.totalSize ∧
      Store.Records entry outcome.store removed := by
  have hm := (Problem.faithful_of_ofCalls hp).wellFormed
  obtain ⟨outcome, hrun, h⟩ := enforce_spec hm hentry hcounters
  obtain ⟨removed, hremoved⟩ := h.pruned.exists_records
  have hsize := hremoved.size
  have htotal := h.pruned.totalSize_add hentry
  obtain ⟨arcs, harcs, hbind⟩ := Checked.bind_eq_ok.1 hrun
  obtain ⟨queue, hpush, hsettle⟩ := Checked.bind_eq_ok.1 hbind
  -- The budget makes no difference, so what ends within the bound is the same outcome.
  have hends : ∀ budget, 2 * p.model.relations.size + requeues p.model entry < budget →
      settle p.model budget ⟨queue, entry, counters⟩ = .ok outcome ∧
        Audited p.model entry counters outcome := by
    intro budget hbudget
    obtain ⟨other, hother, haudited⟩ := enforce_audited hm hentry hcounters harcs hpush hbudget
    obtain rfl := settle_unique hsettle hother
    exact ⟨hother, haudited⟩
  have haudited := (hends _ (Nat.lt_succ_self _)).2
  have hprunings := haudited.prunings
  refine ⟨outcome, removed, hrun, ?_, haudited.revisions, haudited.twice, by omega, by omega,
    hremoved⟩
  intro arcs' queue' harcs' hpush' budget hbudget
  obtain rfl := Except.ok.inj (harcs.symm.trans harcs')
  obtain rfl := Except.ok.inj (hpush.symm.trans hpush')
  exact (hends budget hbudget).1

theorem enforce_counts_chain :
    ∃ p outcome removed, Problem.ofCalls Call.ascendingChain = .ok p ∧
      enforce p.model (.ofDomains p.model.domains) (.zero p.model.relations.size) = .ok outcome ∧
      outcome.counters.totalRevisions = 5 ∧
      2 * p.model.relations.size + requeues p.model (.ofDomains p.model.domains) = 6 ∧
      Store.Records (.ofDomains p.model.domains) outcome.store removed ∧ removed.length = 6 := by
  obtain ⟨p, hp⟩ := Call.exists_ofCalls_ascendingChain
  have hm := (Problem.faithful_of_ofCalls hp).wellFormed
  have hzero : (Counters.zero p.model.relations.size).tallies.size = p.model.relations.size := by
    simp [Counters.zero]
  obtain ⟨outcome, removed, hrun, _, _, _, hprunings, _, hremoved⟩ :=
    enforce_counts hp hm.domains hzero
  have hcount : ((Problem.ofCalls Call.ascendingChain).toOption.bind fun p =>
      (enforce p.model (.ofDomains p.model.domains) (.zero p.model.relations.size)).toOption.map
        fun outcome => (outcome.counters.totalRevisions, outcome.counters.totalPrunings,
          (Counters.zero p.model.relations.size).totalPrunings,
          2 * p.model.relations.size + requeues p.model (.ofDomains p.model.domains))) =
      some (5, 6, 0, 6) := by
    decide +kernel
  simp only [hp, hrun, Except.toOption, Option.bind_some, Option.map_some, Option.some.injEq,
    Prod.mk.injEq] at hcount
  obtain ⟨hrevisions, hpruned, hnone, hbound⟩ := hcount
  exact ⟨p, outcome, removed, hp, hrun, hrevisions, hbound, hremoved, by omega⟩

end ArcConsistency

end BinaryCsp
