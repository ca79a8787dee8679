import BinaryCsp.Proofs.ArcConsistency

/-! # No arc is lost while it waits

A sweep is followed arc by arc: arcs are queued one after the other, the next one is taken out, and
its revision ends there or asks for more arcs. At each of these moments the queue has exactly the
arcs that were accepted and not yet taken out, in the order in which they came. The flag of a slot
stands for one directed arc of the model, so an arc is turned away only while it waits itself.
-/

namespace BinaryCsp.ArcConsistency

open ArcQueue (slot Valid)

inductive Phase where
  /-- These arcs are to be queued, in this order. -/
  | queueing (pending : List Arc)
  /-- This arc has been taken out and is to be revised. -/
  | revising (arc : Arc)

def Phase.arcs : Phase → List Arc
  | .queueing pending => pending
  | .revising arc => [arc]

/-- A sweep between two uses of its queue, with the history of the queue. -/
structure Moment where
  sweep : Sweep
  phase : Phase
  /-- The arcs that went into the queue so far, in order. -/
  accepted : List Arc
  /-- The arcs that came out of the queue so far, in order. -/
  taken : List Arc

/-- The moments of a sweep over `m` that starts from the store `entry` and the counters `start`. An
arc is accepted if its flag is down when it is queued. -/
inductive Reached (m : Model) (entry : Store) (start : Counters) : Moment → Prop where
  | start {arcs : List Arc} (all : arcsOf m m.vars = .ok arcs) :
      Reached m entry start ⟨⟨.empty m.relations.size, entry, start⟩, .queueing arcs, [], []⟩
  | accept {queue queue' : ArcQueue} {store : Store} {counters : Counters} {arc : Arc}
      {pending accepted taken : List Arc}
      (before : Reached m entry start
        ⟨⟨queue, store, counters⟩, .queueing (arc :: pending), accepted, taken⟩)
      (down : queue.queued[slot arc.link]? = some false) (push : queue.push arc = .ok queue') :
      Reached m entry start
        ⟨⟨queue', store, counters⟩, .queueing pending, accepted ++ [arc], taken⟩
  | drop {queue queue' : ArcQueue} {store : Store} {counters : Counters} {arc : Arc}
      {pending accepted taken : List Arc}
      (before : Reached m entry start
        ⟨⟨queue, store, counters⟩, .queueing (arc :: pending), accepted, taken⟩)
      (up : queue.queued[slot arc.link]? = some true) (push : queue.push arc = .ok queue') :
      Reached m entry start ⟨⟨queue', store, counters⟩, .queueing pending, accepted, taken⟩
  | take {queue queue' : ArcQueue} {store : Store} {counters : Counters} {arc : Arc}
      {accepted taken : List Arc}
      (before : Reached m entry start ⟨⟨queue, store, counters⟩, .queueing [], accepted, taken⟩)
      (pop : queue.pop = .ok (some (arc, queue'))) :
      Reached m entry start
        ⟨⟨queue', store, counters⟩, .revising arc, accepted, taken ++ [arc]⟩
  | keep {queue : ArcQueue} {store store' : Store} {counters counters' : Counters} {arc : Arc}
      {accepted taken : List Arc}
      (before : Reached m entry start ⟨⟨queue, store, counters⟩, .revising arc, accepted, taken⟩)
      (revision : revise m store arc = .ok (0, store'))
      (count : counters.countRevision arc.link.relation 0 = .ok counters') :
      Reached m entry start ⟨⟨queue, store', counters'⟩, .queueing [], accepted, taken⟩
  | shrink {queue : ArcQueue} {store store' : Store} {counters counters' : Counters} {arc : Arc}
      {accepted taken : List Arc} {removed : Nat} {domain : BitSet} {links : List Link}
      (before : Reached m entry start ⟨⟨queue, store, counters⟩, .revising arc, accepted, taken⟩)
      (revision : revise m store arc = .ok (removed, store')) (some : removed ≠ 0)
      (count : counters.countRevision arc.link.relation removed = .ok counters')
      (tail : store'.get arc.tail = .ok domain) (kept : domain.isEmpty = false)
      (own : m.linksOf arc.tail = .ok links) :
      Reached m entry start
        ⟨⟨queue, store', counters'⟩, .queueing (arcsInto arc links), accepted, taken⟩

/-! ## Every sweep goes through these moments -/

section Adequate

variable {m : Model} {entry : Store} {start : Counters} {sweep next : Sweep} {outcome : Outcome}
  {accepted taken : List Arc}

theorem Reached.pushAll {queue queue' : ArcQueue} {store : Store} {counters : Counters}
    {pending : List Arc}
    (h : Reached m entry start ⟨⟨queue, store, counters⟩, .queueing pending, accepted, taken⟩)
    (hpush : queue.pushAll pending = .ok queue') :
    ∃ accepted', Reached m entry start
      ⟨⟨queue', store, counters⟩, .queueing [], accepted', taken⟩ := by
  induction pending generalizing queue accepted with
  | nil =>
      cases hpush
      exact ⟨accepted, h⟩
  | cons arc rest ih =>
      obtain ⟨first, hfirst, hrest⟩ := Checked.bind_eq_ok.1 hpush
      obtain ⟨flag, hflag, -⟩ := Checked.bind_eq_ok.1 hfirst
      rw [Checked.get_eq_ok] at hflag
      cases flag with
      | true => exact ih (h.drop hflag hfirst) hrest
      | false => exact ih (h.accept hflag hfirst) hrest

/-- How a step came to its result. -/
inductive StepResult (m : Model) (sweep : Sweep) : Progress → Prop where
  | done (pop : sweep.queue.pop = .ok none) :
      StepResult m sweep (.finished ⟨sweep.store, sweep.counters, none⟩)
  | keep {arc : Arc} {next : Sweep} (pop : sweep.queue.pop = .ok (some (arc, next.queue)))
      (revision : revise m sweep.store arc = .ok (0, next.store))
      (count : sweep.counters.countRevision arc.link.relation 0 = .ok next.counters) :
      StepResult m sweep (.running next)
  | wiped {arc : Arc} {store : Store} {counters : Counters} :
      StepResult m sweep (.finished ⟨store, counters, some arc⟩)
  | shrink {arc : Arc} {next : Sweep} {removed : Nat} {domain : BitSet} {links : List Link}
      {queue : ArcQueue} (pop : sweep.queue.pop = .ok (some (arc, next.queue)))
      (revision : revise m sweep.store arc = .ok (removed, next.store)) (some : removed ≠ 0)
      (count : sweep.counters.countRevision arc.link.relation removed = .ok next.counters)
      (tail : next.store.get arc.tail = .ok domain) (kept : domain.isEmpty = false)
      (own : m.linksOf arc.tail = .ok links)
      (push : next.queue.pushAll (arcsInto arc links) = .ok queue) :
      StepResult m sweep (.running ⟨queue, next.store, next.counters⟩)

theorem stepResult_of_step {progress : Progress} (h : step m sweep = .ok progress) :
    StepResult m sweep progress := by
  obtain ⟨queue, store, counters⟩ := sweep
  obtain ⟨popped, hpop, h⟩ := Checked.bind_eq_ok.1 h
  cases popped with
  | none =>
      cases h
      exact .done hpop
  | some popped =>
      obtain ⟨arc, queue'⟩ := popped
      obtain ⟨⟨removed, store'⟩, hrevise, h⟩ := Checked.bind_eq_ok.1 h
      obtain ⟨counters', hcount, h⟩ := Checked.bind_eq_ok.1 h
      by_cases hnone : removed = 0
      · subst hnone
        cases h
        exact .keep hpop hrevise hcount
      · simp only [if_neg hnone] at h
        obtain ⟨domain, hdomain, h⟩ := Checked.bind_eq_ok.1 h
        cases hempty : domain.isEmpty with
        | true =>
            rw [if_pos hempty] at h
            cases h
            exact .wiped
        | false =>
            simp only [hempty, Bool.false_eq_true, if_false] at h
            obtain ⟨links, hlinks, h⟩ := Checked.bind_eq_ok.1 h
            obtain ⟨queue'', hpush, h⟩ := Checked.bind_eq_ok.1 h
            cases h
            exact @StepResult.shrink m _ arc ⟨queue', store', counters'⟩ _ _ _ _ hpop hrevise hnone
              hcount hdomain hempty hlinks hpush

theorem Reached.step
    (h : Reached m entry start ⟨sweep, .queueing [], accepted, taken⟩)
    (hstep : step m sweep = .ok (.running next)) :
    ∃ accepted' taken', Reached m entry start ⟨next, .queueing [], accepted', taken'⟩ := by
  cases stepResult_of_step hstep with
  | keep hpop hrevise hcount => exact ⟨_, _, (h.take hpop).keep hrevise hcount⟩
  | shrink hpop hrevise hsome hcount htail hkept hown hpush =>
      have hshrunk := (h.take hpop).shrink hrevise hsome hcount htail hkept hown
      obtain ⟨accepted', hqueued⟩ := hshrunk.pushAll hpush
      exact ⟨accepted', _, hqueued⟩

theorem Reached.settle {budget : Nat}
    (h : Reached m entry start ⟨sweep, .queueing [], accepted, taken⟩)
    (hsettle : settle m budget sweep = .ok outcome) :
    ∃ last accepted' taken', Reached m entry start ⟨last, .queueing [], accepted', taken'⟩ ∧
      ArcConsistency.step m last = .ok (.finished outcome) := by
  induction budget generalizing sweep accepted taken with
  | zero => cases hsettle
  | succ budget ih =>
      obtain ⟨progress, hstep, hrest⟩ := Checked.bind_eq_ok.1 hsettle
      cases progress with
      | running next =>
          obtain ⟨accepted', taken', hnext⟩ := h.step hstep
          exact ih hnext hrest
      | finished ended =>
          cases hrest
          exact ⟨sweep, accepted, taken, h, hstep⟩

/-- What a sweep gives is the outcome of a step from one of its moments. -/
theorem exists_reached_of_enforce (h : enforce m entry start = .ok outcome) :
    ∃ last accepted taken, Reached m entry start ⟨last, .queueing [], accepted, taken⟩ ∧
      step m last = .ok (.finished outcome) := by
  obtain ⟨arcs, harcs, h⟩ := Checked.bind_eq_ok.1 h
  obtain ⟨queue, hpush, hsettle⟩ := Checked.bind_eq_ok.1 h
  obtain ⟨accepted, hqueued⟩ := (Reached.start harcs).pushAll hpush
  exact hqueued.settle hsettle

end Adequate

/-! ## What each moment keeps -/

def Listed (m : Model) (arc : Arc) : Prop :=
  ∃ links, m.linksOf arc.tail = .ok links ∧ arc.link ∈ links

section Invariant

variable {m : Model} {entry : Store} {start : Counters} {moment : Moment}

theorem listed_iff_valid (hm : m.WellFormed) {arc : Arc} : Listed m arc ↔ Valid m arc := by
  constructor
  · rintro ⟨links, hlinks, hmem⟩
    exact (hm.links (Checked.get_eq_ok.1 hlinks) arc.link).1 hmem
  · intro h
    obtain ⟨links, hlinks, hconnects⟩ := hm.linksOf_eq (hm.connects_bounds h).1
    exact ⟨links, hlinks, (hconnects arc.link).2 h⟩

/-- A link turned round is the only link of its head that leads back. -/
theorem mem_linksOf_back (hm : m.WellFormed) {var : VarId} {links : List Link} {back : Link}
    (hlinks : m.linksOf var = .ok links) (hback : back ∈ links) :
    ∃ others, m.linksOf back.other = .ok others ∧
      ∀ link, link ∈ others ∧ link.other = var ↔ link = ⟨var, back.relation, !back.reversed⟩ := by
  have hconnects := (hm.links (Checked.get_eq_ok.1 hlinks) back).1 hback
  obtain ⟨others, hothers, hmem⟩ := hm.linksOf_eq (hm.connects_bounds hconnects).2.1
  refine ⟨others, hothers, fun link => ⟨?_, ?_⟩⟩
  · rintro ⟨hin, hsame⟩
    exact hm.connects_unique_other ((hmem link).1 hin) hconnects.reverse hsame
  · rintro rfl
    exact ⟨(hmem _).2 hconnects.reverse, rfl⟩

/-- The queue is sound, the arcs in hand are arcs of the model, and what was accepted is what was
taken followed by what waits. -/
structure Tracked (m : Model) (moment : Moment) : Prop where
  queue : moment.sweep.queue.Sound m
  arcs : ∀ arc ∈ moment.phase.arcs, Valid m arc
  order : moment.accepted = moment.taken ++ moment.sweep.queue.toList

theorem Reached.tracked (hm : m.WellFormed) (h : Reached m entry start moment) :
    Tracked m moment := by
  induction h with
  | start hall =>
      obtain ⟨arcs, harcs, hmem⟩ := arcsOf_vars hm
      obtain rfl := Except.ok.inj (harcs.symm.trans hall)
      exact ⟨ArcQueue.empty_sound m, fun arc harc => (hmem arc).1 harc, rfl⟩
  | @accept queue _ _ _ arc _ _ _ _ hdown hpush ih =>
      have harc := ih.arcs arc (by simp [Phase.arcs])
      have hout := (ih.queue.queued_eq_false harc).1 hdown
      obtain ⟨queue', hpush', hsound, hlist⟩ := ArcQueue.push_of_not_mem ih.queue harc hout
      obtain rfl := Except.ok.inj (hpush'.symm.trans hpush)
      refine ⟨hsound, fun other ho => ih.arcs other (List.mem_cons_of_mem _ ho), ?_⟩
      dsimp only
      rw [hlist, ← List.append_assoc]
      exact congrArg (· ++ [arc]) ih.order
  | @drop queue _ _ _ arc _ _ _ _ hup hpush ih =>
      have harc := ih.arcs arc (by simp [Phase.arcs])
      have hpush' := ArcQueue.push_of_mem ih.queue ((ih.queue.queued harc).1 hup)
      obtain rfl := Except.ok.inj (hpush'.symm.trans hpush)
      exact ⟨ih.queue, fun other ho => ih.arcs other (List.mem_cons_of_mem _ ho), ih.order⟩
  | @take queue queue' _ _ arc _ taken _ hpop ih =>
      obtain ⟨hsound, hlist⟩ := ArcQueue.pop_eq_some ih.queue hpop
      refine ⟨hsound, fun other ho => ?_, ?_⟩
      · rw [List.mem_singleton.1 ho]
        exact ih.queue.valid (hlist ▸ List.mem_cons_self)
      · exact ih.order.trans (by simp [hlist])
  | keep _ _ _ ih => exact ⟨ih.queue, nofun, ih.order⟩
  | @shrink _ _ _ _ _ arc _ _ _ _ links _ _ _ _ _ _ hown ih =>
      have hconnects := hm.links (Checked.get_eq_ok.1 hown)
      exact ⟨ih.queue, fun other ho => ((mem_arcsInto hconnects).1 ho).1, ih.order⟩

/-! ## What a queue without losses means -/

/-- The queue of a moment has each waiting arc once, in the order of arrival, and tells by the flag
of a slot whether the arc with that slot waits. -/
structure Lossless (m : Model) (moment : Moment) : Prop where
  listed : ∀ arc ∈ moment.sweep.queue.toList, Listed m arc
  up_iff : ∀ i < 2 * m.relations.size, moment.sweep.queue.queued[i]? = some true ↔
    (moment.sweep.queue.toList.map fun arc => slot arc.link).count i = 1
  down_iff : ∀ i < 2 * m.relations.size, moment.sweep.queue.queued[i]? = some false ↔
    (moment.sweep.queue.toList.map fun arc => slot arc.link).count i = 0
  /-- What came out is the first part of what went in, and the rest waits. -/
  order : moment.accepted = moment.taken ++ moment.sweep.queue.toList
  size_le : moment.sweep.queue.size ≤ 2 * m.relations.size
  /-- The next arc in hand goes to the end, unless this very arc waits: then nothing changes. -/
  push : ∀ arc pending, moment.phase = .queueing (arc :: pending) → Listed m arc ∧
    ∃ queue, moment.sweep.queue.push arc = .ok queue ∧
      ((arc ∈ moment.sweep.queue.toList ∧ queue = moment.sweep.queue) ∨
        (arc ∉ moment.sweep.queue.toList ∧ queue.toList = moment.sweep.queue.toList ++ [arc]))
  /-- The arc that has waited longest comes out first. -/
  pop : ∀ arc rest, moment.sweep.queue.toList = arc :: rest →
    ∃ queue, moment.sweep.queue.pop = .ok (some (arc, queue)) ∧ queue.toList = rest

theorem Tracked.lossless (hm : m.WellFormed) (h : Tracked m moment) : Lossless m moment := by
  have hcount : ∀ i < 2 * m.relations.size, moment.sweep.queue.queued[i]? = some true ↔
      (moment.sweep.queue.toList.map fun arc => slot arc.link).count i = 1 := by
    intro i hi
    rw [h.queue.queued_iff hi]
    constructor
    · exact List.count_eq_one_of_mem h.queue.slots_nodup
    · intro hone
      exact List.count_pos_iff.1 (hone ▸ Nat.one_pos)
  refine ⟨fun arc harc => (listed_iff_valid hm).2 (h.queue.valid harc), hcount, fun i hi => ?_,
    h.order, h.queue.size_le, ?_, ?_⟩
  · have hlt : i < moment.sweep.queue.queued.size := by rwa [h.queue.queued_size]
    rw [List.count_eq_zero, ← h.queue.queued_iff hi, Array.getElem?_eq_getElem hlt]
    simp
  · intro arc pending hphase
    have harc : Valid m arc := h.arcs arc (by simp [hphase, Phase.arcs])
    refine ⟨(listed_iff_valid hm).2 harc, ?_⟩
    by_cases hin : arc ∈ moment.sweep.queue.toList
    · exact ⟨_, ArcQueue.push_of_mem h.queue hin, .inl ⟨hin, rfl⟩⟩
    · obtain ⟨queue, hpush, _, hlist⟩ := ArcQueue.push_of_not_mem h.queue harc hin
      exact ⟨queue, hpush, .inr ⟨hin, hlist⟩⟩
  · intro arc rest hlist
    obtain ⟨queue, hpop, _, hrest⟩ := ArcQueue.pop_of_cons h.queue hlist
    exact ⟨queue, hpop, hrest⟩

/-- A sweep ends without an empty domain only when no arc waits. -/
theorem toList_of_finished {sweep : Sweep} {outcome : Outcome} (hw : sweep.queue.Sound m)
    (hstep : step m sweep = .ok (.finished outcome)) (hnone : outcome.wiped = none) :
    sweep.queue.toList = [] := by
  cases stepResult_of_step hstep with
  | done hpop =>
      cases hlist : sweep.queue.toList with
      | nil => rfl
      | cons arc rest =>
          obtain ⟨queue, hpop', _⟩ := ArcQueue.pop_of_cons hw hlist
          cases hpop.symm.trans hpop'
  | wiped => cases hnone

end Invariant

variable {V : Type} [DecidableEq V]

/-- Over a built model, a link turned round is the only link of its head that leads back, and a
slot is the slot of one arc. So whatever the domains and counters a sweep starts from, its queue
turns an arc away only while that arc waits, lets the arcs out in the order in which it accepted
them, and has let out all of them when the sweep ends without an empty domain. -/
theorem waiting_arcs_never_lost {calls : List (Call V)} {p : Problem V}
    (hp : Problem.ofCalls calls = .ok p) :
    (∀ var links back, p.model.linksOf var = .ok links → back ∈ links →
      ∃ others, p.model.linksOf back.other = .ok others ∧
        ∀ link, link ∈ others ∧ link.other = var ↔
          link = ⟨var, back.relation, !back.reversed⟩) ∧
    (∀ arc other, Listed p.model arc → Listed p.model other →
      slot arc.link = slot other.link → arc = other) ∧
    ∀ entry start,
      (∀ moment, Reached p.model entry start moment → Lossless p.model moment) ∧
      ∀ outcome, enforce p.model entry start = .ok outcome →
        ∃ last accepted taken,
          Reached p.model entry start ⟨last, .queueing [], accepted, taken⟩ ∧
          step p.model last = .ok (.finished outcome) ∧
          (outcome.wiped = none → accepted = taken) := by
  have hm := (Problem.faithful_of_ofCalls hp).wellFormed
  refine ⟨fun var links back => mem_linksOf_back hm, ?_, fun entry start => ⟨?_, ?_⟩⟩
  · intro arc other harc hother hslot
    exact ((listed_iff_valid hm).1 harc).eq_of_slot ((listed_iff_valid hm).1 hother) hslot
  · exact fun moment hmoment => (hmoment.tracked hm).lossless hm
  · intro outcome houtcome
    obtain ⟨last, accepted, taken, hlast, hstep⟩ := exists_reached_of_enforce houtcome
    have htracked := hlast.tracked hm
    refine ⟨last, accepted, taken, hlast, hstep, fun hnone => ?_⟩
    have hall := htracked.order
    rwa [toList_of_finished htracked.queue hstep hnone, List.append_nil] at hall

theorem waiting_arcs_never_lost_chain :
    ∃ p outcome last accepted taken, Problem.ofCalls Call.ascendingChain = .ok p ∧
      enforce p.model (.ofDomains p.model.domains) (.zero p.model.relations.size) = .ok outcome ∧
      Reached p.model (.ofDomains p.model.domains) (.zero p.model.relations.size)
        ⟨last, .queueing [], accepted, taken⟩ ∧
      step p.model last = .ok (.finished outcome) ∧
      Lossless p.model ⟨last, .queueing [], accepted, taken⟩ := by
  obtain ⟨p, hp⟩ := Call.exists_ofCalls_ascendingChain
  have hm := (Problem.faithful_of_ofCalls hp).wellFormed
  have hzero : (Counters.zero p.model.relations.size).tallies.size = p.model.relations.size := by
    simp [Counters.zero]
  obtain ⟨outcome, hrun, _⟩ := enforce_spec hm hm.domains hzero
  obtain ⟨_, _, hsweeps⟩ := waiting_arcs_never_lost hp
  obtain ⟨hlossless, houtcome⟩ :=
    hsweeps (.ofDomains p.model.domains) (.zero p.model.relations.size)
  obtain ⟨last, accepted, taken, hlast, hstep, _⟩ := houtcome outcome hrun
  exact ⟨p, outcome, last, accepted, taken, hp, hrun, hlast, hstep, hlossless _ hlast⟩

end BinaryCsp.ArcConsistency
