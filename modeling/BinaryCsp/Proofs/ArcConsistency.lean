import BinaryCsp.ArcConsistency
import BinaryCsp.Proofs.ArcQueue
import BinaryCsp.Proofs.Build
import BinaryCsp.Proofs.Consistency

/-! # Arc consistency computes the greatest consistent family

The sweep keeps that every arc is waiting or needs no revision, and that no value of an arc
consistent family within the entry domains is gone. The arc from the head of the arc just revised
is not queued again: the values removed had no partner there, so nothing there relied on them. Each
revision uses up a waiting arc, and each one that queues arcs uses up a value, so the budget
suffices.
-/

namespace BinaryCsp.ArcConsistency

variable {m : Model}

/-! ## Revising one arc -/

theorem unsupported_spec (rows : Array BitSet) (head : BitSet) (values : List ValId)
    (hvalues : ∀ value ∈ values, value < rows.size) :
    ∃ doomed, unsupported rows head values = .ok doomed ∧
      ∀ value, value ∈ doomed ↔ value ∈ values ∧
        ¬ ∃ b, Relation.RowHas rows value b ∧ head.contains b = true := by
  induction values with
  | nil => exact ⟨[], rfl, by simp⟩
  | cons first rest ih =>
      have hlt := hvalues first (by simp)
      obtain ⟨doomed, hrest, hdoomed⟩ := ih fun value hvalue => hvalues value (by simp [hvalue])
      have hfirst : head.intersects rows[first] = true ↔
          ∃ b, Relation.RowHas rows first b ∧ head.contains b = true := by
        simp [BitSet.intersects_iff, Relation.RowHas, Array.getElem?_eq_getElem hlt, and_comm]
      refine ⟨_, by rw [unsupported, Checked.get_of_lt hlt, Checked.ok_bind, hrest]; rfl, ?_⟩
      intro value
      by_cases hsupported : head.intersects rows[first] = true
      · rw [if_pos hsupported, hdoomed, List.mem_cons]
        constructor
        · rintro ⟨hin, hnone⟩
          exact ⟨.inr hin, hnone⟩
        · rintro ⟨rfl | hin, hnone⟩
          · exact absurd (hfirst.1 hsupported) hnone
          · exact ⟨hin, hnone⟩
      · rw [if_neg hsupported, List.mem_cons, hdoomed, List.mem_cons]
        constructor
        · rintro (rfl | ⟨hin, hnone⟩)
          · exact ⟨.inl rfl, mt hfirst.2 hsupported⟩
          · exact ⟨.inr hin, hnone⟩
        · rintro ⟨rfl | hin, hnone⟩
          · exact .inl rfl
          · exact .inr ⟨hin, hnone⟩

def Supported (m : Model) (f : Family) (arc : Arc) (a : ValId) : Prop :=
  ∃ b ∈ f arc.link.other, m.Compatible arc.tail a arc.link.other b

/-- A revision keeps exactly the values with support, and counts the others. -/
theorem revise_spec (hm : m.WellFormed) {store : Store} {arc : Arc}
    (hs : store.Sound m.variableCount m.valueCount) (harc : ArcQueue.Valid m arc) :
    ∃ removed t, revise m store arc = .ok (removed, t) ∧ Store.Pruned store t ∧
      (∀ other b, b ∈ t.family other ↔ b ∈ store.family other ∧
        (other = arc.tail → Supported m store.family arc b)) ∧
      (removed = 0 ↔ ∀ b ∈ store.family arc.tail, Supported m store.family arc b) := by
  obtain ⟨htail, hhead, _⟩ := hm.connects_bounds harc
  obtain ⟨head, hget, _, _, hhas⟩ := hs.get_eq hhead
  obtain ⟨tail, hget', _, _, hhas'⟩ := hs.get_eq htail
  obtain ⟨rows, hrows, hsize, hcompat⟩ := hm.supportRows_eq harc
  have hbounded : ∀ value ∈ tail.toList, value < rows.size := by
    intro value hvalue
    rw [hsize]
    exact hs.bounded ((hhas' value).1 (BitSet.mem_toList.1 hvalue))
  obtain ⟨doomed, hdoomed, hmem⟩ := unsupported_spec rows head tail.toList hbounded
  obtain ⟨t, hremove, hpruned, hfamily⟩ := Store.removeAll_spec hs htail doomed
  have hdrop : ∀ b, b ∈ doomed ↔
      b ∈ store.family arc.tail ∧ ¬ Supported m store.family arc b := by
    intro b
    rw [hmem, BitSet.mem_toList, hhas']
    refine and_congr_right fun _ => not_congr ?_
    simp only [Supported, hcompat, hhas, and_comm]
  refine ⟨doomed.length, t, ?_, hpruned, ?_, ?_⟩
  · simp only [revise, hget, hget', hrows, hdoomed, hremove, Checked.ok_bind]
    rfl
  · intro other b
    rw [hfamily]
    refine and_congr_right fun hb => forall_congr' fun ho => ?_
    subst ho
    simp [hdrop, hb]
  · rw [List.length_eq_zero_iff, List.eq_nil_iff_forall_not_mem]
    refine forall_congr' fun b => ?_
    rw [hdrop]
    tauto

/-! ## The arcs of a model -/

theorem arcsOf_spec (hm : m.WellFormed) (vars : List VarId)
    (hvars : ∀ var ∈ vars, var < m.variableCount) :
    ∃ arcs, arcsOf m vars = .ok arcs ∧
      ∀ arc, arc ∈ arcs ↔ arc.tail ∈ vars ∧ ArcQueue.Valid m arc := by
  induction vars with
  | nil => exact ⟨[], rfl, by simp⟩
  | cons var rest ih =>
      obtain ⟨links, hlinks, hconnects⟩ := hm.linksOf_eq (hvars var (by simp))
      obtain ⟨arcs, harcs, hmem⟩ := ih fun other ho => hvars other (by simp [ho])
      refine ⟨_, by rw [arcsOf, hlinks, Checked.ok_bind, harcs]; rfl, ?_⟩
      intro arc
      rw [List.mem_append, List.mem_map, hmem, List.mem_cons]
      constructor
      · rintro (⟨link, hlink, rfl⟩ | ⟨hin, hvalid⟩)
        · exact ⟨.inl rfl, (hconnects link).1 hlink⟩
        · exact ⟨.inr hin, hvalid⟩
      · rintro ⟨rfl | hin, hvalid⟩
        · exact .inl ⟨arc.link, (hconnects arc.link).2 hvalid, rfl⟩
        · exact .inr ⟨hin, hvalid⟩

theorem arcsOf_vars (hm : m.WellFormed) :
    ∃ arcs, arcsOf m m.vars = .ok arcs ∧ ∀ arc, arc ∈ arcs ↔ ArcQueue.Valid m arc := by
  obtain ⟨arcs, harcs, hmem⟩ := arcsOf_spec hm m.vars fun var hvar => List.mem_range.1 hvar
  refine ⟨arcs, harcs, fun arc => ?_⟩
  rw [hmem]
  exact and_iff_right_of_imp fun h => List.mem_range.2 (hm.connects_bounds h).1

/-- The arcs queued again after a revision are those into its tail, except the one from its
head. -/
theorem mem_arcsInto {arc other : Arc} {links : List Link}
    (hlinks : ∀ link, link ∈ links ↔ m.Connects arc.tail link) :
    other ∈ arcsInto arc links ↔
      ArcQueue.Valid m other ∧ other.link.other = arc.tail ∧ other.tail ≠ arc.link.other := by
  simp only [arcsInto, List.mem_map, List.mem_filter, hlinks, bne_iff_ne]
  constructor
  · rintro ⟨back, ⟨hback, hne⟩, rfl⟩
    exact ⟨hback.reverse, rfl, hne⟩
  · rintro ⟨hvalid, hinto, hne⟩
    refine ⟨⟨other.tail, other.link.relation, !other.link.reversed⟩, ⟨?_, hne⟩, ?_⟩
    · rw [← hinto]
      exact hvalid.reverse
    · obtain ⟨tail, ⟨head, relation, reversed⟩⟩ := other
      dsimp only at hinto
      simp [hinto]

/-! ## Counting what is left to do -/

/-- The revisions that removals can still ask for: each value removed asks for the arcs of its
variable at most. -/
def weight (domains : List BitSet) (links : List (List Link)) : Nat :=
  ((domains.zip links).map fun (domain, links) => domain.size * links.length).foldl (· + ·) 0

theorem foldl_add_eq (total : Nat) (numbers : List Nat) :
    numbers.foldl (· + ·) total = total + numbers.foldl (· + ·) 0 := by
  induction numbers generalizing total with
  | nil => rfl
  | cons first rest ih =>
      rw [List.foldl_cons, List.foldl_cons, ih, ih (0 + first)]
      omega

theorem weight_cons (domain : BitSet) (domains : List BitSet) (links : List Link)
    (rest : List (List Link)) :
    weight (domain :: domains) (links :: rest) =
      domain.size * links.length + weight domains rest := by
  simp only [weight, List.zip_cons_cons, List.map_cons, List.foldl_cons]
  rw [foldl_add_eq]
  omega

theorem weight_modify {domains : List BitSet} {links : List (List Link)} {var : Nat}
    {domain : BitSet} {own : List Link} {f : BitSet → BitSet}
    (hdomain : domains[var]? = some domain)
    (hown : links[var]? = some own) (hsize : (f domain).size + 1 = domain.size) :
    weight (domains.modify var f) links + own.length = weight domains links := by
  induction domains generalizing links var with
  | nil => simp at hdomain
  | cons first rest ih =>
      cases links with
      | nil => simp at hown
      | cons firstLinks restLinks =>
          cases var with
          | zero =>
              obtain rfl : first = domain := by simpa using hdomain
              obtain rfl : firstLinks = own := by simpa using hown
              rw [List.modify_zero_cons, weight_cons, weight_cons, ← hsize, Nat.succ_mul]
              omega
          | succ var =>
              have hrest := ih (by simpa using hdomain) (by simpa using hown)
              rw [List.modify_succ_cons, weight_cons, weight_cons]
              omega

def storeWeight (m : Model) (store : Store) : Nat := weight store.domains.toList m.links.toList

theorem storeWeight_erase {count bound : Nat} {store : Store} (hs : store.Sound count bound)
    {var : VarId} {value : ValId} (hmem : value ∈ store.family var) {links : List Link}
    (hlinks : m.linksOf var = .ok links) :
    storeWeight m (store.erase var value) + links.length = storeWeight m store := by
  obtain ⟨domain, hget, hin⟩ := hmem
  rw [storeWeight, Store.erase, Array.toList_modify]
  have hpos := (hs.counted hget).pos hin
  have hsize : (domain.erase value).size + 1 = domain.size := by
    simp only [BitSet.erase]
    omega
  exact weight_modify (by simpa using hget) (by simpa using Checked.get_eq_ok.1 hlinks) hsize

theorem storeWeight_le (hm : m.WellFormed) {store t : Store}
    (hs : store.Sound m.variableCount m.valueCount) (h : Store.Pruned store t) :
    storeWeight m t ≤ storeWeight m store := by
  induction h with
  | refl => exact Nat.le_refl _
  | @step t var value before mem ih =>
      have ht := before.sound hs
      obtain ⟨links, hlinks, _⟩ := hm.linksOf_eq (ht.lt_of_mem mem)
      have hstep := storeWeight_erase ht mem hlinks
      omega

/-- A removal at `var` pays for queueing all arcs into `var`. -/
theorem storeWeight_of_removed (hm : m.WellFormed) {store t : Store}
    (hs : store.Sound m.variableCount m.valueCount) (h : Store.Pruned store t) {var : VarId}
    {value : ValId} (hold : value ∈ store.family var) (hnew : value ∉ t.family var)
    {links : List Link} (hlinks : m.linksOf var = .ok links) :
    storeWeight m t + links.length ≤ storeWeight m store := by
  induction h with
  | refl => exact absurd hold hnew
  | @step t other b before mem ih =>
      have ht := before.sound hs
      by_cases hthere : value ∈ t.family var
      · have hsame : var = other ∧ value = b := by
          by_contra hne
          exact hnew ((Store.mem_family_erase mem).2 ⟨hthere, hne⟩)
        obtain ⟨rfl, rfl⟩ := hsame
        have hstep := storeWeight_erase ht mem hlinks
        have hbefore := storeWeight_le hm hs before
        omega
      · obtain ⟨links', hlinks', _⟩ := hm.linksOf_eq (ht.lt_of_mem mem)
        have hstep := storeWeight_erase ht mem hlinks'
        have hbefore := ih hthere
        omega

/-! ## The invariant of the sweep -/

/-- Revisions change nothing but what is counted by relation. -/
structure Revised (before after : Counters) : Prop where
  nodes : after.nodes = before.nodes
  backtracks : after.backtracks = before.backtracks
  forwardPrunings : after.forwardPrunings = before.forwardPrunings
  size : after.tallies.size = before.tallies.size

theorem Revised.refl (c : Counters) : Revised c c := ⟨rfl, rfl, rfl, rfl⟩

theorem countRevision_spec {start c : Counters} {relation : RelationId} (removed : Nat)
    (hc : Revised start c) (h : relation < c.tallies.size) :
    ∃ c', c.countRevision relation removed = .ok c' ∧ Revised start c' := by
  obtain ⟨nodes, backtracks, forwardPrunings, tallies⟩ := c
  dsimp only at h
  let counted : Tally := ⟨tallies[relation].revisions + 1, tallies[relation].prunings + removed⟩
  refine ⟨⟨nodes, backtracks, forwardPrunings, tallies.set relation counted h⟩, ?_, hc.nodes,
    hc.backtracks, hc.forwardPrunings, ?_⟩
  · simp only [Counters.countRevision, Checked.get_of_lt h, Checked.set_of_lt h, Checked.ok_bind]
    rfl
  · dsimp only
    rw [Array.size_set]
    exact hc.size

/-- What holds between two revisions of a sweep that started from the store `entry` and the counters
`start`. -/
structure Invariant (m : Model) (entry : Store) (start : Counters) (sweep : Sweep) : Prop where
  pruned : Store.Pruned entry sweep.store
  queue : sweep.queue.Sound m
  revised : Revised start sweep.counters
  /-- An arc that does not wait needs no revision. -/
  settled : ∀ {arc : Arc}, ArcQueue.Valid m arc → arc ∉ sweep.queue.toList →
    ∀ a ∈ sweep.store.family arc.tail, Supported m sweep.store.family arc a
  /-- Nothing that an arc consistent family needs is gone. -/
  upper : ∀ f ∈ m.consistentBelow entry.family, f ≤ sweep.store.family
  nonempty : ∀ {var : VarId}, (entry.family var).Nonempty → (sweep.store.family var).Nonempty

/-- What holds when a sweep that started from the store `entry` and the counters `start` has
ended. -/
structure Settled (m : Model) (entry : Store) (start : Counters) (outcome : Outcome) : Prop where
  pruned : Store.Pruned entry outcome.store
  revised : Revised start outcome.counters
  upper : ∀ f ∈ m.consistentBelow entry.family, f ≤ outcome.store.family
  consistent : outcome.wiped = none → m.ArcConsistent outcome.store.family
  nonempty : outcome.wiped = none → ∀ {var : VarId}, (entry.family var).Nonempty →
    (outcome.store.family var).Nonempty
  emptied : ∀ {arc : Arc}, outcome.wiped = some arc →
    (entry.family arc.tail).Nonempty ∧ outcome.store.family arc.tail = ∅

/-- Waiting arcs and values that can still be removed. -/
def Sweep.measure (m : Model) (sweep : Sweep) : Nat :=
  sweep.queue.size + storeWeight m sweep.store

/-- A revision keeps all values that an arc consistent family needs. -/
theorem upper_of_revise {arc : Arc} (hm : m.WellFormed) (harc : ArcQueue.Valid m arc)
    {f before after : Family} (hf : m.ArcConsistent f) (hle : f ≤ before)
    (hafter : ∀ other b, b ∈ after other ↔ b ∈ before other ∧
      (other = arc.tail → Supported m before arc b)) : f ≤ after := by
  intro other b hb
  refine (hafter other b).2 ⟨hle other hb, ?_⟩
  rintro rfl
  obtain ⟨c, hc, hcompat⟩ := hm.arcConsistent_iff.1 hf arc.tail arc.link harc b hb
  exact ⟨c, hle _ hc, hcompat⟩

/-- After a revision, an arc that had support for all its values keeps it, unless it leads to the
tail of the revised arc from elsewhere than its head. -/
theorem supported_of_revise {arc other : Arc} (hm : m.WellFormed) {before after : Family}
    (hafter : ∀ var b, b ∈ after var ↔ b ∈ before var ∧
      (var = arc.tail → Supported m before arc b))
    (hinto : ¬ (other.link.other = arc.tail ∧ other.tail ≠ arc.link.other))
    (hsupported : other ≠ arc → ∀ a ∈ before other.tail, Supported m before other a) :
    ∀ a ∈ after other.tail, Supported m after other a := by
  intro a ha
  obtain ⟨hold, hrevised⟩ := (hafter other.tail a).1 ha
  -- A partner of `a` that was there before.
  obtain ⟨b, hb, hcompat⟩ : Supported m before other a := by
    by_cases heq : other = arc
    · subst heq
      exact hrevised rfl
    · exact hsupported heq a hold
  refine ⟨b, (hafter _ b).2 ⟨hb, fun hhead => ?_⟩, hcompat⟩
  -- It is gone only if the arc leads back to the tail, and then `a` itself is its partner.
  have htail : other.tail = arc.link.other := by
    by_contra hnot
    exact hinto ⟨hhead, hnot⟩
  refine ⟨a, htail ▸ hold, ?_⟩
  rw [hm.compatible_comm, ← htail, ← hhead]
  exact hcompat

/-- `next` is the sweep after the waiting arc `arc` has been taken out and revised, before any arc
is queued again. -/
structure Revision (m : Model) (start : Counters) (sweep : Sweep) (arc : Arc) (removed : Nat)
    (next : Sweep) : Prop where
  valid : ArcQueue.Valid m arc
  queue : next.queue.Sound m
  waiting : sweep.queue.toList = arc :: next.queue.toList
  pruned : Store.Pruned sweep.store next.store
  family : ∀ other b, b ∈ next.store.family other ↔ b ∈ sweep.store.family other ∧
    (other = arc.tail → Supported m sweep.store.family arc b)
  removed_eq_zero : removed = 0 ↔
    ∀ b ∈ sweep.store.family arc.tail, Supported m sweep.store.family arc b
  revised : Revised start next.counters

section Step

variable {entry : Store} {start : Counters} {sweep next : Sweep} {arc : Arc} {removed : Nat}

theorem exists_revision (hm : m.WellFormed) (hentry : entry.Sound m.variableCount m.valueCount)
    (hstart : start.tallies.size = m.relations.size) (h : Invariant m entry start sweep)
    {rest : List Arc} (hlist : sweep.queue.toList = arc :: rest) :
    ∃ removed next, sweep.queue.pop = .ok (some (arc, next.queue)) ∧
      revise m sweep.store arc = .ok (removed, next.store) ∧
      sweep.counters.countRevision arc.link.relation removed = .ok next.counters ∧
      Revision m start sweep arc removed next := by
  have hwaits : arc ∈ sweep.queue.toList := by simp [hlist]
  have harc := h.queue.valid hwaits
  obtain ⟨queue, hpop, hqueue, hrest⟩ := ArcQueue.pop_of_cons h.queue hlist
  obtain ⟨removed, store, hrevise, hpruned, hfamily, hzero⟩ :=
    revise_spec hm (h.pruned.sound hentry) harc
  have hrelation : arc.link.relation < sweep.counters.tallies.size := by
    obtain ⟨relation, hget, _⟩ := harc
    rw [h.revised.size, hstart]
    exact (Array.getElem?_eq_some_iff.1 hget).1
  obtain ⟨counters, hcount, hcounters⟩ := countRevision_spec removed h.revised hrelation
  exact ⟨removed, ⟨queue, store, counters⟩, hpop, hrevise, hcount,
    ⟨harc, hqueue, hlist.trans (by rw [hrest]), hpruned, hfamily, hzero, hcounters⟩⟩

theorem Revision.upper (hm : m.WellFormed) (h : Invariant m entry start sweep)
    (hr : Revision m start sweep arc removed next) :
    ∀ f ∈ m.consistentBelow entry.family, f ≤ next.store.family :=
  fun f hf => upper_of_revise hm hr.valid hf.2 (h.upper f hf) hr.family

theorem Revision.queue_size (hr : Revision m start sweep arc removed next) :
    next.queue.size + 1 = sweep.queue.size := by
  rw [ArcQueue.size_eq_length, ArcQueue.size_eq_length, hr.waiting, List.length_cons]

theorem Revision.settled (h : Invariant m entry start sweep)
    (hr : Revision m start sweep arc removed next) {other : Arc} (hother : ArcQueue.Valid m other)
    (hout : other ∉ next.queue.toList) (hne : other ≠ arc) :
    ∀ a ∈ sweep.store.family other.tail, Supported m sweep.store.family other a := by
  refine h.settled hother fun hin => ?_
  rw [hr.waiting, List.mem_cons] at hin
  exact hin.elim hne hout

/-- Nothing was removed, so the arc needs no further revision and no other arc is concerned. -/
theorem Revision.unchanged (hm : m.WellFormed) (hentry : entry.Sound m.variableCount m.valueCount)
    (h : Invariant m entry start sweep) (hr : Revision m start sweep arc removed next)
    (hnone : removed = 0) :
    Invariant m entry start next ∧ next.measure m < sweep.measure m := by
  have hall := hr.removed_eq_zero.1 hnone
  have hsame : next.store.family = sweep.store.family := by
    refine le_antisymm hr.pruned.family_le fun var b hb => (hr.family var b).2 ⟨hb, ?_⟩
    rintro rfl
    exact hall b hb
  refine ⟨⟨h.pruned.trans hr.pruned, hr.queue, hr.revised, ?_, hr.upper hm h, ?_⟩, ?_⟩
  · intro other hother hout
    rw [hsame]
    by_cases heq : other = arc
    · exact heq ▸ hall
    · exact hr.settled h hother hout heq
  · intro var hvar
    rw [hsame]
    exact h.nonempty hvar
  · have hle := storeWeight_le hm (h.pruned.sound hentry) hr.pruned
    have hsize := hr.queue_size
    simp only [Sweep.measure]
    omega

theorem Revision.exists_removed (hr : Revision m start sweep arc removed next)
    (hsome : removed ≠ 0) :
    ∃ b ∈ sweep.store.family arc.tail, b ∉ next.store.family arc.tail := by
  by_contra hall
  refine hsome (hr.removed_eq_zero.2 fun b hb => ?_)
  by_contra hnot
  exact hall ⟨b, hb, fun hin => hnot (((hr.family _ b).1 hin).2 rfl)⟩

/-- The tail has shrunk and keeps a value: the arcs into it are queued, and the values removed pay
for that. -/
theorem Revision.requeued (hm : m.WellFormed) (hentry : entry.Sound m.variableCount m.valueCount)
    (h : Invariant m entry start sweep) (hr : Revision m start sweep arc removed next)
    (hsome : removed ≠ 0) (hkept : (next.store.family arc.tail).Nonempty) :
    ∃ links queue, m.linksOf arc.tail = .ok links ∧
      next.queue.pushAll (arcsInto arc links) = .ok queue ∧
      Invariant m entry start ⟨queue, next.store, next.counters⟩ ∧
      Sweep.measure m ⟨queue, next.store, next.counters⟩ < sweep.measure m := by
  obtain ⟨links, hlinks, hconnects⟩ := hm.linksOf_eq (hm.connects_bounds hr.valid).1
  have hinto : ∀ other ∈ arcsInto arc links, ArcQueue.Valid m other :=
    fun other hother => ((mem_arcsInto hconnects).1 hother).1
  obtain ⟨queue, hpush, hqueue, hgrow, hmem⟩ := ArcQueue.pushAll_spec hr.queue hinto
  have hupper := hr.upper hm h
  refine ⟨links, queue, hlinks, hpush,
    ⟨h.pruned.trans hr.pruned, hqueue, hr.revised, ?_, hupper, ?_⟩, ?_⟩
  · intro other hother hout
    rw [hmem, not_or, mem_arcsInto hconnects] at hout
    exact supported_of_revise hm hr.family (fun hback => hout.2 ⟨hother, hback⟩)
      (hr.settled h hother hout.1)
  · intro var hvar
    by_cases heq : var = arc.tail
    · exact heq ▸ hkept
    · obtain ⟨c, hc⟩ := h.nonempty hvar
      exact ⟨c, (hr.family var c).2 ⟨hc, fun ho => absurd ho heq⟩⟩
  · obtain ⟨b, hb, hgone⟩ := hr.exists_removed hsome
    have hpaid := storeWeight_of_removed hm (h.pruned.sound hentry) hr.pruned hb hgone hlinks
    have hfew : (arcsInto arc links).length ≤ links.length := by
      simp only [arcsInto, List.length_map]
      exact List.length_filter_le _ _
    have hsize := hr.queue_size
    simp only [Sweep.measure]
    omega

theorem Revision.emptied (hm : m.WellFormed) (h : Invariant m entry start sweep)
    (hr : Revision m start sweep arc removed next) (hsome : removed ≠ 0)
    (hempty : next.store.family arc.tail = ∅) :
    Settled m entry start ⟨next.store, next.counters, some arc⟩ := by
  obtain ⟨b, hb, _⟩ := hr.exists_removed hsome
  refine ⟨h.pruned.trans hr.pruned, hr.revised, hr.upper hm h, nofun, nofun, ?_⟩
  rintro _ ⟨⟩
  exact ⟨⟨b, h.pruned.family_le _ hb⟩, hempty⟩

/-- The next waiting arc is taken out and revised, with `next` as the result. -/
structure Revises (m : Model) (start : Counters) (sweep : Sweep) (arc : Arc) (removed : Nat)
    (next : Sweep) : Prop extends Revision m start sweep arc removed next where
  revise_eq : revise m sweep.store arc = .ok (removed, next.store)
  count_eq : sweep.counters.countRevision arc.link.relation removed = .ok next.counters

/-- What a step of a sweep does. -/
inductive Stepped (m : Model) (start : Counters) (sweep : Sweep) : Progress → Prop where
  | done (waiting : sweep.queue.toList = []) :
      Stepped m start sweep (.finished ⟨sweep.store, sweep.counters, none⟩)
  | unchanged {arc : Arc} {next : Sweep} (revises : Revises m start sweep arc 0 next) :
      Stepped m start sweep (.running next)
  | emptied {arc : Arc} {removed : Nat} {next : Sweep}
      (revises : Revises m start sweep arc removed next) (shrunk : removed ≠ 0)
      (empty : next.store.family arc.tail = ∅) :
      Stepped m start sweep (.finished ⟨next.store, next.counters, some arc⟩)
  | requeued {arc : Arc} {removed : Nat} {next : Sweep} {links : List Link} {queue : ArcQueue}
      (revises : Revises m start sweep arc removed next) (shrunk : removed ≠ 0)
      (kept : (next.store.family arc.tail).Nonempty) (own : m.linksOf arc.tail = .ok links)
      (push : next.queue.pushAll (arcsInto arc links) = .ok queue) :
      Stepped m start sweep (.running ⟨queue, next.store, next.counters⟩)

theorem exists_stepped (hm : m.WellFormed) (hentry : entry.Sound m.variableCount m.valueCount)
    (hstart : start.tallies.size = m.relations.size) (h : Invariant m entry start sweep) :
    ∃ progress, step m sweep = .ok progress ∧ Stepped m start sweep progress := by
  cases hlist : sweep.queue.toList with
  | nil =>
      refine ⟨_, ?_, .done hlist⟩
      simp only [step, ArcQueue.pop_of_nil hlist, Checked.ok_bind]
      rfl
  | cons arc rest =>
      obtain ⟨removed, next, hpop, hrevise, hcount, hr⟩ := exists_revision hm hentry hstart h hlist
      have hrevises : Revises m start sweep arc removed next := ⟨hr, hrevise, hcount⟩
      have hnext := hr.pruned.sound (h.pruned.sound hentry)
      obtain ⟨domain, hdomain, _, hcounted, hhas⟩ := hnext.get_eq (hm.connects_bounds hr.valid).1
      have hempty : domain.isEmpty = true ↔ next.store.family arc.tail = ∅ := by
        rw [hcounted.isEmpty_iff, Set.eq_empty_iff_forall_notMem]
        refine forall_congr' fun c => ?_
        rw [← hhas, Bool.not_eq_true]
      by_cases hnone : removed = 0
      · subst hnone
        refine ⟨_, ?_, .unchanged hrevises⟩
        simp only [step, hpop, hrevise, hcount, Checked.ok_bind, if_true]
        rfl
      · by_cases hnil : domain.isEmpty = true
        · refine ⟨_, ?_, .emptied hrevises hnone (hempty.1 hnil)⟩
          simp only [step, hpop, hrevise, hcount, Checked.ok_bind, if_neg hnone, hdomain,
            if_pos hnil]
          rfl
        · have hkept := Set.nonempty_iff_ne_empty.2 (mt hempty.2 hnil)
          obtain ⟨links, queue, hlinks, hpush, _⟩ := hr.requeued hm hentry h hnone hkept
          refine ⟨_, ?_, .requeued hrevises hnone hkept hlinks hpush⟩
          simp only [step, hpop, hrevise, hcount, Checked.ok_bind, if_neg hnone, hdomain,
            if_neg hnil, hlinks, hpush]
          rfl

/-- One step keeps the invariant and uses up something, or ends the sweep. -/
theorem step_spec (hm : m.WellFormed) (hentry : entry.Sound m.variableCount m.valueCount)
    (hstart : start.tallies.size = m.relations.size) (h : Invariant m entry start sweep) :
    (∃ next, step m sweep = .ok (.running next) ∧ Invariant m entry start next ∧
      next.measure m < sweep.measure m) ∨
    ∃ outcome, step m sweep = .ok (.finished outcome) ∧ Settled m entry start outcome := by
  obtain ⟨progress, hstep, hstepped⟩ := exists_stepped hm hentry hstart h
  cases hstepped with
  | done hlist =>
      refine .inr ⟨_, hstep, h.pruned, h.revised, h.upper, fun _ => ?_, fun _ => h.nonempty, nofun⟩
      rw [hm.arcConsistent_iff]
      intro var link hlink
      have hvalid : ArcQueue.Valid m ⟨var, link⟩ := hlink
      exact h.settled hvalid (by simp [hlist])
  | unchanged hr => exact .inl ⟨_, hstep, hr.unchanged hm hentry h rfl⟩
  | emptied hr hsome hempty => exact .inr ⟨_, hstep, hr.emptied hm h hsome hempty⟩
  | requeued hr hsome hkept hlinks hpush =>
      obtain ⟨links', queue', hlinks', hpush', hnext⟩ := hr.requeued hm hentry h hsome hkept
      obtain rfl := Except.ok.inj (hlinks'.symm.trans hlinks)
      obtain rfl := Except.ok.inj (hpush'.symm.trans hpush)
      exact .inl ⟨_, hstep, hnext⟩

end Step

/-- If every step keeps `P` and uses up something, or ends the sweep with `Q`, then the sweep ends
with `Q`. -/
theorem settle_of_steps {P : Sweep → Prop} {Q : Outcome → Prop} {left : Sweep → Nat}
    (hstep : ∀ sweep, P sweep →
      (∃ next, step m sweep = .ok (.running next) ∧ P next ∧ left next < left sweep) ∨
      ∃ outcome, step m sweep = .ok (.finished outcome) ∧ Q outcome)
    {budget : Nat} {sweep : Sweep} (h : P sweep) (hbudget : left sweep < budget) :
    ∃ outcome, settle m budget sweep = .ok outcome ∧ Q outcome := by
  induction budget generalizing sweep with
  | zero => omega
  | succ budget ih =>
      rcases hstep sweep h with ⟨next, hrun, hnext, hless⟩ | ⟨outcome, hrun, houtcome⟩
      · obtain ⟨outcome, hsettle, houtcome⟩ := ih hnext (by omega)
        exact ⟨outcome, by simp only [settle, hrun, Checked.ok_bind, hsettle], houtcome⟩
      · exact ⟨outcome, by simp only [settle, hrun, Checked.ok_bind]; rfl, houtcome⟩

/-- A sweep that has ended within its budget ends alike within every larger one. -/
theorem settle_of_le {budget more : Nat} {sweep : Sweep} {outcome : Outcome}
    (h : settle m budget sweep = .ok outcome) (hle : budget ≤ more) :
    settle m more sweep = .ok outcome := by
  induction budget generalizing more sweep with
  | zero => cases h
  | succ budget ih =>
      obtain ⟨more, rfl⟩ := Nat.exists_eq_add_of_le' (Nat.lt_of_lt_of_le (Nat.succ_pos _) hle)
      rw [settle] at h ⊢
      obtain ⟨progress, hstep, h⟩ := Checked.bind_eq_ok.1 h
      rw [hstep, Checked.ok_bind]
      cases progress with
      | running next => exact ih h (Nat.le_of_succ_le_succ hle)
      | finished outcome => exact h

/-- How a sweep ends does not depend on its budget. -/
theorem settle_unique {budget more : Nat} {sweep : Sweep} {outcome other : Outcome}
    (h : settle m budget sweep = .ok outcome) (h' : settle m more sweep = .ok other) :
    outcome = other := by
  have hlarge := settle_of_le h (Nat.le_max_left budget more)
  rw [settle_of_le h' (Nat.le_max_right budget more)] at hlarge
  exact (Except.ok.inj hlarge).symm

theorem settle_spec (hm : m.WellFormed) {entry : Store} {start : Counters}
    (hentry : entry.Sound m.variableCount m.valueCount)
    (hstart : start.tallies.size = m.relations.size) {budget : Nat} {sweep : Sweep}
    (h : Invariant m entry start sweep) (hbudget : sweep.measure m < budget) :
    ∃ outcome, settle m budget sweep = .ok outcome ∧ Settled m entry start outcome :=
  settle_of_steps (fun _ hs => step_spec hm hentry hstart hs) h hbudget

/-! ## The whole sweep -/

theorem invariant_start (counters : Counters) {entry : Store} {queue : ArcQueue}
    (hqueue : queue.Sound m) (hall : ∀ arc, ArcQueue.Valid m arc → arc ∈ queue.toList) :
    Invariant m entry counters ⟨queue, entry, counters⟩ where
  pruned := .refl entry
  queue := hqueue
  revised := .refl counters
  settled := fun harc hout => absurd (hall _ harc) hout
  upper := fun _ hf => hf.1
  nonempty := id

/-- A sweep may start from the arcs of the model in any order. -/
theorem settle_of_arcs (hm : m.WellFormed) {entry : Store} {counters : Counters}
    (hentry : entry.Sound m.variableCount m.valueCount)
    (hcounters : counters.tallies.size = m.relations.size) {arcs : List Arc}
    (harcs : ∀ arc, arc ∈ arcs ↔ ArcQueue.Valid m arc) :
    ∃ queue outcome, (ArcQueue.empty m.relations.size).pushAll arcs = .ok queue ∧
      settle m (revisionBudget m entry) ⟨queue, entry, counters⟩ = .ok outcome ∧
      Settled m entry counters outcome := by
  obtain ⟨queue, hpush, hqueue, _, hmem⟩ :=
    ArcQueue.pushAll_spec (ArcQueue.empty_sound m) fun arc harc => (harcs arc).1 harc
  have hinvariant : Invariant m entry counters ⟨queue, entry, counters⟩ :=
    invariant_start counters hqueue fun arc harc => (hmem arc).2 (.inr ((harcs arc).2 harc))
  have hbudget : Sweep.measure m ⟨queue, entry, counters⟩ < revisionBudget m entry := by
    have hsize := hqueue.size_le
    change queue.size + weight entry.domains.toList m.links.toList <
      2 * m.relations.size + weight entry.domains.toList m.links.toList + 1
    omega
  obtain ⟨outcome, hrun, houtcome⟩ := settle_spec hm hentry hcounters hinvariant hbudget
  exact ⟨queue, outcome, hpush, hrun, houtcome⟩

theorem enforce_spec (hm : m.WellFormed) {entry : Store} {counters : Counters}
    (hentry : entry.Sound m.variableCount m.valueCount)
    (hcounters : counters.tallies.size = m.relations.size) :
    ∃ outcome, enforce m entry counters = .ok outcome ∧ Settled m entry counters outcome := by
  obtain ⟨arcs, harcs, hmem⟩ := arcsOf_vars hm
  obtain ⟨queue, outcome, hpush, hrun, houtcome⟩ := settle_of_arcs hm hentry hcounters hmem
  exact ⟨outcome, by simp only [enforce, harcs, hpush, hrun, Checked.ok_bind], houtcome⟩

section Settled

variable {entry : Store} {start : Counters} {outcome : Outcome} {g : Family}

/-- A sweep that ends without an empty domain leaves the greatest arc consistent family. -/
theorem Settled.isGreatest (h : Settled m entry start outcome) (hnone : outcome.wiped = none) :
    IsGreatest (m.consistentBelow entry.family) outcome.store.family :=
  ⟨⟨h.pruned.family_le, h.consistent hnone⟩, h.upper⟩

/-- The verdict is read off the greatest arc consistent family. -/
theorem Settled.wiped_eq_none_iff (h : Settled m entry start outcome)
    (hg : IsGreatest (m.consistentBelow entry.family) g) :
    outcome.wiped = none ↔ ∀ var, (entry.family var).Nonempty → (g var).Nonempty := by
  constructor
  · intro hnone var hvar
    rw [hg.unique (h.isGreatest hnone)]
    exact h.nonempty hnone hvar
  · intro hall
    cases hwiped : outcome.wiped with
    | none => rfl
    | some arc =>
        obtain ⟨hfull, hempty⟩ := h.emptied hwiped
        obtain ⟨a, ha⟩ := hall arc.tail hfull
        have hin := h.upper g hg.1 arc.tail ha
        rw [hempty] at hin
        exact absurd hin (Set.notMem_empty a)

theorem Settled.again (hm : m.WellFormed) (hentry : entry.Sound m.variableCount m.valueCount)
    (hstart : start.tallies.size = m.relations.size) (h : Settled m entry start outcome)
    (hnone : outcome.wiped = none) :
    ∃ again, enforce m outcome.store outcome.counters = .ok again ∧ again.wiped = none ∧
      again.store = outcome.store := by
  obtain ⟨again, hrun, hagain⟩ := enforce_spec hm (h.pruned.sound hentry)
    (h.revised.size.trans hstart)
  have hfixed := (h.consistent hnone).isGreatest
  have hverdict : again.wiped = none := (hagain.wiped_eq_none_iff hfixed).2 fun _ hvar => hvar
  exact ⟨again, hrun, hverdict, hagain.pruned.eq_of_family_eq
    ((hagain.isGreatest hverdict).unique hfixed)⟩

end Settled

variable {V : Type} [DecidableEq V]

/-- On any domains over a built model the sweep ends, and decides and computes the greatest arc
consistent family within them. So the order of the arcs makes no difference, a second sweep
removes nothing, and no choice of compatible values is lost. -/
theorem enforce_computes_greatest {calls : List (Call V)} {p : Problem V}
    (hp : Problem.ofCalls calls = .ok p) {entry : Store}
    (hentry : entry.Sound p.model.variableCount p.model.valueCount) {counters : Counters}
    (hcounters : counters.tallies.size = p.model.relations.size) :
    ∃ g outcome, IsGreatest (p.model.consistentBelow entry.family) g ∧
      enforce p.model entry counters = .ok outcome ∧
      (outcome.wiped = none ↔ ∀ var, (entry.family var).Nonempty → (g var).Nonempty) ∧
      (outcome.wiped = none → outcome.store.family = g) ∧
      (outcome.wiped ≠ none → g ≤ outcome.store.family ∧
        ∃ var, (entry.family var).Nonempty ∧ outcome.store.family var = ∅) ∧
      (∀ arcs order : List Arc, arcsOf p.model p.model.vars = .ok arcs → order.Perm arcs →
        ∃ queue other, (ArcQueue.empty p.model.relations.size).pushAll order = .ok queue ∧
          settle p.model (revisionBudget p.model entry) ⟨queue, entry, counters⟩ = .ok other ∧
          (other.wiped = none ↔ outcome.wiped = none) ∧
          (outcome.wiped = none → other.store.family = outcome.store.family)) ∧
      (outcome.wiped = none → ∃ again,
        enforce p.model outcome.store outcome.counters = .ok again ∧ again.wiped = none ∧
          again.store = outcome.store) ∧
      ∀ pick, p.model.Fits pick entry.family → p.model.Fits pick outcome.store.family := by
  have hm := (Problem.faithful_of_ofCalls hp).wellFormed
  obtain ⟨g, hg⟩ := p.model.exists_isGreatest entry.family
  obtain ⟨outcome, hrun, h⟩ := enforce_spec hm hentry hcounters
  refine ⟨g, outcome, hg, hrun, h.wiped_eq_none_iff hg, fun hnone => (h.isGreatest hnone).unique hg,
    ?_, ?_, h.again hm hentry hcounters, ?_⟩
  · intro hwiped
    refine ⟨h.upper g hg.1, ?_⟩
    obtain ⟨arc, harc⟩ := Option.ne_none_iff_exists'.1 hwiped
    exact ⟨arc.tail, h.emptied harc⟩
  · intro arcs order harcs hperm
    obtain ⟨arcs', harcs', hmem⟩ := arcsOf_vars hm
    obtain rfl : arcs' = arcs := Except.ok.inj (harcs'.symm.trans harcs)
    obtain ⟨queue, other, hpush, hrun', hother⟩ := settle_of_arcs hm hentry hcounters
      fun arc => hperm.mem_iff.trans (hmem arc)
    have hverdict : other.wiped = none ↔ outcome.wiped = none := by
      rw [hother.wiped_eq_none_iff hg, h.wiped_eq_none_iff hg]
    exact ⟨queue, other, hpush, hrun', hverdict, fun hnone =>
      (hother.isGreatest (hverdict.2 hnone)).unique (h.isGreatest hnone)⟩
  · intro pick hpick
    exact ⟨fun hvar => h.upper _ (hpick.picked_mem hm) _ ⟨hvar, rfl⟩, hpick.compatible⟩

theorem enforce_computes_greatest_chain :
    ∃ p outcome, Problem.ofCalls Call.ascendingChain = .ok p ∧
      enforce p.model (.ofDomains p.model.domains) (.zero p.model.relations.size) = .ok outcome ∧
      ∃ g, IsGreatest (p.model.consistentBelow (Store.ofDomains p.model.domains).family) g ∧
        (outcome.wiped = none → outcome.store.family = g) := by
  obtain ⟨p, hp⟩ := Call.exists_ofCalls_ascendingChain
  have hm := (Problem.faithful_of_ofCalls hp).wellFormed
  have hzero : (Counters.zero p.model.relations.size).tallies.size = p.model.relations.size := by
    simp [Counters.zero]
  obtain ⟨g, outcome, hg, hrun, _, hsame, _⟩ := enforce_computes_greatest hp hm.domains hzero
  exact ⟨p, outcome, hp, hrun, g, hg, hsame⟩

end BinaryCsp.ArcConsistency
