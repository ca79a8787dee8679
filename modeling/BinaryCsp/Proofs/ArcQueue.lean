import BinaryCsp.ArcQueue
import BinaryCsp.Proofs.Model

/-! # The arc queue as a list

The queue is read through `toList`. In a sound queue the flag of a slot says whether the arc with
that slot waits, and a slot belongs to one arc only. So an arc that is not queued again is waiting
already, and nothing is lost.
-/

namespace BinaryCsp.ArcQueue

variable {m : Model} {w : ArcQueue} {arc : Arc}

def Valid (m : Model) (arc : Arc) : Prop := m.Connects arc.tail arc.link

structure Sound (m : Model) (w : ArcQueue) : Prop where
  valid : ∀ {arc : Arc}, arc ∈ w.toList → Valid m arc
  nodup : w.toList.Nodup
  queued_size : w.queued.size = 2 * m.relations.size
  /-- The flag of a slot says whether its arc waits. -/
  queued : ∀ {arc : Arc}, Valid m arc →
    (w.queued[slot arc.link]? = some true ↔ arc ∈ w.toList)

theorem Valid.slot_lt (h : Valid m arc) : slot arc.link < 2 * m.relations.size := by
  obtain ⟨relation, hget, _⟩ := h
  have hlt : arc.link.relation < m.relations.size := (Array.getElem?_eq_some_iff.1 hget).1
  unfold slot
  cases arc.link.reversed <;> simp only [Bool.toNat_false, Bool.toNat_true] <;> lia

theorem Valid.eq_of_slot {other : Arc} (h : Valid m arc) (h' : Valid m other)
    (hslot : slot arc.link = slot other.link) : arc = other := by
  obtain ⟨tail, ⟨head, relation, reversed⟩⟩ := arc
  obtain ⟨tail', ⟨head', relation', reversed'⟩⟩ := other
  obtain ⟨r, hget, hpair⟩ := h
  obtain ⟨r', hget', hpair'⟩ := h'
  dsimp only [slot] at hslot hget hget' hpair hpair'
  have hsame : relation = relation' ∧ reversed = reversed' := by
    cases reversed <;> cases reversed' <;>
      simp only [Bool.toNat_false, Bool.toNat_true] at hslot <;> simp <;> lia
  obtain ⟨rfl, rfl⟩ := hsame
  obtain rfl : r = r' := Option.some.inj (hget.symm.trans hget')
  rw [hpair] at hpair'
  cases reversed with
  | false =>
      simp only [Bool.false_eq_true, if_false, VarPair.mk.injEq] at hpair'
      simp [hpair']
  | true =>
      simp only [if_true, VarPair.mk.injEq] at hpair'
      simp [hpair']

theorem exists_valid_of_lt {i : Nat} (h : i < 2 * m.relations.size) :
    ∃ arc, Valid m arc ∧ slot arc.link = i := by
  have hget := Array.getElem?_eq_getElem (show i / 2 < m.relations.size by omega)
  rcases Nat.mod_two_eq_zero_or_one i with heven | hodd
  · refine ⟨⟨_, _, i / 2, false⟩, ⟨_, hget, rfl⟩, ?_⟩
    simp only [slot, Bool.toNat_false]
    omega
  · refine ⟨⟨_, _, i / 2, true⟩, ⟨_, hget, rfl⟩, ?_⟩
    simp only [slot, Bool.toNat_true]
    omega

theorem size_eq_length (w : ArcQueue) : w.size = w.toList.length := by
  simp [size, toList]

theorem empty_sound (m : Model) : (empty m.relations.size).Sound m where
  valid := by simp [empty, toList]
  nodup := by simp [empty, toList]
  queued_size := by simp [empty]
  queued := by
    intro arc harc
    simp [empty, toList, Array.getElem?_replicate]

/-! ## Queueing -/

theorem Sound.slot_lt (hw : w.Sound m) (harc : Valid m arc) : slot arc.link < w.queued.size := by
  rw [hw.queued_size]
  exact harc.slot_lt

theorem Sound.queued_eq_false (hw : w.Sound m) (harc : Valid m arc) :
    w.queued[slot arc.link]? = some false ↔ arc ∉ w.toList := by
  rw [← hw.queued harc, Array.getElem?_eq_getElem (hw.slot_lt harc)]
  simp

theorem push_of_mem (hw : w.Sound m) (h : arc ∈ w.toList) : w.push arc = .ok w := by
  have hflag := (hw.queued (hw.valid h)).2 h
  obtain ⟨front, back, queued⟩ := w
  simp [push, Checked.get_eq_ok.2 hflag]

theorem push_of_not_mem (hw : w.Sound m) (harc : Valid m arc) (h : arc ∉ w.toList) :
    ∃ w', w.push arc = .ok w' ∧ w'.Sound m ∧ w'.toList = w.toList ++ [arc] := by
  have hflag := (hw.queued_eq_false harc).2 h
  have hlt := hw.slot_lt harc
  obtain ⟨front, back, queued⟩ := w
  dsimp only at hflag hlt
  let w' : ArcQueue := ⟨front, arc :: back, queued.set (slot arc.link) true hlt⟩
  have hlist : w'.toList = toList ⟨front, back, queued⟩ ++ [arc] := by simp [w', toList]
  refine ⟨w', ?_, ⟨?_, ?_, ?_, ?_⟩, hlist⟩
  · simp [push, Checked.get_eq_ok.2 hflag, Checked.set_of_lt hlt, w']
  · intro other ho
    rw [hlist, List.mem_append, List.mem_singleton] at ho
    rcases ho with ho | rfl
    · exact hw.valid ho
    · exact harc
  · rw [hlist]
    refine List.nodup_append.2 ⟨hw.nodup, List.nodup_singleton arc, ?_⟩
    intro a ha b hb
    rw [List.mem_singleton] at hb
    rintro rfl
    exact h (hb ▸ ha)
  · simpa [w'] using hw.queued_size
  · intro other ho
    rw [hlist, List.mem_append, List.mem_singleton, ← hw.queued ho]
    simp only [w', Array.getElem?_set]
    by_cases hslot : slot arc.link = slot other.link
    · obtain rfl := harc.eq_of_slot ho hslot
      simp
    · have hne : other ≠ arc := by
        rintro rfl
        exact hslot rfl
      simp [hslot, hne]

/-- After a push the arc waits, and so do those that waited before. -/
theorem push_spec (hw : w.Sound m) (harc : Valid m arc) :
    ∃ w', w.push arc = .ok w' ∧ w'.Sound m ∧ w'.size ≤ w.size + 1 ∧
      ∀ other, other ∈ w'.toList ↔ other ∈ w.toList ∨ other = arc := by
  by_cases h : arc ∈ w.toList
  · refine ⟨w, push_of_mem hw h, hw, Nat.le_succ _, fun other => ?_⟩
    exact (or_iff_left_of_imp fun heq => heq ▸ h).symm
  · obtain ⟨w', hpush, hsound, hlist⟩ := push_of_not_mem hw harc h
    refine ⟨w', hpush, hsound, ?_, fun other => ?_⟩
    · simp [size_eq_length, hlist]
    · rw [hlist, List.mem_append, List.mem_singleton]

theorem pushAll_spec {arcs : List Arc} (hw : w.Sound m) (harcs : ∀ arc ∈ arcs, Valid m arc) :
    ∃ w', w.pushAll arcs = .ok w' ∧ w'.Sound m ∧ w'.size ≤ w.size + arcs.length ∧
      ∀ other, other ∈ w'.toList ↔ other ∈ w.toList ∨ other ∈ arcs := by
  induction arcs generalizing w with
  | nil => exact ⟨w, rfl, hw, by simp, by simp⟩
  | cons arc rest ih =>
      obtain ⟨first, hpush, hfirst, hsize, hmem⟩ := push_spec hw (harcs arc (by simp))
      obtain ⟨final, hrest, hfinal, hsize', hmem'⟩ :=
        ih hfirst fun other ho => harcs other (by simp [ho])
      refine ⟨final, by rw [pushAll, hpush, Checked.ok_bind, hrest], hfinal, ?_, ?_⟩
      · rw [List.length_cons]
        omega
      · intro other
        rw [hmem', hmem, List.mem_cons, or_assoc]

/-! ## Taking the next arc -/

theorem normalise_spec (w : ArcQueue) :
    w.normalise.toList = w.toList ∧ w.normalise.queued = w.queued ∧
      (w.normalise.front = [] → w.toList = []) := by
  obtain ⟨front, back, queued⟩ := w
  cases front with
  | nil => simp [normalise, toList]
  | cons arc front => simp [normalise, toList]

theorem pop_of_nil (h : w.toList = []) : w.pop = .ok none := by
  obtain ⟨front, back, queued⟩ := w
  simp only [toList, List.append_eq_nil_iff, List.reverse_eq_nil_iff] at h
  obtain ⟨rfl, rfl⟩ := h
  rfl

theorem pop_of_cons (hw : w.Sound m) {rest : List Arc} (h : w.toList = arc :: rest) :
    ∃ w', w.pop = .ok (some (arc, w')) ∧ w'.Sound m ∧ w'.toList = rest := by
  obtain ⟨hlist, hqueued, hnil⟩ := w.normalise_spec
  unfold pop
  cases hn : w.normalise with
  | mk front back queued =>
      rw [hn] at hlist hqueued hnil
      dsimp only at hqueued hnil
      cases front with
      | nil =>
          rw [hnil rfl] at h
          cases h
      | cons first front =>
          rw [h] at hlist
          simp only [toList, List.cons_append, List.cons.injEq] at hlist
          obtain ⟨rfl, hrest⟩ := hlist
          have hfirst : first ∈ w.toList := by simp [h]
          have harc := hw.valid hfirst
          have hlt : slot first.link < queued.size := by
            rw [hqueued]
            exact hw.slot_lt harc
          have hfresh : first ∉ rest := (List.nodup_cons.1 (h ▸ hw.nodup)).1
          refine ⟨⟨front, back, queued.set (slot first.link) false hlt⟩, ?_, ⟨?_, ?_, ?_, ?_⟩,
            hrest⟩
          · simp [Checked.set_of_lt hlt]
          · intro other ho
            exact hw.valid (by rw [h]; exact List.mem_cons_of_mem _ (hrest ▸ ho))
          · change (front ++ back.reverse).Nodup
            rw [hrest]
            exact (List.nodup_cons.1 (h ▸ hw.nodup)).2
          · simpa [hqueued] using hw.queued_size
          · intro other ho
            have hold := hw.queued ho
            rw [h, List.mem_cons, ← hqueued] at hold
            change _ ↔ other ∈ front ++ back.reverse
            rw [hrest]
            simp only [Array.getElem?_set]
            by_cases hslot : slot first.link = slot other.link
            · obtain rfl := harc.eq_of_slot ho hslot
              simp [hfresh]
            · have hne : other ≠ first := by
                rintro rfl
                exact hslot rfl
              simpa [hslot, hne] using hold

theorem pop_eq_some {w' : ArcQueue} (hw : w.Sound m) (h : w.pop = .ok (some (arc, w'))) :
    w'.Sound m ∧ w.toList = arc :: w'.toList := by
  cases hlist : w.toList with
  | nil =>
      rw [pop_of_nil hlist] at h
      cases h
  | cons first rest =>
      obtain ⟨next, hpop, hnext, hrest⟩ := pop_of_cons hw hlist
      rw [hpop] at h
      cases h
      exact ⟨hnext, by rw [hrest]⟩

/-! ## Slots -/

theorem Sound.slots_nodup (hw : w.Sound m) : (w.toList.map fun arc => slot arc.link).Nodup := by
  refine hw.nodup.map_on ?_
  intro a ha b hb hab
  exact (hw.valid ha).eq_of_slot (hw.valid hb) hab

theorem Sound.queued_iff {i : Nat} (hw : w.Sound m) (h : i < 2 * m.relations.size) :
    w.queued[i]? = some true ↔ i ∈ w.toList.map fun arc => slot arc.link := by
  obtain ⟨arc, harc, rfl⟩ := exists_valid_of_lt h
  rw [hw.queued harc, List.mem_map]
  constructor
  · exact fun hin => ⟨arc, hin, rfl⟩
  · rintro ⟨other, hin, hslot⟩
    exact harc.eq_of_slot (hw.valid hin) hslot.symm ▸ hin

theorem Sound.size_le (hw : w.Sound m) : w.size ≤ 2 * m.relations.size := by
  have hsub : (w.toList.map fun arc => slot arc.link) ⊆ List.range (2 * m.relations.size) := by
    intro i hi
    obtain ⟨a, ha, rfl⟩ := List.mem_map.1 hi
    exact List.mem_range.2 (hw.valid ha).slot_lt
  simpa [size_eq_length] using (List.subperm_of_subset hw.slots_nodup hsub).length_le

end BinaryCsp.ArcQueue
