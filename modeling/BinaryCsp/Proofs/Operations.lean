import BinaryCsp.Proofs.Pool

/-! # Stores, pools and assignments after any operations

The domains, the unassigned variables and the assignment of a search have a few operations each.
Whatever operations are carried out, and in whatever order, a store is what some removals leave of
the initial domains: going back, to any length of the trail, takes the latest of them back. A pool
goes on counting its members, and an assignment keeps its slots.
-/

namespace BinaryCsp

namespace Store

inductive Op where
  | remove (var : VarId) (value : ValId)
  | assign (var : VarId) (value : ValId)
  | restore (point : Nat)
deriving DecidableEq

def apply (s : Store) : Op → Checked Store
  | .remove var value => do return (← s.remove var value).2
  | .assign var value => do return (← s.assign var value).2
  | .restore point => s.restore point

variable {count bound : Nat} {domains : Array BitSet} {s t u : Store} {var : VarId} {value : ValId}

theorem lt_of_get (hs : s.Sound count bound) {domain : BitSet} (h : s.get var = .ok domain) :
    var < count := by
  have hlt := (Array.getElem?_eq_some_iff.1 (Checked.get_eq_ok.1 h)).1
  rwa [hs.size] at hlt

theorem pruned_of_remove (hs : s.Sound count bound) {removed : Bool}
    (h : s.remove var value = .ok (removed, t)) : Pruned s t := by
  by_cases hmem : value ∈ s.family var
  · rw [remove_of_mem hs hmem] at h
    cases h
    exact (Pruned.refl s).step hmem
  · have hvar : var < count := by
      obtain ⟨domain, hget, _⟩ := Checked.bind_eq_ok.1 h
      exact lt_of_get hs hget
    rw [remove_of_not_mem hs hvar hmem] at h
    cases h
    exact .refl s

theorem pruned_of_assign (hs : s.Sound count bound) {removed : Nat}
    (h : s.assign var value = .ok (removed, t)) : Pruned s t := by
  obtain ⟨domain, hget, _⟩ := Checked.bind_eq_ok.1 h
  obtain ⟨removed', t', hassign, hpruned, _⟩ := assign_spec hs (lt_of_get hs hget) value
  rw [hassign] at h
  cases h
  exact hpruned

/-! ## Going back -/

theorem size_of_undo (h : s.undo = .ok t) : t.trail.size = s.trail.size - 1 := by
  obtain ⟨domains, trail⟩ := s
  unfold undo at h
  cases hback : trail.back? with
  | none =>
      simp only [hback] at h
      obtain rfl := Except.ok.inj h
      simp [Array.back?_eq_none_iff.1 hback]
  | some entry =>
      simp only [hback] at h
      obtain ⟨domain, _, h⟩ := Checked.bind_eq_ok.1 h
      obtain ⟨updated, _, h⟩ := Checked.bind_eq_ok.1 h
      obtain rfl := Except.ok.inj h
      exact Array.size_pop

theorem size_of_restore {point : Nat} (h : s.restore point = .ok t) :
    t.trail.size = min s.trail.size point := by
  have hmany : ∀ steps {s t : Store}, undoMany steps s = .ok t →
      t.trail.size = s.trail.size - steps := by
    intro steps
    induction steps with
    | zero =>
        intro s t h
        obtain rfl := Except.ok.inj h
        rfl
    | succ steps ih =>
        intro s t h
        obtain ⟨u, hundo, h⟩ := Checked.bind_eq_ok.1 h
        rw [ih h, size_of_undo hundo]
        omega
  rw [hmany _ h]
  omega

/-- No more removals are taken back than were made since `s`. -/
theorem Pruned.undoMany (hs : s.Sound count bound) (h : Pruned s t) {steps : Nat}
    (hsteps : s.trail.size + steps ≤ t.trail.size) :
    ∃ u, Store.undoMany steps t = .ok u ∧ Pruned s u := by
  induction steps generalizing t with
  | zero => exact ⟨t, rfl, h⟩
  | succ steps ih =>
      cases h with
      | refl => omega
      | @step t var value before mem =>
          have hpush : (t.erase var value).trail.size = t.trail.size + 1 := by simp [erase]
          obtain ⟨u, hmany, hu⟩ := ih before (by omega)
          refine ⟨u, ?_, hu⟩
          rw [Store.undoMany, undo_erase (before.sound hs) mem, Checked.ok_bind, hmany]

/-- Going back to a moment that is no earlier than `s`. -/
theorem Pruned.restore (hs : s.Sound count bound) (h : Pruned s t) {point : Nat}
    (hpoint : s.checkpoint ≤ point) : ∃ u, t.restore point = .ok u ∧ Pruned s u := by
  have hle := h.trail_le
  rw [checkpoint] at hpoint
  exact h.undoMany hs (by omega)

/-- An operation that leaves the trail at least as long as it was at `s` takes back nothing that
was gone by then. -/
theorem Pruned.apply (hs : s.Sound count bound) (h : Pruned s t) {op : Op}
    (hop : t.apply op = .ok u) (hle : s.checkpoint ≤ u.trail.size) : Pruned s u := by
  have ht := h.sound hs
  cases op with
  | remove var value =>
      obtain ⟨⟨removed, v⟩, hremove, hv⟩ := Checked.bind_eq_ok.1 hop
      cases hv
      exact h.trans (pruned_of_remove ht hremove)
  | assign var value =>
      obtain ⟨⟨removed, v⟩, hassign, hv⟩ := Checked.bind_eq_ok.1 hop
      cases hv
      exact h.trans (pruned_of_assign ht hassign)
  | restore point =>
      have hsize : u.trail.size = min t.trail.size point := size_of_restore hop
      have hpoint : s.checkpoint ≤ point := by omega
      obtain ⟨v, hrestore, hv⟩ := h.restore hs hpoint
      obtain rfl : v = u := Except.ok.inj (hrestore.symm.trans hop)
      exact hv

theorem pruned_of_operations (hd : (ofDomains domains).Sound count bound) {ops : List Op}
    (h : ops.foldlM apply (ofDomains domains) = .ok s) : Pruned (ofDomains domains) s :=
  Checked.foldlM_invariant (fun _ _ _ hs hop => Pruned.apply hd hs hop (Nat.zero_le _)) h (.refl _)

end Store

namespace Pool

inductive Op where
  | remove (var : VarId)
  | insert (var : VarId)
deriving DecidableEq

def apply (p : Pool) : Op → Checked Pool
  | .remove var => p.remove var
  | .insert var => p.insert var

variable {count : Nat} {p q : Pool} {var : VarId}

theorem Sound.remove (hp : p.Sound count) (h : p.remove var = .ok q) : q.Sound count := by
  by_cases hhas : p.Has var
  · obtain ⟨rest, hremove, hrest, _⟩ := remove_spec hp hhas
    obtain rfl : rest = q := Except.ok.inj (hremove.symm.trans h)
    exact hrest
  · obtain ⟨flag, hflag, h⟩ := Checked.bind_eq_ok.1 h
    cases flag with
    | true => exact absurd (Checked.get_eq_ok.1 hflag) hhas
    | false =>
        cases h
        exact hp

theorem Sound.insert (hp : p.Sound count) (h : p.insert var = .ok q) : q.Sound count := by
  obtain ⟨flag, hflag, h⟩ := Checked.bind_eq_ok.1 h
  cases flag with
  | true =>
      cases h
      exact hp
  | false =>
      have hout := Checked.get_eq_ok.1 hflag
      obtain ⟨hlt, _⟩ := Array.getElem?_eq_some_iff.1 hout
      rw [if_neg Bool.false_ne_true, Checked.set_of_lt hlt] at h
      cases h
      have hhas : ∀ other, p.Has other ↔
          Has ⟨p.member.set var true hlt, p.count + 1⟩ other ∧ other ≠ var := by
        intro other
        simp only [Has, Array.getElem?_set]
        by_cases ho : var = other
        · subst ho
          simp [hout]
        · simp [ho, Ne.symm ho]
      have hvar : Has ⟨p.member.set var true hlt, p.count + 1⟩ var := by
        simp [Has]
      refine ⟨by simp [hp.size], ?_⟩
      rw [(toList_perm_cons hvar hhas).length_eq, List.length_cons, ← hp.counted]

theorem sound_of_operations {ops : List Op} (h : ops.foldlM apply (full count) = .ok p) :
    p.Sound count := by
  refine Checked.foldlM_invariant (P := Sound count) (fun p op q hp hop => ?_) h (full_sound count)
  cases op with
  | remove var => exact hp.remove hop
  | insert var => exact hp.insert hop

end Pool

namespace PartialAssignment

inductive Op where
  | set (var : VarId) (value : ValId)
  | clear (var : VarId)
deriving DecidableEq

def apply (a : PartialAssignment) : Op → Checked PartialAssignment
  | .set var value => a.set var value
  | .clear var => a.clear var

theorem size_of_operations {count : Nat} {ops : List Op} {a : PartialAssignment}
    (h : ops.foldlM apply (unassigned count) = .ok a) : a.slots.size = count := by
  refine Checked.foldlM_invariant (P := fun a => a.slots.size = count)
    (fun a op b ha hop => ?_) h (by simp [unassigned])
  cases op with
  | set var value => exact (size_of_set hop).trans ha
  | clear var => exact (size_of_clear hop).symm.trans ha

end PartialAssignment

end BinaryCsp
