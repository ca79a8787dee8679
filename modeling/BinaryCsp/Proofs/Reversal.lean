import BinaryCsp.Proofs.Operations
import BinaryCsp.Proofs.Trail
import Mathlib.Data.List.Infix

/-! # Removals are taken back exactly

A checkpoint is no more than a length of the trail. That is enough to go back: whatever removals,
collapses and rewinds came before, a value is either in its domain or on the trail, and there it
stands once. As long as the trail stays as long as it was at a checkpoint, nothing that was gone by
then has come back, so going back there takes away exactly what was added, down to the words of
every domain.
-/

namespace BinaryCsp.Store

variable {count bound : Nat} {domains : Array BitSet} {s t : Store}

/-- The variable that an operation is about, if any, is one of the first `count`. -/
def Op.Within (count : Nat) : Op → Prop
  | .remove var _ => var < count
  | .assign var _ => var < count
  | .restore _ => True

/-! ## Any domains to begin with -/

theorem exists_bound (domains : List BitSet) :
    ∃ bound, ∀ domain ∈ domains, ∀ value, domain.contains value = true → value < bound := by
  induction domains with
  | nil => exact ⟨0, by simp⟩
  | cons first rest ih =>
      obtain ⟨bound, hrest⟩ := ih
      refine ⟨max (BitSet.wordBits * first.words.size) bound, fun domain hdomain value hvalue => ?_⟩
      rcases List.mem_cons.1 hdomain with rfl | hdomain
      · have hword := BitSet.lt_size_of_contains hvalue
        simp only [BitSet.wordBits] at hword ⊢
        omega
      · have hlt := hrest domain hdomain value hvalue
        omega

theorem exists_sound (hcounted : ∀ domain ∈ domains, domain.Counted) :
    ∃ bound, (ofDomains domains).Sound domains.size bound := by
  obtain ⟨bound, hbound⟩ := exists_bound domains.toList
  refine ⟨bound, rfl, fun hget => hcounted _ (Array.mem_of_getElem? hget), ?_⟩
  rintro var value ⟨domain, hget, hvalue⟩
  exact hbound domain (Array.mem_toList_iff.2 (Array.mem_of_getElem? hget)) value hvalue

/-! ## Sequences of operations -/

theorem Pruned.exists_apply (hd : (ofDomains domains).Sound count bound)
    (h : Pruned (ofDomains domains) s) {op : Op} (hop : op.Within count) :
    ∃ t, s.apply op = .ok t := by
  have hs := h.sound hd
  cases op with
  | remove var value =>
      by_cases hmem : value ∈ s.family var
      · exact ⟨_, by simp only [Store.apply, remove_of_mem hs hmem, Checked.ok_bind]; rfl⟩
      · exact ⟨_, by simp only [Store.apply, remove_of_not_mem hs hop hmem, Checked.ok_bind]; rfl⟩
  | assign var value =>
      obtain ⟨removed, t, hassign, _⟩ := assign_spec hs hop value
      exact ⟨t, by simp only [Store.apply, hassign, Checked.ok_bind]; rfl⟩
  | restore point =>
      obtain ⟨t, hrestore, _⟩ := h.restore hd (Nat.zero_le point)
      exact ⟨t, hrestore⟩

theorem exists_operations (hd : (ofDomains domains).Sound count bound)
    (h : Pruned (ofDomains domains) s) {ops : List Op} (hops : ∀ op ∈ ops, op.Within count) :
    ∃ t, ops.foldlM apply s = .ok t := by
  have hstep : ∀ s, Pruned (ofDomains domains) s → ∀ op ∈ ops,
      ∃ t, s.apply op = .ok t ∧ Pruned (ofDomains domains) t := by
    intro s hs op hop
    obtain ⟨t, ht⟩ := hs.exists_apply hd (hops op hop)
    exact ⟨t, ht, hs.apply hd ht (Nat.zero_le _)⟩
  obtain ⟨t, hrun, _⟩ :=
    Checked.exists_foldlM (R := fun s (_ : Unit) => Pruned (ofDomains domains) s)
      (g := fun _ _ => ()) (fun s _ => hstep s) (t := ()) h
  exact ⟨t, hrun⟩

/-- Operations that never leave the trail shorter than it was at `s` leave what was gone then. -/
theorem Pruned.operations (hs : s.Sound count bound) (h : Pruned s t) {ops : List Op} {u : Store}
    (hrun : ops.foldlM Store.apply t = .ok u)
    (hlong : ∀ done v, done <+: ops → done.foldlM Store.apply t = .ok v →
      s.checkpoint ≤ v.trail.size) :
    Pruned s u := by
  induction ops generalizing t with
  | nil =>
      obtain rfl := Except.ok.inj hrun
      exact h
  | cons op rest ih =>
      rw [List.foldlM_cons] at hrun
      obtain ⟨v, hop, hrun⟩ := Checked.bind_eq_ok.1 hrun
      have hcons : ∀ done, (op :: done).foldlM Store.apply t = done.foldlM Store.apply v := by
        intro done
        rw [List.foldlM_cons, hop, Checked.ok_bind]
      have hfirst : s.checkpoint ≤ v.trail.size := hlong [op] v (by simp) (hcons [])
      refine ih (h.apply hs hop hfirst) hrun fun done w hdone hw => ?_
      exact hlong (op :: done) w (List.cons_prefix_cons.2 ⟨rfl, hdone⟩) ((hcons done).trans hw)

/-- After any operations on domains that count their members truly, as every set does that was made
from ids (`BitSet.counted_iff`), each value that was there is in its domain or on the trail, never
both and never twice. Taking a checkpoint changes nothing, and going back may be to any length, so
to every checkpoint, stale or not. From a checkpoint on, as long as the trail is never shorter than
it was then, going back there gives the same store again. -/
theorem operations_reversible (hcounted : ∀ domain ∈ domains, domain.Counted) {ops : List Op}
    (hops : ∀ op ∈ ops, op.Within domains.size) :
    ∃ s, ops.foldlM apply (ofDomains domains) = .ok s ∧
      s.trail.toList.Nodup ∧
      (∀ var value, (var, value) ∈ s.trail.toList → value ∉ s.family var) ∧
      (∀ var, (ofDomains domains).family var =
        s.family var ∪ {value | (var, value) ∈ s.trail.toList}) ∧
      ∀ later : List Op, (∀ op ∈ later, op.Within domains.size) →
        (∀ done u, done <+: later → done.foldlM apply s = .ok u →
          s.checkpoint ≤ u.trail.size) →
        ∃ t, later.foldlM apply s = .ok t ∧ t.restore s.checkpoint = .ok s := by
  obtain ⟨bound, hd⟩ := exists_sound hcounted
  obtain ⟨s, hrun⟩ := exists_operations hd (.refl _) hops
  have hs := pruned_of_operations hd hrun
  obtain ⟨removed, htrail, hnodup, hmem⟩ := hs.exists_records
  obtain rfl : s.trail.toList = removed := htrail
  refine ⟨s, hrun, hnodup, fun var value hin => (hmem.1 hin).2, fun var => ?_, ?_⟩
  · ext value
    have hleft : value ∈ s.family var → value ∈ (ofDomains domains).family var :=
      fun hin => hs.family_le var hin
    rw [Set.mem_union, Set.mem_ofPred_eq, hmem]
    tauto
  · intro later hlater hlong
    obtain ⟨t, ht⟩ := exists_operations hd hs hlater
    have hkept : Pruned s t := (Pruned.refl s).operations (hs.sound hd) ht hlong
    exact ⟨t, ht, hkept.restore_eq (hs.sound hd)⟩

theorem operations_reversible_nested :
    ∃ s t, [Op.remove 1 0].foldlM apply
        (ofDomains #[.ofList 4 [0, 1, 2, 3], .ofList 4 [0, 1]]) = .ok s ∧
      [Op.assign 0 2, .restore 2, .remove 1 1].foldlM apply s = .ok t ∧
      t.restore s.checkpoint = .ok s := by
  let domains : Array BitSet := #[.ofList 4 [0, 1, 2, 3], .ofList 4 [0, 1]]
  have hcounted : ∀ domain ∈ domains, domain.Counted := by
    simp [domains, BitSet.counted_ofList]
  have hfirst : ∀ op ∈ [Op.remove 1 0], op.Within domains.size := by simp [Op.Within, domains]
  obtain ⟨s, hrun, _, _, _, hback⟩ := operations_reversible hcounted hfirst
  have hlong : ∀ done ∈ [Op.assign 0 2, .restore 2, .remove 1 1].inits,
      (([Op.remove 1 0].foldlM apply (ofDomains domains)).toOption.all fun s =>
        (done.foldlM apply s).toOption.all (s.checkpoint ≤ ·.trail.size)) = true := by
    decide +kernel
  obtain ⟨t, ht, hrestore⟩ := hback [.assign 0 2, .restore 2, .remove 1 1]
    (by simp [Op.Within, domains]) fun done u hdone hu => by
      simpa [hrun, hu, Except.toOption] using hlong done ((List.mem_inits _ _).2 hdone)
  exact ⟨s, t, hrun, ht, hrestore⟩

end BinaryCsp.Store
