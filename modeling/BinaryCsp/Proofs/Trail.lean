import BinaryCsp.Proofs.Store
import Mathlib.Algebra.GroupWithZero.Nat

/-! # What the trail records

The trail lists the removals in the order in which they were made, and a value that is gone cannot
be removed again. So the part of the trail between two moments says in what the domains of these
moments differ: which values are gone, each of them once, and how many.
-/

namespace BinaryCsp

theorem sum_map_modify {α : Type} {F : α → Nat} {f : α → α} {xs : List α} {i : Nat} {x : α}
    (h : xs[i]? = some x) : ((xs.modify i f).map F).sum + F x = (xs.map F).sum + F (f x) := by
  induction xs generalizing i with
  | nil => simp at h
  | cons first rest ih =>
      cases i with
      | zero =>
          obtain rfl : first = x := by simpa using h
          simp only [List.modify_zero_cons, List.map_cons, List.sum_cons]
          omega
      | succ i =>
          have hrest := ih (by simpa using h)
          simp only [List.modify_succ_cons, List.map_cons, List.sum_cons]
          omega

namespace Store

variable {count bound : Nat} {s t u : Store} {var : VarId} {value : ValId}
  {removed later : List (VarId × ValId)}

/-- The trail of `t` goes on from the trail of `s` with the values that are gone from the domains,
each of them once. -/
structure Records (s t : Store) (removed : List (VarId × ValId)) : Prop where
  trail : t.trail.toList = s.trail.toList ++ removed
  nodup : removed.Nodup
  mem : ∀ {var : VarId} {value : ValId},
    (var, value) ∈ removed ↔ value ∈ s.family var ∧ value ∉ t.family var

theorem Records.size (h : Records s t removed) :
    t.trail.size = s.trail.size + removed.length := by
  rw [← Array.length_toList, h.trail, List.length_append, Array.length_toList]

theorem Records.erase (h : Records s t removed) (hold : value ∈ s.family var)
    (hmem : value ∈ t.family var) :
    Records s (t.erase var value) (removed ++ [(var, value)]) where
  trail := by simp [Store.erase, h.trail]
  nodup := by
    have hfresh : (var, value) ∉ removed := fun hin => (h.mem.1 hin).2 hmem
    simpa using h.nodup.concat hfresh
  mem := by
    intro other b
    rw [List.mem_append, h.mem, List.mem_singleton, Prod.mk.injEq, mem_family_erase hmem]
    by_cases hsame : other = var ∧ b = value
    · obtain ⟨rfl, rfl⟩ := hsame
      simp [hold]
    · simp [hsame]

theorem Records.append (h : Records s t removed) (h' : Records t u later)
    (hle : t.family ≤ s.family) (hle' : u.family ≤ t.family) : Records s u (removed ++ later) where
  trail := by rw [h'.trail, h.trail, List.append_assoc]
  nodup := by
    refine List.nodup_append.2 ⟨h.nodup, h'.nodup, ?_⟩
    rintro entry hgone _ hlater rfl
    exact (h.mem.1 hgone).2 (h'.mem.1 hlater).1
  mem := by
    intro var value
    have hold := @hle var value
    have hleft := @hle' var value
    rw [List.mem_append, h.mem, h'.mem]
    tauto

theorem Pruned.exists_records (h : Pruned s t) : ∃ removed, Records s t removed := by
  induction h with
  | refl => exact ⟨[], by simp, .nil, by simp⟩
  | @step t var value before mem ih =>
      obtain ⟨removed, hremoved⟩ := ih
      exact ⟨_, hremoved.erase (before.family_le var mem) mem⟩

/-- Values of one domain that are removed one after the other follow each other on the trail. -/
theorem trail_of_removeAll (hs : s.Sound count bound) {values : List ValId}
    (hnodup : values.Nodup) (hmem : ∀ value ∈ values, value ∈ s.family var)
    (h : s.removeAll var values = .ok t) :
    t.trail.toList = s.trail.toList ++ values.map (var, ·) := by
  induction values generalizing s with
  | nil =>
      cases h
      simp
  | cons value rest ih =>
      obtain ⟨hfresh, hrest⟩ := List.nodup_cons.1 hnodup
      have hvalue := hmem value (by simp)
      rw [removeAll, remove_of_mem hs hvalue, Checked.ok_bind] at h
      have hleft : ∀ b ∈ rest, b ∈ (s.erase var value).family var := by
        intro b hb
        have hne : b ≠ value := by
          rintro rfl
          exact hfresh hb
        exact (mem_family_erase hvalue).2 ⟨hmem b (by simp [hb]), fun hsame => hne hsame.2⟩
      rw [ih (hs.erase hvalue) hrest hleft h]
      simp [Store.erase]

theorem size_of_removeAll (hs : s.Sound count bound) {domain : BitSet}
    (hget : s.get var = .ok domain) {doomed : ValId → Bool}
    (h : s.removeAll var (domain.toList.filter doomed) = .ok t) :
    t.trail.size = s.trail.size + (domain.toList.filter doomed).length := by
  have hmem : ∀ value ∈ domain.toList.filter doomed, value ∈ s.family var := by
    intro value hvalue
    have hin := BitSet.mem_toList.1 (List.mem_filter.1 hvalue).1
    exact (mem_family (Checked.get_eq_ok.1 hget)).2 hin
  have htrail := trail_of_removeAll hs (domain.toList_nodup.filter _) hmem h
  simpa using congrArg List.length htrail

/-! ## How many values are left -/

def sizeAt (s : Store) (var : VarId) : Nat := s.domains[var]?.elim 0 (·.size)

def totalSize (s : Store) : Nat := (s.domains.toList.map (·.size)).sum

theorem sizeAt_of_get {domain : BitSet} (h : s.get var = .ok domain) :
    s.sizeAt var = domain.size := by
  rw [sizeAt, Checked.get_eq_ok.1 h, Option.elim_some]

theorem totalSize_erase (hs : s.Sound count bound) (hmem : value ∈ s.family var) :
    (s.erase var value).totalSize + 1 = s.totalSize := by
  obtain ⟨domain, hget, hin⟩ := hmem
  have hpos := (hs.counted hget).pos hin
  have hsize : (domain.erase value).size + 1 = domain.size := by
    simp only [BitSet.erase]
    omega
  have hsum := sum_map_modify (F := (·.size)) (f := (·.erase value))
    (show s.domains.toList[var]? = some domain by simpa using hget)
  simp only [totalSize, Store.erase, Array.toList_modify]
  omega

theorem Pruned.totalSize_add (h : Pruned s t) (hs : s.Sound count bound) :
    t.totalSize + t.trail.size = s.totalSize + s.trail.size := by
  induction h with
  | refl => rfl
  | @step t var value before mem ih =>
      have hless := totalSize_erase (before.sound hs) mem
      have htrail : (t.erase var value).trail.size = t.trail.size + 1 := by simp [Store.erase]
      omega

section Compare

variable (hs : s.Sound count bound) (ht : t.Sound count bound) (hle : t.family ≤ s.family)
  (hvar : var < count)

include hs ht hle hvar

theorem sizeAt_le : t.sizeAt var ≤ s.sizeAt var := by
  obtain ⟨domain, hget, _, hcounted, _⟩ := hs.get_eq hvar
  obtain ⟨left, hget', _, hcounted', _⟩ := ht.get_eq hvar
  rw [sizeAt_of_get hget, sizeAt_of_get hget', hcounted, hcounted']
  exact (BitSet.toList_sublist (contains_of_family_le hle hget' hget)).length_le

theorem sizeAt_lt (hold : value ∈ s.family var) (hnew : value ∉ t.family var) :
    t.sizeAt var < s.sizeAt var := by
  obtain ⟨domain, hget, _, hcounted, hmem⟩ := hs.get_eq hvar
  obtain ⟨left, hget', _, hcounted', hmem'⟩ := ht.get_eq hvar
  have hsub := BitSet.toList_sublist (contains_of_family_le hle hget' hget)
  rw [sizeAt_of_get hget, sizeAt_of_get hget', hcounted, hcounted']
  refine Nat.lt_of_le_of_ne hsub.length_le fun hsame => hnew ?_
  rw [← hmem', ← BitSet.mem_toList, hsub.eq_of_length hsame, BitSet.mem_toList, hmem]
  exact hold

end Compare

theorem sizeAt_pos (hs : s.Sound count bound) (hmem : value ∈ s.family var) :
    0 < s.sizeAt var := by
  obtain ⟨domain, hget, hin⟩ := hmem
  rw [sizeAt, hget, Option.elim_some]
  exact (hs.counted hget).pos hin

end Store

end BinaryCsp
