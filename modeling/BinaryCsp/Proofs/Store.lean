import BinaryCsp.Store
import BinaryCsp.Proofs.BitSet
import Mathlib.Data.Set.Basic

/-! # Domains as families of sets

A store is read as the family of its domains. Whatever propagation does to a store is a sequence
of removals (`Pruned`): it shrinks the family, keeps the representation of every domain sound, and
is undone exactly by going back to the length that the trail had before.
-/

namespace BinaryCsp

abbrev Family := VarId → Set ValId

namespace Store

/-- The current domains as sets. There are no values where there is no variable. -/
def family (s : Store) : Family := fun var =>
  { value | ∃ domain, s.domains[var]? = some domain ∧ domain.contains value = true }

structure Sound (count bound : Nat) (s : Store) : Prop where
  size : s.domains.size = count
  counted : ∀ {var : VarId} {domain : BitSet}, s.domains[var]? = some domain → domain.Counted
  bounded : ∀ {var : VarId} {value : ValId}, value ∈ s.family var → value < bound

theorem mem_family {s : Store} {var : VarId} {domain : BitSet} (h : s.domains[var]? = some domain)
    {value : ValId} : value ∈ s.family var ↔ domain.contains value = true := by
  simp [family, h]

theorem contains_of_family_le {s t : Store} (hle : s.family ≤ t.family) {var : VarId}
    {domain larger : BitSet} (hs : s.get var = .ok domain) (ht : t.get var = .ok larger)
    (value : ValId) (hvalue : domain.contains value = true) : larger.contains value = true := by
  have hin := hle var ((mem_family (Checked.get_eq_ok.1 hs)).2 hvalue)
  exact (mem_family (Checked.get_eq_ok.1 ht)).1 hin

section Read

variable {count bound : Nat} {s : Store}

theorem Sound.lt_of_mem (hs : s.Sound count bound) {var : VarId} {value : ValId}
    (h : value ∈ s.family var) : var < count := by
  obtain ⟨domain, hget, _⟩ := h
  have hlt := (Array.getElem?_eq_some_iff.1 hget).1
  rwa [hs.size] at hlt

theorem Sound.get_eq (hs : s.Sound count bound) {var : VarId} (hvar : var < count) :
    ∃ domain, s.get var = .ok domain ∧ s.domains[var]? = some domain ∧ domain.Counted ∧
      ∀ value, domain.contains value = true ↔ value ∈ s.family var := by
  have hlt : var < s.domains.size := by rwa [hs.size]
  have hget : s.domains[var]? = some s.domains[var] := Array.getElem?_eq_getElem hlt
  refine ⟨s.domains[var], Checked.get_of_lt hlt, hget, hs.counted hget, ?_⟩
  intro value
  exact (mem_family hget).symm

theorem sizeOf_of_lt {s : Store} {var : VarId} (hvar : var < s.domains.size) :
    ∃ size, s.sizeOf var = .ok size := by
  have hget : s.get var = .ok s.domains[var] := Checked.get_of_lt hvar
  exact ⟨_, by rw [sizeOf, hget]; rfl⟩

end Read

/-! ## One removal -/

def erase (s : Store) (var : VarId) (value : ValId) : Store :=
  ⟨s.domains.modify var (·.erase value), s.trail.push (var, value)⟩

section Erase

variable {count bound : Nat} {s : Store} {var : VarId} {value : ValId}

theorem set_eq_modify {α : Type} {table : Array α} {index : Nat} {entry : α} (f : α → α)
    (h : table[index]? = some entry) :
    Checked.set table index (f entry) = .ok (table.modify index f) := by
  obtain ⟨hlt, hentry⟩ := Array.getElem?_eq_some_iff.1 h
  rw [Checked.set_of_lt hlt]
  congr 1
  apply Array.ext (by simp)
  intro i hi hi'
  rw [Array.getElem_set, Array.getElem_modify]
  by_cases hsame : index = i
  · subst hsame
    simp [hentry]
  · simp [hsame]

theorem remove_of_mem (hs : s.Sound count bound) (hmem : value ∈ s.family var) :
    s.remove var value = .ok (true, s.erase var value) := by
  obtain ⟨domain, hget, hin⟩ := hmem
  have hset := set_eq_modify (·.erase value) hget
  simp [remove, Checked.get_eq_ok.2 hget, BitSet.remove_of_contains (hs.counted hget) hin, hset,
    erase]

theorem remove_of_not_mem (hs : s.Sound count bound) (hvar : var < count)
    (hmem : value ∉ s.family var) : s.remove var value = .ok (false, s) := by
  obtain ⟨domain, hget, _, _, hiff⟩ := hs.get_eq hvar
  have hout : domain.contains value = false := by
    rw [← hiff] at hmem
    simpa using hmem
  rw [get] at hget
  simp [remove, hget, BitSet.remove_of_not_contains hout]

theorem mem_family_erase (hmem : value ∈ s.family var) {other : VarId} {b : ValId} :
    b ∈ (s.erase var value).family other ↔ b ∈ s.family other ∧ ¬(other = var ∧ b = value) := by
  obtain ⟨domain, hget, hin⟩ := hmem
  have hafter : (s.erase var value).domains[other]? =
      if var = other then s.domains[other]?.map (·.erase value) else s.domains[other]? :=
    Array.getElem?_modify
  by_cases ho : var = other
  · subst ho
    rw [if_pos rfl, hget] at hafter
    rw [mem_family hafter, mem_family hget, BitSet.contains_erase hin]
    simp [and_comm]
  · rw [if_neg ho] at hafter
    simp [family, hafter, Ne.symm ho]

theorem Sound.erase (hs : s.Sound count bound) (hmem : value ∈ s.family var) :
    (s.erase var value).Sound count bound where
  size := by simp [Store.erase, hs.size]
  counted := by
    intro other domain hget
    obtain ⟨old, hold, hin⟩ := hmem
    rw [Store.erase, Array.getElem?_modify] at hget
    by_cases ho : var = other
    · subst ho
      rw [if_pos rfl, hold] at hget
      obtain rfl := Option.some.inj hget
      exact (hs.counted hold).erase hin
    · rw [if_neg ho] at hget
      exact hs.counted hget
  bounded := by
    intro other b hb
    exact hs.bounded ((mem_family_erase hmem).1 hb).1

theorem undo_erase (hs : s.Sound count bound) (hmem : value ∈ s.family var) :
    (s.erase var value).undo = .ok s := by
  obtain ⟨domain, hget, hin⟩ := hmem
  have hafter : (s.domains.modify var (·.erase value))[var]? = some (domain.erase value) := by
    simp [Array.getElem?_modify, hget]
  have hset := set_eq_modify (fun d => (d.insert value).2) hafter
  have hback : (s.domains.modify var (·.erase value)).modify var (fun d => (d.insert value).2) =
      s.domains := by
    apply Array.ext (by simp)
    intro i hi hi'
    rw [Array.getElem_modify, Array.getElem_modify]
    by_cases hsame : var = i
    · subst hsame
      have hdomain : s.domains[var] = domain := (Array.getElem?_eq_some_iff.1 hget).2
      simp [hdomain, BitSet.insert_erase (hs.counted hget) hin]
    · simp [hsame]
  rw [hback] at hset
  simp [undo, erase, Checked.get_eq_ok.2 hafter, hset]

end Erase

/-! ## Sequences of removals -/

/-- `t` is left of `s` after some removals. -/
inductive Pruned : Store → Store → Prop where
  | refl (s : Store) : Pruned s s
  | step {s t : Store} {var : VarId} {value : ValId} (before : Pruned s t)
      (mem : value ∈ t.family var) : Pruned s (t.erase var value)

namespace Pruned

variable {count bound : Nat} {s t u : Store}

theorem trans (hst : Pruned s t) (htu : Pruned t u) : Pruned s u := by
  induction htu with
  | refl => exact hst
  | step before mem ih => exact ih.step mem

theorem sound (h : Pruned s t) (hs : s.Sound count bound) : t.Sound count bound := by
  induction h with
  | refl => exact hs
  | step before mem ih => exact ih.erase mem

theorem family_le (h : Pruned s t) : t.family ≤ s.family := by
  induction h with
  | refl => exact le_rfl
  | step before mem ih =>
      intro var value hvalue
      exact ih var ((mem_family_erase mem).1 hvalue).1

theorem trail_le (h : Pruned s t) : s.trail.size ≤ t.trail.size := by
  induction h with
  | refl => exact Nat.le_refl _
  | step before mem ih =>
      rw [erase, Array.size_push]
      omega

/-- Going back to the length of the trail before the removals undoes them all. -/
theorem restore_eq (h : Pruned s t) (hs : s.Sound count bound) :
    t.restore s.checkpoint = .ok s := by
  induction h with
  | refl =>
      rw [restore, checkpoint, Nat.sub_self]
      rfl
  | @step t var value before mem ih =>
      have hle := before.trail_le
      have hcount : (t.erase var value).trail.size - s.checkpoint =
          t.trail.size - s.checkpoint + 1 := by
        rw [erase, checkpoint, Array.size_push]
        omega
      rw [restore, hcount, undoMany, undo_erase (before.sound hs) mem]
      exact ih

/-- Removals that change no domain were none. -/
theorem eq_of_family_eq (h : Pruned s t) (hfamily : t.family = s.family) : t = s := by
  cases h with
  | refl => rfl
  | @step t var value before mem =>
      have hin := before.family_le var mem
      rw [← hfamily] at hin
      exact absurd ⟨rfl, rfl⟩ ((mem_family_erase mem).1 hin).2

theorem words_size (h : Pruned s t) (var : VarId) :
    t.domains[var]?.map (·.words.size) = s.domains[var]?.map (·.words.size) := by
  induction h with
  | refl => rfl
  | @step t other value before mem ih =>
      rw [← ih, erase, Array.getElem?_modify]
      split
      · cases t.domains[var]? <;> simp
      · rfl

end Pruned

/-- Sound stores whose domains have the same members and as many words have equal domains. -/
theorem domains_eq_of_family_eq {count bound : Nat} {s t : Store} (hs : s.Sound count bound)
    (ht : t.Sound count bound)
    (hwords : ∀ var : VarId,
      s.domains[var]?.map (·.words.size) = t.domains[var]?.map (·.words.size))
    (h : s.family = t.family) : s.domains = t.domains := by
  apply Array.ext (by rw [hs.size, ht.size])
  intro var hvar hvar'
  have hgs := Array.getElem?_eq_getElem hvar
  have hgt := Array.getElem?_eq_getElem hvar'
  apply BitSet.ext_of_contains (hs.counted hgs) (ht.counted hgt)
  · have hsize := hwords var
    rw [hgs, hgt] at hsize
    simpa using hsize
  · intro value
    rw [Bool.eq_iff_iff, ← mem_family hgs, ← mem_family hgt, h]

/-! ## Removing lists of values -/

section RemoveAll

variable {count bound : Nat} {s : Store} {var : VarId}

theorem removeAll_spec (hs : s.Sound count bound) (hvar : var < count) (values : List ValId) :
    ∃ t, s.removeAll var values = .ok t ∧ Pruned s t ∧
      ∀ other b, b ∈ t.family other ↔ b ∈ s.family other ∧ (other = var → b ∉ values) := by
  induction values generalizing s with
  | nil => exact ⟨s, rfl, .refl s, by simp⟩
  | cons value rest ih =>
      by_cases hmem : value ∈ s.family var
      · obtain ⟨t, heq, hpruned, hfamily⟩ := ih (hs.erase hmem)
        refine ⟨t, ?_, (Pruned.refl s |>.step hmem).trans hpruned, ?_⟩
        · simp [removeAll, remove_of_mem hs hmem, heq]
        · intro other b
          rw [hfamily, mem_family_erase hmem, List.mem_cons]
          tauto
      · obtain ⟨t, heq, hpruned, hfamily⟩ := ih hs
        refine ⟨t, ?_, hpruned, ?_⟩
        · simp [removeAll, remove_of_not_mem hs hvar hmem, heq]
        · intro other b
          rw [hfamily, List.mem_cons]
          constructor
          · rintro ⟨hb, hrest⟩
            refine ⟨hb, fun ho => ?_⟩
            rintro (rfl | hin)
            · exact hmem (ho ▸ hb)
            · exact hrest ho hin
          · rintro ⟨hb, hall⟩
            exact ⟨hb, fun ho hin => hall ho (.inr hin)⟩

theorem assign_spec (hs : s.Sound count bound) (hvar : var < count) (value : ValId) :
    ∃ removed t, s.assign var value = .ok (removed, t) ∧ Pruned s t ∧
      ∀ other b, b ∈ t.family other ↔ b ∈ s.family other ∧ (other = var → b = value) := by
  obtain ⟨domain, hget, _, _, hiff⟩ := hs.get_eq hvar
  obtain ⟨t, heq, hpruned, hfamily⟩ :=
    removeAll_spec hs hvar (domain.toList.filter (· != value))
  refine ⟨_, t, by simp only [assign, hget, Checked.ok_bind, heq]; rfl, hpruned, ?_⟩
  intro other b
  rw [hfamily]
  refine and_congr_right fun hb => forall_congr' fun ho => ?_
  subst ho
  simp [hiff, hb]

end RemoveAll

end Store

end BinaryCsp
