import BinaryCsp.Assignment
import BinaryCsp.Pool
import BinaryCsp.Proofs.Store

/-! # Unassigned variables and partial assignments

Taking a member out of the pool and putting it back are exact inverses, and so are setting an
empty slot and clearing it: a search that gives up a variable leaves both as it found them.
-/

namespace BinaryCsp

namespace Pool

def Has (p : Pool) (var : VarId) : Prop := p.member[var]? = some true

structure Sound (count : Nat) (p : Pool) : Prop where
  size : p.member.size = count
  counted : p.count = p.toList.length

variable {count : Nat} {p : Pool} {var : VarId}

theorem mem_toList : var ∈ p.toList ↔ p.Has var := by
  rw [toList, List.mem_filter, List.mem_range, Has, Array.getElem?_eq_some_iff]
  constructor
  · rintro ⟨hlt, h⟩
    exact ⟨hlt, by simpa [hlt] using h⟩
  · rintro ⟨hlt, h⟩
    exact ⟨hlt, by simp [hlt, h]⟩

theorem toList_ascending (p : Pool) : p.toList.Pairwise (· < ·) := List.pairwise_lt_range.filter _

theorem toList_nodup (p : Pool) : p.toList.Nodup := List.nodup_range.filter _

theorem Has.lt (h : p.Has var) (hp : p.Sound count) : var < count := by
  have hlt := (Array.getElem?_eq_some_iff.1 h).1
  rwa [hp.size] at hlt

theorem contains_eq_ok (hp : p.Sound count) (hvar : var < count) :
    ∃ flag, p.contains var = .ok flag ∧ (flag = true ↔ p.Has var) := by
  have hlt : var < p.member.size := by rwa [hp.size]
  refine ⟨p.member[var], Checked.get_of_lt hlt, ?_⟩
  rw [Has, Array.getElem?_eq_getElem hlt, Option.some.injEq]

theorem toList_eq_nil_iff : p.toList = [] ↔ ∀ var, ¬ p.Has var := by
  rw [List.eq_nil_iff_forall_not_mem]
  simp only [mem_toList]

theorem isEmpty_iff (hp : p.Sound count) : p.isEmpty = true ↔ ∀ var, ¬ p.Has var := by
  rw [← toList_eq_nil_iff, isEmpty, hp.counted, beq_iff_eq, List.length_eq_zero_iff]

theorem full_has {var : VarId} : (full count).Has var ↔ var < count := by
  simp [Has, full, Array.getElem?_replicate]

theorem full_sound (count : Nat) : (full count).Sound count where
  size := by simp [full]
  counted := by
    have hall : (full count).toList = List.range count := by
      rw [toList, full, Array.size_replicate, List.filter_eq_self]
      intro var hvar
      simp [List.mem_range.1 hvar]
    rw [hall, List.length_range]
    rfl

theorem Sound.count_le (hp : p.Sound count) : p.count ≤ count := by
  have hlength : p.toList.length ≤ (List.range p.member.size).length := List.length_filter_le _ _
  rwa [← hp.counted, List.length_range, hp.size] at hlength

/-- A pool lists its members once each, so one member more makes the list one longer. -/
theorem toList_perm_cons {q : Pool} (hvar : p.Has var)
    (h : ∀ other, q.Has other ↔ p.Has other ∧ other ≠ var) : p.toList.Perm (var :: q.toList) := by
  refine (List.perm_ext_iff_of_nodup p.toList_nodup ?_).2 ?_
  · refine List.nodup_cons.2 ⟨?_, q.toList_nodup⟩
    rw [mem_toList, h]
    simp
  · intro other
    rw [List.mem_cons, mem_toList, mem_toList, h]
    by_cases ho : other = var
    · simp [ho, hvar]
    · simp [ho]

/-- What taking a member out does. Putting it back undoes it exactly. -/
theorem remove_spec (hp : p.Sound count) (hvar : p.Has var) :
    ∃ q, p.remove var = .ok q ∧ q.Sound count ∧ q.count + 1 = p.count ∧
      (∀ other, q.Has other ↔ p.Has other ∧ other ≠ var) ∧ q.insert var = .ok p := by
  obtain ⟨hlt, hflag⟩ := Array.getElem?_eq_some_iff.1 hvar
  let q : Pool := ⟨p.member.set var false hlt, p.count - 1⟩
  have hhas : ∀ other, q.Has other ↔ p.Has other ∧ other ≠ var := by
    intro other
    simp only [Has, q, Array.getElem?_set]
    by_cases ho : var = other
    · simp [ho]
    · simp [ho, Ne.symm ho]
  have hcount : p.count = q.toList.length + 1 := by
    rw [hp.counted, (toList_perm_cons hvar hhas).length_eq, List.length_cons]
  have hpos : 1 ≤ p.count := by omega
  have hq : q.count = p.count - 1 := rfl
  refine ⟨q, ?_, ⟨by simp [q, hp.size], by omega⟩, by omega, hhas, ?_⟩
  · simp [remove, Checked.get_of_lt hlt, hflag, Checked.set_of_lt hlt, Checked.sub_of_le hpos, q]
  · have hlt' : var < (p.member.set var false hlt).size := by simpa using hlt
    have hmember : (p.member.set var false hlt).set var true hlt' = p.member := by
      rw [Array.set_set, ← hflag, Array.set_getElem_self]
    simp [insert, q, Checked.get_of_lt hlt', Checked.set_of_lt hlt', hmember,
      Nat.sub_add_cancel hpos]

end Pool

namespace PartialAssignment

variable {count : Nat} {a : PartialAssignment} {var : VarId} {value : ValId}

def valueOf (a : PartialAssignment) (var : VarId) : Option ValId := a.slots[var]?.join

theorem set_eq_ok (hvar : var < a.slots.size) :
    a.set var value = .ok ⟨a.slots.set var (some value) hvar⟩ := by
  simp [set, Checked.set_of_lt hvar]

theorem clear_eq_ok (hvar : var < a.slots.size) :
    a.clear var = .ok ⟨a.slots.set var none hvar⟩ := by
  simp [clear, Checked.set_of_lt hvar]

theorem valueOf_set (hvar : var < a.slots.size) (entry : Option ValId) (other : VarId) :
    valueOf ⟨a.slots.set var entry hvar⟩ other =
      if other = var then entry else a.valueOf other := by
  unfold valueOf
  rw [Array.getElem?_set]
  by_cases ho : var = other
  · simp [ho]
  · simp [ho, Ne.symm ho]

theorem valueOf_of_set {b : PartialAssignment} (h : a.set var value = .ok b) (other : VarId) :
    b.valueOf other = if other = var then some value else a.valueOf other := by
  by_cases hvar : var < a.slots.size
  · rw [set_eq_ok hvar] at h
    obtain rfl := Except.ok.inj h
    exact valueOf_set hvar (some value) other
  · simp [set, Checked.set, hvar] at h

theorem valueOf_of_clear {b : PartialAssignment} (h : b.clear var = .ok a) {other : VarId}
    (hother : other ≠ var) : b.valueOf other = a.valueOf other := by
  by_cases hvar : var < b.slots.size
  · rw [clear_eq_ok hvar] at h
    obtain rfl := Except.ok.inj h
    rw [valueOf_set hvar, if_neg hother]
  · simp [clear, Checked.set, hvar] at h

theorem size_of_set {b : PartialAssignment} (h : a.set var value = .ok b) :
    b.slots.size = a.slots.size := by
  obtain ⟨slots, hset, h⟩ := Checked.bind_eq_ok.1 h
  obtain rfl := Except.ok.inj h
  rw [← (Checked.set_eq_ok.1 hset).2, Array.size_setIfInBounds]

theorem size_of_clear {b : PartialAssignment} (h : b.clear var = .ok a) :
    b.slots.size = a.slots.size := by
  obtain ⟨slots, hset, h⟩ := Checked.bind_eq_ok.1 h
  obtain rfl := Except.ok.inj h
  rw [← (Checked.set_eq_ok.1 hset).2, Array.size_setIfInBounds]

theorem clear_of_valueOf_eq_none (hvar : var < a.slots.size) (hnone : a.valueOf var = none) :
    a.clear var = .ok a := by
  have hslot : a.slots[var] = none := by
    unfold valueOf at hnone
    rw [Array.getElem?_eq_getElem hvar] at hnone
    exact hnone
  rw [clear_eq_ok hvar, ← hslot, Array.set_getElem_self]

theorem clear_of_set {b : PartialAssignment} (h : a.set var value = .ok b) :
    b.clear var = a.clear var := by
  by_cases hvar : var < a.slots.size
  · rw [set_eq_ok hvar] at h
    obtain rfl := Except.ok.inj h
    rw [clear_eq_ok (a := ⟨a.slots.set var (some value) hvar⟩) (by simpa using hvar),
      clear_eq_ok hvar, Array.set_set]
  · simp [set, Checked.set, hvar] at h

theorem set_of_clear {b : PartialAssignment} (h : a.clear var = .ok b) :
    b.set var value = a.set var value := by
  by_cases hvar : var < a.slots.size
  · rw [clear_eq_ok hvar] at h
    obtain rfl := Except.ok.inj h
    rw [set_eq_ok (a := ⟨a.slots.set var none hvar⟩) (by simpa using hvar), set_eq_ok hvar,
      Array.set_set]
  · simp [clear, Checked.set, hvar] at h

@[simp] theorem valueOf_unassigned (count : Nat) (var : VarId) :
    (unassigned count).valueOf var = none := by
  unfold valueOf unassigned
  rw [Array.getElem?_replicate]
  split <;> rfl

theorem complete?_eq_some {values : List ValId} :
    a.complete? = some values ↔ a.slots.toList = values.map some := by
  unfold complete?
  generalize a.slots.toList = slots
  induction slots generalizing values with
  | nil =>
      cases values with
      | nil => simp
      | cons value values => simp
  | cons slot slots ih =>
      cases slot with
      | none => cases values <;> simp [List.mapM_cons]
      | some first =>
          cases values with
          | nil => simp [List.mapM_cons, Option.bind_eq_some_iff]
          | cons value values =>
              simp [List.mapM_cons, Option.bind_eq_some_iff, ih, and_comm]

theorem length_of_complete? {values : List ValId} (h : a.complete? = some values) :
    values.length = a.slots.size := by
  rw [← Array.length_toList, complete?_eq_some.1 h, List.length_map]

theorem getElem?_of_complete? {values : List ValId} (h : a.complete? = some values) (var : VarId) :
    values[var]? = a.valueOf var := by
  rw [valueOf, ← Array.getElem?_toList, complete?_eq_some.1 h, List.getElem?_map]
  cases values[var]? <;> rfl

theorem exists_complete? (h : ∀ var < a.slots.size, a.valueOf var ≠ none) :
    ∃ values, a.complete? = some values := by
  refine ⟨a.slots.toList.map (·.getD 0), complete?_eq_some.2 ?_⟩
  have hsome : ∀ slot ∈ a.slots.toList, id slot = (some ∘ (·.getD 0)) slot := by
    intro slot hslot
    obtain ⟨var, hvar⟩ := List.getElem?_of_mem hslot
    rw [Array.getElem?_toList] at hvar
    cases slot with
    | some value => rfl
    | none =>
        have hlt := (Array.getElem?_eq_some_iff.1 hvar).1
        exact absurd (by rw [valueOf, hvar]; rfl) (h var hlt)
  rw [List.map_map, ← List.map_congr_left hsome, List.map_id]

end PartialAssignment

end BinaryCsp
