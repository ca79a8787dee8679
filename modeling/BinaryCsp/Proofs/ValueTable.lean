import BinaryCsp.ValueTable
import BinaryCsp.Proofs.Checked

/-! # Numbered values

A table never numbers one value twice, and numbering further values keeps the numbers given
before. The values stand in the order in which they were first seen.
-/

namespace BinaryCsp.ValueTable

variable {V : Type}

def Distinct (t : ValueTable V) : Prop :=
  ∀ {i j : ValId} {v : V}, t.values[i]? = some v → t.values[j]? = some v → i = j

def Extends (t u : ValueTable V) : Prop :=
  ∀ {id : ValId} {v : V}, t.values[id]? = some v → u.values[id]? = some v

theorem Extends.trans {t u w : ValueTable V} (htu : t.Extends u) (huw : u.Extends w) :
    t.Extends w :=
  fun h => huw (htu h)

theorem ext_values {t u : ValueTable V} (h : t.values = u.values) : t = u := by
  obtain ⟨values, ids, rfl⟩ := t
  obtain ⟨others, ids', rfl⟩ := u
  obtain rfl : values = others := h
  rfl

theorem mem_ids {t : ValueTable V} {v : V} {id : ValId} :
    (v, id) ∈ t.ids ↔ t.values[id]? = some v := by
  rw [t.indexed, List.mem_zipIdx_iff_getElem?, Array.getElem?_toList]

theorem distinct_empty : (empty : ValueTable V).Distinct := by
  intro i j v hi
  simp [empty] at hi

variable [DecidableEq V]

theorem getElem?_of_idOf? {t : ValueTable V} {v : V} {id : ValId} (h : t.idOf? v = some id) :
    t.values[id]? = some v := by
  obtain ⟨earlier, later, hids, _⟩ := List.lookup_eq_some_iff.1 h
  exact mem_ids.1 (by simp [hids])

theorem idOf?_eq_none {t : ValueTable V} {v : V} : t.idOf? v = none ↔ v ∉ t.values := by
  rw [idOf?, List.lookup_eq_none_iff, Array.mem_iff_getElem?]
  constructor
  · rintro h ⟨id, hid⟩
    simpa using h (v, id) (mem_ids.2 hid)
  · rintro h ⟨w, id⟩ hentry
    rw [bne_iff_ne]
    rintro rfl
    exact h ⟨id, mem_ids.1 hentry⟩

theorem idOf?_eq_some {t : ValueTable V} (ht : t.Distinct) {v : V} {id : ValId} :
    t.idOf? v = some id ↔ t.values[id]? = some v := by
  refine ⟨getElem?_of_idOf?, fun h => ?_⟩
  cases hfound : t.idOf? v with
  | none => exact absurd (Array.mem_of_getElem? h) (idOf?_eq_none.1 hfound)
  | some other => rw [ht (getElem?_of_idOf? hfound) h]

theorem intern_spec {t : ValueTable V} (ht : t.Distinct) (v : V) :
    (t.intern v).2.Distinct ∧ t.Extends (t.intern v).2 ∧
      (t.intern v).2.values[(t.intern v).1]? = some v := by
  unfold intern
  cases hfound : t.idOf? v with
  | some id => exact ⟨ht, fun h => h, getElem?_of_idOf? hfound⟩
  | none =>
      rw [idOf?_eq_none] at hfound
      have hnew : ∀ {i : ValId} {w : V}, (t.values.push v)[i]? = some w ↔
          t.values[i]? = some w ∨ (i = t.values.size ∧ w = v) := by
        intro i w
        rw [Array.getElem?_push]
        by_cases hi : i = t.values.size
        · simp [hi, eq_comm]
        · simp [hi]
      have hfresh : ∀ i : ValId, t.values[i]? ≠ some v :=
        fun i hi => hfound (Array.mem_of_getElem? hi)
      refine ⟨?_, fun h => hnew.2 (.inl h), hnew.2 (.inr ⟨rfl, rfl⟩)⟩
      intro i j w hi hj
      rcases hnew.1 hi with hiOld | ⟨hiNew, hw⟩
      · rcases hnew.1 hj with hjOld | ⟨_, hw⟩
        · exact ht hiOld hjOld
        · exact absurd (hw ▸ hiOld) (hfresh i)
      · rcases hnew.1 hj with hjOld | ⟨hjNew, _⟩
        · exact absurd (hw ▸ hjOld) (hfresh j)
        · rw [hiNew, hjNew]

theorem internAll_spec {t : ValueTable V} (ht : t.Distinct) (vs : List V) :
    (t.internAll vs).2.Distinct ∧ t.Extends (t.internAll vs).2 ∧
      List.Forall₂ (fun id v => (t.internAll vs).2.values[id]? = some v) (t.internAll vs).1 vs := by
  induction vs generalizing t with
  | nil => exact ⟨ht, fun h => h, .nil⟩
  | cons v rest ih =>
      obtain ⟨hfirst, hext, hid⟩ := intern_spec ht v
      obtain ⟨hrest, hext', hids⟩ := ih hfirst
      exact ⟨hrest, hext.trans hext', .cons (hext' hid) hids⟩

theorem intern_values {t : ValueTable V} {seen : List V} (h : t.values.toList = seen.eraseDups)
    (v : V) : (t.intern v).2.values.toList = (seen ++ [v]).eraseDups := by
  have hknown : v ∈ t.values ↔ v ∈ seen := by
    rw [← Array.mem_toList_iff, h, List.mem_eraseDups]
  rw [List.eraseDups_append]
  unfold intern
  cases hfound : t.idOf? v with
  | some id =>
      have hseen : v ∈ seen := hknown.1 (Array.mem_of_getElem? (getElem?_of_idOf? hfound))
      simp [h, List.removeAll, hseen]
  | none =>
      rw [idOf?_eq_none] at hfound
      simp [push, h, List.removeAll, mt hknown.2 hfound, List.eraseDups_cons]

theorem internAll_values {t : ValueTable V} {seen : List V} (h : t.values.toList = seen.eraseDups)
    (vs : List V) : (t.internAll vs).2.values.toList = (seen ++ vs).eraseDups := by
  induction vs generalizing t seen with
  | nil => simpa [internAll] using h
  | cons v rest ih => simpa [internAll] using ih (intern_values h v)

end BinaryCsp.ValueTable
