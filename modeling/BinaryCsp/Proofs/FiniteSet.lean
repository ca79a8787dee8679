import BinaryCsp.Proofs.BitSet
import Mathlib.Data.Finset.Card

/-! # Bit sets against finite sets

However a bit set came about, from some ids and by any insertions and removals of others, it
answers every question as the finite set that the same operations lead to. Ids beyond the room that
the set was made with are no exception: they add words, and the number of words is all that tells
apart two bit sets with the same members.
-/

namespace BinaryCsp.BitSet

variable {s t : BitSet} {a b : Finset Nat} {id : Nat}

/-! ## The operations on both sides -/

inductive Op where
  | insert (id : Nat)
  | remove (id : Nat)
deriving DecidableEq

def apply (s : BitSet) : Op → Checked BitSet
  | .insert id => return (s.insert id).2
  | .remove id => do return (← s.remove id).2

def Op.onFinset (a : Finset Nat) : Op → Finset Nat
  | .insert id => Insert.insert id a
  | .remove id => a.erase id

def finsetAfter (ids : List Nat) (ops : List Op) : Finset Nat :=
  ops.foldl Op.onFinset ids.toFinset

/-- `s` has the members of `a`, and its cached size is right. -/
structure Holds (s : BitSet) (a : Finset Nat) : Prop where
  counted : s.Counted
  contains_iff : ∀ id, s.contains id = true ↔ id ∈ a

theorem Holds.contains_eq (h : s.Holds a) (id : Nat) : s.contains id = decide (id ∈ a) := by
  rw [Bool.eq_iff_iff, h.contains_iff, decide_eq_true_iff]

/-! ## One operation -/

theorem holds_ofList (bound : Nat) (ids : List Nat) : (ofList bound ids).Holds ids.toFinset where
  counted := counted_ofList bound ids
  contains_iff := by simp

theorem insert_fst (s : BitSet) (id : Nat) : (s.insert id).1 = !s.contains id := by
  unfold insert
  cases hid : s.contains id with
  | true => rfl
  | false => rfl

theorem Holds.insert (h : s.Holds a) (id : Nat) :
    (s.insert id).2.Holds (Insert.insert id a) where
  counted := h.counted.insert id
  contains_iff := by simp [h.contains_iff]

theorem Holds.exists_remove (h : s.Holds a) (id : Nat) :
    ∃ t, s.remove id = .ok (s.contains id, t) ∧ t.Holds (a.erase id) := by
  cases hid : s.contains id with
  | true =>
      refine ⟨s.erase id, remove_of_contains h.counted hid, h.counted.erase hid, fun other => ?_⟩
      simp [contains_erase hid, h.contains_iff]
  | false =>
      have hout : id ∉ a := by simp [← h.contains_iff, hid]
      rw [Finset.erase_eq_of_notMem hout]
      exact ⟨s, remove_of_not_contains hid, h⟩

theorem Holds.exists_apply (h : s.Holds a) (op : Op) :
    ∃ t, s.apply op = .ok t ∧ t.Holds (op.onFinset a) := by
  cases op with
  | insert id => exact ⟨_, rfl, h.insert id⟩
  | remove id =>
      obtain ⟨t, hremove, ht⟩ := h.exists_remove id
      exact ⟨t, by simp only [apply, hremove, Checked.ok_bind]; rfl, ht⟩

theorem Holds.exists_operations (h : s.Holds a) (ops : List Op) :
    ∃ t, ops.foldlM apply s = .ok t ∧ t.Holds (ops.foldl Op.onFinset a) :=
  Checked.exists_foldlM (fun _ _ hs op _ => hs.exists_apply op) h

/-! ## Questions -/

theorem Holds.toFinset_toList (h : s.Holds a) : s.toList.toFinset = a := by
  ext id
  rw [List.mem_toFinset, mem_toList, h.contains_iff]

theorem Holds.card_filter (h : s.Holds a) (p : Nat → Bool) :
    (s.toList.filter p).length = (a.filter (p ·)).card := by
  rw [← h.toFinset_toList, ← List.toFinset_filter,
    List.toFinset_card_of_nodup (s.toList_nodup.filter p)]

theorem Holds.size_eq (h : s.Holds a) : s.size = a.card := by
  rw [h.counted, ← h.toFinset_toList, List.toFinset_card_of_nodup s.toList_nodup]

theorem Holds.singleton?_eq_some (h : s.Holds a) : s.singleton? = some id ↔ a = {id} := by
  unfold singleton? isSingleton
  constructor
  · intro hsome
    split at hsome
    · next hone =>
      have hlength : s.toList.length = 1 := by rw [← h.counted, beq_iff_eq.1 hone]
      obtain ⟨only, hlist⟩ := List.length_eq_one_iff.1 hlength
      obtain rfl : only = id := by simpa [hlist] using hsome
      rw [← h.toFinset_toList, hlist, List.toFinset_cons, List.toFinset_nil,
        insert_empty_eq]
    · cases hsome
  · rintro rfl
    have hone : s.size = 1 := by rw [h.size_eq, Finset.card_singleton]
    obtain ⟨only, hlist⟩ := List.length_eq_one_iff.1 (h.counted.symm.trans hone)
    have hmem : only ∈ ({id} : Finset Nat) := by simp [← h.toFinset_toList, hlist]
    simp [hone, hlist, Finset.mem_singleton.1 hmem]

theorem Holds.intersects_iff (hs : s.Holds a) (ht : t.Holds b) :
    s.intersects t = true ↔ (a ∩ b).Nonempty := by
  simp only [BitSet.intersects_iff, hs.contains_iff, ht.contains_iff, Finset.Nonempty,
    Finset.mem_inter]

theorem Holds.interSize_eq (hs : s.Holds a) (ht : t.Holds b) :
    s.interSize t = (a ∩ b).card := by
  rw [BitSet.interSize_eq, hs.card_filter]
  congr 1
  ext id
  simp [ht.contains_iff]

theorem Holds.eq_iff (hs : s.Holds a) (ht : t.Holds b) :
    s = t ↔ a = b ∧ s.words.size = t.words.size := by
  constructor
  · rintro rfl
    exact ⟨hs.toFinset_toList.symm.trans ht.toFinset_toList, rfl⟩
  · rintro ⟨rfl, hwords⟩
    refine ext_of_contains hs.counted ht.counted hwords fun id => ?_
    rw [Bool.eq_iff_iff, hs.contains_iff, ht.contains_iff]

/-- Every question about `s` has the answer that it has for `a`, and so has every question about
the set after an insertion or a removal. -/
structure Answers (s : BitSet) (a : Finset Nat) : Prop where
  contains : ∀ id, s.contains id = decide (id ∈ a)
  size : s.size = a.card
  isEmpty : s.isEmpty = decide (a = ∅)
  mem_toList : ∀ id, id ∈ s.toList ↔ id ∈ a
  ascending : s.toList.Pairwise (· < ·)
  singleton : ∀ id, s.singleton? = some id ↔ a = {id}
  insert : ∀ id, ∃ t, s.insert id = (decide (id ∉ a), t) ∧
    ∀ other, t.contains other = decide (other ∈ Insert.insert id a)
  remove : ∀ id, ∃ t, s.remove id = .ok (decide (id ∈ a), t) ∧
    ∀ other, t.contains other = decide (other ∈ a.erase id)

theorem Holds.answers (h : s.Holds a) : s.Answers a where
  contains := h.contains_eq
  size := h.size_eq
  isEmpty := by
    rw [Bool.eq_iff_iff, decide_eq_true_iff, BitSet.isEmpty, h.size_eq, beq_iff_eq,
      Finset.card_eq_zero]
  mem_toList := by simp [h.contains_iff]
  ascending := s.toList_ascending
  singleton := fun _ => h.singleton?_eq_some
  insert := by
    intro id
    refine ⟨(s.insert id).2, Prod.ext ?_ rfl, (h.insert id).contains_eq⟩
    simp [insert_fst, h.contains_eq]
  remove := by
    intro id
    obtain ⟨t, hremove, ht⟩ := h.exists_remove id
    exact ⟨t, by rw [hremove, h.contains_eq], ht.contains_eq⟩

/-- Sets made from any ids and changed by any operations answer as the finite sets that these lead
to, alone and compared with each other. The number of words shows in a comparison only. -/
theorem operations_answer_as_finsets (bound bound' : Nat) (ids ids' : List Nat)
    (ops ops' : List Op) :
    ∃ s t, ops.foldlM apply (ofList bound ids) = .ok s ∧
      ops'.foldlM apply (ofList bound' ids') = .ok t ∧
      s.Answers (finsetAfter ids ops) ∧ t.Answers (finsetAfter ids' ops') ∧
      (s.intersects t = true ↔ (finsetAfter ids ops ∩ finsetAfter ids' ops').Nonempty) ∧
      s.interSize t = (finsetAfter ids ops ∩ finsetAfter ids' ops').card ∧
      (s = t ↔ finsetAfter ids ops = finsetAfter ids' ops' ∧ s.words.size = t.words.size) := by
  obtain ⟨s, hrun, hs⟩ := (holds_ofList bound ids).exists_operations ops
  obtain ⟨t, hrun', ht⟩ := (holds_ofList bound' ids').exists_operations ops'
  exact ⟨s, t, hrun, hrun', hs.answers, ht.answers, hs.intersects_iff ht, hs.interSize_eq ht,
    hs.eq_iff ht⟩

end BinaryCsp.BitSet
