import BinaryCsp.BitSet
import BinaryCsp.Proofs.Checked
import Mathlib.Data.List.Nodup
import Mathlib.Data.List.Perm.Basic
import Mathlib.Data.List.Sort

/-! # Bit sets as finite sets

A bit set is read through `contains`. Insertion and removal act on membership as on a set, the
listing is strictly ascending and lists exactly the members, and a set whose cached size is the
length of its listing keeps that property. Two such sets with as many words and the same members
are equal, so a removal followed by the insertion of the same id is undone to the last word.
-/

namespace BinaryCsp.BitSet

/-! ## Single words -/

/-- Bit `i` of a word. Unlike `hasBit` it is false, and does not wrap, beyond the last bit. -/
def bitAt (word : UInt64) (i : Nat) : Bool := word.toBitVec.getLsbD i

theorem word_ext {word other : UInt64} (h : ∀ i < 64, bitAt word i = bitAt other i) :
    word = other := by
  rw [← UInt64.toBitVec_inj]
  exact BitVec.eq_of_getLsbD_eq h

@[simp] theorem bitAt_zero (i : Nat) : bitAt 0 i = false := by
  simp [bitAt]

@[simp] theorem bitAt_and (word other : UInt64) (i : Nat) :
    bitAt (word &&& other) i = (bitAt word i && bitAt other i) := by
  simp [bitAt]

@[simp] theorem bitAt_or (word other : UInt64) (i : Nat) :
    bitAt (word ||| other) i = (bitAt word i || bitAt other i) := by
  simp [bitAt]

theorem bitAt_not (word : UInt64) {i : Nat} (hi : i < 64) : bitAt (~~~ word) i = !bitAt word i := by
  simp [bitAt, hi]

@[simp] theorem bitAt_shiftRight_one (word : UInt64) (i : Nat) :
    bitAt (word >>> 1) i = bitAt word (i + 1) := by
  simp [bitAt, Nat.add_comm]

theorem bitAt_one (i : Nat) : bitAt 1 i = decide (i = 0) := by
  simp [bitAt, BitVec.getLsbD_one]

theorem bitAt_mask {bit : Nat} (hbit : bit < 64) (i : Nat) :
    bitAt (mask bit) i = decide (i = bit) := by
  -- The shift amount is reduced modulo the width, which does nothing below it.
  have hshift : ((UInt64.ofNat bit).toBitVec % 64).toNat = bit := by
    simp only [BitVec.toNat_umod, UInt64.toNat_toBitVec, UInt64.toNat_ofNat',
      show (64 : BitVec 64).toNat = 64 from rfl]
    omega
  simp only [bitAt, mask, UInt64.toBitVec_shiftLeft, BitVec.shiftLeft_eq', hshift,
    BitVec.getLsbD_shiftLeft, UInt64.toBitVec_one, BitVec.getLsbD_one]
  by_cases hi : i = bit
  · simp [hi, hbit]
  · by_cases hlt : i < bit
    · simp [hi, hlt]
    · simp [hi, show i - bit ≠ 0 by omega]

theorem hasBit_eq_bitAt {bit : Nat} (hbit : bit < 64) (word : UInt64) :
    hasBit word bit = bitAt word bit := by
  have hzero : word &&& mask bit = 0 ↔ bitAt word bit = false := by
    constructor
    · intro h
      have hb := congrArg (bitAt · bit) h
      simpa [bitAt_mask hbit] using hb
    · intro h
      apply word_ext
      intro i _
      by_cases hi : i = bit
      · simp [bitAt_mask hbit, hi, h]
      · simp [bitAt_mask hbit, hi]
  unfold hasBit
  cases hb : bitAt word bit with
  | false => simp [hzero.2 hb]
  | true =>
      have hne : word &&& mask bit ≠ 0 := by
        rw [Ne, hzero, hb]
        decide
      simp [hne]

theorem and_one_eq_one_iff (word : UInt64) : word &&& 1 = 1 ↔ bitAt word 0 = true := by
  constructor
  · intro h
    have hb := congrArg (bitAt · 0) h
    simpa [bitAt_one] using hb
  · intro h
    apply word_ext
    intro i _
    by_cases hi : i = 0
    · simp [hi, bitAt_one, h]
    · simp [hi, bitAt_one]

/-! ## The bits of one word -/

def setBits (word : UInt64) : List Nat := (List.range wordBits).filter (bitAt word)

theorem mem_setBits {word : UInt64} {i : Nat} :
    i ∈ setBits word ↔ i < wordBits ∧ bitAt word i = true := by
  rw [setBits, List.mem_filter, List.mem_range]

theorem setBits_ascending (word : UInt64) : (setBits word).Pairwise (· < ·) :=
  List.pairwise_lt_range.filter _

theorem setBits_and (word other : UInt64) :
    setBits (word &&& other) = (setBits word).filter (bitAt other) := by
  rw [setBits, setBits, List.filter_filter]
  exact List.filter_congr fun i _ => by rw [bitAt_and, Bool.and_comm]

theorem trailingZeros_le {width i : Nat} {word : UInt64} (hbit : bitAt word i = true) :
    trailingZeros width word ≤ i := by
  induction width generalizing word i with
  | zero => exact Nat.zero_le i
  | succ width ih =>
      rw [trailingZeros]
      by_cases hlow : word &&& 1 = 1
      · simp [hlow]
      · rw [if_neg hlow]
        cases i with
        | zero => exact absurd ((and_one_eq_one_iff word).2 hbit) hlow
        | succ i => exact Nat.succ_le_succ (ih (by rwa [bitAt_shiftRight_one]))

theorem bitAt_trailingZeros {width i : Nat} {word : UInt64} (hi : i < width)
    (hbit : bitAt word i = true) : bitAt word (trailingZeros width word) = true := by
  induction width generalizing word i with
  | zero => omega
  | succ width ih =>
      rw [trailingZeros]
      by_cases hlow : word &&& 1 = 1
      · rw [if_pos hlow]
        exact (and_one_eq_one_iff word).1 hlow
      · rw [if_neg hlow, ← bitAt_shiftRight_one]
        cases i with
        | zero => exact absurd ((and_one_eq_one_iff word).2 hbit) hlow
        | succ i => exact ih (Nat.lt_of_succ_lt_succ hi) (by rwa [bitAt_shiftRight_one])

/-- Subtracting one turns the bits up to the lowest set one around, and leaves those above. -/
theorem bitAt_and_sub_one {word : UInt64} {i : Nat} (hi : i < 64) :
    bitAt (word &&& (word - 1)) i = true ↔
      bitAt word i = true ∧ ∃ j < i, bitAt word j = true := by
  simp only [bitAt, UInt64.toBitVec_and, UInt64.toBitVec_sub, UInt64.toBitVec_one,
    ← BitVec.not_neg, BitVec.getLsbD_and, BitVec.getLsbD_not, BitVec.getLsbD_neg, hi,
    decide_true, Bool.true_and, Bool.and_eq_true]
  refine and_congr_right fun hbit => ?_
  simp [hbit]

theorem trailingZeros_mem_setBits {word : UInt64} (hword : word ≠ 0) :
    trailingZeros wordBits word ∈ setBits word := by
  obtain ⟨i, hi, hbit⟩ : ∃ i < wordBits, bitAt word i = true := by
    by_contra hnone
    refine hword (word_ext fun i hi => ?_)
    rw [bitAt_zero, ← Bool.not_eq_true]
    exact fun hbit => hnone ⟨i, hi, hbit⟩
  exact mem_setBits.2 ⟨Nat.lt_of_le_of_lt (trailingZeros_le hbit) hi, bitAt_trailingZeros hi hbit⟩

theorem mem_setBits_and_sub_one {word : UInt64} (hword : word ≠ 0) {i : Nat} :
    i ∈ setBits (word &&& (word - 1)) ↔ i ∈ setBits word ∧ trailingZeros wordBits word < i := by
  rw [mem_setBits, mem_setBits, and_assoc]
  refine and_congr_right fun hi => ?_
  rw [bitAt_and_sub_one hi]
  refine and_congr_right fun _ => ⟨?_, fun hbelow => ?_⟩
  · rintro ⟨j, hj, hbit⟩
    exact Nat.lt_of_le_of_lt (trailingZeros_le hbit) hj
  · exact ⟨_, hbelow, (mem_setBits.1 (trailingZeros_mem_setBits hword)).2⟩

/-- The lowest set bit comes first, and the word without it has the others. -/
theorem setBits_eq_cons {word : UInt64} (hword : word ≠ 0) :
    setBits word = trailingZeros wordBits word :: setBits (word &&& (word - 1)) := by
  have hrest := @mem_setBits_and_sub_one word hword
  refine (setBits_ascending word).eq_of_mem_iff
    (List.pairwise_cons.2 ⟨fun i hi => (hrest.1 hi).2, setBits_ascending _⟩) fun i => ?_
  rw [List.mem_cons, hrest]
  constructor
  · intro hi
    have hle : trailingZeros wordBits word ≤ i := trailingZeros_le (mem_setBits.1 hi).2
    rcases Nat.eq_or_lt_of_le hle with heq | hbelow
    · exact .inl heq.symm
    · exact .inr ⟨hi, hbelow⟩
  · rintro (rfl | ⟨hi, _⟩)
    · exact trailingZeros_mem_setBits hword
    · exact hi

/-- As a word has no more set bits than bits, the extraction comes to its end. -/
theorem bitsFrom_eq_map (base : Nat) (word : UInt64) :
    bitsFrom base wordBits word = (setBits word).map (base + ·) := by
  have hcount : ∀ count word, (setBits word).length ≤ count →
      bitsFrom base count word = (setBits word).map (base + ·) := by
    intro count
    induction count with
    | zero =>
        intro word hle
        rw [List.eq_nil_of_length_eq_zero (Nat.le_zero.1 hle)]
        rfl
    | succ count ih =>
        intro word hle
        rw [bitsFrom]
        by_cases hzero : word = 0
        · simp [hzero, setBits]
        · rw [setBits_eq_cons hzero, List.length_cons] at hle
          rw [if_neg hzero, setBits_eq_cons hzero, ih _ (Nat.le_of_succ_le_succ hle), List.map_cons]
  refine hcount wordBits word ?_
  exact (List.length_filter_le _ _).trans_eq List.length_range

theorem mem_bitsFrom {base id : Nat} {word : UInt64} :
    id ∈ bitsFrom base wordBits word ↔ ∃ i < wordBits, id = base + i ∧ bitAt word i = true := by
  simp only [bitsFrom_eq_map, List.mem_map, mem_setBits]
  constructor
  · rintro ⟨i, ⟨hi, hbit⟩, rfl⟩
    exact ⟨i, hi, rfl, hbit⟩
  · rintro ⟨i, hi, rfl, hbit⟩
    exact ⟨i, ⟨hi, hbit⟩, rfl⟩

theorem bitsFrom_ascending (base : Nat) (word : UInt64) :
    (bitsFrom base wordBits word).Pairwise (· < ·) := by
  rw [bitsFrom_eq_map, List.pairwise_map]
  exact (setBits_ascending word).imp fun h => Nat.add_lt_add_left h base

/-- The exit on an empty word agrees with running the loop to its end. -/
theorem countBits_succ (width : Nat) (word : UInt64) :
    countBits (width + 1) word =
      (if bitAt word 0 then 1 else 0) + countBits width (word >>> 1) := by
  rw [countBits]
  by_cases hzero : word = 0
  · subst hzero
    cases width <;> simp [countBits]
  · by_cases hlow : word &&& 1 = 1
    · simp [hzero, hlow, (and_one_eq_one_iff word).1 hlow]
    · simp [hzero, hlow, mt (and_one_eq_one_iff word).2 hlow]

theorem countBits_eq (width : Nat) (word : UInt64) :
    countBits width word = ((List.range width).filter (bitAt word)).length := by
  induction width generalizing word with
  | zero => rfl
  | succ width ih =>
      have hshift : bitAt word ∘ Nat.succ = bitAt (word >>> 1) := by
        funext i
        rw [Function.comp_apply, bitAt_shiftRight_one]
      rw [countBits_succ, ih, List.range_succ_eq_map, List.filter_cons, List.filter_map, hshift]
      cases hlow : bitAt word 0 <;> simp [Nat.add_comm]

/-- Counting the bits that two words share amounts to filtering the listing of the first. -/
theorem countBits_and (base : Nat) (word other : UInt64) :
    countBits wordBits (word &&& other) =
      ((bitsFrom base wordBits word).filter fun id => bitAt other (id - base)).length := by
  have hbits : (fun id => bitAt other (id - base)) ∘ (base + ·) = bitAt other := by
    funext i
    rw [Function.comp_apply, Nat.add_sub_cancel_left]
  rw [countBits_eq, ← setBits, setBits_and, bitsFrom_eq_map, List.filter_map, List.length_map,
    hbits]

/-! ## Members -/

theorem contains_eq_bitAt (s : BitSet) (id : Nat) :
    s.contains id = bitAt (s.word (id / wordBits)) (id % wordBits) := by
  have hbit : id % wordBits < 64 := Nat.mod_lt id (by decide)
  rw [contains, hasBit_eq_bitAt hbit]

theorem word_of_size_le {s : BitSet} {position : Nat} (h : s.words.size ≤ position) :
    s.word position = 0 := by
  simp [word, h]

theorem lt_size_of_contains {s : BitSet} {id : Nat} (h : s.contains id = true) :
    id / wordBits < s.words.size := by
  by_contra hge
  rw [contains_eq_bitAt, word_of_size_le (by omega)] at h
  simp at h

/-- The exit on an empty word only skips the listing of a word without bits. -/
theorem membersBelow_succ (s : BitSet) (count : Nat) (rest : List Nat) :
    s.membersBelow (count + 1) rest =
      s.membersBelow count (bitsFrom (wordBits * count) wordBits (s.word count) ++ rest) := by
  rw [membersBelow]
  by_cases hzero : s.word count = 0
  · have hnil : bitsFrom (wordBits * count) wordBits 0 = [] := by simp [wordBits, bitsFrom]
    simp [hzero, hnil]
  · simp [hzero]

theorem mem_membersBelow {s : BitSet} {count id : Nat} {rest : List Nat} :
    id ∈ s.membersBelow count rest ↔
      (id < wordBits * count ∧ s.contains id = true) ∨ id ∈ rest := by
  induction count generalizing rest with
  | zero => simp [membersBelow]
  | succ count ih =>
      have hword : id ∈ bitsFrom (wordBits * count) wordBits (s.word count) ↔
          (wordBits * count ≤ id ∧ id < wordBits * (count + 1)) ∧ s.contains id = true := by
        rw [mem_bitsFrom, contains_eq_bitAt]
        simp only [wordBits]
        constructor
        · rintro ⟨i, hi, rfl, hb⟩
          refine ⟨by omega, ?_⟩
          rw [show (64 * count + i) / 64 = count by omega, show (64 * count + i) % 64 = i by omega]
          exact hb
        · rintro ⟨hid, hb⟩
          rw [show id / 64 = count by omega] at hb
          exact ⟨id % 64, by omega, by omega, hb⟩
      rw [membersBelow_succ, ih, List.mem_append, hword]
      constructor
      · rintro (⟨hlt, hb⟩ | ⟨⟨_, hlt⟩, hb⟩ | hrest)
        · exact .inl ⟨by simp only [wordBits] at hlt ⊢; omega, hb⟩
        · exact .inl ⟨hlt, hb⟩
        · exact .inr hrest
      · rintro (⟨hlt, hb⟩ | hrest)
        · by_cases hbelow : id < wordBits * count
          · exact .inl ⟨hbelow, hb⟩
          · exact .inr (.inl ⟨⟨by omega, hlt⟩, hb⟩)
        · exact .inr (.inr hrest)

@[simp] theorem mem_toList {s : BitSet} {id : Nat} : id ∈ s.toList ↔ s.contains id = true := by
  rw [toList, mem_membersBelow]
  constructor
  · rintro (⟨_, h⟩ | h)
    · exact h
    · simp at h
  · intro h
    refine .inl ⟨?_, h⟩
    have hlt := lt_size_of_contains h
    simp only [wordBits] at hlt ⊢
    omega

theorem membersBelow_ascending {s : BitSet} {count : Nat} {rest : List Nat}
    (hrest : rest.Pairwise (· < ·)) (hlow : ∀ id ∈ rest, wordBits * count ≤ id) :
    (s.membersBelow count rest).Pairwise (· < ·) := by
  induction count generalizing rest with
  | zero => exact hrest
  | succ count ih =>
      have hle : wordBits * count ≤ wordBits * (count + 1) := Nat.mul_le_mul_left _ (by omega)
      rw [membersBelow_succ]
      apply ih
      · refine List.pairwise_append.2 ⟨bitsFrom_ascending _ _, hrest, ?_⟩
        intro a ha b hb
        obtain ⟨i, hi, rfl, _⟩ := mem_bitsFrom.1 ha
        have hb' := hlow b hb
        simp only [wordBits] at hi hb' ⊢
        omega
      · intro id hid
        rcases List.mem_append.1 hid with hid | hid
        · obtain ⟨i, _, rfl, _⟩ := mem_bitsFrom.1 hid
          omega
        · exact Nat.le_trans hle (hlow id hid)

theorem toList_ascending (s : BitSet) : s.toList.Pairwise (· < ·) :=
  membersBelow_ascending .nil (by simp)

theorem toList_nodup (s : BitSet) : s.toList.Nodup :=
  s.toList_ascending.imp Nat.ne_of_lt

/-- A subset is listed in the order in which its members stand in the whole set. -/
theorem toList_eq_filter {s t : BitSet} (h : ∀ id, s.contains id = true → t.contains id = true) :
    s.toList = t.toList.filter s.contains := by
  refine s.toList_ascending.eq_of_mem_iff (t.toList_ascending.filter _) fun id => ?_
  rw [List.mem_filter, mem_toList, mem_toList]
  exact ⟨fun hid => ⟨h id hid, hid⟩, fun hid => hid.2⟩

theorem toList_sublist {s t : BitSet} (h : ∀ id, s.contains id = true → t.contains id = true) :
    s.toList.Sublist t.toList := by
  rw [toList_eq_filter h]
  exact List.filter_sublist

/-! ## The cached size -/

def Counted (s : BitSet) : Prop := s.size = s.toList.length

theorem Counted.pos {s : BitSet} (h : s.Counted) {id : Nat} (hid : s.contains id = true) :
    0 < s.size := by
  rw [h]
  exact List.length_pos_of_mem (mem_toList.2 hid)

theorem Counted.isEmpty_iff {s : BitSet} (h : s.Counted) :
    s.isEmpty = true ↔ ∀ id, s.contains id = false := by
  have hempty : s.isEmpty = true ↔ s.toList = [] := by
    rw [isEmpty, h, beq_iff_eq, List.length_eq_zero_iff]
  rw [hempty, List.eq_nil_iff_forall_not_mem]
  simp

/-! ## Making and changing sets -/

@[simp] theorem contains_empty (bound id : Nat) : (empty bound).contains id = false := by
  have hword : (empty bound).word (id / wordBits) = 0 := by
    simp only [empty, word, Array.getD_eq_getD_getElem?, Array.getElem?_replicate]
    split <;> rfl
  rw [contains_eq_bitAt, hword, bitAt_zero]

theorem counted_empty (bound : Nat) : (empty bound).Counted := by
  have hnil : (empty bound).toList = [] := by
    rw [List.eq_nil_iff_forall_not_mem]
    simp
  rw [Counted, hnil]
  rfl

theorem contains_modify {words : Array UInt64} {size id : Nat} {f : UInt64 → UInt64}
    (hid : id / wordBits < words.size) (other : Nat) :
    contains ⟨words.modify (id / wordBits) f, size⟩ other =
      if other / wordBits = id / wordBits then
        bitAt (f (words.getD (id / wordBits) 0)) (other % wordBits)
      else contains ⟨words, size⟩ other := by
  rw [contains_eq_bitAt, contains_eq_bitAt]
  simp only [word, Array.getD_eq_getD_getElem?, Array.getElem?_modify]
  by_cases hsame : other / wordBits = id / wordBits
  · simp [hsame, hid]
  · simp [hsame, Ne.symm hsame]

theorem padded_getD (s : BitSet) (count position : Nat) :
    (s.padded count).getD position 0 = s.word position := by
  simp only [padded, word, Array.getD_eq_getD_getElem?, Array.getElem?_append,
    Array.getElem?_replicate]
  by_cases h : position < s.words.size
  · simp [h]
  · simp only [h, if_false, Array.getElem?_eq_none (Nat.not_lt.1 h), Option.getD_none]
    split <;> rfl

theorem lt_size_padded (s : BitSet) (count : Nat) : count ≤ (s.padded count).size := by
  simp only [padded, Array.size_append, Array.size_replicate]
  omega

@[simp] theorem contains_insert (s : BitSet) (id other : Nat) :
    (s.insert id).2.contains other = (decide (other = id) || s.contains other) := by
  unfold insert
  by_cases hid : s.contains id = true
  · by_cases ho : other = id
    · simp [hid, ho]
    · simp [hid, ho]
  · have hpad : ∀ size, contains ⟨s.padded (id / wordBits + 1), size⟩ other = s.contains other := by
      intro size
      rw [contains_eq_bitAt, contains_eq_bitAt, ← s.padded_getD (id / wordBits + 1)]
      rfl
    have hbit : id % wordBits < 64 := Nat.mod_lt id (by decide)
    simp only [if_neg hid]
    rw [contains_modify (s.lt_size_padded _), hpad, padded_getD, bitAt_or, bitAt_mask hbit]
    by_cases hword : other / wordBits = id / wordBits
    · have hother : decide (other % wordBits = id % wordBits) = decide (other = id) := by
        simp only [wordBits] at hword ⊢
        exact decide_eq_decide.2 ⟨fun h => by omega, fun h => by rw [h]⟩
      rw [if_pos hword, hother, contains_eq_bitAt, hword, Bool.or_comm]
    · have hne : other ≠ id := by
        rintro rfl
        exact hword rfl
      simp [hword, hne]

theorem size_insert (s : BitSet) (id : Nat) :
    (s.insert id).2.size = if s.contains id then s.size else s.size + 1 := by
  unfold insert
  split <;> rfl

theorem size_words_insert {s : BitSet} {id : Nat} (h : id / wordBits < s.words.size) :
    (s.insert id).2.words.size = s.words.size := by
  unfold insert
  split
  · rfl
  · simp only [padded, Array.size_modify, Array.size_append, Array.size_replicate]
    omega

/-- Ids below the bound fit into the words that a set is made with. -/
theorem size_words_insert_of_lt {s : BitSet} {bound id : Nat} (hid : id < bound)
    (hs : s.words.size = (empty bound).words.size) :
    (s.insert id).2.words.size = (empty bound).words.size := by
  rw [size_words_insert, hs]
  rw [hs]
  simp only [empty, Array.size_replicate, wordBits]
  omega

theorem Counted.insert {s : BitSet} (h : s.Counted) (id : Nat) : (s.insert id).2.Counted := by
  rw [Counted, size_insert]
  by_cases hid : s.contains id = true
  · have hsame : (s.insert id).2 = s := by simp [BitSet.insert, hid]
    rw [hsame, if_pos hid, h]
  · have hperm : (s.insert id).2.toList.Perm (id :: s.toList) := by
      refine (List.perm_ext_iff_of_nodup (toList_nodup _) ?_).2 ?_
      · exact List.nodup_cons.2 ⟨by simpa using hid, s.toList_nodup⟩
      · intro other
        simp
    rw [if_neg hid, hperm.length_eq, List.length_cons, h]

def erase (s : BitSet) (id : Nat) : BitSet :=
  ⟨s.words.modify (id / wordBits) (· &&& ~~~ mask (id % wordBits)), s.size - 1⟩

theorem remove_of_contains {s : BitSet} {id : Nat} (hs : s.Counted) (hid : s.contains id = true) :
    s.remove id = .ok (true, s.erase id) := by
  simp [remove, hid, Checked.sub_of_le (hs.pos hid), erase]

theorem remove_of_not_contains {s : BitSet} {id : Nat} (hid : s.contains id = false) :
    s.remove id = .ok (false, s) := by
  simp [remove, hid]

@[simp] theorem size_words_erase (s : BitSet) (id : Nat) :
    (s.erase id).words.size = s.words.size := by
  simp [erase]

theorem contains_erase {s : BitSet} {id : Nat} (hid : s.contains id = true) (other : Nat) :
    (s.erase id).contains other = (decide (other ≠ id) && s.contains other) := by
  have hbit : id % wordBits < 64 := Nat.mod_lt id (by decide)
  have hbit' : other % wordBits < 64 := Nat.mod_lt other (by decide)
  rw [erase, contains_modify (lt_size_of_contains hid), bitAt_and, bitAt_not _ hbit',
    bitAt_mask hbit]
  by_cases hword : other / wordBits = id / wordBits
  · have hother : decide (other % wordBits = id % wordBits) = decide (other = id) := by
      simp only [wordBits] at hword ⊢
      exact decide_eq_decide.2 ⟨fun h => by omega, fun h => by rw [h]⟩
    rw [if_pos hword, hother, s.contains_eq_bitAt other, hword, Bool.and_comm]
    simp [word]
  · have hne : other ≠ id := by
      rintro rfl
      exact hword rfl
    simp [hword, hne, contains, word]

theorem Counted.erase {s : BitSet} (h : s.Counted) {id : Nat} (hid : s.contains id = true) :
    (s.erase id).Counted := by
  have hperm : s.toList.Perm (id :: (s.erase id).toList) := by
    refine (List.perm_ext_iff_of_nodup s.toList_nodup ?_).2 ?_
    · exact List.nodup_cons.2 ⟨by simp [contains_erase hid], toList_nodup _⟩
    · intro other
      by_cases ho : other = id
      · simp [ho, hid]
      · simp [contains_erase hid, ho]
  have hlen := hperm.length_eq
  rw [List.length_cons] at hlen
  rw [Counted, BitSet.erase, h]
  simp only [BitSet.erase, h.symm] at hlen ⊢
  omega

/-- Putting a removed member back restores the set to the last word. -/
theorem insert_erase {s : BitSet} (h : s.Counted) {id : Nat} (hid : s.contains id = true) :
    ((s.erase id).insert id).2 = s := by
  have hlt := lt_size_of_contains hid
  have hbit : id % wordBits < 64 := Nat.mod_lt id (by decide)
  have hout : (s.erase id).contains id = false := by simp [contains_erase hid]
  have hpad : (s.erase id).padded (id / wordBits + 1) = (s.erase id).words := by
    simp [padded, show id / wordBits + 1 - s.words.size = 0 by omega]
  have hwords : (((s.words.modify (id / wordBits) (· &&& ~~~ mask (id % wordBits))).modify
      (id / wordBits) (· ||| mask (id % wordBits)))) = s.words := by
    apply Array.ext (by simp)
    intro position hpos hpos'
    by_cases hword : id / wordBits = position
    · subst hword
      simp only [Array.getElem_modify_self]
      apply word_ext
      intro i hi
      rw [bitAt_or, bitAt_and, bitAt_not _ hi, bitAt_mask hbit]
      by_cases hsame : i = id % wordBits
      · have hin := s.contains_eq_bitAt id
        rw [hid] at hin
        simpa [hsame, word, hlt] using hin
      · simp [hsame]
    · simp [Array.getElem_modify_of_ne hword]
  have hsize : s.size - 1 + 1 = s.size := by
    have := h.pos hid
    omega
  have hinsert : (s.erase id).insert id = (true, ⟨((s.erase id).words.modify
      (id / wordBits) (· ||| mask (id % wordBits))), (s.erase id).size + 1⟩) := by
    simp [insert, hout, hpad]
  rw [hinsert]
  simp only [erase, hwords, hsize]

theorem insert_foldl_spec (s : BitSet) (hs : s.Counted) (ids : List Nat) :
    let t := ids.foldl (fun s id => (s.insert id).2) s
    t.Counted ∧ ∀ id, t.contains id = true ↔ id ∈ ids ∨ s.contains id = true := by
  induction ids generalizing s with
  | nil => simp [hs]
  | cons first rest ih =>
      obtain ⟨hcounted, hmem⟩ := ih (s.insert first).2 (hs.insert first)
      refine ⟨hcounted, ?_⟩
      intro id
      rw [List.foldl_cons, hmem]
      simp only [contains_insert, Bool.or_eq_true, decide_eq_true_eq, List.mem_cons]
      tauto

theorem counted_ofList (bound : Nat) (ids : List Nat) : (ofList bound ids).Counted :=
  (insert_foldl_spec (empty bound) (counted_empty bound) ids).1

@[simp] theorem contains_ofList {bound : Nat} {ids : List Nat} {id : Nat} :
    (ofList bound ids).contains id = true ↔ id ∈ ids := by
  simpa [ofList] using (insert_foldl_spec (empty bound) (counted_empty bound) ids).2 id

theorem size_words_foldl {bound : Nat} {ids : List Nat} (hids : ∀ id ∈ ids, id < bound) {s : BitSet}
    (hs : s.words.size = (empty bound).words.size) :
    (ids.foldl (fun s id => (s.insert id).2) s).words.size = (empty bound).words.size := by
  induction ids generalizing s with
  | nil => exact hs
  | cons first rest ih =>
      refine ih (fun id hid => hids id (List.mem_cons_of_mem _ hid)) ?_
      exact size_words_insert_of_lt (hids first (by simp)) hs

theorem size_words_ofList {bound : Nat} {ids : List Nat} (hids : ∀ id ∈ ids, id < bound) :
    (ofList bound ids).words.size = (empty bound).words.size :=
  size_words_foldl hids rfl

/-! ## Comparing sets -/

theorem intersectsBelow_iff {s t : BitSet} {count : Nat} :
    intersectsBelow s t count = true ↔
      ∃ id < wordBits * count, s.contains id = true ∧ t.contains id = true := by
  induction count with
  | zero => simp [intersectsBelow]
  | succ count ih =>
      have hword : (s.word count &&& t.word count != 0) = true ↔
          ∃ id, id / wordBits = count ∧ s.contains id = true ∧ t.contains id = true := by
        simp only [bne_iff_ne, contains_eq_bitAt]
        constructor
        · intro hne
          by_contra hnone
          refine hne (word_ext fun i hi => ?_)
          have hid : (wordBits * count + i) / wordBits = count := by
            simp only [wordBits]
            omega
          have hmod : (wordBits * count + i) % wordBits = i := by
            simp only [wordBits]
            omega
          rw [bitAt_and, bitAt_zero, Bool.and_eq_false_iff]
          by_contra hboth
          refine hnone ⟨wordBits * count + i, hid, ?_⟩
          rw [hid, hmod]
          simpa using hboth
        · rintro ⟨id, rfl, hs, ht⟩ hzero
          have hb := congrArg (bitAt · (id % wordBits)) hzero
          simp [hs, ht] at hb
      rw [intersectsBelow, Bool.or_eq_true, hword, ih]
      constructor
      · rintro (⟨id, hid, h⟩ | ⟨id, hid, h⟩)
        · exact ⟨id, by simp only [wordBits] at hid ⊢; omega, h⟩
        · exact ⟨id, by simp only [wordBits] at hid ⊢; omega, h⟩
      · rintro ⟨id, hid, h⟩
        by_cases hlt : id < wordBits * count
        · exact .inr ⟨id, hlt, h⟩
        · exact .inl ⟨id, by simp only [wordBits] at hid hlt ⊢; omega, h⟩

theorem intersects_iff {s t : BitSet} :
    s.intersects t = true ↔ ∃ id, s.contains id = true ∧ t.contains id = true := by
  rw [intersects, intersectsBelow_iff]
  constructor
  · rintro ⟨id, _, h⟩
    exact ⟨id, h⟩
  · rintro ⟨id, hs, ht⟩
    have hls := lt_size_of_contains hs
    have hlt := lt_size_of_contains ht
    exact ⟨id, by simp only [wordBits] at hls hlt ⊢; omega, hs, ht⟩

theorem membersBelow_append (s : BitSet) (count : Nat) (rest : List Nat) :
    s.membersBelow count rest = s.membersBelow count [] ++ rest := by
  induction count generalizing rest with
  | zero => rfl
  | succ count ih =>
      rw [membersBelow_succ, membersBelow_succ, ih, List.append_nil,
        ih (bitsFrom (wordBits * count) wordBits (s.word count)), List.append_assoc]

theorem interSizeBelow_eq (s t : BitSet) (count total : Nat) :
    interSizeBelow s t count total =
      total + ((s.membersBelow count []).filter t.contains).length := by
  induction count generalizing total with
  | zero => rfl
  | succ count ih =>
      have hword : ((bitsFrom (wordBits * count) wordBits (s.word count)).filter fun id =>
            bitAt (t.word count) (id - wordBits * count)) =
          (bitsFrom (wordBits * count) wordBits (s.word count)).filter t.contains := by
        apply List.filter_congr
        intro id hid
        obtain ⟨i, hi, rfl, _⟩ := mem_bitsFrom.1 hid
        rw [contains_eq_bitAt]
        simp only [wordBits] at hi ⊢
        rw [show (64 * count + i) / 64 = count by omega, show (64 * count + i) % 64 = i by omega,
          show 64 * count + i - 64 * count = i by omega]
      rw [interSizeBelow, ih, countBits_and (wordBits * count), hword, membersBelow_succ,
        List.append_nil, s.membersBelow_append count (bitsFrom _ _ _), List.filter_append,
        List.length_append]
      omega

theorem interSize_eq (s t : BitSet) : s.interSize t = (s.toList.filter t.contains).length := by
  rw [interSize, interSizeBelow_eq, Nat.zero_add]
  apply List.Perm.length_eq
  have hbelow : (s.membersBelow (min s.words.size t.words.size) []).Nodup :=
    (membersBelow_ascending .nil (by simp)).imp Nat.ne_of_lt
  refine (List.perm_ext_iff_of_nodup (hbelow.filter _) (s.toList_nodup.filter _)).2 ?_
  intro id
  simp only [List.mem_filter, mem_membersBelow, List.not_mem_nil, or_false, mem_toList]
  constructor
  · rintro ⟨⟨_, hs⟩, ht⟩
    exact ⟨hs, ht⟩
  · rintro ⟨hs, ht⟩
    have hls := lt_size_of_contains hs
    have hlt := lt_size_of_contains ht
    exact ⟨⟨by simp only [wordBits] at hls hlt ⊢; omega, hs⟩, ht⟩

theorem interSize_le {s : BitSet} (hs : s.Counted) (t : BitSet) : s.interSize t ≤ s.size := by
  rw [interSize_eq, hs]
  exact List.length_filter_le _ _

/-- Without the common members, those that the other set does not have are left. -/
theorem size_sub_interSize {s : BitSet} (hs : s.Counted) (t : BitSet) :
    s.size - s.interSize t = (s.toList.filter fun id => !t.contains id).length := by
  have hsplit := s.toList.length_eq_length_filter_add t.contains
  rw [← hs, ← interSize_eq] at hsplit
  omega

theorem ext_of_contains {s t : BitSet} (hs : s.Counted) (ht : t.Counted)
    (hwords : s.words.size = t.words.size) (h : ∀ id, s.contains id = t.contains id) : s = t := by
  have hperm : s.toList.Perm t.toList := by
    refine (List.perm_ext_iff_of_nodup s.toList_nodup t.toList_nodup).2 ?_
    intro id
    simp [h id]
  have hsize : s.size = t.size := by rw [hs, ht, hperm.length_eq]
  have heq : s.words = t.words := by
    apply Array.ext hwords
    intro position hpos hpos'
    apply word_ext
    intro i hi
    have hid := h (wordBits * position + i)
    have hdiv : (wordBits * position + i) / wordBits = position := by
      simp only [wordBits]
      omega
    have hmod : (wordBits * position + i) % wordBits = i := by
      simp only [wordBits]
      omega
    rw [contains_eq_bitAt, contains_eq_bitAt, hdiv, hmod] at hid
    simpa [word, hpos, hpos'] using hid
  cases s
  cases t
  simp only at hsize heq
  rw [hsize, heq]

/-- A set whose cached size is right is one that can be made from its members. -/
theorem counted_iff {s : BitSet} : s.Counted ↔ ∃ bound ids, s = ofList bound ids := by
  constructor
  · intro h
    have hbound : ∀ id ∈ s.toList, id < wordBits * s.words.size := by
      intro id hid
      have hword := lt_size_of_contains (mem_toList.1 hid)
      simp only [wordBits] at hword ⊢
      omega
    refine ⟨wordBits * s.words.size, s.toList, ext_of_contains h (counted_ofList _ _) ?_ ?_⟩
    · rw [size_words_ofList hbound]
      simp only [empty, Array.size_replicate, wordBits]
      omega
    · intro id
      rw [Bool.eq_iff_iff, contains_ofList, mem_toList]
  · rintro ⟨bound, ids, rfl⟩
    exact counted_ofList bound ids

end BinaryCsp.BitSet
