import BinaryCsp.Proofs.Ascending
import BinaryCsp.Text.Order

/-! # The order of texts is strict and total

Texts are told apart by their characters and characters by their code points, so a map with texts
as keys has one order, whatever the order in which its entries are given.
-/

namespace BinaryCsp.Text

theorem charsBefore_irrefl (chars : List Char) : charsBefore chars chars = false := by
  induction chars with
  | nil => rfl
  | cons a as ih => simp [charsBefore, ih]

theorem charsBefore_trans {xs ys zs : List Char} (h : charsBefore xs ys = true)
    (h' : charsBefore ys zs = true) : charsBefore xs zs = true := by
  induction xs generalizing ys zs with
  | nil =>
      cases zs with
      | nil => cases ys <;> cases h'
      | cons c cs => rfl
  | cons a as ih =>
      cases ys with
      | nil => cases h
      | cons b bs =>
          cases zs with
          | nil => cases h'
          | cons c cs =>
              simp only [charsBefore, Bool.or_eq_true, decide_eq_true_eq, Bool.and_eq_true,
                beq_iff_eq] at h h' ⊢
              rcases h with hab | ⟨hab, has⟩
              · exact .inl (by omega)
              · rcases h' with hbc | ⟨hbc, hbs⟩
                · exact .inl (by omega)
                · exact .inr ⟨hab.trans hbc, ih has hbs⟩

theorem eq_of_not_charsBefore {xs ys : List Char} (h : charsBefore xs ys = false)
    (h' : charsBefore ys xs = false) : xs = ys := by
  induction xs generalizing ys with
  | nil =>
      cases ys with
      | nil => rfl
      | cons b bs => cases h
  | cons a as ih =>
      cases ys with
      | nil => cases h'
      | cons b bs =>
          simp only [charsBefore, Bool.or_eq_false_iff, decide_eq_false_iff_not, Nat.not_lt] at h h'
          have hcode : a.toNat = b.toNat := Nat.le_antisymm h'.1 h.1
          have hrest : charsBefore as bs = false := by simpa [hcode] using h.2
          have hrest' : charsBefore bs as = false := by simpa [hcode] using h'.2
          rw [Char.toNat_inj.1 hcode, ih hrest hrest']

theorem before_strict : Ascending.Strict before where
  irrefl text := charsBefore_irrefl text.toList
  trans := charsBefore_trans
  eq_of_not h h' := String.toList_inj.1 (eq_of_not_charsBefore h h')

end BinaryCsp.Text
