import BinaryCsp.Fault
import Mathlib.Data.List.Forall2

/-! # Checked computations

Equations that carry a proof through a computation that may break off. A bind is opened either
forwards, from the known result of its first part, or backwards, from the known result of the
whole. The accessors are described by the table they read, never by the fault they might raise.
-/

namespace BinaryCsp.Checked

variable {α β ε : Type}

@[simp] theorem pure_eq_ok (a : α) : (pure a : Except ε α) = .ok a := rfl

@[simp] theorem throw_eq_error (error : ε) : (throw error : Except ε α) = .error error := rfl

@[simp] theorem ok_bind (a : α) (f : α → Except ε β) : (Except.ok a >>= f) = f a := rfl

@[simp] theorem error_bind (error : ε) (f : α → Except ε β) :
    ((Except.error error : Except ε α) >>= f) = .error error := rfl

theorem bind_eq_ok {x : Except ε α} {f : α → Except ε β} {b : β} :
    (x >>= f) = .ok b ↔ ∃ a, x = .ok a ∧ f a = .ok b := by
  cases x with
  | error fault => simp
  | ok a => simp

/-! ## Tables and counters -/

theorem get_of_lt {table : Array α} {index : Nat} (h : index < table.size) :
    get table index = .ok table[index] := by
  simp [get, h]

theorem get_eq_ok {table : Array α} {index : Nat} {entry : α} :
    get table index = .ok entry ↔ table[index]? = some entry := by
  unfold get
  by_cases h : index < table.size
  · simp [h]
  · simp [h]

theorem set_of_lt {table : Array α} {index : Nat} (h : index < table.size) (entry : α) :
    set table index entry = .ok (table.set index entry h) := by
  simp [set, h]

theorem set_eq_ok {table updated : Array α} {index : Nat} {entry : α} :
    set table index entry = .ok updated ↔
      index < table.size ∧ table.setIfInBounds index entry = updated := by
  unfold set
  by_cases h : index < table.size
  · simp [h, Array.setIfInBounds]
  · simp [h]

theorem sub_of_le {value amount : Nat} (h : amount ≤ value) :
    sub value amount = .ok (value - amount) := by
  simp [sub, h]

/-! ## Which faults a computation can raise -/

/-- If the computation breaks off, then because a table was read or written out of range. -/
def OnlyOutOfRange (x : Checked α) : Prop :=
  ∀ fault, x = .error fault → ∃ index size, fault = .outOfRange index size

theorem onlyOutOfRange_ok (a : α) : OnlyOutOfRange (.ok a) := nofun

theorem onlyOutOfRange_get (table : Array α) (index : Nat) : OnlyOutOfRange (get table index) := by
  intro fault h
  unfold get at h
  split at h
  · cases h
  · cases h
    exact ⟨index, table.size, rfl⟩

theorem OnlyOutOfRange.bind {x : Checked α} {f : α → Checked β} (hx : OnlyOutOfRange x)
    (hf : ∀ a, OnlyOutOfRange (f a)) : OnlyOutOfRange (x >>= f) := by
  cases x with
  | ok a => exact hf a
  | error fault =>
      intro raised h
      obtain rfl : fault = raised := Except.error.inj h
      exact hx fault rfl

/-! ## Lists in step -/

section Forall

variable {R : α → β → Prop} {xs : List α} {ys : List β}

theorem exists_of_forall₂_left (h : List.Forall₂ R xs ys) {i : Nat} {x : α}
    (hx : xs[i]? = some x) : ∃ y, ys[i]? = some y ∧ R x y := by
  induction h generalizing i with
  | nil => simp at hx
  | @cons a b as bs hab _ ih =>
      cases i with
      | zero =>
          obtain rfl : a = x := by simpa using hx
          exact ⟨b, rfl, hab⟩
      | succ i => exact ih (by simpa using hx)

theorem exists_of_forall₂_right (h : List.Forall₂ R xs ys) {i : Nat} {y : β}
    (hy : ys[i]? = some y) : ∃ x, xs[i]? = some x ∧ R x y :=
  exists_of_forall₂_left h.flip hy

theorem exists_mem_of_forall₂ (h : List.Forall₂ R xs ys) {y : β} (hy : y ∈ ys) :
    ∃ x ∈ xs, R x y := by
  obtain ⟨i, hi⟩ := List.getElem?_of_mem hy
  obtain ⟨x, hx, hxy⟩ := exists_of_forall₂_right h hi
  exact ⟨x, List.mem_of_getElem? hx, hxy⟩

theorem forall_mem_congr_of_forall₂ (h : List.Forall₂ R xs ys) {P : α → Prop} {Q : β → Prop}
    (hPQ : ∀ x y, R x y → (P x ↔ Q y)) : (∀ x ∈ xs, P x) ↔ ∀ y ∈ ys, Q y := by
  induction h with
  | nil => simp
  | cons hxy _ ih => simp [hPQ _ _ hxy, ih]

end Forall

/-! ## Lists of computations -/

theorem mapM_eq_ok {f : α → Except ε β} {xs : List α} {ys : List β} :
    xs.mapM f = .ok ys ↔ List.Forall₂ (fun x y => f x = .ok y) xs ys := by
  induction xs generalizing ys with
  | nil =>
      cases ys with
      | nil => simp
      | cons y ys => simp
  | cons x xs ih =>
      rw [List.mapM_cons, bind_eq_ok]
      constructor
      · rintro ⟨y, hy, h⟩
        obtain ⟨rest, hrest, h⟩ := bind_eq_ok.1 h
        obtain rfl : y :: rest = ys := by simpa using h
        exact .cons hy (ih.1 hrest)
      · intro h
        cases h with
        | cons hy hrest =>
            refine ⟨_, hy, ?_⟩
            rw [ih.2 hrest]
            rfl

theorem exists_mapM_eq_ok {f : α → Except ε β} {xs : List α}
    (h : ∀ x ∈ xs, ∃ y, f x = .ok y) : ∃ ys, xs.mapM f = .ok ys := by
  induction xs with
  | nil => exact ⟨[], rfl⟩
  | cons x xs ih =>
      obtain ⟨y, hy⟩ := h x (by simp)
      obtain ⟨ys, hys⟩ := ih fun z hz => h z (List.mem_cons_of_mem x hz)
      refine ⟨y :: ys, ?_⟩
      rw [List.mapM_cons, hy, ok_bind, hys]
      rfl

theorem mapM_eq_ok_map {f : α → Except ε β} {g : α → β} {xs : List α}
    (h : ∀ x ∈ xs, f x = .ok (g x)) : xs.mapM f = .ok (xs.map g) := by
  rw [mapM_eq_ok, List.forall₂_map_right_iff, List.forall₂_same]
  exact h

theorem mem_of_mapM_eq_ok {f : α → Except ε β} {xs : List α} {ys : List β}
    (h : xs.mapM f = .ok ys) (y : β) : y ∈ ys ↔ ∃ x ∈ xs, f x = .ok y := by
  have hforall := mapM_eq_ok.1 h
  constructor
  · exact exists_mem_of_forall₂ hforall
  · rintro ⟨x, hx, hfx⟩
    obtain ⟨z, hz, hfz⟩ := exists_mem_of_forall₂ hforall.flip hx
    obtain rfl := Except.ok.inj (hfx.symm.trans hfz)
    exact hz

theorem exists_mapM_eq_ok_iff {f : α → Except ε β} {xs : List α} :
    (∃ ys, xs.mapM f = .ok ys) ↔ ∀ x ∈ xs, ∃ y, f x = .ok y := by
  refine ⟨?_, exists_mapM_eq_ok⟩
  rintro ⟨ys, hys⟩ x hx
  obtain ⟨y, _, hy⟩ := exists_mem_of_forall₂ (mapM_eq_ok.1 hys).flip hx
  exact ⟨y, hy⟩

/-- What every step keeps, a sequence of steps keeps. -/
theorem foldlM_invariant {σ : Type} {step : σ → α → Except ε σ} {P : σ → Prop}
    (hstep : ∀ s a t, P s → step s a = .ok t → P t) {as : List α} {s t : σ}
    (h : as.foldlM step s = .ok t) (hs : P s) : P t := by
  induction as generalizing s with
  | nil =>
      obtain rfl : s = t := Except.ok.inj h
      exact hs
  | cons a as ih =>
      rw [List.foldlM_cons] at h
      obtain ⟨u, hu, h⟩ := bind_eq_ok.1 h
      exact ih h (hstep s a u hs hu)

/-- Steps that never break off while they keep up with `g` come to an end, as far as `g`. -/
theorem exists_foldlM {σ τ : Type} {step : σ → α → Except ε σ} {g : τ → α → τ}
    {R : σ → τ → Prop} {as : List α}
    (hstep : ∀ s t, R s t → ∀ a ∈ as, ∃ u, step s a = .ok u ∧ R u (g t a)) {s : σ} {t : τ}
    (h : R s t) : ∃ u, as.foldlM step s = .ok u ∧ R u (as.foldl g t) := by
  induction as generalizing s t with
  | nil => exact ⟨s, rfl, h⟩
  | cons a as ih =>
      obtain ⟨u, hu, hnext⟩ := hstep s t h a (by simp)
      obtain ⟨last, hrest, hlast⟩ :=
        ih (fun s t hs b hb => hstep s t hs b (List.mem_cons_of_mem a hb)) hnext
      exact ⟨last, by rw [List.foldlM_cons, hu, ok_bind, hrest], hlast⟩

/-! ## Computations that end alike -/

section Alike

variable {γ δ : Type} {R : α → β → Prop} {S : γ → δ → Prop}

/-- Both computations have the same error, or both have results and these are related. -/
inductive Alike (R : α → β → Prop) : Except ε α → Except ε β → Prop where
  | error (error : ε) : Alike R (.error error) (.error error)
  | ok {a : α} {b : β} (h : R a b) : Alike R (.ok a) (.ok b)

theorem Alike.bind {x : Except ε α} {y : Except ε β} {f : α → Except ε γ} {g : β → Except ε δ}
    (h : Alike R x y) (hfg : ∀ {a b}, R a b → Alike S (f a) (g b)) :
    Alike S (x >>= f) (y >>= g) := by
  cases h with
  | error error => exact .error error
  | ok hab => exact hfg hab

theorem Alike.refl (x : Except ε α) : Alike Eq x x := by
  cases x with
  | error error => exact .error error
  | ok a => exact .ok rfl

theorem Alike.eq {x y : Except ε α} (h : Alike Eq x y) : x = y := by
  cases h with
  | error error => rfl
  | ok hab => rw [hab]

theorem Alike.mapM {xs : List α} {ys : List β} {f : α → Except ε γ} {g : β → Except ε δ}
    (h : List.Forall₂ (fun x y => Alike S (f x) (g y)) xs ys) :
    Alike (List.Forall₂ S) (xs.mapM f) (ys.mapM g) := by
  induction h with
  | nil => exact .ok .nil
  | cons hxy _ ih =>
      rw [List.mapM_cons, List.mapM_cons]
      exact hxy.bind fun hfirst => ih.bind fun hrest => .ok (.cons hfirst hrest)

end Alike

end BinaryCsp.Checked
