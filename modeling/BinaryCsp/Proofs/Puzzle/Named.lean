import BinaryCsp.Proofs.Solver
import Mathlib.Data.List.Nodup
import Mathlib.Logic.Function.Basic

/-! # Answers by name

A puzzle names its parts, and its problem numbers them. As no two parts have one name, a list of
values by number is the same as a value for each name.
-/

namespace BinaryCsp

section Names

variable {κ β : Type} [DecidableEq κ]

/-- Values listed by number are values of the names. -/
theorem exists_eq_map_of_nodup [Inhabited β] {names : List κ} (hnames : names.Nodup)
    {values : List β} (hlength : values.length = names.length) :
    ∃ f : κ → β, values = names.map f := by
  induction names generalizing values with
  | nil => exact ⟨fun _ => default, List.length_eq_zero_iff.1 hlength⟩
  | cons name names ih =>
      obtain ⟨hname, hrest⟩ := List.nodup_cons.1 hnames
      cases values with
      | nil => cases hlength
      | cons value values =>
          obtain ⟨f, rfl⟩ := ih hrest (Nat.succ.inj hlength)
          refine ⟨Function.update f name value, ?_⟩
          rw [List.map_cons, Function.update_self]
          refine congrArg _ (List.map_congr_left fun other hother => ?_)
          have hne : other ≠ name := by
            rintro rfl
            exact hname hother
          rw [Function.update_of_ne hne]

theorem idxOf?_eq_some_of_nodup {names : List κ} (hnames : names.Nodup) {name : κ} {i : Nat} :
    names.idxOf? name = some i ↔ names[i]? = some name := by
  rw [List.idxOf?_eq_some_iff, List.getElem?_eq_some_iff]
  refine exists_congr fun hi => ⟨And.left, fun hname => ⟨hname, fun j hj hsame => ?_⟩⟩
  have hji := (hnames.getElem_inj_iff).1 (hsame.trans hname.symm)
  exact Nat.ne_of_lt hj hji

/-- Where the solutions of some calls are the valid choices of a value for each name, the solver
reports a valid choice exactly when there is one. -/
theorem Problem.exists_named_report [DecidableEq β] [Inhabited β] {calls : List (Call β)}
    {p : Problem β} (hp : Problem.ofCalls calls = .ok p) {names : List κ} (hnames : names.Nodup)
    (hcount : (Call.domains calls).length = names.length) {Valid : (κ → β) → Prop}
    (hvalid : ∀ f, Call.Solution calls (names.map f) ↔ Valid f) (config : Config) :
    ∃ report, (Solver.recursive p config).solve = .ok report ∧
      (report.isSolved = true ↔ ∃ f, Valid f) ∧
      (report.isSolved = true → ∃ a f, report.assignment = some a ∧ Valid f ∧
        a.values.toList = names.map f) := by
  obtain ⟨_, report, _, hsolve, _, hsolved, hsound⟩ :=
    (Problem.faithful_of_ofCalls hp).exists_report ⟨.recursive, config⟩
  have hnamed : ∀ {values : List β}, Call.Solution calls values →
      ∃ f, Valid f ∧ values = names.map f := by
    intro values hvalues
    obtain ⟨f, rfl⟩ :=
      exists_eq_map_of_nodup hnames (hvalues.candidates.length_eq.trans hcount)
    exact ⟨f, (hvalid f).1 hvalues, rfl⟩
  refine ⟨report, hsolve, ?_, fun hreport => ?_⟩
  · rw [hsolved]
    constructor
    · rintro ⟨values, hvalues⟩
      obtain ⟨f, hf, _⟩ := hnamed hvalues
      exact ⟨f, hf⟩
    · rintro ⟨f, hf⟩
      exact ⟨_, (hvalid f).2 hf⟩
  · obtain ⟨a, ha⟩ := Option.isSome_iff_exists.1 hreport
    obtain ⟨f, hf, hvalues⟩ := hnamed (hsound a ha)
    exact ⟨a, f, ha, hf, hvalues⟩

end Names

/-- A value that is listed for a part is the value reported for its number. -/
theorem Assignment.get_of_eq_map {α V : Type} {a : Assignment V} {parts : List α} {f : α → V}
    (ha : a.values.toList = parts.map f) {i : Nat} {part : α} (hpart : parts[i]? = some part) :
    a.get i = .ok (f part) := by
  rw [Assignment.get, Checked.get_eq_ok, ← Array.getElem?_toList, ha, List.getElem?_map, hpart]
  rfl

end BinaryCsp
