import BinaryCsp.Proofs.Model
import Mathlib.Order.Bounds.Basic

/-! # Arc consistent families

A family is arc consistent when each of its values has a partner at the other end of each link.
Unions of arc consistent families are arc consistent, so below any family there is a greatest one,
and no choice of compatible values within the family lies outside it.
-/

namespace BinaryCsp.Model

variable {m : Model} {f g d : Family}

def ArcConsistent (m : Model) (f : Family) : Prop :=
  ∀ var links, m.linksOf var = .ok links → ∀ link ∈ links, ∀ a ∈ f var,
    ∃ b ∈ f link.other, m.Compatible var a link.other b

def consistentBelow (m : Model) (d : Family) : Set Family := { f | f ≤ d ∧ m.ArcConsistent f }

theorem WellFormed.arcConsistent_iff (hm : m.WellFormed) :
    m.ArcConsistent f ↔ ∀ var link, m.Connects var link → ∀ a ∈ f var,
      ∃ b ∈ f link.other, m.Compatible var a link.other b := by
  constructor
  · intro h var link hlink
    obtain ⟨links, heq, hlinks⟩ := hm.linksOf_eq (hm.connects_bounds hlink).1
    exact h var links heq link ((hlinks link).2 hlink)
  · intro h var links heq link hlink
    exact h var link ((hm.links (Checked.get_eq_ok.1 heq) link).1 hlink)

/-- In an arc consistent family, a value at most of one variable goes with all values of the
others: each of these has a partner there, and there is no other to choose from. -/
theorem ArcConsistent.compatible (hm : m.WellFormed) (hf : m.ArcConsistent f) {var other : VarId}
    {a b : ValId} (hsingle : ∀ c ∈ f var, c = a) (hb : b ∈ f other) :
    m.Compatible var a other b := by
  rw [hm.compatible_comm]
  by_cases hlinked : ∃ link, m.Connects other link ∧ link.other = var
  · obtain ⟨link, hlink, rfl⟩ := hlinked
    obtain ⟨c, hc, hcompat⟩ := hm.arcConsistent_iff.1 hf other link hlink b hb
    rwa [hsingle c hc] at hcompat
  · refine hm.compatible_of_not_connects fun link hlink hsame => ?_
    exact hlinked ⟨link, hlink, hsame⟩

theorem exists_isGreatest (m : Model) (d : Family) : ∃ g, IsGreatest (m.consistentBelow d) g := by
  refine ⟨fun var => { a | ∃ f ∈ m.consistentBelow d, a ∈ f var }, ⟨?_, ?_⟩, ?_⟩
  · rintro var a ⟨f, ⟨hle, _⟩, ha⟩
    exact hle var ha
  · rintro var links heq link hlink a ⟨f, hf, ha⟩
    obtain ⟨b, hb, hcompat⟩ := hf.2 var links heq link hlink a ha
    exact ⟨b, ⟨f, hf, hb⟩, hcompat⟩
  · intro f hf var a ha
    exact ⟨f, hf, ha⟩

theorem ArcConsistent.isGreatest (hf : m.ArcConsistent f) : IsGreatest (m.consistentBelow f) f :=
  ⟨⟨le_rfl, hf⟩, fun _ hg => hg.1⟩

/-! ## Choices of one value per variable -/

/-- The values picked by `pick` lie in the family and are compatible with each other. -/
structure Fits (m : Model) (pick : VarId → ValId) (f : Family) : Prop where
  mem : ∀ {var : VarId}, var < m.variableCount → pick var ∈ f var
  compatible : ∀ {var other : VarId}, var < m.variableCount → other < m.variableCount →
    m.Compatible var (pick var) other (pick other)

theorem Fits.mono {pick : VarId → ValId} (h : m.Fits pick f) (hle : f ≤ g) : m.Fits pick g :=
  ⟨fun hvar => hle _ (h.mem hvar), h.compatible⟩

def picked (m : Model) (pick : VarId → ValId) : Family :=
  fun var => { a | var < m.variableCount ∧ a = pick var }

theorem Fits.picked_mem (hm : m.WellFormed) {pick : VarId → ValId} (h : m.Fits pick f) :
    m.picked pick ∈ m.consistentBelow f := by
  constructor
  · rintro var a ⟨hvar, rfl⟩
    exact h.mem hvar
  · rw [hm.arcConsistent_iff]
    rintro var link hlink a ⟨hvar, rfl⟩
    have hother := (hm.connects_bounds hlink).2.1
    exact ⟨pick link.other, ⟨hother, rfl⟩, h.compatible hvar hother⟩

/-- Restricting domains to the greatest arc consistent family loses no choice. -/
theorem Fits.of_isGreatest (hm : m.WellFormed) {pick : VarId → ValId} (h : m.Fits pick d)
    (hg : IsGreatest (m.consistentBelow d) g) : m.Fits pick g :=
  ⟨fun hvar => hg.2 (h.picked_mem hm) _ ⟨hvar, rfl⟩, h.compatible⟩

end BinaryCsp.Model
