import BinaryCsp.Model
import BinaryCsp.Proofs.Store

/-! # Well-formed models

What the search relies on: one relation for each constrained pair, with its two tables transposed,
and one link at each end of a relation. On such a model every question about two variables comes
down to `Compatible`, whichever end of the link it is asked from.
-/

namespace BinaryCsp

theorem VarPair.of_comm (a b : VarId) : VarPair.of a b = VarPair.of b a := by
  unfold VarPair.of
  by_cases hab : a ≤ b
  · by_cases hba : b ≤ a
    · simp [Nat.le_antisymm hab hba]
    · simp [hab, hba]
  · simp [hab, Nat.le_of_not_le hab]

theorem VarPair.of_lt {a b : VarId} (h : a < b) : VarPair.of a b = ⟨a, b⟩ := by
  simp [VarPair.of, Nat.le_of_lt h]

namespace Relation

def RowHas (rows : Array BitSet) (a b : ValId) : Prop :=
  ∃ row, rows[a]? = some row ∧ row.contains b = true

def Related (r : Relation) (a b : ValId) : Prop := RowHas r.forward a b

theorem allows_eq_true_iff {r : Relation} {a b : ValId} :
    r.allows a b = .ok true ↔ r.Related a b := by
  rw [allows, Checked.bind_eq_ok]
  simp only [Checked.get_eq_ok, Checked.pure_eq_ok, Except.ok.injEq]
  rfl

theorem allows_eq_ok {r : Relation} {a : ValId} (ha : a < r.forward.size) (b : ValId) :
    ∃ flag, r.allows a b = .ok flag := by
  rw [allows, Checked.get_of_lt ha]
  exact ⟨_, rfl⟩

end Relation

namespace Model

def Connects (m : Model) (var : VarId) (link : Link) : Prop :=
  ∃ relation, m.relations[link.relation]? = some relation ∧
    relation.pair = if link.reversed then ⟨link.other, var⟩ else ⟨var, link.other⟩

theorem Connects.reverse {m : Model} {var : VarId} {link : Link} (h : m.Connects var link) :
    m.Connects link.other ⟨var, link.relation, !link.reversed⟩ := by
  obtain ⟨relation, hget, hpair⟩ := h
  refine ⟨relation, hget, ?_⟩
  cases hr : link.reversed <;> simpa [hr] using hpair

structure WellFormed (m : Model) : Prop where
  /-- There is an initial domain for each variable. -/
  domains : (Store.ofDomains m.domains).Sound m.variableCount m.valueCount
  neighbours : ∀ {var : VarId} {others : List VarId}, m.neighbours[var]? = some others →
    ∀ other ∈ others, other < m.variableCount
  links_size : m.links.size = m.variableCount
  /-- The links of a variable are the ways it takes part in a relation. -/
  links : ∀ {var : VarId} {links : List Link}, m.links[var]? = some links →
    ∀ link, link ∈ links ↔ m.Connects var link
  ordered : ∀ {id : RelationId} {relation : Relation}, m.relations[id]? = some relation →
    relation.pair.lower < relation.pair.higher ∧ relation.pair.higher < m.variableCount
  /-- A pair has at most one relation, and is entered with its number. -/
  indexed : ∀ {pair : VarPair} {id : RelationId}, m.pairIndex? pair = some id ↔
    ∃ relation, m.relations[id]? = some relation ∧ relation.pair = pair
  forward_size : ∀ {id : RelationId} {relation : Relation}, m.relations[id]? = some relation →
    relation.forward.size = m.valueCount
  backward_size : ∀ {id : RelationId} {relation : Relation}, m.relations[id]? = some relation →
    relation.backward.size = m.valueCount
  /-- The two tables of a relation say the same. -/
  transposed : ∀ {id : RelationId} {relation : Relation}, m.relations[id]? = some relation →
    ∀ a b, Relation.RowHas relation.backward b a ↔ relation.Related a b

def Compatible (m : Model) (var : VarId) (a : ValId) (other : VarId) (b : ValId) : Prop :=
  m.allows var a other b = .ok true

/-- The test of an assignment breaks off only at a value that has no row. -/
theorem isConsistent_onlyOutOfRange (m : Model) (values : List ValId) :
    Checked.OnlyOutOfRange (m.isConsistent values) := by
  have hsatisfies : ∀ relations, Checked.OnlyOutOfRange (satisfies values.toArray relations) := by
    intro relations
    induction relations with
    | nil => exact Checked.onlyOutOfRange_ok true
    | cons r rest ih =>
        unfold satisfies
        refine (Checked.onlyOutOfRange_get _ _).bind fun a => ?_
        refine (Checked.onlyOutOfRange_get _ _).bind fun b => ?_
        refine ((Checked.onlyOutOfRange_get _ _).bind fun row => Checked.onlyOutOfRange_ok _).bind
          fun flag => ?_
        cases flag with
        | true => exact ih
        | false => exact Checked.onlyOutOfRange_ok false
  unfold isConsistent
  split
  · exact hsatisfies m.relations.toList
  · exact Checked.onlyOutOfRange_ok false

namespace WellFormed

variable {m : Model} {var other : VarId} {link : Link} {a b : ValId}

theorem unique (hm : m.WellFormed) {id id' : RelationId} {relation relation' : Relation}
    (hget : m.relations[id]? = some relation) (hget' : m.relations[id']? = some relation')
    (hpair : relation.pair = relation'.pair) : id = id' := by
  have hfound := hm.indexed.2 ⟨relation, hget, rfl⟩
  rw [hpair, hm.indexed.2 ⟨relation', hget', rfl⟩] at hfound
  exact (Option.some.inj hfound).symm

/-- The number entered for a pair is that of a relation, so the lookup stays in range. -/
theorem relationBetween?_eq_bind (hm : m.WellFormed) (var other : VarId) :
    m.relationBetween? var other =
      .ok ((m.pairIndex? (VarPair.of var other)).bind (m.relations[·]?)) := by
  unfold relationBetween?
  cases hindex : m.pairIndex? (VarPair.of var other) with
  | none => rfl
  | some id =>
      obtain ⟨relation, hget, _⟩ := hm.indexed.1 hindex
      rw [Option.mapM_some, Checked.get_eq_ok.2 hget, Option.bind_some, hget]
      rfl

theorem exists_relationBetween? (hm : m.WellFormed) (var other : VarId) :
    ∃ found, m.relationBetween? var other = .ok found :=
  ⟨_, hm.relationBetween?_eq_bind var other⟩

theorem relationBetween?_eq_some (hm : m.WellFormed) {relation : Relation} :
    m.relationBetween? var other = .ok (some relation) ↔
      ∃ id : RelationId, m.relations[id]? = some relation ∧
        relation.pair = VarPair.of var other := by
  rw [hm.relationBetween?_eq_bind, Except.ok.injEq, Option.bind_eq_some_iff]
  constructor
  · rintro ⟨id, hindex, hget⟩
    obtain ⟨relation', hget', hpair⟩ := hm.indexed.1 hindex
    obtain rfl := Option.some.inj (hget.symm.trans hget')
    exact ⟨id, hget, hpair⟩
  · rintro ⟨id, hget, hpair⟩
    exact ⟨id, hm.indexed.2 ⟨relation, hget, hpair⟩, hget⟩

/-- Which end a question is asked from makes no difference. -/
theorem compatible_comm (hm : m.WellFormed) :
    m.Compatible var a other b ↔ m.Compatible other b var a := by
  unfold Compatible allows
  have hsame : m.relationBetween? other var = m.relationBetween? var other := by
    rw [relationBetween?, VarPair.of_comm, ← relationBetween?]
  rw [hsame]
  obtain ⟨found, hr⟩ := hm.exists_relationBetween? var other
  rw [hr, Checked.ok_bind]
  cases found with
  | none => exact Iff.rfl
  | some relation =>
      obtain ⟨id, hget, hpair⟩ := hm.relationBetween?_eq_some.1 hr
      have hlt := (hm.ordered hget).1
      have hne : var ≠ other := by
        rintro rfl
        rw [hpair] at hlt
        simp [VarPair.of] at hlt
      by_cases hvo : var < other
      · simp [hvo, Nat.lt_asymm hvo]
      · simp [hvo, Nat.lt_of_le_of_ne (Nat.le_of_not_lt hvo) hne.symm]

theorem connects_bounds (hm : m.WellFormed) (h : m.Connects var link) :
    var < m.variableCount ∧ link.other < m.variableCount ∧ var ≠ link.other := by
  obtain ⟨relation, hget, hpair⟩ := h
  obtain ⟨hlt, hcount⟩ := hm.ordered hget
  cases hr : link.reversed with
  | false =>
      rw [hpair, hr] at hlt hcount
      simp only [Bool.false_eq_true, if_false] at hlt hcount
      lia
  | true =>
      rw [hpair, hr] at hlt hcount
      simp only [if_true] at hlt hcount
      lia

theorem connects_unique {later : Link} (hm : m.WellFormed) (h : m.Connects var link)
    (h' : m.Connects var later) (hsame : link.relation = later.relation) : link = later := by
  obtain ⟨relation, hget, hpair⟩ := h
  obtain ⟨relation', hget', hpair'⟩ := h'
  rw [← hsame] at hget'
  obtain rfl := Option.some.inj (hget.symm.trans hget')
  have hlt := (hm.ordered hget).1
  rw [hpair] at hpair' hlt
  obtain ⟨other, id, reversed⟩ := link
  obtain ⟨other', id', reversed'⟩ := later
  cases reversed <;> cases reversed' <;> simp_all

theorem relationBetween?_of_connects (hm : m.WellFormed) (h : m.Connects var link) :
    ∃ relation, m.relations[link.relation]? = some relation ∧
      m.relationBetween? var link.other = .ok (some relation) ∧
      (link.reversed = true ↔ link.other < var) := by
  obtain ⟨relation, hget, hpair⟩ := h
  have hlt := (hm.ordered hget).1
  rw [hpair] at hlt
  cases hr : link.reversed with
  | false =>
      simp only [hr, Bool.false_eq_true, if_false] at hpair hlt
      refine ⟨relation, hget, hm.relationBetween?_eq_some.2 ⟨_, hget, ?_⟩, ?_⟩
      · rw [hpair, VarPair.of_lt hlt]
      · simp [Nat.le_of_lt hlt]
  | true =>
      simp only [hr, if_true] at hpair hlt
      refine ⟨relation, hget, hm.relationBetween?_eq_some.2 ⟨_, hget, ?_⟩, ?_⟩
      · rw [hpair, VarPair.of_comm, VarPair.of_lt hlt]
      · simp [hlt]

/-- A variable has one link to each constrained neighbour. -/
theorem connects_unique_other {later : Link} (hm : m.WellFormed) (h : m.Connects var link)
    (h' : m.Connects var later) (hsame : link.other = later.other) : link = later := by
  obtain ⟨relation, hget, hbetween, _⟩ := hm.relationBetween?_of_connects h
  obtain ⟨relation', hget', hbetween', _⟩ := hm.relationBetween?_of_connects h'
  rw [← hsame] at hbetween'
  obtain rfl := Option.some.inj (Except.ok.inj (hbetween.symm.trans hbetween'))
  exact hm.connects_unique h h' (hm.unique hget hget' rfl)

theorem compatible_iff_related (hm : m.WellFormed) {id : RelationId} {relation : Relation}
    (hid : m.relations[id]? = some relation) :
    m.Compatible relation.pair.lower a relation.pair.higher b ↔ relation.Related a b := by
  have hlt := (hm.ordered hid).1
  have hbetween := hm.relationBetween?_eq_some.2 ⟨id, hid, (VarPair.of_lt hlt).symm⟩
  simp only [Compatible, allows, hbetween, Checked.ok_bind, if_pos hlt,
    Relation.allows_eq_true_iff]

theorem compatible_of_not_connects (hm : m.WellFormed)
    (h : ∀ link, m.Connects var link → link.other ≠ other) : m.Compatible var a other b := by
  unfold Compatible allows
  obtain ⟨found, hr⟩ := hm.exists_relationBetween? var other
  rw [hr, Checked.ok_bind]
  cases found with
  | none => rfl
  | some relation =>
      obtain ⟨id, hget, hpair⟩ := hm.relationBetween?_eq_some.1 hr
      refine absurd rfl (h ⟨other, id, !decide (var ≤ other)⟩ ⟨relation, hget, ?_⟩)
      rw [hpair, VarPair.of]
      by_cases hle : var ≤ other <;> simp [hle]

theorem compatible_self (hm : m.WellFormed) : m.Compatible var a var b :=
  hm.compatible_of_not_connects fun _ hlink => (hm.connects_bounds hlink).2.2.symm

/-! ## Links and their support -/

theorem linksOf_eq (hm : m.WellFormed) (hvar : var < m.variableCount) :
    ∃ links, m.linksOf var = .ok links ∧ ∀ link, link ∈ links ↔ m.Connects var link := by
  have hlt : var < m.links.size := by rwa [hm.links_size]
  exact ⟨m.links[var], Checked.get_of_lt hlt, hm.links (Array.getElem?_eq_getElem hlt)⟩

theorem supportRows_eq (hm : m.WellFormed) (h : m.Connects var link) :
    ∃ rows, m.supportRows link = .ok rows ∧ rows.size = m.valueCount ∧
      ∀ a b, Relation.RowHas rows a b ↔ m.Compatible var a link.other b := by
  obtain ⟨relation, hget, hbetween, hrev⟩ := hm.relationBetween?_of_connects h
  have hne := (hm.connects_bounds h).2.2
  rw [supportRows, Checked.get_eq_ok.2 hget]
  simp only [Compatible, allows, hbetween, Checked.ok_bind]
  cases hr : link.reversed with
  | true =>
      have hlt := hrev.1 hr
      refine ⟨relation.backward, rfl, hm.backward_size hget, fun a b => ?_⟩
      rw [hm.transposed hget, if_neg (Nat.lt_asymm hlt), Relation.allows_eq_true_iff]
  | false =>
      have hlt : var < link.other := by
        have hnot := mt hrev.2 (by simp [hr])
        exact Nat.lt_of_le_of_ne (Nat.le_of_not_lt hnot) hne
      refine ⟨relation.forward, rfl, hm.forward_size hget, fun a b => ?_⟩
      rw [if_pos hlt, Relation.allows_eq_true_iff]
      exact Iff.rfl

theorem supports_eq (hm : m.WellFormed) (h : m.Connects var link) (ha : a < m.valueCount) :
    ∃ row, m.supports link a = .ok row ∧
      ∀ b, row.contains b = true ↔ m.Compatible var a link.other b := by
  obtain ⟨rows, heq, hsize, hrows⟩ := hm.supportRows_eq h
  have hlt : a < rows.size := by rwa [hsize]
  refine ⟨rows[a], by rw [supports, heq, Checked.ok_bind, Checked.get_of_lt hlt], fun b => ?_⟩
  rw [← hrows, Relation.RowHas, Array.getElem?_eq_getElem hlt]
  simp

/-! ## Complete assignments -/

theorem satisfies_eq {relations : List Relation} {values : Array ValId}
    (hpair : ∀ r ∈ relations, r.pair.lower < values.size ∧ r.pair.higher < values.size)
    (hvalue : ∀ r ∈ relations, ∀ value ∈ values, value < r.forward.size) :
    ∃ flag, satisfies values relations = .ok flag ∧
      (flag = true ↔ ∀ r ∈ relations, ∀ a b, values[r.pair.lower]? = some a →
        values[r.pair.higher]? = some b → r.Related a b) := by
  induction relations with
  | nil => exact ⟨true, rfl, by simp⟩
  | cons r rest ih =>
      obtain ⟨hlower, hhigher⟩ := hpair r (by simp)
      obtain ⟨first, hfirst⟩ := Relation.allows_eq_ok
        (hvalue r (by simp) values[r.pair.lower] (Array.getElem_mem hlower)) values[r.pair.higher]
      have hhead : first = true ↔ ∀ a b, values[r.pair.lower]? = some a →
          values[r.pair.higher]? = some b → r.Related a b := by
        have hrelated : r.Related values[r.pair.lower] values[r.pair.higher] ↔ first = true := by
          rw [← Relation.allows_eq_true_iff, hfirst, Except.ok.injEq]
        rw [Array.getElem?_eq_getElem hlower, Array.getElem?_eq_getElem hhigher, ← hrelated]
        constructor
        · rintro h a b ⟨⟩ ⟨⟩
          exact h
        · intro h
          exact h _ _ rfl rfl
      obtain ⟨flag, heq, hflag⟩ := ih (fun s hs => hpair s (by simp [hs]))
        (fun s hs => hvalue s (by simp [hs]))
      have hrun : satisfies values (r :: rest) =
          if first then satisfies values rest else .ok false := by
        rw [satisfies, Checked.get_of_lt hlower, Checked.ok_bind, Checked.get_of_lt hhigher,
          Checked.ok_bind, hfirst, Checked.ok_bind]
        rfl
      rw [hrun]
      simp only [List.mem_cons, forall_eq_or_imp, ← hhead, ← hflag]
      cases first with
      | false => exact ⟨false, rfl, by simp⟩
      | true => exact ⟨flag, heq, by simp⟩

/-- Whether a complete assignment is consistent is decided pair by pair. -/
theorem isConsistent_eq (hm : m.WellFormed) {values : List ValId}
    (hlen : values.length = m.variableCount) (hvalue : ∀ value ∈ values, value < m.valueCount) :
    ∃ flag, m.isConsistent values = .ok flag ∧
      (flag = true ↔ ∀ var other a b, values[var]? = some a → values[other]? = some b →
        m.Compatible var a other b) := by
  have hget : ∀ r ∈ m.relations.toList, ∃ id : RelationId, m.relations[id]? = some r := by
    intro r hr
    exact Array.getElem?_of_mem (Array.mem_toList_iff.1 hr)
  have hpairs : ∀ r ∈ m.relations.toList, r.pair.lower < values.toArray.size ∧
      r.pair.higher < values.toArray.size := by
    intro r hr
    obtain ⟨id, hid⟩ := hget r hr
    obtain ⟨hlt, hcount⟩ := hm.ordered hid
    rw [List.size_toArray, hlen]
    exact ⟨Nat.lt_trans hlt hcount, hcount⟩
  have hrows : ∀ r ∈ m.relations.toList, ∀ value ∈ values.toArray, value < r.forward.size := by
    intro r hr value hv
    obtain ⟨id, hid⟩ := hget r hr
    rw [hm.forward_size hid]
    exact hvalue value (by simpa using hv)
  obtain ⟨flag, heq, hflag⟩ := satisfies_eq hpairs hrows
  refine ⟨flag, by rw [isConsistent, if_pos hlen, heq], ?_⟩
  simp only [List.getElem?_toArray] at hflag
  rw [hflag]
  constructor
  · intro hall var other a b ha hb
    obtain ⟨found, hr⟩ := hm.exists_relationBetween? var other
    cases found with
    | none => simp only [Compatible, allows, hr, Checked.ok_bind, Checked.pure_eq_ok]
    | some r =>
        obtain ⟨id, hid, hpair⟩ := hm.relationBetween?_eq_some.1 hr
        have hmem : r ∈ m.relations.toList := Array.mem_toList_iff.2 (Array.mem_of_getElem? hid)
        -- The relation is asked from its lower variable, whichever of the two that is.
        have hasked : ∀ c d, values[r.pair.lower]? = some c → values[r.pair.higher]? = some d →
            m.Compatible r.pair.lower c r.pair.higher d :=
          fun c d hc hd => (hm.compatible_iff_related hid).2 (hall r hmem c d hc hd)
        rw [hpair, VarPair.of] at hasked
        by_cases hle : var ≤ other
        · simp only [if_pos hle] at hasked
          exact hasked a b ha hb
        · simp only [if_neg hle] at hasked
          exact hm.compatible_comm.1 (hasked b a hb ha)
  · intro hall r hr a b ha hb
    obtain ⟨id, hid⟩ := hget r hr
    exact (hm.compatible_iff_related hid).1 (hall _ _ a b ha hb)

end WellFormed

end Model

end BinaryCsp
