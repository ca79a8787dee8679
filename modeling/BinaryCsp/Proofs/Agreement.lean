import BinaryCsp.Proofs.Listings

/-! # A built problem is determined by what it says

Besides its values, a problem says how many variables there are, which are neighbours, what their
initial domains are, which pairs have a relation and what these allow. Two problems that say the
same are equal, down to the words of their sets and the numbers of their relations, however the
calls that they were built from differ.
-/

namespace BinaryCsp

variable {V : Type}

/-! ## What a problem says -/

namespace Model

def Adjacent (m : Model) (var other : VarId) : Prop :=
  ∃ others, m.neighbours[var]? = some others ∧ other ∈ others

def Constrained (m : Model) (pair : VarPair) : Prop := ∃ r ∈ m.relations, r.pair = pair

end Model

structure Problem.Agrees (p q : Problem V) : Prop where
  values : p.values = q.values
  variableCount : p.model.variableCount = q.model.variableCount
  adjacent : ∀ var other, p.model.Adjacent var other ↔ q.model.Adjacent var other
  domains : (Store.ofDomains p.model.domains).family = (Store.ofDomains q.model.domains).family
  constrained : ∀ pair, p.model.Constrained pair ↔ q.model.Constrained pair
  compatible : ∀ {var other : VarId} {a b : ValId}, a < p.model.valueCount →
    b < p.model.valueCount →
    (p.model.Compatible var a other b ↔ q.model.Compatible var a other b)

namespace Problem

variable {calls : List (Call V)} {p : Problem V}

/-- The neighbours listed are those that the calls join. -/
theorem Represents.adjacent_iff [DecidableEq V] (h : p.Represents calls) {var other : VarId} :
    p.model.Adjacent var other ↔ var < p.model.variableCount ∧ Call.Joined calls var other := by
  constructor
  · rintro ⟨others, hget, hother⟩
    have hvar : var < p.model.variableCount := (Array.getElem?_eq_some_iff.1 hget).1
    obtain ⟨listed, hlisted, _, _, hmem⟩ := h.neighbours hvar
    obtain rfl := Option.some.inj (hget.symm.trans (Checked.get_eq_ok.1 hlisted))
    exact ⟨hvar, (hmem other).1 hother⟩
  · rintro ⟨hvar, hjoined⟩
    obtain ⟨listed, hlisted, _, _, hmem⟩ := h.neighbours hvar
    exact ⟨listed, Checked.get_eq_ok.1 hlisted, (hmem other).2 hjoined⟩

theorem Faithful.mem_family_iff (h : p.Faithful calls) {var : VarId} {id : ValId} :
    id ∈ (Store.ofDomains p.model.domains).family var ↔
      ∃ domain, (Call.domains calls)[var]? = some domain ∧
        ∃ v ∈ domain, p.values.values[id]? = some v := by
  constructor
  · intro hid
    have hvar := h.wellFormed.domains.lt_of_mem hid
    rw [h.variableCount] at hvar
    have hget := List.getElem?_eq_getElem hvar
    exact ⟨_, hget, (h.initial hget id).1 hid⟩
  · rintro ⟨domain, hget, hid⟩
    exact (h.initial hget id).2 hid

end Problem

/-! ## Representations -/

namespace Builder

theorem adjacent_congr {edges others : List (VarId × VarId)} {var : VarId}
    (h : ∀ other, other ∈ adjacent edges var ↔ other ∈ adjacent others var) :
    adjacent edges var = adjacent others var :=
  Ascending.eq_of_mem_iff Ascending.natLt_strict
    (Ascending.ofList_ascending Ascending.natLt_strict _)
    (Ascending.ofList_ascending Ascending.natLt_strict _) h

theorem exists_relation_problem (b : Builder V) {relations : List Relation} {r : Relation}
    (hr : r ∈ relations) :
    ∃ id : RelationId, (problem b relations).model.relations[id]? = some r := by
  obtain ⟨id, hid⟩ := List.getElem?_of_mem hr
  exact ⟨id, by simpa [problem] using hid⟩

variable [DecidableEq V] {calls others : List (Call V)} {b c : Builder V}
  {relations related : List Relation}

theorem relate_eq_ofPairs {values : ValueTable V} (hv : values.Distinct)
    {entry : VarPair × List (List (V × V))} {r : Relation} (h : relate values entry = .ok r) :
    ∃ pairs, (∀ p ∈ pairs, p.1 < values.size ∧ p.2 < values.size) ∧
      r = .ofPairs entry.1 values.size pairs := by
  unfold relate at h
  cases htables : entry.2.mapM (·.mapM (idsOf? values)) with
  | none =>
      rw [htables] at h
      cases h
  | some tables =>
      rw [htables] at h
      exact ⟨inAll values.size tables, inAll_lt (ids_lt hv htables), (Except.ok.inj h).symm⟩

namespace Completes

theorem eq_ofPairs (h : Completes calls b relations) {r : Relation} (hr : r ∈ relations) :
    ∃ pairs, (∀ p ∈ pairs, p.1 < b.values.size ∧ p.2 < b.values.size) ∧
      r = .ofPairs r.pair b.values.size pairs := by
  obtain ⟨entry, _, hrelate⟩ := Checked.exists_mem_of_forall₂ h.relates hr
  obtain ⟨pairs, hpairs, hr⟩ := relate_eq_ofPairs h.describes.distinct hrelate
  refine ⟨pairs, hpairs, ?_⟩
  rw [hr]
  rfl

theorem size_words_domains (h : Completes calls b relations) (var : VarId) :
    (problem b relations).model.domains[var]?.map (·.words.size) =
      b.domains[var]?.map fun _ => (BitSet.empty b.values.size).words.size := by
  simp only [problem, Array.getElem?_map, Option.map_map]
  cases hids : b.domains[var]? with
  | none => rfl
  | some ids =>
      rw [← Array.getElem?_toList] at hids
      obtain ⟨domain, _, hnumbers⟩ := Checked.exists_of_forall₂_left h.describes.domains hids
      refine congrArg some (BitSet.size_words_ofList fun id hid => ?_)
      obtain ⟨v, _, hv⟩ := Checked.exists_mem_of_forall₂ hnumbers.flip hid
      exact (Array.getElem?_eq_some_iff.1 hv).1

theorem size_words_domains_eq (h : Completes calls b relations) (h' : Completes others c related)
    (hvalues : b.values = c.values) (hcount : b.variableCount = c.variableCount) (var : VarId) :
    (problem b relations).model.domains[var]?.map (·.words.size) =
      (problem c related).model.domains[var]?.map (·.words.size) := by
  rw [h.size_words_domains, h'.size_words_domains, hvalues]
  rw [variableCount, variableCount] at hcount
  by_cases hvar : var < b.domains.size
  · rw [Array.getElem?_eq_getElem hvar, Array.getElem?_eq_getElem (hcount ▸ hvar)]
    rfl
  · rw [Array.getElem?_eq_none (Nat.le_of_not_lt hvar),
      Array.getElem?_eq_none (hcount ▸ Nat.le_of_not_lt hvar)]

/-- Of the relations of one pair, each is made of the values that it allows. -/
theorem relation_eq (h : Completes calls b relations) (h' : Completes others c related)
    (hagrees : (problem b relations).Agrees (problem c related)) {r s : Relation}
    (hr : r ∈ relations) (hs : s ∈ related) (hpair : r.pair = s.pair) : r = s := by
  have hvalues : b.values = c.values := hagrees.values
  obtain ⟨pairs, hpairs, hrPairs⟩ := h.eq_ofPairs hr
  obtain ⟨listed, hlisted, hsPairs⟩ := h'.eq_ofPairs hs
  rw [← hvalues] at hlisted hsPairs
  obtain ⟨_, hid⟩ := exists_relation_problem b hr
  obtain ⟨_, hid'⟩ := exists_relation_problem c hs
  have hrelated : ∀ {a a' : ValId}, a < b.values.size → a' < b.values.size →
      (r.Related a a' ↔ s.Related a a') := by
    intro a a' ha ha'
    have hcompatible : (problem b relations).model.Compatible r.pair.lower a r.pair.higher a' ↔
        (problem c related).model.Compatible r.pair.lower a r.pair.higher a' :=
      hagrees.compatible ha ha'
    rwa [h.wellFormed.compatible_iff_related hid, hpair,
      h'.wellFormed.compatible_iff_related hid'] at hcompatible
  have hmem : ∀ {a a' : ValId}, r.Related a a' ↔ (a, a') ∈ pairs := by
    intro a a'
    rw [hrPairs]
    exact (Relation.ofPairs_related r.pair hpairs a a').1
  have hmem' : ∀ {a a' : ValId}, s.Related a a' ↔ (a, a') ∈ listed := by
    intro a a'
    rw [hsPairs]
    exact (Relation.ofPairs_related s.pair hlisted a a').1
  have hsame : SameMembers pairs listed := by
    rintro ⟨a, a'⟩
    constructor
    · intro hin
      obtain ⟨ha, ha'⟩ := hpairs _ hin
      exact hmem'.1 ((hrelated ha ha').1 (hmem.2 hin))
    · intro hin
      obtain ⟨ha, ha'⟩ := hlisted _ hin
      exact hmem.1 ((hrelated ha ha').2 (hmem'.2 hin))
  rw [hrPairs, hsPairs, hpair, Relation.ofPairs_congr s.pair hpairs hsame]

theorem relations_eq (h : Completes calls b relations) (h' : Completes others c related)
    (hagrees : (problem b relations).Agrees (problem c related)) : relations = related := by
  have hpairs : ∀ pair, (∃ r ∈ relations, r.pair = pair) ↔ ∃ s ∈ related, s.pair = pair := by
    intro pair
    simpa [Model.Constrained, problem] using hagrees.constrained pair
  have hmem : ∀ r, r ∈ relations ↔ r ∈ related := by
    intro r
    constructor
    · intro hr
      obtain ⟨s, hs, hpair⟩ := (hpairs r.pair).1 ⟨r, hr, rfl⟩
      rwa [h.relation_eq h' hagrees hr hs hpair.symm]
    · intro hr
      obtain ⟨s, hs, hpair⟩ := (hpairs r.pair).2 ⟨r, hr, rfl⟩
      rwa [← h.relation_eq h' hagrees hs hr hpair]
  have hne : ∀ {r s : Relation}, r.pair.before s.pair = true → r ≠ s := by
    rintro r s hbefore rfl
    exact before_strict.ne hbefore rfl
  have hperm := (List.perm_ext_iff_of_nodup (h.ascending.imp hne) (h'.ascending.imp hne)).2 hmem
  refine hperm.eq_of_pairwise (fun r s _ _ hrs hsr => ?_) h.ascending h'.ascending
  exact absurd rfl (before_strict.ne (before_strict.trans hrs hsr))

theorem problem_eq (h : Completes calls b relations) (h' : Completes others c related)
    (hagrees : (problem b relations).Agrees (problem c related)) :
    problem b relations = problem c related := by
  have hvalues : b.values = c.values := hagrees.values
  have hcount : b.variableCount = c.variableCount := by
    rw [← variableCount_problem b relations, ← variableCount_problem c related]
    exact hagrees.variableCount
  have hrelations := h.relations_eq h' hagrees
  have hdomains : (problem b relations).model.domains = (problem c related).model.domains := by
    have hsound := h'.wellFormed.domains
    rw [← hagrees.variableCount, ← show b.values.size = (problem c related).model.valueCount from
      congrArg ValueTable.size hvalues] at hsound
    exact Store.domains_eq_of_family_eq h.wellFormed.domains hsound
      (h.size_words_domains_eq h' hvalues hcount) hagrees.domains
  have hneighbours : (Array.range b.variableCount).map (adjacent b.edges.toList) =
      (Array.range c.variableCount).map (adjacent c.edges.toList) := by
    rw [← hcount]
    refine Array.map_congr_left fun var hvar => adjacent_congr fun other => ?_
    have hvar' : var < b.variableCount := by simpa using hvar
    have hadjacent := hagrees.adjacent var other
    simpa [Model.Adjacent, problem, hvar', hcount ▸ hvar'] using hadjacent
  have hpairs : pairsOf relations = pairsOf related := congrArg pairsOf hrelations
  have hlinks : (Array.range b.variableCount).map (linksOf relations) =
      (Array.range c.variableCount).map (linksOf related) := by
    rw [hcount, hrelations]
  rw [problem, problem, Problem.mk.injEq, Model.mk.injEq]
  exact ⟨⟨congrArg ValueTable.size hvalues, hneighbours, hdomains, congrArg _ hrelations, hpairs,
    hlinks⟩, hvalues⟩

end Completes

end Builder

theorem Problem.eq_of_agrees [DecidableEq V] {calls others : List (Call V)} {p q : Problem V}
    (hp : Problem.ofCalls calls = .ok p) (hq : Problem.ofCalls others = .ok q)
    (h : p.Agrees q) : p = q := by
  obtain ⟨relations, hcompletes, rfl⟩ := Builder.build_eq_ok hp
  obtain ⟨related, hcompletes', rfl⟩ := Builder.build_eq_ok hq
  exact hcompletes.problem_eq hcompletes' h

end BinaryCsp
