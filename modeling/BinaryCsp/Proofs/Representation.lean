import BinaryCsp.Proofs.Build
import Mathlib.Data.List.Induction

/-! # What a built model holds

A description is accepted exactly when each of its calls is about two different known variables and
each listed value is a candidate somewhere. What the model then holds is read off the calls:
numbers in the order in which the values were first seen, neighbours and relations in ascending
order, and at each end of a relation one link that asks the same question.
-/

namespace BinaryCsp

variable {V : Type}

namespace Call

def ends? : Call V → Option (VarId × VarId)
  | .newVariable _ => none
  | .neighbour a b => some (a, b)
  | .relation a b _ => some (a, b)

def candidates (calls : List (Call V)) : List V := (domains calls).flatten

def Joined (calls : List (Call V)) (a b : VarId) : Prop :=
  ∃ call ∈ calls, call.ends? = some (a, b) ∨ call.ends? = some (b, a)

theorem Joined.symm {calls : List (Call V)} {a b : VarId} (h : Joined calls a b) :
    Joined calls b a := by
  obtain ⟨call, hcall, hends⟩ := h
  exact ⟨call, hcall, hends.symm⟩

/-- Where the variables come first, the candidates are theirs. -/
theorem domains_newVariable_append (given : List (List V)) {rest : List (Call V)}
    (hrest : ∀ call ∈ rest, call.ends? ≠ none) :
    domains (given.map .newVariable ++ rest) = given := by
  have hnone : domains rest = [] := by
    refine List.filterMap_eq_nil_iff.2 fun call hcall => ?_
    cases call with
    | newVariable domain => exact absurd rfl (hrest _ hcall)
    | neighbour a b => rfl
    | relation a b allowed => rfl
  have hgiven : domains (given.map .newVariable) = given := by
    simp [domains, List.filterMap_map]
  rw [domains, List.filterMap_append, ← domains, ← domains, hgiven, hnone, List.append_nil]

structure Acceptable (calls : List (Call V)) : Prop where
  known : ∀ call ∈ calls, ∀ {a b : VarId}, call.ends? = some (a, b) →
    a < (domains calls).length ∧ b < (domains calls).length
  distinct : ∀ call ∈ calls, ∀ {a b : VarId}, call.ends? = some (a, b) → a ≠ b
  listed : ∀ {a b : VarId} {allowed : List (V × V)}, .relation a b allowed ∈ calls →
    ∀ {x y : V}, (x, y) ∈ allowed → x ∈ candidates calls ∧ y ∈ candidates calls

/-- Variables followed by relations that list candidates of theirs are accepted. -/
theorem acceptable_newVariable_append {given : List (List V)} {rest : List (Call V)}
    (hrest : ∀ call ∈ rest, ∃ a b allowed first second, call = .relation a b allowed ∧ a ≠ b ∧
      given[a]? = some first ∧ given[b]? = some second ∧
        ∀ x y, (x, y) ∈ allowed → x ∈ first ∧ y ∈ second) :
    Acceptable (given.map .newVariable ++ rest) := by
  have hdomains : domains (given.map .newVariable ++ rest) = given := by
    refine domains_newVariable_append given fun call hcall => ?_
    obtain ⟨_, _, _, _, _, rfl, _⟩ := hrest call hcall
    nofun
  have hrelated : ∀ call ∈ given.map Call.newVariable ++ rest, ∀ {a b : VarId},
      call.ends? = some (a, b) → call ∈ rest := by
    intro call hcall a b hends
    rcases List.mem_append.1 hcall with hcall | hcall
    · obtain ⟨_, _, rfl⟩ := List.mem_map.1 hcall
      cases hends
    · exact hcall
  refine ⟨?_, ?_, ?_⟩
  · intro call hcall a b hends
    obtain ⟨_, _, _, _, _, rfl, _, ha, hb, _⟩ := hrest call (hrelated call hcall hends)
    cases hends
    rw [hdomains]
    exact ⟨(List.getElem?_eq_some_iff.1 ha).1, (List.getElem?_eq_some_iff.1 hb).1⟩
  · intro call hcall a b hends
    obtain ⟨_, _, _, _, _, rfl, hne, _⟩ := hrest call (hrelated call hcall hends)
    cases hends
    exact hne
  · intro a b allowed hcall x y hin
    obtain ⟨_, _, _, first, second, h, _, ha, hb, hlisted⟩ := hrest _ (hrelated _ hcall rfl)
    cases h
    obtain ⟨hx, hy⟩ := hlisted x y hin
    rw [candidates, hdomains]
    exact ⟨List.mem_flatten.2 ⟨first, List.mem_of_getElem? ha, hx⟩,
      List.mem_flatten.2 ⟨second, List.mem_of_getElem? hb, hy⟩⟩

end Call

namespace Builder

/-! ## What the calls record -/

/-- The edge that a call records: a relation is recorded from its lower variable. -/
def edge? : Call V → Option (VarId × VarId)
  | .newVariable _ => none
  | .neighbour a b => some (a, b)
  | .relation a b _ => some ((VarPair.of a b).lower, (VarPair.of a b).higher)

theorem edge?_of_ends? {call : Call V} {a b : VarId} (h : call.ends? = some (a, b)) :
    edge? call = some (a, b) ∨ edge? call = some (b, a) := by
  cases call with
  | newVariable domain => cases h
  | neighbour x y => exact .inl h
  | relation x y allowed =>
      cases h
      unfold edge? VarPair.of
      by_cases hle : a ≤ b <;> simp [hle]

theorem ends?_of_edge? {call : Call V} {a b : VarId} (h : edge? call = some (a, b)) :
    call.ends? = some (a, b) ∨ call.ends? = some (b, a) := by
  cases call with
  | newVariable domain => cases h
  | neighbour x y => exact .inl h
  | relation x y allowed =>
      unfold edge? VarPair.of at h
      by_cases hle : x ≤ y
      · simp only [hle, if_true, Option.some.injEq, Prod.mk.injEq] at h
        simp [Call.ends?, h]
      · simp only [hle, if_false, Option.some.injEq, Prod.mk.injEq] at h
        simp [Call.ends?, h]

variable [DecidableEq V] {calls : List (Call V)}

theorem ofCalls_concat (calls : List (Call V)) (call : Call V) :
    ofCalls (calls ++ [call]) = (ofCalls calls).apply call := by
  simp [ofCalls]

theorem edges_ofCalls (calls : List (Call V)) :
    (ofCalls calls).edges.toList = calls.filterMap edge? := by
  induction calls using List.reverseRecOn with
  | nil => rfl
  | append_singleton calls call ih =>
      rw [ofCalls_concat, List.filterMap_append, ← ih]
      cases call with
      | newVariable domain => simp [apply, addVariable, edge?]
      | neighbour x y => simp [apply, addNeighbour, edge?]
      | relation x y allowed => simp [apply, addRelation, edge?]

theorem values_ofCalls (calls : List (Call V)) :
    (ofCalls calls).values.values.toList = (Call.candidates calls).eraseDups := by
  induction calls using List.reverseRecOn with
  | nil => rfl
  | append_singleton calls call ih =>
      rw [ofCalls_concat]
      cases call with
      | newVariable domain =>
          simpa [apply, addVariable, Call.candidates, Call.domains] using
            ValueTable.internAll_values ih domain
      | neighbour x y => simpa [apply, addNeighbour, Call.candidates, Call.domains] using ih
      | relation x y allowed => simpa [apply, addRelation, Call.candidates, Call.domains] using ih

theorem variableCount_ofCalls (calls : List (Call V)) :
    (ofCalls calls).variableCount = (Call.domains calls).length := by
  rw [← (describes_ofCalls calls).domains.length_eq, Array.length_toList]
  rfl

theorem mem_values_ofCalls {v : V} :
    v ∈ (ofCalls calls).values.values ↔ v ∈ Call.candidates calls := by
  rw [← Array.mem_toList_iff, values_ofCalls, List.mem_eraseDups]

theorem joined_iff {a b : VarId} :
    Call.Joined calls a b ↔
      (a, b) ∈ (ofCalls calls).edges.toList ∨ (b, a) ∈ (ofCalls calls).edges.toList := by
  simp only [edges_ofCalls, List.mem_filterMap]
  constructor
  · rintro ⟨call, hcall, hends | hends⟩
    · exact (edge?_of_ends? hends).imp (⟨call, hcall, ·⟩) (⟨call, hcall, ·⟩)
    · exact ((edge?_of_ends? hends).imp (⟨call, hcall, ·⟩) (⟨call, hcall, ·⟩)).symm
  · rintro (⟨call, hcall, hedge⟩ | ⟨call, hcall, hedge⟩)
    · exact ⟨call, hcall, ends?_of_edge? hedge⟩
    · exact ⟨call, hcall, (ends?_of_edge? hedge).symm⟩

/-! ## Which descriptions are accepted -/

omit [DecidableEq V] in
theorem exists_mapM_eq_some {α β : Type} {f : α → Option β} {xs : List α} :
    (∃ ys, xs.mapM f = some ys) ↔ ∀ x ∈ xs, ∃ y, f x = some y := by
  induction xs with
  | nil => simp
  | cons x xs ih =>
      simp only [List.mapM_cons, Option.bind_eq_bind, Option.bind_eq_some_iff, Option.pure_def,
        Option.some.injEq, List.forall_mem_cons, ← ih]
      constructor
      · rintro ⟨_, y, hy, ys, hys, _⟩
        exact ⟨⟨y, hy⟩, ys, hys⟩
      · rintro ⟨⟨y, hy⟩, ys, hys⟩
        exact ⟨y :: ys, y, hy, ys, hys, rfl⟩

theorem exists_idsOf? {values : ValueTable V} (hv : values.Distinct) {pair : V × V} :
    (∃ ids, idsOf? values pair = some ids) ↔
      pair.1 ∈ values.values ∧ pair.2 ∈ values.values := by
  simp only [idsOf?_eq_some hv, Prod.exists, Array.mem_iff_getElem?]
  exact ⟨fun ⟨a, b, ha, hb⟩ => ⟨⟨a, ha⟩, b, hb⟩, fun ⟨⟨a, ha⟩, b, hb⟩ => ⟨a, b, ha, hb⟩⟩

theorem exists_relate {values : ValueTable V} (hv : values.Distinct)
    {entry : VarPair × List (List (V × V))} :
    (∃ relation, relate values entry = .ok relation) ↔
      ∀ table ∈ entry.2, ∀ pair ∈ table, pair.1 ∈ values.values ∧ pair.2 ∈ values.values := by
  have htables : (∃ tables, entry.2.mapM (·.mapM (idsOf? values)) = some tables) ↔
      ∀ table ∈ entry.2, ∀ pair ∈ table, pair.1 ∈ values.values ∧ pair.2 ∈ values.values := by
    simp only [exists_mapM_eq_some, exists_idsOf? hv]
  rw [← htables]
  unfold relate
  cases entry.2.mapM (·.mapM (idsOf? values)) with
  | none => simp
  | some tables => simp

/-- The tables of the calls list known values exactly when the calls do. -/
theorem known_tables_iff :
    (∀ entry ∈ (ofCalls calls).tables.toList, ∀ pair ∈ entry.2,
        pair.1 ∈ (ofCalls calls).values.values ∧ pair.2 ∈ (ofCalls calls).values.values) ↔
      ∀ {a b : VarId} {allowed : List (V × V)}, .relation a b allowed ∈ calls →
        ∀ {x y : V}, (x, y) ∈ allowed →
          x ∈ Call.candidates calls ∧ y ∈ Call.candidates calls := by
  simp only [(describes_ofCalls calls).tables, mem_values_ofCalls]
  constructor
  · intro h a b allowed hcall x y hin
    have hentry := h (tableOf a b allowed) ⟨a, b, allowed, hcall, rfl⟩
    unfold tableOf at hentry
    by_cases hle : a ≤ b
    · simp only [hle, if_true] at hentry
      exact hentry (x, y) hin
    · simp only [hle, if_false] at hentry
      exact (hentry (y, x) (by simpa using hin)).symm
  · rintro h entry ⟨a, b, allowed, hcall, rfl⟩ ⟨x, y⟩ hin
    unfold tableOf at hin
    by_cases hle : a ≤ b
    · simp only [hle, if_true] at hin
      exact h hcall hin
    · simp only [hle, if_false] at hin
      exact (h hcall (by simpa using hin)).symm

/-- The edges of the calls pass their check exactly when the calls are about different known
variables. -/
theorem checked_edges_iff :
    (∀ edge ∈ (ofCalls calls).edges.toList,
        checkEdge (ofCalls calls).variableCount edge = .ok ()) ↔
      ∀ a b, Call.Joined calls a b →
        a < (Call.domains calls).length ∧ b < (Call.domains calls).length ∧ a ≠ b := by
  simp only [checkEdge_eq_ok, variableCount_ofCalls, joined_iff]
  constructor
  · rintro h a b (hin | hin)
    · exact h _ hin
    · obtain ⟨hb, ha, hne⟩ := h _ hin
      exact ⟨ha, hb, hne.symm⟩
  · rintro h ⟨a, b⟩ hin
    exact h a b (.inl hin)

end Builder

variable {calls : List (Call V)}

theorem Call.acceptable_iff :
    Acceptable calls ↔
      (∀ a b, Joined calls a b →
        a < (domains calls).length ∧ b < (domains calls).length ∧ a ≠ b) ∧
      ∀ {a b : VarId} {allowed : List (V × V)}, .relation a b allowed ∈ calls →
        ∀ {x y : V}, (x, y) ∈ allowed → x ∈ candidates calls ∧ y ∈ candidates calls := by
  constructor
  · rintro ⟨hknown, hdistinct, hlisted⟩
    refine ⟨?_, hlisted⟩
    rintro a b ⟨call, hcall, hends | hends⟩
    · exact ⟨(hknown call hcall hends).1, (hknown call hcall hends).2, hdistinct call hcall hends⟩
    · exact ⟨(hknown call hcall hends).2, (hknown call hcall hends).1,
        (hdistinct call hcall hends).symm⟩
  · rintro ⟨hjoined, hlisted⟩
    refine ⟨?_, ?_, hlisted⟩
    · intro call hcall a b hends
      obtain ⟨ha, hb, _⟩ := hjoined a b ⟨call, hcall, .inl hends⟩
      exact ⟨ha, hb⟩
    · intro call hcall a b hends
      exact (hjoined a b ⟨call, hcall, .inl hends⟩).2.2

theorem Problem.exists_ofCalls_iff [DecidableEq V] :
    (∃ p, Problem.ofCalls calls = .ok p) ↔ Call.Acceptable calls := by
  have hv : (Builder.ofCalls calls).values.Distinct := (Builder.describes_ofCalls calls).distinct
  have hgroup := Ascending.group_spec Builder.before_strict (Builder.ofCalls calls).tables.toList
  rw [Call.acceptable_iff, ← Builder.checked_edges_iff, ← Builder.known_tables_iff]
  constructor
  · rintro ⟨p, hp⟩
    obtain ⟨relations, h, _⟩ := Builder.build_eq_ok hp
    refine ⟨h.edges, ?_⟩
    intro entry hentry pair hpair
    have htable := Ascending.mem_entriesOf.2 hentry
    have hmem := (hgroup.2 _ _).2 ⟨rfl, List.ne_nil_of_mem htable⟩
    obtain ⟨id, hid⟩ := List.getElem?_of_mem hmem
    obtain ⟨relation, _, hrelate⟩ := Checked.exists_of_forall₂_left h.relates hid
    exact (Builder.exists_relate hv).1 ⟨relation, hrelate⟩ entry.2 htable pair hpair
  · rintro ⟨hedges, htables⟩
    have hrelates : ∀ entry ∈ Ascending.group VarPair.before (Builder.ofCalls calls).tables.toList,
        ∃ relation, Builder.relate (Builder.ofCalls calls).values entry = .ok relation := by
      rintro ⟨pair, tables⟩ hentry
      obtain ⟨rfl, _⟩ := (hgroup.2 _ _).1 hentry
      refine (Builder.exists_relate hv).2 fun table htable => ?_
      exact htables _ (Ascending.mem_entriesOf.1 htable)
    obtain ⟨relations, hrelations⟩ := Checked.exists_mapM_eq_ok hrelates
    refine ⟨Builder.problem (Builder.ofCalls calls) relations, ?_⟩
    rw [Problem.ofCalls, Builder.build, Builder.checkEdges_eq_ok.2 hedges, Checked.ok_bind,
      hrelations, Checked.ok_bind]
    rfl

/-! ## Order in the model -/

namespace Builder

theorem linkOf?_eq_some {var : VarId} {relation : Relation} {id : RelationId} {link : Link}
    (h : linkOf? var (relation, id) = some link) :
    relation.pair = ⟨var, link.other⟩ ∨ relation.pair = ⟨link.other, var⟩ := by
  obtain ⟨⟨lower, higher⟩, forward, backward⟩ := relation
  simp only [linkOf?] at h
  by_cases hlower : lower = var
  · simp only [hlower, if_true, Option.some.injEq] at h
    exact .inl (by rw [← h, hlower])
  · by_cases hhigher : higher = var
    · simp only [hlower, hhigher, if_false, if_true, Option.some.injEq] at h
      exact .inr (by rw [← h, hhigher])
    · simp [hlower, hhigher] at h

/-- The links of a variable ascend because the relations do. -/
theorem linksOf_ascending {relations : List Relation}
    (hascend : relations.Pairwise fun r s => r.pair.before s.pair = true)
    (hordered : ∀ r ∈ relations, r.pair.lower < r.pair.higher) (var : VarId) :
    (linksOf relations var).Pairwise fun link later => link.other < later.other := by
  rw [← List.zipIdx_map_fst 0 relations, List.pairwise_map] at hascend
  refine List.pairwise_filterMap.2 (hascend.imp_of_mem ?_)
  rintro ⟨r, id⟩ ⟨s, id'⟩ hr hs hbefore link hlink later hlater
  have hr' := hordered r (List.fst_mem_of_mem_zipIdx hr)
  have hs' := hordered s (List.fst_mem_of_mem_zipIdx hs)
  simp only [VarPair.before, Ascending.pairLt, Ascending.natLt, Bool.or_eq_true,
    decide_eq_true_eq, Bool.and_eq_true, beq_iff_eq] at hbefore
  -- A relation from below `var` comes before one to above it, never after it.
  rcases linkOf?_eq_some hlink with hfirst | hfirst <;>
    rcases linkOf?_eq_some hlater with hsecond | hsecond <;>
    simp only [hfirst, hsecond] at hbefore hr' hs' <;> lia

section Problem

variable {b : Builder V} {relations : List Relation} {var : VarId}

theorem neighboursOf_problem (hvar : var < (problem b relations).model.variableCount) :
    (problem b relations).model.neighboursOf var = .ok (adjacent b.edges.toList var) := by
  rw [variableCount_problem] at hvar
  simp [Model.neighboursOf, problem, Checked.get, hvar]

theorem linksOf_problem (hvar : var < (problem b relations).model.variableCount) :
    (problem b relations).model.linksOf var = .ok (linksOf relations var) := by
  rw [variableCount_problem] at hvar
  simp [Model.linksOf, problem, Checked.get, hvar]

end Problem

namespace Completes

variable [DecidableEq V] {b : Builder V} {relations : List Relation}

theorem ascending (h : Completes calls b relations) :
    relations.Pairwise fun r s => r.pair.before s.pair = true := by
  have hsorted := List.pairwise_iff_getElem.1
    (Ascending.group_spec before_strict b.tables.toList).1
  refine List.pairwise_iff_getElem.2 fun i j hi hj hij => ?_
  obtain ⟨_, hgroup, _⟩ := h.group_of_relation (List.getElem?_eq_getElem hi)
  obtain ⟨_, hgroup', _⟩ := h.group_of_relation (List.getElem?_eq_getElem hj)
  obtain ⟨hlt, hentry⟩ := List.getElem?_eq_some_iff.1 hgroup
  obtain ⟨hlt', hentry'⟩ := List.getElem?_eq_some_iff.1 hgroup'
  have hbefore := hsorted i j hlt hlt' hij
  rwa [hentry, hentry'] at hbefore

/-- The pairs with a relation are those that a relation call is about. -/
theorem exists_relation_iff (h : Completes calls b relations) {pair : VarPair} :
    (∃ r ∈ relations, r.pair = pair) ↔
      ∃ x y allowed, .relation x y allowed ∈ calls ∧ pair = VarPair.of x y := by
  constructor
  · rintro ⟨r, hr, rfl⟩
    obtain ⟨id, hid⟩ := List.getElem?_of_mem hr
    obtain ⟨table, htable⟩ := List.exists_mem_of_ne_nil _ (h.group_of_relation hid).1
    obtain ⟨x, y, allowed, hcall, hentry⟩ :=
      (h.describes.tables _).1 (Ascending.mem_entriesOf.1 htable)
    exact ⟨x, y, allowed, hcall, (Prod.mk.inj hentry).1⟩
  · rintro ⟨x, y, allowed, hcall, rfl⟩
    have hentry := (h.describes.tables _).2 ⟨x, y, allowed, hcall, rfl⟩
    obtain ⟨id, r, hr, hpair⟩ :=
      h.exists_relation (List.ne_nil_of_mem (Ascending.mem_entriesOf.2 hentry))
    exact ⟨r, List.mem_of_getElem? hr, hpair⟩

end Completes

end Builder

namespace Model

theorem exists_connects {m : Model} {id : RelationId} {relation : Relation}
    (hget : m.relations[id]? = some relation) {var : VarId}
    (hvar : var = relation.pair.lower ∨ var = relation.pair.higher) :
    ∃ link, m.Connects var link ∧ link.relation = id := by
  rcases hvar with rfl | rfl
  · exact ⟨⟨relation.pair.higher, id, false⟩, ⟨relation, hget, rfl⟩, rfl⟩
  · exact ⟨⟨relation.pair.lower, id, true⟩, ⟨relation, hget, rfl⟩, rfl⟩

namespace WellFormed

variable {m : Model} {var other : VarId} {link : Link} {a b : ValId}

theorem allows_eq_ok (hm : m.WellFormed) (var other : VarId) (ha : a < m.valueCount)
    (hb : b < m.valueCount) : ∃ flag, m.allows var a other b = .ok flag := by
  unfold allows
  obtain ⟨found, hr⟩ := hm.exists_relationBetween? var other
  rw [hr, Checked.ok_bind]
  cases found with
  | none => exact ⟨true, rfl⟩
  | some relation =>
      obtain ⟨id, hget, _⟩ := hm.relationBetween?_eq_some.1 hr
      have hsize := hm.forward_size hget
      dsimp only
      split
      · exact Relation.allows_eq_ok (by rwa [hsize]) b
      · exact Relation.allows_eq_ok (by rwa [hsize]) a

/-- Both ends of a relation and both orders of its variables give one answer. -/
theorem supports_agree (hm : m.WellFormed) {back : Link} (hlink : m.Connects var link)
    (hother : link.other = other) (hback : m.Connects other back) (hvar : back.other = var)
    (ha : a < m.valueCount) (hb : b < m.valueCount) :
    ∃ row column flag, m.supports link a = .ok row ∧ m.supports back b = .ok column ∧
      row.contains b = flag ∧ column.contains a = flag ∧
      m.allows var a other b = .ok flag ∧ m.allows other b var a = .ok flag := by
  obtain ⟨row, hrow, hrowIff⟩ := hm.supports_eq hlink ha
  obtain ⟨column, hcolumn, hcolumnIff⟩ := hm.supports_eq hback hb
  obtain ⟨flag, hflag⟩ := hm.allows_eq_ok var other ha hb
  obtain ⟨flag', hflag'⟩ := hm.allows_eq_ok other var hb ha
  have hcompat : m.Compatible var a other b ↔ flag = true := by
    rw [Compatible, hflag, Except.ok.injEq]
  have hcompat' : m.Compatible other b var a ↔ flag' = true := by
    rw [Compatible, hflag', Except.ok.injEq]
  have hsame : flag = flag' := by
    rw [Bool.eq_iff_iff, ← hcompat, ← hcompat', hm.compatible_comm]
  refine ⟨row, column, flag, hrow, hcolumn, ?_, ?_, hflag, hsame ▸ hflag'⟩
  · rw [Bool.eq_iff_iff, hrowIff, hother, hcompat]
  · rw [Bool.eq_iff_iff, hcolumnIff, hvar, hcompat', hsame]

end WellFormed

end Model

namespace Builder.Completes

variable [DecidableEq V] {relations : List Relation} {var : VarId}

theorem neighboursOf_spec (h : Completes calls (ofCalls calls) relations)
    (hvar : var < (problem (ofCalls calls) relations).model.variableCount) :
    ∃ others, (problem (ofCalls calls) relations).model.neighboursOf var = .ok others ∧
      others.Pairwise (· < ·) ∧ var ∉ others ∧
      ∀ other, other ∈ others ↔ Call.Joined calls var other := by
  refine ⟨_, neighboursOf_problem hvar, ?_, ?_, ?_⟩
  · exact (Ascending.ofList_ascending Ascending.natLt_strict _).imp (by simp [Ascending.natLt])
  · intro hself
    have hjoined := joined_iff.2 (mem_adjacent.1 hself)
    exact (checked_edges_iff.1 h.edges var var hjoined).2.2 rfl
  · intro other
    rw [mem_adjacent, joined_iff]

theorem linksOf_spec {b : Builder V} (h : Completes calls b relations)
    (hvar : var < (problem b relations).model.variableCount) :
    ∃ links, (problem b relations).model.linksOf var = .ok links ∧
      links.Pairwise (fun link later => link.other < later.other) ∧
      (∀ link, link ∈ links ↔ (problem b relations).model.Connects var link) ∧
      ∀ {id : RelationId} {r : Relation}, (problem b relations).model.relations[id]? = some r →
        var = r.pair.lower ∨ var = r.pair.higher →
        ∃! link, link ∈ links ∧ link.relation = id := by
  have hlinks := linksOf_problem hvar
  obtain ⟨links, hlinks', hmem⟩ := h.wellFormed.linksOf_eq hvar
  obtain rfl := Except.ok.inj (hlinks.symm.trans hlinks')
  refine ⟨_, hlinks, ?_, hmem, ?_⟩
  · refine linksOf_ascending h.ascending (fun r hr => ?_) var
    obtain ⟨id, hid⟩ := List.getElem?_of_mem hr
    exact (h.ordered hid).1
  · intro id r hget htouch
    obtain ⟨link, hlink, hid⟩ := Model.exists_connects hget htouch
    refine ⟨link, ⟨(hmem link).2 hlink, hid⟩, ?_⟩
    rintro later ⟨hlater, hid'⟩
    exact h.wellFormed.connects_unique ((hmem later).1 hlater) hlink (hid'.trans hid.symm)

end Builder.Completes

/-! ## The model of an accepted description -/

/-- What a problem holds, in terms of the calls that describe it. -/
structure Problem.Represents [DecidableEq V] (calls : List (Call V)) (p : Problem V) : Prop where
  variableCount : p.model.variableCount = (Call.domains calls).length
  valueCount : p.model.valueCount = p.values.size
  /-- Values are numbered in the order in which they are first seen. -/
  values : p.values.values.toList = (Call.candidates calls).eraseDups
  numbered : ∀ {x : V}, x ∈ Call.candidates calls ↔ ∃ id, p.idOf? x = some id
  value_idOf : ∀ {x : V} {id : ValId}, p.idOf? x = some id ↔ p.value id = .ok x
  neighbours : ∀ {var : VarId}, var < p.model.variableCount →
    ∃ others, p.model.neighboursOf var = .ok others ∧ others.Pairwise (· < ·) ∧ var ∉ others ∧
      ∀ other, other ∈ others ↔ Call.Joined calls var other
  neighbours_symm : ∀ {var other : VarId} {others back : List VarId},
    p.model.neighboursOf var = .ok others → p.model.neighboursOf other = .ok back →
    (other ∈ others ↔ var ∈ back)
  relations_ascend : p.model.relations.toList.Pairwise fun r s => r.pair.before s.pair = true
  relations_ordered : ∀ r ∈ p.model.relations, r.pair.lower < r.pair.higher
  /-- The pairs with a relation are those that a relation call is about. -/
  relations_given : ∀ {pair : VarPair}, (∃ r ∈ p.model.relations, r.pair = pair) ↔
    ∃ x y allowed, .relation x y allowed ∈ calls ∧ pair = VarPair.of x y
  relations_indexed : ∀ {pair : VarPair} {id : RelationId}, p.model.pairIndex? pair = some id ↔
    ∃ r, p.model.relations[id]? = some r ∧ r.pair = pair
  relationBetween : ∀ a b, p.model.relationBetween? a b =
    .ok ((p.model.pairIndex? (VarPair.of a b)).bind (p.model.relations[·]?))
  /-- A variable has one link for each relation that it takes part in. -/
  links : ∀ {var : VarId}, var < p.model.variableCount →
    ∃ links, p.model.linksOf var = .ok links ∧
      links.Pairwise (fun link later => link.other < later.other) ∧
      (∀ link, link ∈ links ↔ p.model.Connects var link) ∧
      ∀ {id : RelationId} {r : Relation}, p.model.relations[id]? = some r →
        var = r.pair.lower ∨ var = r.pair.higher → ∃! link, link ∈ links ∧ link.relation = id
  links_reversed : ∀ {var : VarId} {link : Link}, p.model.Connects var link →
    (link.reversed = true ↔ link.other < var)
  /-- Both ends of a relation and both orders of its variables give one answer: whether all calls
  on the two variables list the values. -/
  supports : ∀ {i j : VarId} {link back : Link} {a b : ValId}, p.model.Connects i link →
    link.other = j → p.model.Connects j back → back.other = i → a < p.model.valueCount →
    b < p.model.valueCount →
    ∃ row column flag x y, p.model.supports link a = .ok row ∧
      p.model.supports back b = .ok column ∧ row.contains b = flag ∧ column.contains a = flag ∧
      p.model.allows i a j b = .ok flag ∧ p.model.allows j b i a = .ok flag ∧
      p.value a = .ok x ∧ p.value b = .ok y ∧
      (flag = true ↔ (∀ allowed, .relation i j allowed ∈ calls → (x, y) ∈ allowed) ∧
        ∀ allowed, .relation j i allowed ∈ calls → (y, x) ∈ allowed)

namespace Problem

variable [DecidableEq V] {p : Problem V}

theorem idOf?_eq_some (hp : p.Faithful calls) {x : V} {id : ValId} :
    p.idOf? x = some id ↔ p.value id = .ok x := by
  rw [idOf?, ValueTable.idOf?_eq_some hp.distinct]
  exact Checked.get_eq_ok.symm

omit [DecidableEq V] in
theorem exists_value (hp : p.Faithful calls) {id : ValId} (hid : id < p.model.valueCount) :
    ∃ x, p.value id = .ok x := by
  rw [hp.valueCount] at hid
  exact ⟨_, Checked.get_of_lt hid⟩

omit [DecidableEq V] in
theorem Faithful.lt_of_value (hp : p.Faithful calls) {id : ValId} {x : V}
    (hx : p.value id = .ok x) : id < p.model.valueCount := by
  rw [hp.valueCount]
  exact (Array.getElem?_eq_some_iff.1 (Checked.get_eq_ok.1 hx)).1

omit [DecidableEq V] in
/-- What the two ends of a relation answer is whether all calls on its variables list the values. -/
theorem supports_spec (hp : p.Faithful calls) {i j : VarId} {link back : Link} {a b : ValId}
    (hlink : p.model.Connects i link) (hother : link.other = j) (hback : p.model.Connects j back)
    (hvar : back.other = i) (ha : a < p.model.valueCount) (hb : b < p.model.valueCount) :
    ∃ row column flag x y, p.model.supports link a = .ok row ∧
      p.model.supports back b = .ok column ∧ row.contains b = flag ∧ column.contains a = flag ∧
      p.model.allows i a j b = .ok flag ∧ p.model.allows j b i a = .ok flag ∧
      p.value a = .ok x ∧ p.value b = .ok y ∧
      (flag = true ↔ (∀ allowed, .relation i j allowed ∈ calls → (x, y) ∈ allowed) ∧
        ∀ allowed, .relation j i allowed ∈ calls → (y, x) ∈ allowed) := by
  obtain ⟨row, column, flag, hrow, hcolumn, hrowFlag, hcolumnFlag, hallows, hallows'⟩ :=
    hp.wellFormed.supports_agree hlink hother hback hvar ha hb
  obtain ⟨x, hx⟩ := exists_value hp ha
  obtain ⟨y, hy⟩ := exists_value hp hb
  refine ⟨row, column, flag, x, y, hrow, hcolumn, hrowFlag, hcolumnFlag, hallows, hallows', hx,
    hy, ?_⟩
  rw [← hp.compatible (Checked.get_eq_ok.1 hx) (Checked.get_eq_ok.1 hy), Model.Compatible,
    hallows, Except.ok.injEq]

/-- The values of an initial domain are the candidates of its variable, each once. -/
theorem Faithful.exists_domainValues (hp : p.Faithful calls) {var : VarId} {domain : List V}
    (hdomain : (Call.domains calls)[var]? = some domain) :
    ∃ values, p.domainValues var = .ok values ∧ values.Nodup ∧ ∀ v, v ∈ values ↔ v ∈ domain := by
  have hvar : var < p.model.variableCount := by
    rw [hp.variableCount]
    exact (List.getElem?_eq_some_iff.1 hdomain).1
  obtain ⟨initial, hget, _, _, hcontains⟩ := hp.wellFormed.domains.get_eq hvar
  have hmem : ∀ id, id ∈ initial.toList ↔ ∃ v ∈ domain, p.value id = .ok v := by
    intro id
    rw [BitSet.mem_toList, hcontains, hp.initial hdomain]
    exact exists_congr fun v => and_congr_right' Checked.get_eq_ok.symm
  have hvalue : ∀ id ∈ initial.toList, ∃ v, p.value id = .ok v := by
    intro id hid
    obtain ⟨v, _, hv⟩ := (hmem id).1 hid
    exact ⟨v, hv⟩
  obtain ⟨values, hvalues⟩ := Checked.exists_mapM_eq_ok hvalue
  refine ⟨values, ?_, ?_, fun v => ?_⟩
  · rw [domainValues, show Checked.get p.model.domains var = .ok initial from hget,
      Checked.ok_bind, hvalues]
  · have hids : List.Forall₂ Eq (values.map p.idOf?) (initial.toList.map some) := by
      rw [List.forall₂_map_left_iff, List.forall₂_map_right_iff]
      exact ((Checked.mapM_eq_ok.1 hvalues).imp fun _ _ h => (idOf?_eq_some hp).2 h).flip
    rw [List.forall₂_eq_eq_eq] at hids
    refine List.Nodup.of_map p.idOf? ?_
    rw [hids]
    exact (BitSet.toList_nodup _).map (Option.some_injective _)
  · rw [Checked.mem_of_mapM_eq_ok hvalues]
    constructor
    · rintro ⟨id, hid, hv⟩
      obtain ⟨w, hw, hw'⟩ := (hmem id).1 hid
      obtain rfl := Except.ok.inj (hv.symm.trans hw')
      exact hw
    · intro hv
      obtain ⟨id, hid⟩ := hp.numbered hdomain v hv
      have hvalue := Checked.get_eq_ok.2 hid
      exact ⟨id, (hmem id).2 ⟨v, hv, hvalue⟩, hvalue⟩

theorem represents_of_ofCalls (hp : Problem.ofCalls calls = .ok p) : p.Represents calls := by
  have hfaithful := faithful_of_ofCalls hp
  have hm := hfaithful.wellFormed
  obtain ⟨relations, h, rfl⟩ := Builder.build_eq_ok hp
  refine {
    variableCount := hfaithful.variableCount
    valueCount := rfl
    values := Builder.values_ofCalls calls
    numbered := ?_
    value_idOf := idOf?_eq_some hfaithful
    neighbours := h.neighboursOf_spec
    neighbours_symm := ?_
    relations_ascend := h.ascending
    relations_ordered := ?_
    relations_given := ?_
    relations_indexed := hm.indexed
    relationBetween := hm.relationBetween?_eq_bind
    links := h.linksOf_spec
    links_reversed := ?_
    supports := supports_spec hfaithful }
  · intro x
    rw [← Builder.mem_values_ofCalls, Array.mem_iff_getElem?]
    exact exists_congr fun id => (ValueTable.idOf?_eq_some h.describes.distinct).symm
  · intro var other others back hothers hback
    have hvar := (Array.getElem?_eq_some_iff.1 (Checked.get_eq_ok.1 hothers)).1
    have hother := (Array.getElem?_eq_some_iff.1 (Checked.get_eq_ok.1 hback)).1
    obtain ⟨_, heq, _, _, hmem⟩ := h.neighboursOf_spec hvar
    obtain ⟨_, heq', _, _, hmem'⟩ := h.neighboursOf_spec hother
    obtain rfl := Except.ok.inj (hothers.symm.trans heq)
    obtain rfl := Except.ok.inj (hback.symm.trans heq')
    rw [hmem, hmem']
    exact ⟨.symm, .symm⟩
  · intro r hr
    obtain ⟨id, hid⟩ := Array.getElem?_of_mem hr
    exact (hm.ordered hid).1
  · intro pair
    rw [← h.exists_relation_iff]
    simp [Builder.problem]
  · intro var link hlink
    obtain ⟨_, _, _, hreversed⟩ := hm.relationBetween?_of_connects hlink
    exact hreversed

/-- Every description is either turned down, and then it is not acceptable, or becomes a problem
that represents it. -/
theorem ofCalls_represents (calls : List (Call V)) :
    ((∃ p, Problem.ofCalls calls = .ok p) ↔ Call.Acceptable calls) ∧
      ∀ p, Problem.ofCalls calls = .ok p → p.Represents calls :=
  ⟨exists_ofCalls_iff, fun _ => represents_of_ofCalls⟩

theorem ofCalls_represents_chain :
    ∃ p, Problem.ofCalls Call.ascendingChain = .ok p ∧ Call.Acceptable Call.ascendingChain ∧
      p.Represents Call.ascendingChain := by
  obtain ⟨p, hp⟩ := Call.exists_ofCalls_ascendingChain
  obtain ⟨hiff, hrepresents⟩ := ofCalls_represents Call.ascendingChain
  exact ⟨p, hp, hiff.1 ⟨p, hp⟩, hrepresents p hp⟩

end Problem

end BinaryCsp
