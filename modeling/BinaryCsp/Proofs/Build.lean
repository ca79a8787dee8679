import BinaryCsp.Problem
import BinaryCsp.Proofs.Ascending
import BinaryCsp.Proofs.Model
import BinaryCsp.Proofs.ValueTable

/-! # From descriptions to models

A description asks for one value per variable, out of the list given with the variable, such that
every relation call lists the values of its two variables. The problem that is built from it has a
well-formed model, and the model asks the same of ids: this is followed from the tables of the
calls, over their grouping by pair, to the rows of the relations.
-/

namespace BinaryCsp

variable {V : Type}

/-! ## What a description asks for -/

namespace Call

def domains (calls : List (Call V)) : List (List V) :=
  calls.filterMap fun call =>
    match call with
    | .newVariable domain => some domain
    | _ => none

/-- One value per variable, each out of its list, such that every relation call lists the values
of its two variables. -/
structure Solution (calls : List (Call V)) (values : List V) : Prop where
  candidates : List.Forall₂ (fun value domain => value ∈ domain) values (domains calls)
  related : ∀ {a b : VarId} {allowed : List (V × V)}, .relation a b allowed ∈ calls →
    ∃ x y, values[a]? = some x ∧ values[b]? = some y ∧ (x, y) ∈ allowed

end Call

/-! ## Rows of a relation -/

namespace Relation

theorem foldl_rows_spec (pairs : List (ValId × ValId)) (table : Array BitSet) :
    let filled := pairs.foldl
      (fun table (pair : ValId × ValId) => table.modify pair.1 fun row => (row.insert pair.2).2)
      table
    filled.size = table.size ∧
      ∀ a b, RowHas filled a b ↔ RowHas table a b ∨ (a < table.size ∧ (a, b) ∈ pairs) := by
  induction pairs generalizing table with
  | nil => simp
  | cons pair rest ih =>
      obtain ⟨hsize, hrows⟩ := ih (table.modify pair.1 fun row => (row.insert pair.2).2)
      refine ⟨by simpa using hsize, fun a b => ?_⟩
      rw [List.foldl_cons, hrows, Array.size_modify, List.mem_cons]
      have hfirst : RowHas (table.modify pair.1 fun row => (row.insert pair.2).2) a b ↔
          RowHas table a b ∨ (a < table.size ∧ (a, b) = pair) := by
        obtain ⟨first, second⟩ := pair
        simp only [RowHas, Array.getElem?_modify, Prod.mk.injEq]
        by_cases ha : first = a
        · subst ha
          by_cases hlt : first < table.size
          · simp [hlt, or_comm]
          · simp [hlt]
        · simp [ha, Ne.symm ha]
      rw [hfirst, or_assoc, ← and_or_left]

theorem rows_spec (valueCount : Nat) (pairs : List (ValId × ValId)) :
    (rows valueCount pairs).size = valueCount ∧
      ∀ a b, RowHas (rows valueCount pairs) a b ↔ a < valueCount ∧ (a, b) ∈ pairs := by
  obtain ⟨hsize, hrows⟩ := foldl_rows_spec pairs
    (Array.replicate valueCount (BitSet.empty valueCount))
  have hfold : rows valueCount pairs = pairs.foldl
      (fun table (pair : ValId × ValId) => table.modify pair.1 fun row => (row.insert pair.2).2)
      (Array.replicate valueCount (BitSet.empty valueCount)) := rfl
  rw [hfold]
  refine ⟨by simpa using hsize, fun a b => ?_⟩
  have hnone : ¬ RowHas (Array.replicate valueCount (BitSet.empty valueCount)) a b := by
    rintro ⟨row, hrow, hb⟩
    rw [Array.getElem?_replicate] at hrow
    split at hrow
    · obtain rfl := Option.some.inj hrow
      simp at hb
    · cases hrow
  simpa [hnone] using hrows a b

theorem ofPairs_related (pair : VarPair) {valueCount : Nat} {pairs : List (ValId × ValId)}
    (hpairs : ∀ p ∈ pairs, p.1 < valueCount ∧ p.2 < valueCount) (a b : ValId) :
    ((ofPairs pair valueCount pairs).Related a b ↔ (a, b) ∈ pairs) ∧
      (RowHas (ofPairs pair valueCount pairs).backward b a ↔ (a, b) ∈ pairs) := by
  constructor
  · rw [Related, ofPairs, (rows_spec _ _).2]
    exact ⟨fun h => h.2, fun h => ⟨(hpairs _ h).1, h⟩⟩
  · rw [ofPairs, (rows_spec _ _).2]
    have hswap : (b, a) ∈ pairs.map Prod.swap ↔ (a, b) ∈ pairs := by simp
    rw [hswap]
    exact ⟨fun h => h.2, fun h => ⟨(hpairs _ h).2, h⟩⟩

end Relation

/-! ## The tables of one pair -/

namespace Builder

theorem mapM_eq_some {α β : Type} {f : α → Option β} {xs : List α} {ys : List β} :
    xs.mapM f = some ys ↔ List.Forall₂ (fun x y => f x = some y) xs ys := by
  induction xs generalizing ys with
  | nil =>
      cases ys with
      | nil => simp
      | cons y ys => simp
  | cons x xs ih =>
      cases ys with
      | nil => simp [List.mapM_cons, Option.bind_eq_some_iff]
      | cons y ys => simp [List.mapM_cons, Option.bind_eq_some_iff, ih]

theorem mem_inAll {valueCount : Nat} {tables : List (List (ValId × ValId))}
    (hids : ∀ table ∈ tables, ∀ p ∈ table, p.1 < valueCount ∧ p.2 < valueCount)
    {pair : ValId × ValId} :
    pair ∈ inAll valueCount tables ↔ tables ≠ [] ∧ ∀ table ∈ tables, pair ∈ table := by
  cases tables with
  | nil => simp [inAll]
  | cons table rest =>
      obtain ⟨a, b⟩ := pair
      have hrow : ∀ other, ((Relation.rows valueCount other)[a]?).any (·.contains b) = true ↔
          a < valueCount ∧ (a, b) ∈ other := by
        intro other
        rw [← (Relation.rows_spec valueCount other).2, Relation.RowHas, Option.any_eq_true]
      simp only [inAll, List.mem_filter, List.all_eq_true, List.mem_map, forall_exists_index,
        and_imp, forall_apply_eq_imp_iff₂, hrow, ne_eq, reduceCtorEq, not_false_eq_true, true_and,
        List.mem_cons, forall_eq_or_imp]
      constructor
      · rintro ⟨hin, hall⟩
        exact ⟨hin, fun other ho => (hall other ho).2⟩
      · rintro ⟨hin, hall⟩
        exact ⟨hin, fun other ho => ⟨(hids table (by simp) _ hin).1, hall other ho⟩⟩

variable [DecidableEq V]

theorem idsOf?_eq_some {values : ValueTable V} (hv : values.Distinct) {pair : V × V}
    {ids : ValId × ValId} :
    idsOf? values pair = some ids ↔
      values.values[ids.1]? = some pair.1 ∧ values.values[ids.2]? = some pair.2 := by
  obtain ⟨a, b⟩ := ids
  simp only [idsOf?, Option.pure_def, Option.bind_eq_bind, Option.bind_eq_some_iff,
    ValueTable.idOf?_eq_some hv, Option.some.injEq, Prod.mk.injEq]
  constructor
  · rintro ⟨i, hi, j, hj, rfl, rfl⟩
    exact ⟨hi, hj⟩
  · rintro ⟨hi, hj⟩
    exact ⟨a, hi, b, hj, rfl, rfl⟩

theorem ids_lt {values : ValueTable V} (hv : values.Distinct) {source : List (List (V × V))}
    {tables : List (List (ValId × ValId))}
    (h : source.mapM (·.mapM (idsOf? values)) = some tables) :
    ∀ table ∈ tables, ∀ p ∈ table, p.1 < values.size ∧ p.2 < values.size := by
  intro table htable p hp
  obtain ⟨list, _, hlist⟩ := Checked.exists_mem_of_forall₂ (mapM_eq_some.1 h) htable
  obtain ⟨pair, _, hpair⟩ := Checked.exists_mem_of_forall₂ (mapM_eq_some.1 hlist) hp
  obtain ⟨hfirst, hsecond⟩ := (idsOf?_eq_some hv).1 hpair
  exact ⟨(Array.getElem?_eq_some_iff.1 hfirst).1, (Array.getElem?_eq_some_iff.1 hsecond).1⟩

theorem inAll_lt {valueCount : Nat} {tables : List (List (ValId × ValId))}
    (h : ∀ table ∈ tables, ∀ p ∈ table, p.1 < valueCount ∧ p.2 < valueCount) :
    ∀ p ∈ inAll valueCount tables, p.1 < valueCount ∧ p.2 < valueCount := by
  intro p hp
  obtain ⟨hne, hin⟩ := (mem_inAll h).1 hp
  obtain ⟨table, htable⟩ := List.exists_mem_of_ne_nil tables hne
  exact h table htable p (hin table htable)

theorem relate_spec {values : ValueTable V} (hv : values.Distinct)
    {entry : VarPair × List (List (V × V))} {relation : Relation} (hentry : entry.2 ≠ [])
    (h : relate values entry = .ok relation) :
    relation.pair = entry.1 ∧ relation.forward.size = values.size ∧
      relation.backward.size = values.size ∧
      (∀ a b, Relation.RowHas relation.backward b a ↔ relation.Related a b) ∧
      ∀ {a b : ValId} {x y : V}, values.values[a]? = some x → values.values[b]? = some y →
        (relation.Related a b ↔ ∀ table ∈ entry.2, (x, y) ∈ table) := by
  unfold relate at h
  cases htables : entry.2.mapM (·.mapM (idsOf? values)) with
  | none =>
      rw [htables] at h
      cases h
  | some tables =>
      rw [htables] at h
      obtain rfl := Except.ok.inj h
      have hforall := mapM_eq_some.1 htables
      have hpairs := ids_lt hv htables
      have hall := inAll_lt hpairs
      refine ⟨rfl, (Relation.rows_spec _ _).1, (Relation.rows_spec _ _).1, ?_, ?_⟩
      · intro a b
        obtain ⟨hforward, hbackward⟩ := Relation.ofPairs_related entry.1 hall a b
        rw [hforward, hbackward]
      · intro a b x y ha hb
        have hne : tables ≠ [] := by
          rintro rfl
          exact hentry (List.forall₂_nil_right_iff.1 hforall)
        -- A pair of values stands in a table exactly where its ids stand in the translation.
        have hunique : Relator.BiUnique fun pair ids => idsOf? values pair = some ids := by
          constructor
          · intro p q ids hp hq
            rw [idsOf?_eq_some hv] at hp hq
            exact Prod.ext (Option.some.inj (hp.1.symm.trans hq.1))
              (Option.some.inj (hp.2.symm.trans hq.2))
          · intro p ids ids' hp hq
            exact Option.some.inj (hp.symm.trans hq)
        rw [(Relation.ofPairs_related entry.1 hall a b).1, mem_inAll hpairs, and_iff_right hne]
        refine (Checked.forall_mem_congr_of_forall₂ hforall fun source table hsource => ?_).symm
        exact List.rel_mem hunique ((idsOf?_eq_some hv).2 ⟨ha, hb⟩) (mapM_eq_some.1 hsource)

/-! ## Carrying out the calls -/

def tableOf (a b : VarId) (allowed : List (V × V)) : VarPair × List (V × V) :=
  (VarPair.of a b, if a ≤ b then allowed else allowed.map Prod.swap)

structure Describes (calls : List (Call V)) (b : Builder V) : Prop where
  distinct : b.values.Distinct
  domains : List.Forall₂ (List.Forall₂ fun id v => b.values.values[id]? = some v)
    b.domains.toList (Call.domains calls)
  edges : ∀ entry ∈ b.tables.toList, (entry.1.lower, entry.1.higher) ∈ b.edges.toList
  tables : ∀ entry, entry ∈ b.tables.toList ↔
    ∃ x y allowed, .relation x y allowed ∈ calls ∧ entry = tableOf x y allowed

omit [DecidableEq V] in
theorem describes_empty : Describes ([] : List (Call V)) empty where
  distinct := ValueTable.distinct_empty
  domains := by simp [empty, Call.domains]
  edges := by simp [empty]
  tables := by simp [empty]

theorem Describes.apply {calls : List (Call V)} {b : Builder V} (h : Describes calls b)
    (call : Call V) : Describes (calls ++ [call]) (b.apply call) := by
  cases call with
  | newVariable domain =>
      obtain ⟨hdistinct, hext, hids⟩ := ValueTable.internAll_spec h.distinct domain
      refine ⟨hdistinct, ?_, h.edges, ?_⟩
      · have hold := h.domains.imp fun ids list => List.Forall₂.imp fun id v hid => hext hid
        simpa [Builder.apply, addVariable, Call.domains] using
          List.rel_append hold (.cons hids .nil)
      · intro entry
        simpa [Builder.apply, addVariable] using h.tables entry
  | neighbour x y =>
      refine ⟨h.distinct, by simpa [Builder.apply, addNeighbour, Call.domains] using h.domains,
        ?_, ?_⟩
      · intro entry hentry
        simp only [Builder.apply, addNeighbour, Array.toList_push, List.mem_append]
        exact .inl (h.edges entry hentry)
      · intro entry
        simpa [Builder.apply, addNeighbour] using h.tables entry
  | relation x y allowed =>
      refine ⟨h.distinct, by simpa [Builder.apply, addRelation, Call.domains] using h.domains,
        ?_, ?_⟩
      · intro entry hentry
        simp only [Builder.apply, addRelation, Array.toList_push, List.mem_append,
          List.mem_singleton] at hentry ⊢
        rcases hentry with hentry | rfl
        · exact .inl (h.edges entry hentry)
        · exact .inr rfl
      · intro entry
        have hold := h.tables entry
        simp only [Array.mem_toList_iff] at hold
        simp only [Builder.apply, addRelation, Array.toList_push, List.mem_append,
          List.mem_singleton, Array.mem_toList_iff, hold, Call.relation.injEq]
        constructor
        · rintro (⟨x', y', allowed', hin, rfl⟩ | rfl)
          · exact ⟨x', y', allowed', .inl hin, rfl⟩
          · exact ⟨x, y, allowed, .inr ⟨rfl, rfl, rfl⟩, rfl⟩
        · rintro ⟨x', y', allowed', hin | ⟨rfl, rfl, rfl⟩, rfl⟩
          · exact .inl ⟨x', y', allowed', hin, rfl⟩
          · exact .inr rfl

theorem describes_ofCalls (calls : List (Call V)) : Describes calls (ofCalls calls) := by
  have hrun : ∀ (rest done : List (Call V)) (b : Builder V), Describes done b →
      Describes (done ++ rest) (rest.foldl Builder.apply b) := by
    intro rest
    induction rest with
    | nil =>
        intro done b h
        simpa using h
    | cons call rest ih =>
        intro done b h
        simpa using ih (done ++ [call]) (b.apply call) (h.apply call)
  simpa [ofCalls] using hrun calls [] empty describes_empty

/-! ## The finished model -/

theorem before_strict : Ascending.Strict VarPair.before := by
  refine Ascending.pairLt_strict.comap (f := fun pair : VarPair => (pair.lower, pair.higher)) ?_
  rintro ⟨_, _⟩ ⟨_, _⟩ h
  exact (VarPair.mk.injEq ..).mpr (Prod.mk.inj h)

theorem checkEdge_eq_ok {count : Nat} {edge : VarId × VarId} :
    checkEdge count edge = .ok () ↔ edge.1 < count ∧ edge.2 < count ∧ edge.1 ≠ edge.2 := by
  unfold checkEdge
  by_cases hfirst : count ≤ edge.1
  · simp [hfirst, Nat.not_lt_of_le hfirst]
  · by_cases hsecond : count ≤ edge.2
    · simp [hfirst, hsecond, Nat.not_lt_of_le hsecond]
    · by_cases hself : edge.1 = edge.2
      · simp [hsecond, hself]
      · exact iff_of_true (by simp [hfirst, hsecond, hself])
          ⟨Nat.lt_of_not_le hfirst, Nat.lt_of_not_le hsecond, hself⟩

theorem checkEdges_eq_ok {count : Nat} {edges : List (VarId × VarId)} :
    edges.forM (checkEdge count) = .ok () ↔ ∀ edge ∈ edges, checkEdge count edge = .ok () := by
  induction edges with
  | nil => simp
  | cons first rest ih =>
      rw [List.forM, Checked.bind_eq_ok, List.forall_mem_cons, ← ih]
      exact ⟨fun ⟨_, hfirst, hrest⟩ => ⟨hfirst, hrest⟩, fun ⟨hfirst, hrest⟩ => ⟨(), hfirst, hrest⟩⟩

theorem mem_adjacent {edges : List (VarId × VarId)} {var other : VarId} :
    other ∈ adjacent edges var ↔ (var, other) ∈ edges ∨ (other, var) ∈ edges := by
  rw [adjacent, Ascending.mem_ofList Ascending.natLt_strict, List.mem_filterMap]
  constructor
  · rintro ⟨⟨a, b⟩, hin, h⟩
    by_cases ha : a = var
    · simp only [ha, if_true, Option.some.injEq] at h
      exact .inl (ha ▸ h ▸ hin)
    · by_cases hb : b = var
      · simp only [ha, hb, if_true, if_false, Option.some.injEq] at h
        exact .inr (hb ▸ h ▸ hin)
      · simp [ha, hb] at h
  · rintro (hin | hin)
    · exact ⟨_, hin, by simp⟩
    · exact ⟨_, hin, by by_cases ha : other = var <;> simp [ha]⟩

omit [DecidableEq V] in
/-- In a description whose edges pass their check, a relation is between different variables. -/
theorem Describes.endpoints_lt {calls : List (Call V)} {b : Builder V} (h : Describes calls b)
    (hedges : ∀ edge ∈ b.edges.toList, checkEdge b.variableCount edge = .ok ()) {x y : VarId}
    {allowed : List (V × V)} (hcall : .relation x y allowed ∈ calls) :
    (VarPair.of x y).lower < (VarPair.of x y).higher ∧
      (VarPair.of x y).higher < b.variableCount := by
  have hentry := (h.tables _).2 ⟨x, y, allowed, hcall, rfl⟩
  obtain ⟨_, hhigher, hne⟩ := checkEdge_eq_ok.1 (hedges _ (h.edges _ hentry))
  have hle : (VarPair.of x y).lower ≤ (VarPair.of x y).higher := by
    unfold VarPair.of
    split
    · assumption
    · next hnot => exact Nat.le_of_not_le hnot
  exact ⟨Nat.lt_of_le_of_ne hle hne, hhigher⟩

theorem mem_linksOf {relations : List Relation} {var : VarId} {link : Link}
    (hpairs : ∀ r ∈ relations, r.pair.lower ≠ r.pair.higher) :
    link ∈ linksOf relations var ↔ ∃ r, relations[link.relation]? = some r ∧
      r.pair = if link.reversed then ⟨link.other, var⟩ else ⟨var, link.other⟩ := by
  simp only [linksOf, List.mem_filterMap, Prod.exists, List.mem_zipIdx_iff_getElem?]
  constructor
  · rintro ⟨r, id, hr, hlink⟩
    obtain ⟨⟨lower, higher⟩, forward, backward⟩ := r
    simp only [linkOf?] at hlink
    split at hlink
    · obtain rfl := Option.some.inj hlink
      next hlower => exact ⟨_, hr, by simp [hlower]⟩
    · split at hlink
      · obtain rfl := Option.some.inj hlink
        next hhigher => exact ⟨_, hr, by simp [hhigher]⟩
      · cases hlink
  · rintro ⟨r, hr, hpair⟩
    have hne := hpairs r (List.mem_of_getElem? hr)
    obtain ⟨⟨lower, higher⟩, forward, backward⟩ := r
    refine ⟨_, link.relation, hr, ?_⟩
    obtain ⟨other, relation, reversed⟩ := link
    cases reversed with
    | false =>
        simp only [Bool.false_eq_true, if_false, VarPair.mk.injEq] at hpair
        simp [linkOf?, hpair]
    | true =>
        simp only [if_true, VarPair.mk.injEq] at hpair
        have hlower : lower ≠ var := by
          rintro rfl
          exact hne hpair.2.symm
        simp [linkOf?, hpair, hpair.1 ▸ hlower]

omit [DecidableEq V] in
/-- What the tables of a pair ask, in terms of the calls on it in either order. -/
theorem Describes.forall_entriesOf {calls : List (Call V)} {b : Builder V} (h : Describes calls b)
    {lower higher : VarId} (hlt : lower < higher) {x y : V} :
    (∀ table ∈ Ascending.entriesOf b.tables.toList ⟨lower, higher⟩, (x, y) ∈ table) ↔
      (∀ allowed, .relation lower higher allowed ∈ calls → (x, y) ∈ allowed) ∧
        ∀ allowed, .relation higher lower allowed ∈ calls → (y, x) ∈ allowed := by
  simp only [Ascending.mem_entriesOf, h.tables]
  constructor
  · intro hall
    constructor
    · intro allowed hcall
      refine hall allowed ⟨lower, higher, allowed, hcall, ?_⟩
      rw [tableOf, VarPair.of_lt hlt, if_pos (Nat.le_of_lt hlt)]
    · intro allowed hcall
      have hin := hall (allowed.map Prod.swap) ⟨higher, lower, allowed, hcall, by
        rw [tableOf, VarPair.of_comm, VarPair.of_lt hlt, if_neg (Nat.not_le_of_lt hlt)]⟩
      simpa using hin
  · rintro ⟨hforward, hbackward⟩ table ⟨p, q, allowed, hcall, htable⟩
    obtain ⟨hpair, rfl⟩ := Prod.mk.inj htable
    by_cases hpq : p ≤ q
    · rw [VarPair.of, if_pos hpq, VarPair.mk.injEq] at hpair
      obtain ⟨rfl, rfl⟩ := hpair
      rw [if_pos hpq]
      exact hforward allowed hcall
    · rw [VarPair.of, if_neg hpq, VarPair.mk.injEq] at hpair
      obtain ⟨rfl, rfl⟩ := hpair
      rw [if_neg hpq]
      simpa using hbackward allowed hcall

end Builder

/-- The problem says the same about ids as the calls say about values. -/
structure Problem.Faithful (calls : List (Call V)) (p : Problem V) : Prop where
  wellFormed : p.model.WellFormed
  variableCount : p.model.variableCount = (Call.domains calls).length
  valueCount : p.model.valueCount = p.values.values.size
  distinct : p.values.Distinct
  numbered : ∀ {var : VarId} {domain : List V}, (Call.domains calls)[var]? = some domain →
    ∀ v ∈ domain, ∃ id : ValId, p.values.values[id]? = some v
  /-- The ids in an initial domain number the candidates. -/
  initial : ∀ {var : VarId} {domain : List V}, (Call.domains calls)[var]? = some domain →
    ∀ id, id ∈ (Store.ofDomains p.model.domains).family var ↔
      ∃ v ∈ domain, p.values.values[id]? = some v
  endpoints : ∀ {a b : VarId} {allowed : List (V × V)}, .relation a b allowed ∈ calls →
    a < p.model.variableCount ∧ b < p.model.variableCount
  /-- Ids are compatible when all calls on their variables list the values. -/
  compatible : ∀ {var other : VarId} {a b : ValId} {x y : V},
    p.values.values[a]? = some x → p.values.values[b]? = some y →
    (p.model.Compatible var a other b ↔
      (∀ allowed, .relation var other allowed ∈ calls → (x, y) ∈ allowed) ∧
        ∀ allowed, .relation other var allowed ∈ calls → (y, x) ∈ allowed)

namespace Builder

variable [DecidableEq V] {calls : List (Call V)} {b : Builder V} {relations : List Relation}

/-- The builder after the given calls has passed its checks, with a relation made of each group of
its tables. -/
structure Completes (calls : List (Call V)) (b : Builder V) (relations : List Relation) : Prop where
  describes : Describes calls b
  edges : ∀ edge ∈ b.edges.toList, checkEdge b.variableCount edge = .ok ()
  relates : List.Forall₂ (fun entry relation => relate b.values entry = .ok relation)
    (Ascending.group VarPair.before b.tables.toList) relations

def problem (b : Builder V) (relations : List Relation) : Problem V where
  values := b.values
  model :=
    { valueCount := b.values.size
      neighbours := (Array.range b.variableCount).map (adjacent b.edges.toList)
      domains := b.domains.map (BitSet.ofList b.values.size)
      relations := relations.toArray
      pairIndex := pairsOf relations
      links := (Array.range b.variableCount).map (linksOf relations) }

omit [DecidableEq V] in
theorem variableCount_problem (b : Builder V) (relations : List Relation) :
    (problem b relations).model.variableCount = b.variableCount := by
  simp [problem, Model.variableCount]

theorem build_eq_ok {p : Problem V} (h : Problem.ofCalls calls = .ok p) :
    ∃ relations, Completes calls (ofCalls calls) relations ∧
      p = problem (ofCalls calls) relations := by
  rw [Problem.ofCalls, build] at h
  obtain ⟨_, hedges, h⟩ := Checked.bind_eq_ok.1 h
  obtain ⟨relations, hrelations, h⟩ := Checked.bind_eq_ok.1 h
  exact ⟨relations,
    ⟨describes_ofCalls calls, checkEdges_eq_ok.1 hedges, Checked.mapM_eq_ok.1 hrelations⟩,
    (Except.ok.inj h).symm⟩

namespace Completes

theorem endpoints_lt (h : Completes calls b relations) {x y : VarId} {allowed : List (V × V)}
    (hcall : .relation x y allowed ∈ calls) :
    (VarPair.of x y).lower < (VarPair.of x y).higher ∧
      (VarPair.of x y).higher < b.variableCount :=
  h.describes.endpoints_lt h.edges hcall

theorem group_of_relation (h : Completes calls b relations) {id : RelationId} {relation : Relation}
    (hget : relations[id]? = some relation) :
    Ascending.entriesOf b.tables.toList relation.pair ≠ [] ∧
      (Ascending.group VarPair.before b.tables.toList)[id]? =
        some (relation.pair, Ascending.entriesOf b.tables.toList relation.pair) ∧
      relation.forward.size = b.values.size ∧ relation.backward.size = b.values.size ∧
      (∀ a b, Relation.RowHas relation.backward b a ↔ relation.Related a b) ∧
      ∀ {a a' : ValId} {x y : V}, b.values.values[a]? = some x → b.values.values[a']? = some y →
        (relation.Related a a' ↔
          ∀ table ∈ Ascending.entriesOf b.tables.toList relation.pair, (x, y) ∈ table) := by
  obtain ⟨⟨pair, tables⟩, hentry, hrelate⟩ := Checked.exists_of_forall₂_right h.relates hget
  obtain ⟨rfl, hne⟩ := ((Ascending.group_spec before_strict b.tables.toList).2 _ _).1
    (List.mem_of_getElem? hentry)
  obtain ⟨hpair, hrelation⟩ := relate_spec h.describes.distinct hne hrelate
  dsimp only at hpair
  rw [hpair]
  exact ⟨hne, hentry, hrelation⟩

theorem ordered (h : Completes calls b relations) {id : RelationId} {relation : Relation}
    (hget : relations[id]? = some relation) :
    relation.pair.lower < relation.pair.higher ∧ relation.pair.higher < b.variableCount := by
  obtain ⟨hne, _⟩ := h.group_of_relation hget
  obtain ⟨table, htable⟩ := List.exists_mem_of_ne_nil _ hne
  obtain ⟨x, y, allowed, hcall, hentry⟩ :=
    (h.describes.tables _).1 (Ascending.mem_entriesOf.1 htable)
  rw [(Prod.mk.inj hentry).1]
  exact h.endpoints_lt hcall

theorem unique (h : Completes calls b relations) {id id' : RelationId}
    {relation relation' : Relation} (hget : relations[id]? = some relation)
    (hget' : relations[id']? = some relation') (hpair : relation.pair = relation'.pair) :
    id = id' := by
  obtain ⟨_, hid, _⟩ := h.group_of_relation hget
  obtain ⟨_, hid', _⟩ := h.group_of_relation hget'
  obtain ⟨hlt, hentry⟩ := List.getElem?_eq_some_iff.1 hid
  obtain ⟨hlt', hentry'⟩ := List.getElem?_eq_some_iff.1 hid'
  have hsame : ((Ascending.group VarPair.before b.tables.toList)[id]).1 =
      ((Ascending.group VarPair.before b.tables.toList)[id']).1 := by
    rw [hentry, hentry', hpair]
  have hsorted := List.pairwise_iff_getElem.1
    (Ascending.group_spec before_strict b.tables.toList).1
  -- Of two groups at different positions the earlier one has the smaller pair.
  rcases Nat.lt_trichotomy id id' with hlow | heq | hhigh
  · exact absurd hsame (before_strict.ne (hsorted id id' hlt hlt' hlow))
  · exact heq
  · exact absurd hsame.symm (before_strict.ne (hsorted id' id hlt' hlt hhigh))

theorem exists_relation (h : Completes calls b relations) {pair : VarPair}
    (hne : Ascending.entriesOf b.tables.toList pair ≠ []) :
    ∃ (id : RelationId) (relation : Relation), relations[id]? = some relation ∧
      relation.pair = pair := by
  have hmem := ((Ascending.group_spec before_strict b.tables.toList).2 _ _).2 ⟨rfl, hne⟩
  obtain ⟨id, hid⟩ := List.getElem?_of_mem hmem
  obtain ⟨relation, hget, hrelate⟩ := Checked.exists_of_forall₂_left h.relates hid
  exact ⟨id, relation, hget, (relate_spec h.describes.distinct hne hrelate).1⟩

theorem mem_family_problem (h : Completes calls b relations) {var : VarId} {domain : List V}
    (hdomain : (Call.domains calls)[var]? = some domain) (id : ValId) :
    id ∈ (Store.ofDomains (problem b relations).model.domains).family var ↔
      ∃ v ∈ domain, b.values.values[id]? = some v := by
  obtain ⟨ids, hids, hforall⟩ := Checked.exists_of_forall₂_right h.describes.domains hdomain
  have hget : (Store.ofDomains (problem b relations).model.domains).domains[var]? =
      some (BitSet.ofList b.values.size ids) := by
    rw [Array.getElem?_toList] at hids
    simp [Store.ofDomains, problem, hids]
  rw [Store.mem_family hget, BitSet.contains_ofList]
  constructor
  · intro hid
    obtain ⟨i, hi⟩ := List.getElem?_of_mem hid
    obtain ⟨v, hv, hnumber⟩ := Checked.exists_of_forall₂_left hforall hi
    exact ⟨v, List.mem_of_getElem? hv, hnumber⟩
  · rintro ⟨v, hv, hnumber⟩
    obtain ⟨other, hother, hnumber'⟩ := Checked.exists_mem_of_forall₂ hforall hv
    rw [h.describes.distinct hnumber hnumber']
    exact hother

omit [DecidableEq V] in
theorem mem_pairsOf {pair : VarPair} {id : RelationId} :
    (pair, id) ∈ pairsOf relations ↔ ∃ r, relations[id]? = some r ∧ r.pair = pair := by
  simp [pairsOf, List.mem_zipIdx_iff_getElem?]

/-- As no pair has two relations, each pair is found with its own. -/
theorem lookup_pairsOf (h : Completes calls b relations) {pair : VarPair} {id : RelationId} :
    (pairsOf relations).lookup pair = some id ↔ ∃ r, relations[id]? = some r ∧ r.pair = pair := by
  have hfound : ∀ {other : RelationId}, (pairsOf relations).lookup pair = some other →
      ∃ r, relations[other]? = some r ∧ r.pair = pair := by
    intro other hlookup
    obtain ⟨earlier, later, hpairs, _⟩ := List.lookup_eq_some_iff.1 hlookup
    exact mem_pairsOf.1 (by simp [hpairs])
  refine ⟨hfound, fun ⟨r, hget, hpair⟩ => ?_⟩
  cases hlookup : (pairsOf relations).lookup pair with
  | none =>
      have hnone := List.lookup_eq_none_iff.1 hlookup _ (mem_pairsOf.2 ⟨r, hget, hpair⟩)
      simp at hnone
  | some other =>
      obtain ⟨r', hget', hpair'⟩ := hfound hlookup
      rw [h.unique hget hget' (hpair.trans hpair'.symm)]

theorem domains_sound (h : Completes calls b relations) :
    (Store.ofDomains (problem b relations).model.domains).Sound b.variableCount
      b.values.size where
  size := by simp [Store.ofDomains, problem, Builder.variableCount]
  counted := by
    intro var domain hget
    simp only [Store.ofDomains, problem, Array.getElem?_map, Option.map_eq_some_iff] at hget
    obtain ⟨ids, _, rfl⟩ := hget
    exact BitSet.counted_ofList _ _
  bounded := by
    intro var value hvalue
    have hlen : (Call.domains calls).length = b.variableCount := by
      rw [← h.describes.domains.length_eq, Array.length_toList]
      rfl
    have hvar : var < (Call.domains calls).length := by
      obtain ⟨domain, hget, _⟩ := hvalue
      have hlt := (Array.getElem?_eq_some_iff.1 hget).1
      simpa [Store.ofDomains, problem, hlen, Builder.variableCount] using hlt
    obtain ⟨v, _, hnumber⟩ :=
      (h.mem_family_problem (List.getElem?_eq_getElem hvar) value).1 hvalue
    exact (Array.getElem?_eq_some_iff.1 hnumber).1

omit [DecidableEq V] in
theorem getElem?_relations_problem {id : RelationId} :
    (problem b relations).model.relations[id]? = relations[id]? := by
  simp [problem]

theorem wellFormed (h : Completes calls b relations) :
    (problem b relations).model.WellFormed where
  domains := by
    rw [variableCount_problem]
    exact h.domains_sound
  neighbours := by
    intro var others hget other hother
    rw [variableCount_problem]
    simp only [problem, Array.getElem?_map, Option.map_eq_some_iff] at hget
    obtain ⟨var', _, rfl⟩ := hget
    rcases mem_adjacent.1 hother with hedge | hedge
    · exact (checkEdge_eq_ok.1 (h.edges _ hedge)).2.1
    · exact (checkEdge_eq_ok.1 (h.edges _ hedge)).1
  links_size := by
    rw [variableCount_problem]
    simp [problem]
  links := by
    intro var links hget link
    simp only [problem, Array.getElem?_map, Option.map_eq_some_iff, Array.getElem?_range] at hget
    obtain ⟨var', hvar', rfl⟩ := hget
    obtain rfl : var = var' := by
      split at hvar'
      · exact Option.some.inj hvar'
      · cases hvar'
    rw [mem_linksOf, Model.Connects]
    · simp [problem]
    · intro r hr
      obtain ⟨id, hid⟩ := List.getElem?_of_mem hr
      exact Nat.ne_of_lt (h.ordered hid).1
  ordered := by
    intro id relation hget
    rw [getElem?_relations_problem] at hget
    rw [variableCount_problem]
    exact h.ordered hget
  indexed := by
    intro pair id
    simp only [getElem?_relations_problem]
    exact h.lookup_pairsOf
  forward_size := by
    intro id relation hget
    rw [getElem?_relations_problem] at hget
    exact (h.group_of_relation hget).2.2.1
  backward_size := by
    intro id relation hget
    rw [getElem?_relations_problem] at hget
    exact (h.group_of_relation hget).2.2.2.1
  transposed := by
    intro id relation hget
    rw [getElem?_relations_problem] at hget
    exact (h.group_of_relation hget).2.2.2.2.1

/-- Ids at two different variables are compatible when all calls on them list the values. -/
theorem compatible_of_lt (h : Completes calls b relations) {var other : VarId} {a a' : ValId}
    {x y : V} (hlt : var < other) (ha : b.values.values[a]? = some x)
    (ha' : b.values.values[a']? = some y) :
    (problem b relations).model.Compatible var a other a' ↔
      (∀ allowed, .relation var other allowed ∈ calls → (x, y) ∈ allowed) ∧
        ∀ allowed, .relation other var allowed ∈ calls → (y, x) ∈ allowed := by
  rw [← h.describes.forall_entriesOf hlt]
  unfold Model.Compatible Model.allows
  obtain ⟨found, hr⟩ := h.wellFormed.exists_relationBetween? var other
  rw [hr, Checked.ok_bind]
  cases found with
  | some relation =>
      obtain ⟨id, hget, hpair⟩ := h.wellFormed.relationBetween?_eq_some.1 hr
      have hget' : relations[id]? = some relation := by simpa [problem] using hget
      rw [VarPair.of_lt hlt] at hpair
      obtain ⟨_, _, _, _, _, hrelated⟩ := h.group_of_relation hget'
      rw [hpair] at hrelated
      simp only [if_pos hlt, Relation.allows_eq_true_iff, hrelated ha ha']
  | none =>
      -- Without a relation there is no table that could ask anything.
      have hnil : Ascending.entriesOf b.tables.toList ⟨var, other⟩ = [] := by
        by_contra hne
        obtain ⟨id, relation, hget, hpair⟩ := h.exists_relation hne
        have hsome := h.wellFormed.relationBetween?_eq_some.2
          ⟨id, by simpa [problem] using hget, hpair.trans (VarPair.of_lt hlt).symm⟩
        rw [hr] at hsome
        cases hsome
      simp [hnil]

end Completes

end Builder

theorem Problem.faithful_of_ofCalls [DecidableEq V] {calls : List (Call V)} {p : Problem V}
    (hp : Problem.ofCalls calls = .ok p) : p.Faithful calls := by
  obtain ⟨relations, h, rfl⟩ := Builder.build_eq_ok hp
  generalize Builder.ofCalls calls = b at h ⊢
  have hcount := Builder.variableCount_problem b relations
  have hends : ∀ {x y : VarId} {allowed : List (V × V)}, .relation x y allowed ∈ calls →
      x < b.variableCount ∧ y < b.variableCount ∧ x ≠ y := by
    intro x y allowed hcall
    obtain ⟨hlt, hhigher⟩ := h.endpoints_lt hcall
    unfold VarPair.of at hlt hhigher
    split at hlt
    · next hle =>
        rw [if_pos hle] at hhigher
        exact ⟨Nat.lt_trans hlt hhigher, hhigher, Nat.ne_of_lt hlt⟩
    · next hle =>
        rw [if_neg hle] at hhigher
        exact ⟨hhigher, Nat.lt_trans hlt hhigher, (Nat.ne_of_lt hlt).symm⟩
  refine ⟨h.wellFormed, ?_, rfl, h.describes.distinct, ?_, h.mem_family_problem, ?_, ?_⟩
  · rw [← h.describes.domains.length_eq, Array.length_toList]
    exact hcount
  · intro var domain hdomain v hv
    obtain ⟨ids, _, hids⟩ := Checked.exists_of_forall₂_right h.describes.domains hdomain
    obtain ⟨id, _, hid⟩ := Checked.exists_mem_of_forall₂ hids hv
    exact ⟨id, hid⟩
  · intro x y allowed hcall
    obtain ⟨hx, hy, _⟩ := hends hcall
    exact ⟨hcount.symm ▸ hx, hcount.symm ▸ hy⟩
  · intro var other a a' x y ha ha'
    rcases Nat.lt_trichotomy var other with hlt | rfl | hlt
    · exact h.compatible_of_lt hlt ha ha'
    · have hself : ∀ {allowed : List (V × V)}, .relation var var allowed ∉ calls :=
        fun hcall => (hends hcall).2.2 rfl
      exact iff_of_true h.wellFormed.compatible_self
        ⟨fun _ hcall => absurd hcall hself, fun _ hcall => absurd hcall hself⟩
    · rw [h.wellFormed.compatible_comm, and_comm]
      exact h.compatible_of_lt hlt ha' ha

namespace Call

def ascendingChain : List (Call Nat) :=
  [.newVariable [1, 2, 3], .newVariable [1, 2, 3], .newVariable [1, 2, 3],
    .relation 0 1 [(1, 2), (1, 3), (2, 3)], .relation 2 1 [(2, 1), (3, 1), (3, 2)]]

theorem exists_ofCalls_ascendingChain : ∃ p, Problem.ofCalls ascendingChain = .ok p := by
  have hbuilt : (Problem.ofCalls ascendingChain).isOk = true := by decide +kernel
  cases hp : Problem.ofCalls ascendingChain with
  | error e =>
      rw [hp] at hbuilt
      cases hbuilt
  | ok p => exact ⟨p, rfl⟩

theorem counts_ascendingChain {p : Problem Nat} (hp : Problem.ofCalls ascendingChain = .ok p) :
    p.model.variableCount = 3 ∧ p.model.valueCount = 3 := by
  have hcounts : ((Problem.ofCalls ascendingChain).toOption.map fun p =>
      (p.model.variableCount, p.model.valueCount)) = some (3, 3) := by
    decide +kernel
  simp only [hp, Except.toOption, Option.map_some, Option.some.injEq, Prod.mk.injEq] at hcounts
  exact hcounts

theorem solution_ascendingChain : Solution ascendingChain [1, 2, 3] where
  candidates := by simp [ascendingChain, domains]
  related := by
    intro a b allowed hcall
    simp only [ascendingChain, List.mem_cons, List.not_mem_nil, or_false, reduceCtorEq, false_or,
      Call.relation.injEq] at hcall
    rcases hcall with ⟨rfl, rfl, rfl⟩ | ⟨rfl, rfl, rfl⟩
    · exact ⟨1, 2, rfl, rfl, by simp⟩
    · exact ⟨3, 2, rfl, rfl, by simp⟩

end Call

end BinaryCsp
