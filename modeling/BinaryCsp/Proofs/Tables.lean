import BinaryCsp.Proofs.Listings
import BinaryCsp.Tables

/-! # Problems given as tables

The tables of a problem are checked in stages: that they fit together, entry by entry, and then
that the description they amount to makes a model. Here the stages are put together: which tables
make a problem, what the problem then holds, and that only the entries matter, not the order in
which they are given.
-/

namespace BinaryCsp

variable {V : Type}

namespace Tables

/-! ## Entries -/

def neighboursOf? (t : Tables V) (var : VarId) : Option (List VarId) :=
  Ascending.last? t.neighbours var

def domainOf? (t : Tables V) (var : VarId) : Option (List V) := Ascending.last? t.domains var

def allowedOf? (t : Tables V) (i j : VarId) : Option (List (V × V)) :=
  Ascending.last? t.constraints (i, j)

def Lists (t : Tables V) (var other : VarId) : Prop :=
  ∃ others, t.neighboursOf? var = some others ∧ other ∈ others

def Candidate (t : Tables V) (x : V) : Prop :=
  ∃ var domain, t.domainOf? var = some domain ∧ x ∈ domain

structure Coherent (t : Tables V) (count : Nat) : Prop where
  dense : ∀ var, (t.neighboursOf? var).isSome ↔ var < count
  domains : ∀ var, (t.domainOf? var).isSome ↔ (t.neighboursOf? var).isSome
  known : ∀ {var other : VarId}, t.Lists var other → (t.neighboursOf? other).isSome
  symm : ∀ {var other : VarId}, t.Lists var other → t.Lists other var
  constrained : ∀ {i j : VarId} {allowed : List (V × V)}, t.allowedOf? i j = some allowed →
    i < j ∧ j < count ∧ t.Lists i j

structure Acceptable (t : Tables V) (count : Nat) : Prop extends t.Coherent count where
  irrefl : ∀ var, ¬ t.Lists var var
  listed : ∀ {i j : VarId} {allowed : List (V × V)}, t.allowedOf? i j = some allowed →
    ∀ {x y : V}, (x, y) ∈ allowed → t.Candidate x ∧ t.Candidate y

/-! ## The maps -/

def neighbourMap (t : Tables V) : List (VarId × List VarId) :=
  Ascending.mapOf Ascending.natLt t.neighbours

def domainMap (t : Tables V) : List (VarId × List V) := Ascending.mapOf Ascending.natLt t.domains

def constraintMap (t : Tables V) : List ((VarId × VarId) × List (V × V)) :=
  Ascending.mapOf Ascending.pairLt t.constraints

def keys (t : Tables V) : List VarId := t.neighbourMap.map (·.1)

variable {t u : Tables V}

theorem lookup_neighbourMap (var : VarId) : t.neighbourMap.lookup var = t.neighboursOf? var :=
  Ascending.lookup_mapOf Ascending.natLt_strict t.neighbours var

theorem lookup_domainMap (var : VarId) : t.domainMap.lookup var = t.domainOf? var :=
  Ascending.lookup_mapOf Ascending.natLt_strict t.domains var

theorem mem_neighbourMap {var : VarId} {others : List VarId} :
    (var, others) ∈ t.neighbourMap ↔ t.neighboursOf? var = some others :=
  (Ascending.mapOf_spec Ascending.natLt_strict t.neighbours).2 var others

theorem mem_domainMap {var : VarId} {domain : List V} :
    (var, domain) ∈ t.domainMap ↔ t.domainOf? var = some domain :=
  (Ascending.mapOf_spec Ascending.natLt_strict t.domains).2 var domain

theorem mem_constraintMap {i j : VarId} {allowed : List (V × V)} :
    ((i, j), allowed) ∈ t.constraintMap ↔ t.allowedOf? i j = some allowed :=
  (Ascending.mapOf_spec Ascending.pairLt_strict t.constraints).2 (i, j) allowed

theorem mem_keys {var : VarId} : var ∈ t.keys ↔ (t.neighboursOf? var).isSome := by
  rw [← lookup_neighbourMap]
  exact (Ascending.mapOf_spec Ascending.natLt_strict t.neighbours).1.mem_keys Ascending.natLt_strict

theorem gap?_eq_none {start : Nat} {keys : List VarId} :
    gap? start keys = none ↔ keys = List.range' start keys.length := by
  induction keys generalizing start with
  | nil => simp [gap?]
  | cons key rest ih =>
      rw [gap?, List.length_cons, List.range'_succ, List.cons.injEq]
      split
      next hkey => simp only [hkey, true_and, ih]
      next hkey => simp [hkey]

/-- Ascending keys have no gap exactly when they are the numbers below some number. -/
theorem gap?_keys_eq_none :
    gap? 0 t.keys = none ↔ ∃ count, ∀ var, (t.neighboursOf? var).isSome ↔ var < count := by
  simp only [gap?_eq_none, ← List.range_eq_range', ← mem_keys]
  constructor
  · intro h
    refine ⟨t.keys.length, fun var => ?_⟩
    rw [← List.mem_range, ← h]
  · rintro ⟨count, h⟩
    have hrange : t.keys = List.range count := by
      refine Ascending.eq_of_mem_iff Ascending.natLt_strict ?_ ?_ ?_
      · exact List.pairwise_map.2 (Ascending.mapOf_spec Ascending.natLt_strict t.neighbours).1
      · exact List.pairwise_lt_range.imp (by simp [Ascending.natLt])
      · intro var
        rw [h, List.mem_range]
    rw [hrange, List.length_range]

theorem find?_domainMap_eq_none :
    (t.domainMap.find? fun entry => !t.keys.contains entry.1) = none ↔
      ∀ var, (t.domainOf? var).isSome → (t.neighboursOf? var).isSome := by
  simp only [List.find?_eq_none, Prod.forall, mem_domainMap, Bool.not_eq_true', Bool.not_eq_false,
    List.contains_iff_mem, mem_keys, Option.isSome_iff_exists, forall_exists_index]

/-! ## The calls -/

theorem domainCall_eq_ok {domains : List (VarId × List V)} {var : VarId} {call : Call V} :
    domainCall domains var = .ok call ↔
      ∃ domain, domains.lookup var = some domain ∧ call = .newVariable domain := by
  unfold domainCall
  cases domains.lookup var with
  | none => simp
  | some domain => simp [eq_comm]

theorem neighbourCall_eq_ok {neighbours : List (VarId × List VarId)} {var other : VarId}
    {call : Call V} :
    neighbourCall neighbours var other = .ok call ↔
      (∃ back, neighbours.lookup other = some back ∧ var ∈ back) ∧
        call = .neighbour var other := by
  unfold neighbourCall
  cases neighbours.lookup other with
  | none => simp
  | some back =>
      by_cases hback : var ∈ back
      · simp [hback, eq_comm]
      · simp [hback]

theorem constraintCall_eq_ok {neighbours : List (VarId × List VarId)} {i j : VarId}
    {allowed : List (V × V)} {call : Call V} :
    constraintCall neighbours ((i, j), allowed) = .ok call ↔
      (i < j ∧ (neighbours.lookup j).isSome ∧
        ∃ adjacent, neighbours.lookup i = some adjacent ∧ j ∈ adjacent) ∧
        call = .relation i j allowed := by
  unfold constraintCall
  dsimp only
  by_cases hle : j ≤ i
  · simp [hle]
  · have hlt : i < j := Nat.lt_of_not_le hle
    simp only [hle, hlt]
    cases neighbours.lookup i with
    | none => simp
    | some adjacent =>
        cases neighbours.lookup j with
        | none => simp
        | some back =>
            by_cases hadjacent : j ∈ adjacent
            · simp [hadjacent, eq_comm]
            · simp [hadjacent]

def entryCalls (t : Tables V) : Except ModelError (List (Call V)) := do
  let declared ← t.keys.mapM (domainCall t.domainMap)
  let edges ← t.neighbourMap.mapM fun (var, others) =>
    (Ascending.ofList Ascending.natLt others).mapM (neighbourCall t.neighbourMap var)
  let relations ← t.constraintMap.mapM (constraintCall t.neighbourMap)
  return declared ++ edges.flatten ++ relations

def keyError? (t : Tables V) : Option ModelError :=
  ((gap? 0 t.keys).map fun var => .nonDenseVariables var t.keys.length).or
    ((t.domainMap.find? fun entry => !t.keys.contains entry.1).map fun entry =>
      .unknownVariable entry.1 t.keys.length)

/-- The calls are made once the keys are as they should be. -/
theorem calls_eq (t : Tables V) : t.calls = t.keyError?.elim t.entryCalls .error := by
  unfold keyError?
  cases hgap : gap? 0 t.keys with
  | some var =>
      rw [keys, neighbourMap] at hgap
      simp only [calls, hgap]
      rfl
  | none =>
      rw [keys, neighbourMap] at hgap
      cases hfind : t.domainMap.find? fun entry => !t.keys.contains entry.1 with
      | some entry =>
          rw [domainMap, keys, neighbourMap] at hfind
          simp only [calls, hgap, hfind]
          rfl
      | none =>
          rw [domainMap, keys, neighbourMap] at hfind
          simp only [calls, hgap, hfind]
          rfl

theorem calls_eq_ok {calls : List (Call V)} :
    t.calls = .ok calls ↔ (gap? 0 t.keys = none ∧
      (t.domainMap.find? fun entry => !t.keys.contains entry.1) = none) ∧
        t.entryCalls = .ok calls := by
  have hnone : t.keyError? = none ↔ gap? 0 t.keys = none ∧
      (t.domainMap.find? fun entry => !t.keys.contains entry.1) = none := by
    rw [keyError?, Option.or_eq_none_iff, Option.map_eq_none_iff, Option.map_eq_none_iff]
  rw [calls_eq, ← hnone]
  cases t.keyError? with
  | none => simp
  | some error => simp

theorem exists_declared_iff :
    (∃ declared, t.keys.mapM (domainCall t.domainMap) = .ok declared) ↔
      ∀ var, (t.neighboursOf? var).isSome → (t.domainOf? var).isSome := by
  simp only [Checked.exists_mapM_eq_ok_iff, mem_keys, domainCall_eq_ok, lookup_domainMap,
    Option.isSome_iff_exists]
  refine forall₂_congr fun var _ => ?_
  exact ⟨fun ⟨_, domain, h, _⟩ => ⟨domain, h⟩, fun ⟨domain, h⟩ => ⟨_, domain, h, rfl⟩⟩

theorem exists_edges_iff :
    (∃ edges, (t.neighbourMap.mapM fun (var, others) =>
        (Ascending.ofList Ascending.natLt others).mapM
          (neighbourCall (V := V) t.neighbourMap var)) = .ok edges) ↔
      ∀ var other, t.Lists var other → t.Lists other var := by
  simp only [Checked.exists_mapM_eq_ok_iff, Prod.forall, mem_neighbourMap,
    Ascending.mem_ofList Ascending.natLt_strict, neighbourCall_eq_ok, lookup_neighbourMap]
  constructor
  · rintro h var other ⟨others, hothers, hother⟩
    obtain ⟨_, hback, _⟩ := h var others hothers other hother
    exact hback
  · intro h var others hothers other hother
    exact ⟨_, h var other ⟨others, hothers, hother⟩, rfl⟩

theorem exists_relations_iff :
    (∃ relations, t.constraintMap.mapM (constraintCall t.neighbourMap) = .ok relations) ↔
      ∀ i j allowed, t.allowedOf? i j = some allowed →
        i < j ∧ (t.neighboursOf? j).isSome ∧ t.Lists i j := by
  simp only [Checked.exists_mapM_eq_ok_iff, Prod.forall, mem_constraintMap, constraintCall_eq_ok,
    lookup_neighbourMap]
  refine forall₄_congr fun i j allowed _ => ?_
  exact ⟨fun ⟨_, h, _⟩ => h, fun h => ⟨_, h, rfl⟩⟩

/-- The tables amount to a description exactly when they fit together. -/
theorem exists_calls_iff : (∃ calls, t.calls = .ok calls) ↔ ∃ count, t.Coherent count := by
  have hentries : (∃ calls, t.entryCalls = .ok calls) ↔
      (∀ var, (t.neighboursOf? var).isSome → (t.domainOf? var).isSome) ∧
        (∀ var other, t.Lists var other → t.Lists other var) ∧
          ∀ i j allowed, t.allowedOf? i j = some allowed →
            i < j ∧ (t.neighboursOf? j).isSome ∧ t.Lists i j := by
    rw [← exists_declared_iff, ← exists_edges_iff, ← exists_relations_iff]
    simp only [entryCalls, Checked.bind_eq_ok]
    constructor
    · rintro ⟨calls, declared, hdeclared, edges, hedges, relations, hrelations, _⟩
      exact ⟨⟨declared, hdeclared⟩, ⟨edges, hedges⟩, relations, hrelations⟩
    · rintro ⟨⟨declared, hdeclared⟩, ⟨edges, hedges⟩, relations, hrelations⟩
      exact ⟨_, declared, hdeclared, edges, hedges, relations, hrelations, rfl⟩
  simp only [calls_eq_ok, exists_and_left, hentries, gap?_keys_eq_none, find?_domainMap_eq_none]
  constructor
  · rintro ⟨⟨⟨count, hdense⟩, hunknown⟩, hdeclared, hsymm, hconstrained⟩
    refine ⟨count, hdense, fun var => ⟨hunknown var, hdeclared var⟩, ?_, hsymm _ _, ?_⟩
    · intro var other hlists
      obtain ⟨back, hback, _⟩ := hsymm var other hlists
      exact Option.isSome_iff_exists.2 ⟨back, hback⟩
    · intro i j allowed hallowed
      obtain ⟨hlt, hkey, hlists⟩ := hconstrained i j allowed hallowed
      exact ⟨hlt, (hdense j).1 hkey, hlists⟩
  · rintro ⟨count, h⟩
    refine ⟨⟨⟨count, h.dense⟩, fun var => (h.domains var).1⟩, fun var => (h.domains var).2,
      fun _ _ => h.symm, ?_⟩
    intro i j allowed hallowed
    obtain ⟨hlt, hcount, hlists⟩ := h.constrained hallowed
    exact ⟨hlt, (h.dense j).2 hcount, hlists⟩

structure Amounts (t : Tables V) (calls : List (Call V)) : Prop where
  domains : ∀ var, (Call.domains calls)[var]? = t.domainOf? var
  neighbour : ∀ {a b : VarId}, .neighbour a b ∈ calls ↔ t.Lists a b
  relation : ∀ {i j : VarId} {allowed : List (V × V)},
    .relation i j allowed ∈ calls ↔ t.allowedOf? i j = some allowed

theorem exists_domains_of_declared {vars : List VarId} {declared : List (Call V)}
    (h : List.Forall₂ (fun var call => domainCall t.domainMap var = .ok call) vars declared) :
    ∃ domains : List (List V), declared = domains.map .newVariable ∧
      List.Forall₂ (fun var domain => t.domainOf? var = some domain) vars domains := by
  induction h with
  | nil => exact ⟨[], rfl, .nil⟩
  | cons hcall _ ih =>
      obtain ⟨domains, rfl, hdomains⟩ := ih
      obtain ⟨domain, hdomain, rfl⟩ := domainCall_eq_ok.1 hcall
      rw [lookup_domainMap] at hdomain
      exact ⟨domain :: domains, rfl, .cons hdomain hdomains⟩

theorem mem_edges {edges : List (List (Call V))}
    (h : (t.neighbourMap.mapM fun (var, others) =>
      (Ascending.ofList Ascending.natLt others).mapM (neighbourCall t.neighbourMap var)) =
        .ok edges) (call : Call V) :
    call ∈ edges.flatten ↔ ∃ var other, t.Lists var other ∧ call = .neighbour var other := by
  have hlists := exists_edges_iff.1 ⟨edges, h⟩
  simp only [List.mem_flatten, Checked.mem_of_mapM_eq_ok h, Prod.exists, mem_neighbourMap]
  constructor
  · rintro ⟨row, ⟨var, others, hothers, hrow⟩, hcall⟩
    obtain ⟨other, hother, hcall⟩ := (Checked.mem_of_mapM_eq_ok hrow call).1 hcall
    rw [Ascending.mem_ofList Ascending.natLt_strict] at hother
    exact ⟨var, other, ⟨others, hothers, hother⟩, (neighbourCall_eq_ok.1 hcall).2⟩
  · rintro ⟨var, other, ⟨others, hothers, hother⟩, rfl⟩
    obtain ⟨row, hrow⟩ := Checked.exists_mapM_eq_ok_iff.1 ⟨edges, h⟩ _ (mem_neighbourMap.2 hothers)
    refine ⟨row, ⟨var, others, hothers, hrow⟩, (Checked.mem_of_mapM_eq_ok hrow _).2 ?_⟩
    refine ⟨other, (Ascending.mem_ofList Ascending.natLt_strict).2 hother, ?_⟩
    rw [neighbourCall_eq_ok, lookup_neighbourMap]
    exact ⟨hlists var other ⟨others, hothers, hother⟩, rfl⟩

theorem mem_relations {relations : List (Call V)}
    (h : t.constraintMap.mapM (constraintCall t.neighbourMap) = .ok relations) (call : Call V) :
    call ∈ relations ↔
      ∃ i j allowed, t.allowedOf? i j = some allowed ∧ call = .relation i j allowed := by
  have hconstrained := exists_relations_iff.1 ⟨relations, h⟩
  simp only [Checked.mem_of_mapM_eq_ok h, Prod.exists, mem_constraintMap, constraintCall_eq_ok,
    lookup_neighbourMap]
  constructor
  · rintro ⟨i, j, allowed, hallowed, _, rfl⟩
    exact ⟨i, j, allowed, hallowed, rfl⟩
  · rintro ⟨i, j, allowed, hallowed, rfl⟩
    exact ⟨i, j, allowed, hallowed, hconstrained i j allowed hallowed, rfl⟩

/-- Where the keys have no gap, the domains are listed by variable. -/
theorem getElem?_domains {domains : List (List V)} (hgap : gap? 0 t.keys = none)
    (hunknown : ∀ var, (t.domainOf? var).isSome → (t.neighboursOf? var).isSome)
    (h : List.Forall₂ (fun var domain => t.domainOf? var = some domain) t.keys domains)
    (var : VarId) : domains[var]? = t.domainOf? var := by
  have hkeys : t.keys = List.range t.keys.length :=
    (gap?_eq_none.1 hgap).trans List.range_eq_range'.symm
  by_cases hvar : var < t.keys.length
  · have hget : t.keys[var]? = some var := by
      rw [hkeys, List.getElem?_range hvar]
    obtain ⟨domain, hdomain, hof⟩ := Checked.exists_of_forall₂_left h hget
    rw [hdomain, hof]
  · have hnone : t.domainOf? var = none := by
      refine Option.not_isSome_iff_eq_none.1 fun hsome => hvar ?_
      have hkey := mem_keys.2 (hunknown var hsome)
      rwa [hkeys, List.mem_range] at hkey
    rw [hnone, List.getElem?_eq_none]
    rw [← h.length_eq]
    exact Nat.le_of_not_lt hvar

theorem amounts_of_calls {calls : List (Call V)} (h : t.calls = .ok calls) : t.Amounts calls := by
  obtain ⟨⟨hgap, hunknown⟩, hentries⟩ := calls_eq_ok.1 h
  obtain ⟨declared, hdeclared, hentries⟩ := Checked.bind_eq_ok.1 hentries
  obtain ⟨edges, hedges, hentries⟩ := Checked.bind_eq_ok.1 hentries
  obtain ⟨relations, hrelations, hentries⟩ := Checked.bind_eq_ok.1 hentries
  obtain rfl := Except.ok.inj hentries
  have hmemEdges := mem_edges hedges
  have hmemRelations := mem_relations hrelations
  obtain ⟨domains, rfl, hdomains⟩ := exists_domains_of_declared (Checked.mapM_eq_ok.1 hdeclared)
  have hrest : Call.domains (domains.map .newVariable ++ edges.flatten ++ relations) = domains := by
    rw [List.append_assoc]
    refine Call.domains_newVariable_append domains fun call hcall => ?_
    rcases List.mem_append.1 hcall with hcall | hcall
    · obtain ⟨_, _, _, rfl⟩ := (hmemEdges call).1 hcall
      simp [Call.ends?]
    · obtain ⟨_, _, _, _, rfl⟩ := (hmemRelations call).1 hcall
      simp [Call.ends?]
  refine ⟨fun var => ?_, ?_, ?_⟩
  · rw [hrest]
    exact getElem?_domains hgap (find?_domainMap_eq_none.1 hunknown) hdomains var
  · intro a b
    simp [hmemEdges, hmemRelations]
  · intro i j allowed
    simp [hmemEdges, hmemRelations]

namespace Amounts

variable {calls : List (Call V)} {count : Nat}

theorem candidates_iff (h : t.Amounts calls) {x : V} :
    x ∈ Call.candidates calls ↔ t.Candidate x := by
  rw [Call.candidates, List.mem_flatten]
  constructor
  · rintro ⟨domain, hdomain, hx⟩
    obtain ⟨var, hvar⟩ := List.getElem?_of_mem hdomain
    exact ⟨var, domain, (h.domains var).symm.trans hvar, hx⟩
  · rintro ⟨var, domain, hdomain, hx⟩
    exact ⟨domain, List.mem_of_getElem? ((h.domains var).trans hdomain), hx⟩

theorem lt_length_iff (h : t.Amounts calls) (ht : t.Coherent count) (var : VarId) :
    var < (Call.domains calls).length ↔ var < count := by
  rw [← ht.dense, ← ht.domains, ← h.domains, isSome_getElem?]

/-- The calls are about the variables that are listed as neighbours. -/
theorem joined_iff (h : t.Amounts calls) (ht : t.Coherent count) {var other : VarId} :
    Call.Joined calls var other ↔ t.Lists var other := by
  constructor
  · have hends : ∀ {call : Call V} {a b : VarId}, call ∈ calls → call.ends? = some (a, b) →
        t.Lists a b := by
      intro call a b hcall hends
      cases call with
      | newVariable domain => cases hends
      | neighbour x y =>
          cases hends
          exact h.neighbour.1 hcall
      | relation x y allowed =>
          cases hends
          exact (ht.constrained (h.relation.1 hcall)).2.2
    rintro ⟨call, hcall, hfirst | hsecond⟩
    · exact hends hcall hfirst
    · exact ht.symm (hends hcall hsecond)
  · intro hlists
    exact ⟨.neighbour var other, h.neighbour.2 hlists, .inl rfl⟩

/-- What is left to check of tables that fit together. -/
theorem acceptable_iff (h : t.Amounts calls) (ht : t.Coherent count) :
    Call.Acceptable calls ↔ t.Acceptable count := by
  rw [Call.acceptable_iff]
  simp only [h.joined_iff ht, h.lt_length_iff ht, h.relation, h.candidates_iff]
  constructor
  · rintro ⟨hjoined, hlisted⟩
    exact ⟨ht, fun var hself => (hjoined var var hself).2.2 rfl, hlisted⟩
  · rintro hacceptable
    refine ⟨fun var other hlists => ⟨?_, ?_, ?_⟩, hacceptable.listed⟩
    · exact (ht.dense var).1 (ht.known (ht.symm hlists))
    · exact (ht.dense other).1 (ht.known hlists)
    · rintro rfl
      exact hacceptable.irrefl var hlists

end Amounts

theorem exists_problem_iff [DecidableEq V] :
    (∃ p, t.problem = .ok p) ↔ ∃ count, t.Acceptable count := by
  simp only [problem, Checked.bind_eq_ok]
  constructor
  · rintro ⟨p, calls, hcalls, hp⟩
    obtain ⟨count, ht⟩ := exists_calls_iff.1 ⟨calls, hcalls⟩
    have hacceptable := Problem.exists_ofCalls_iff.1 ⟨p, hp⟩
    exact ⟨count, ((amounts_of_calls hcalls).acceptable_iff ht).1 hacceptable⟩
  · rintro ⟨count, ht⟩
    obtain ⟨calls, hcalls⟩ := exists_calls_iff.2 ⟨count, ht.toCoherent⟩
    have hacceptable := ((amounts_of_calls hcalls).acceptable_iff ht.toCoherent).2 ht
    obtain ⟨p, hp⟩ := Problem.exists_ofCalls_iff.2 hacceptable
    exact ⟨p, calls, hcalls, hp⟩

/-! ## The problem -/

structure Represented [DecidableEq V] (t : Tables V) (p : Problem V) : Prop where
  dense : ∀ var, var < p.variableCount ↔ (t.neighboursOf? var).isSome
  known : ∀ {x : V}, (∃ id, p.idOf? x = some id) ↔ t.Candidate x
  neighbours : ∀ {var : VarId} {others : List VarId}, t.neighboursOf? var = some others →
    ∃ listed, p.model.neighboursOf var = .ok listed ∧ listed.Pairwise (· < ·) ∧
      SameMembers listed others
  domains : ∀ {var : VarId} {domain : List V}, t.domainOf? var = some domain →
    ∃ values, p.domainValues var = .ok values ∧ values.Nodup ∧ SameMembers values domain
  related : ∀ a b, ∃ found, p.model.relationBetween? a b = .ok found ∧
    (found.isSome ↔ (t.allowedOf? (VarPair.of a b).lower (VarPair.of a b).higher).isSome)
  allows : ∀ {i j : VarId} {allowed : List (V × V)}, t.allowedOf? i j = some allowed →
    ∀ {x y : V} {a b : ValId}, p.idOf? x = some a → p.idOf? y = some b →
      p.model.allows i a j b = .ok (decide ((x, y) ∈ allowed))

section Problem

variable [DecidableEq V] {calls : List (Call V)} {count : Nat} {p : Problem V}

namespace Amounts

theorem exists_relationBetween? (h : t.Amounts calls) (ht : t.Coherent count)
    (hp : Problem.ofCalls calls = .ok p) (a b : VarId) :
    ∃ found, p.model.relationBetween? a b = .ok found ∧
      (found.isSome ↔ (t.allowedOf? (VarPair.of a b).lower (VarPair.of a b).higher).isSome) := by
  have hm := (Problem.faithful_of_ofCalls hp).wellFormed
  obtain ⟨found, hfound⟩ := hm.exists_relationBetween? a b
  have hbetween : found.isSome ↔ ∃ r ∈ p.model.relations, r.pair = VarPair.of a b := by
    have hsome : ∀ r, found = some r ↔
        ∃ id : RelationId, p.model.relations[id]? = some r ∧ r.pair = VarPair.of a b := by
      intro r
      rw [← hm.relationBetween?_eq_some, hfound, Except.ok.injEq]
    simp only [Option.isSome_iff_exists, hsome, Array.mem_iff_getElem?]
    exact ⟨fun ⟨r, id, hid, hpair⟩ => ⟨r, ⟨id, hid⟩, hpair⟩,
      fun ⟨r, ⟨id, hid⟩, hpair⟩ => ⟨r, id, hid, hpair⟩⟩
  refine ⟨found, hfound, ?_⟩
  rw [hbetween, (Problem.represents_of_ofCalls hp).relations_given, Option.isSome_iff_exists]
  simp only [h.relation]
  constructor
  · rintro ⟨i, j, allowed, hallowed, hpair⟩
    rw [VarPair.of_lt (ht.constrained hallowed).1] at hpair
    rw [hpair]
    exact ⟨allowed, hallowed⟩
  · rintro ⟨allowed, hallowed⟩
    exact ⟨_, _, allowed, hallowed, (VarPair.of_lt (ht.constrained hallowed).1).symm⟩

theorem allows_eq (h : t.Amounts calls) (ht : t.Coherent count)
    (hp : Problem.ofCalls calls = .ok p) {i j : VarId} {allowed : List (V × V)}
    (hallowed : t.allowedOf? i j = some allowed) {x y : V} {a b : ValId}
    (ha : p.idOf? x = some a) (hb : p.idOf? y = some b) :
    p.model.allows i a j b = .ok (decide ((x, y) ∈ allowed)) := by
  have hfaithful := Problem.faithful_of_ofCalls hp
  have hax := ValueTable.getElem?_of_idOf? ha
  have hby := ValueTable.getElem?_of_idOf? hb
  have hiff : p.model.Compatible i a j b ↔ (x, y) ∈ allowed := by
    rw [hfaithful.compatible hax hby]
    simp only [h.relation, hallowed, Option.some.injEq, forall_eq']
    refine and_iff_left fun listed hlisted => ?_
    exact absurd (ht.constrained hlisted).1 (Nat.lt_asymm (ht.constrained hallowed).1)
  obtain ⟨flag, hflag⟩ := hfaithful.wellFormed.allows_eq_ok i j
    (hfaithful.lt_of_value (Checked.get_eq_ok.2 hax))
    (hfaithful.lt_of_value (Checked.get_eq_ok.2 hby))
  rw [Model.Compatible, hflag, Except.ok.injEq] at hiff
  rw [hflag, Except.ok.injEq, Bool.eq_iff_iff, hiff, decide_eq_true_eq]

theorem represented (h : t.Amounts calls) (ht : t.Coherent count)
    (hp : Problem.ofCalls calls = .ok p) : t.Represented p := by
  have hr := Problem.represents_of_ofCalls hp
  have hdense : ∀ var, var < p.variableCount ↔ (t.neighboursOf? var).isSome := by
    intro var
    rw [ht.dense, ← h.lt_length_iff ht, ← hr.variableCount]
    rfl
  refine ⟨hdense, ?_, ?_, ?_, h.exists_relationBetween? ht hp, h.allows_eq ht hp⟩
  · intro x
    rw [← hr.numbered, h.candidates_iff]
  · intro var others hothers
    have hvar := (hdense var).2 (Option.isSome_iff_exists.2 ⟨others, hothers⟩)
    obtain ⟨listed, hlisted, hascend, _, hmem⟩ := hr.neighbours hvar
    refine ⟨listed, hlisted, hascend, fun other => ?_⟩
    rw [hmem, h.joined_iff ht, Lists]
    simp [hothers]
  · intro var domain hdomain
    exact (Problem.faithful_of_ofCalls hp).exists_domainValues ((h.domains var).trans hdomain)

end Amounts

theorem represented_of_problem (hp : t.problem = .ok p) : t.Represented p := by
  obtain ⟨calls, hcalls, hp⟩ := Checked.bind_eq_ok.1 hp
  obtain ⟨count, ht⟩ := exists_calls_iff.1 ⟨calls, hcalls⟩
  exact (amounts_of_calls hcalls).represented ht hp

end Problem

/-! ## The order of the entries -/

/-- The same entries, each with the same members. -/
structure Same (t u : Tables V) : Prop where
  neighbours : ∀ var, Option.Rel SameMembers (t.neighboursOf? var) (u.neighboursOf? var)
  domains : ∀ var, t.domainOf? var = u.domainOf? var
  constraints : ∀ i j, Option.Rel SameMembers (t.allowedOf? i j) (u.allowedOf? i j)

namespace Same

/-- The constraints may be given in any order. -/
theorem of_perm {constraints : List ((VarId × VarId) × List (V × V))}
    (hkeys : (t.constraints.map (·.1)).Nodup) (hperm : constraints.Perm t.constraints) :
    t.Same { t with constraints := constraints } := by
  have hrel : ∀ {α : Type} (xs : Option (List α)), Option.Rel SameMembers xs xs := by
    intro α xs
    cases xs with
    | none => exact .none
    | some xs => exact .some fun _ => Iff.rfl
  refine ⟨fun var => hrel _, fun var => rfl, fun i j => ?_⟩
  rw [show allowedOf? { t with constraints := constraints } i j = t.allowedOf? i j from
    Ascending.last?_perm hkeys hperm (i, j)]
  exact hrel _

theorem neighbourMap (h : t.Same u) :
    Ascending.Matched SameMembers t.neighbourMap u.neighbourMap :=
  Ascending.mapOf_matched Ascending.natLt_strict h.neighbours

theorem constraintMap (h : t.Same u) :
    Ascending.Matched SameMembers t.constraintMap u.constraintMap :=
  Ascending.mapOf_matched Ascending.pairLt_strict fun key => h.constraints key.1 key.2

theorem domainMap (h : t.Same u) : t.domainMap = u.domainMap := by
  have hmatched : Ascending.Matched Eq t.domainMap u.domainMap := by
    refine Ascending.mapOf_matched Ascending.natLt_strict fun var => ?_
    rw [show Ascending.last? t.domains var = Ascending.last? u.domains var from h.domains var]
    cases Ascending.last? u.domains var with
    | none => exact .none
    | some domain => exact .some rfl
  simp only [Ascending.Matched, ← Prod.ext_iff] at hmatched
  rwa [List.forall₂_eq_eq_eq] at hmatched

theorem keys (h : t.Same u) : t.keys = u.keys := h.neighbourMap.keys_eq

/-- The lists of neighbours are walked in ascending order, however they are given. -/
theorem ofList_eq {others listed : List VarId} (h : SameMembers others listed) :
    Ascending.ofList Ascending.natLt others = Ascending.ofList Ascending.natLt listed := by
  refine Ascending.eq_of_mem_iff Ascending.natLt_strict
    (Ascending.ofList_ascending Ascending.natLt_strict _)
    (Ascending.ofList_ascending Ascending.natLt_strict _) fun other => ?_
  rw [Ascending.mem_ofList Ascending.natLt_strict, Ascending.mem_ofList Ascending.natLt_strict, h]

section Calls

variable {neighbours others : List (VarId × List VarId)}

theorem neighbourCall_alike (hlength : neighbours.length = others.length)
    (h : ∀ var, Option.Rel SameMembers (neighbours.lookup var) (others.lookup var))
    (var other : VarId) :
    Checked.Alike (Call.Same (V := V)) (neighbourCall neighbours var other)
      (neighbourCall others var other) := by
  unfold neighbourCall
  have hback := h other
  generalize neighbours.lookup other = first at hback ⊢
  generalize others.lookup other = second at hback ⊢
  rw [hlength]
  cases hback with
  | none => exact .error _
  | some hsame =>
      dsimp only
      simp only [List.contains_iff_mem, hsame var]
      split
      · exact .ok (.neighbour var other)
      · exact .error _

theorem constraintCall_alike (hlength : neighbours.length = others.length)
    (h : ∀ var, Option.Rel SameMembers (neighbours.lookup var) (others.lookup var))
    (key : VarId × VarId) {allowed listed : List (V × V)} (hpairs : SameMembers allowed listed) :
    Checked.Alike Call.Same (constraintCall neighbours (key, allowed))
      (constraintCall others (key, listed)) := by
  obtain ⟨i, j⟩ := key
  unfold constraintCall
  dsimp only
  have hfirst := h i
  have hsecond := h j
  generalize neighbours.lookup i = adjacent at hfirst ⊢
  generalize others.lookup i = adjacent' at hfirst ⊢
  generalize neighbours.lookup j = back at hsecond ⊢
  generalize others.lookup j = back' at hsecond ⊢
  -- Related lookups take the same branch of every check, and so raise the same error.
  rw [hlength]
  by_cases hle : j ≤ i
  · simp only [hle, if_true]
    exact .error _
  · simp only [hle, if_false]
    cases hfirst with
    | none => exact .error _
    | some hsame =>
        cases hsecond with
        | none => exact .error _
        | some _ =>
            dsimp only
            simp only [List.contains_iff_mem, hsame j]
            split
            · exact .ok (.relation hpairs)
            · exact .error _

end Calls

theorem entryCalls_alike (h : t.Same u) :
    Checked.Alike (List.Forall₂ Call.Same) t.entryCalls u.entryCalls := by
  have hlength : t.neighbourMap.length = u.neighbourMap.length := h.neighbourMap.length_eq
  have hlookup : ∀ var, Option.Rel SameMembers (t.neighbourMap.lookup var)
      (u.neighbourMap.lookup var) := by
    intro var
    rw [lookup_neighbourMap, lookup_neighbourMap]
    exact h.neighbours var
  have hdeclared : Checked.Alike (List.Forall₂ Call.Same) (t.keys.mapM (domainCall t.domainMap))
      (u.keys.mapM (domainCall u.domainMap)) := by
    rw [h.keys, h.domainMap]
    refine Checked.Alike.mapM (List.forall₂_same.2 fun var _ => ?_)
    unfold domainCall
    cases u.domainMap.lookup var with
    | none => exact .error _
    | some domain => exact .ok (.newVariable domain)
  have hedges : Checked.Alike (List.Forall₂ (List.Forall₂ Call.Same))
      (t.neighbourMap.mapM fun (var, others) =>
        (Ascending.ofList Ascending.natLt others).mapM (neighbourCall (V := V) t.neighbourMap var))
      (u.neighbourMap.mapM fun (var, others) =>
        (Ascending.ofList Ascending.natLt others).mapM (neighbourCall u.neighbourMap var)) := by
    refine Checked.Alike.mapM (h.neighbourMap.imp ?_)
    rintro ⟨var, others⟩ ⟨var', others'⟩ ⟨hvar, hothers⟩
    dsimp only at hvar hothers ⊢
    rw [hvar, ofList_eq hothers]
    exact Checked.Alike.mapM
      (List.forall₂_same.2 fun other _ => neighbourCall_alike hlength hlookup var' other)
  have hrelations : Checked.Alike (List.Forall₂ Call.Same)
      (t.constraintMap.mapM (constraintCall t.neighbourMap))
      (u.constraintMap.mapM (constraintCall u.neighbourMap)) := by
    refine Checked.Alike.mapM (h.constraintMap.imp ?_)
    rintro ⟨key, allowed⟩ ⟨key', listed⟩ ⟨hkey, hallowed⟩
    dsimp only at hkey hallowed
    rw [hkey]
    exact constraintCall_alike hlength hlookup key' hallowed
  refine hdeclared.bind fun hdeclared => hedges.bind fun hedges => hrelations.bind fun hrelations =>
    .ok ?_
  exact List.rel_append (List.rel_append hdeclared (List.rel_flatten hedges)) hrelations

theorem calls_alike (h : t.Same u) :
    Checked.Alike (List.Forall₂ Call.Same) t.calls u.calls := by
  have herror : t.keyError? = u.keyError? := by
    rw [keyError?, keyError?, h.keys, h.domainMap]
  rw [calls_eq, calls_eq, herror]
  cases u.keyError? with
  | none => exact h.entryCalls_alike
  | some error => exact .error error

/-- Tables with the same entries have the same outcome. -/
theorem problem_eq [DecidableEq V] (h : t.Same u) : t.problem = u.problem := by
  refine (h.calls_alike.bind fun hcalls => ?_).eq
  rw [Problem.ofCalls_congr hcalls]
  exact .refl _

end Same

/-- Tables make a problem exactly when they are acceptable. The problem holds what they say, and
only their entries matter: the order in which constraints, neighbours and pairs are given has no
influence, neither on the problem nor on the error. -/
theorem problem_represents [DecidableEq V] (t : Tables V) :
    ((∃ p, t.problem = .ok p) ↔ ∃ count, t.Acceptable count) ∧
      (∀ p, t.problem = .ok p → t.Represented p) ∧
      (∀ u : Tables V, t.Same u → t.problem = u.problem) ∧
      ∀ constraints : List ((VarId × VarId) × List (V × V)), (t.constraints.map (·.1)).Nodup →
        constraints.Perm t.constraints →
          t.problem = problem { t with constraints := constraints } :=
  ⟨exists_problem_iff, fun _ => represented_of_problem, fun _ => Same.problem_eq,
    fun _ hkeys hperm => (Same.of_perm hkeys hperm).problem_eq⟩

/-- Three variables in a row, the middle one above the others. -/
def peak : Tables Nat where
  neighbours := [(1, [2, 0]), (0, [1]), (2, [1, 1])]
  domains := [(0, [1, 2]), (1, [1, 2, 3]), (2, [2, 3])]
  constraints := [((1, 2), [(3, 2)]), ((0, 1), [(2, 3), (1, 2)])]

theorem problem_represents_peak :
    ∃ p, peak.problem = .ok p ∧ (∃ count, peak.Acceptable count) ∧ peak.Represented p ∧
      problem { peak with constraints := peak.constraints.reverse } = .ok p := by
  obtain ⟨hiff, hrepresented, _, hperm⟩ := problem_represents peak
  have hbuilt : peak.problem.isOk = true := by decide +kernel
  cases hp : peak.problem with
  | error e =>
      rw [hp] at hbuilt
      cases hbuilt
  | ok p =>
      refine ⟨p, rfl, hiff.1 ⟨p, hp⟩, hrepresented p hp, ?_⟩
      rw [← hp]
      exact (hperm _ (by decide) (List.reverse_perm _)).symm

end Tables

end BinaryCsp
