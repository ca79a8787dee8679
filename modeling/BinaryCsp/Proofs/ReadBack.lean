import BinaryCsp.Proofs.Agreement
import BinaryCsp.Proofs.Tables
import Mathlib.Data.List.ProdSigma
import Mathlib.Data.List.ReduceOption

/-! # Reading a problem back

A built problem can be written out as tables: the neighbours that its model lists, the values of its
initial domains, and for each relation the pairs of values that it allows. The tables are accepted,
and they make the very same problem.

That the values keep their numbers is the delicate part. The description may have given a domain in
any order, while it is read back in the order of the numbers. But a value that a variable is the
first to have was numbered after all values of the variables before it, so going through the domains
as they are read back meets the values in the same order again.
-/

namespace BinaryCsp

variable {V : Type}

/-! ## The order in which values are first seen -/

section Seen

variable [DecidableEq V]

def Precedes (order : List V) (x y : V) : Prop := order.idxOf x < order.idxOf y

theorem precedes_pairwise {order : List V} (h : order.Nodup) :
    order.Pairwise (Precedes order) := by
  refine List.pairwise_iff_getElem.2 fun i j hi hj hij => ?_
  rwa [Precedes, h.idxOf_getElem, h.idxOf_getElem]

theorem eraseDups_of_nodup {xs : List V} (h : xs.Nodup) : xs.eraseDups = xs := by
  induction h with
  | nil => rfl
  | @cons x xs hx _ ih =>
      have hkept : (xs.filter fun y => !y == x) = xs :=
        List.filter_eq_self.2 fun y hy => by simpa using (hx y hy).symm
      rw [List.eraseDups_cons, hkept, ih]

theorem eraseDups_nodup (xs : List V) : xs.eraseDups.Nodup := by
  induction xs using List.reverseRecOn with
  | nil => simp
  | append_singleton xs x ih =>
      rw [List.eraseDups_append]
      by_cases hx : x ∈ xs
      · simpa [List.removeAll, hx] using ih
      · have hx' : x ∉ xs.eraseDups := by rwa [List.mem_eraseDups]
        simpa [List.removeAll, hx, List.eraseDups_cons] using ih.concat hx'

/-- What the first lists hold is seen before what only later ones hold. -/
theorem precedes_of_append {seen rest : List V} {x y : V} (hx : x ∈ seen) (hy : y ∉ seen) :
    Precedes (seen ++ rest).eraseDups x y := by
  rw [Precedes, List.eraseDups_append, List.idxOf_append_of_mem (List.mem_eraseDups.2 hx),
    List.idxOf_append_of_notMem (mt List.mem_eraseDups.1 hy)]
  exact Nat.lt_add_right _ (List.idxOf_lt_length_of_mem (List.mem_eraseDups.2 hx))

/-- Lists in an order, none of which brings something new that stands before what the earlier ones
hold, are in this order when they are put together. -/
theorem pairwise_eraseDups_flatten {R : V → V → Prop} (hR : ∀ x, ¬ R x x) {lists : List (List V)}
    (hsorted : ∀ xs ∈ lists, xs.Pairwise R)
    (hnew : ∀ {earlier later : List (List V)} {xs : List V}, lists = earlier ++ xs :: later →
      ∀ x ∈ earlier.flatten, ∀ y ∈ xs, y ∉ earlier.flatten → R x y) :
    lists.flatten.eraseDups.Pairwise R := by
  induction lists using List.reverseRecOn with
  | nil => simp
  | append_singleton lists xs ih =>
      have hfirst : lists.flatten.eraseDups.Pairwise R := by
        refine ih (fun ys hys => hsorted ys (by simp [hys])) fun hsplit => ?_
        exact hnew (by rw [hsplit, List.append_assoc, List.cons_append])
      have hlast : (xs.removeAll lists.flatten).Pairwise R :=
        (hsorted xs (by simp)).filter _
      have hnodup : (xs.removeAll lists.flatten).Nodup := hlast.imp fun {x y} hxy => by
        rintro rfl
        exact hR x hxy
      rw [List.flatten_append, List.flatten_singleton, List.eraseDups_append,
        eraseDups_of_nodup hnodup, List.pairwise_append]
      refine ⟨hfirst, hlast, fun x hx y hy => ?_⟩
      obtain ⟨hy, hy'⟩ := List.mem_filter.1 hy
      exact hnew rfl x (List.mem_eraseDups.1 hx) y hy (by simpa using hy')

omit [DecidableEq V] in
theorem SameMembers.flatten {given listed : List (List V)}
    (h : List.Forall₂ SameMembers given listed) : SameMembers given.flatten listed.flatten := by
  intro x
  induction h with
  | nil => simp
  | cons hxs _ ih => simp only [List.flatten_cons, List.mem_append, hxs x, ih]

/-- Listing the values of each variable in the order in which they were first seen over all
variables does not change this order. -/
theorem eraseDups_flatten_eq {given listed : List (List V)}
    (h : List.Forall₂ SameMembers given listed)
    (hsorted : ∀ xs ∈ listed, xs.Pairwise (Precedes given.flatten.eraseDups)) :
    listed.flatten.eraseDups = given.flatten.eraseDups := by
  have hlisted : listed.flatten.eraseDups.Pairwise (Precedes given.flatten.eraseDups) := by
    refine pairwise_eraseDups_flatten (fun x => Nat.lt_irrefl (List.idxOf x _)) hsorted ?_
    rintro earlier later xs rfl x hx y - hy
    -- What is new in the list of a variable was not given to an earlier one either.
    have hearlier : SameMembers (given.take earlier.length).flatten earlier.flatten :=
      SameMembers.flatten (List.forall₂_take_append _ _ _ h)
    rw [← List.take_append_drop earlier.length given, List.flatten_append]
    exact precedes_of_append ((hearlier x).2 hx) (mt (hearlier y).1 hy)
  have hgiven := precedes_pairwise (eraseDups_nodup given.flatten)
  refine List.Perm.eq_of_pairwise (fun x y _ _ hxy hyx => ?_) hlisted hgiven ?_
  · exact absurd hyx (Nat.lt_asymm hxy)
  · refine (List.perm_ext_iff_of_nodup (eraseDups_nodup _) (eraseDups_nodup _)).2 fun x => ?_
    rw [List.mem_eraseDups, List.mem_eraseDups, SameMembers.flatten h x]

end Seen

/-! ## The tables of a problem -/

def Checked.tabulate {κ β : Type} (find : κ → Checked β) (keys : List κ) :
    Checked (List (κ × β)) :=
  keys.mapM fun key => return (key, ← find key)

theorem Checked.tabulate_spec {κ β : Type} [DecidableEq κ] {find : κ → Checked β} {keys : List κ}
    (hkeys : keys.Nodup) (hfind : ∀ key ∈ keys, ∃ entry, find key = .ok entry) :
    ∃ entries, tabulate find keys = .ok entries ∧ ∀ key entry,
      Ascending.last? entries key = some entry ↔ key ∈ keys ∧ find key = .ok entry := by
  have hrow : ∀ {key : κ} {row : κ × β},
      (do return (key, ← find key) : Checked (κ × β)) = .ok row ↔
        key = row.1 ∧ find key = .ok row.2 := by
    rintro key ⟨key', entry⟩
    simp only [bind_eq_ok, pure_eq_ok, Except.ok.injEq, Prod.mk.injEq]
    exact ⟨fun ⟨_, hentry, hkey, heq⟩ => ⟨hkey, heq ▸ hentry⟩,
      fun ⟨hkey, hentry⟩ => ⟨entry, hentry, hkey, rfl⟩⟩
  obtain ⟨entries, hentries⟩ : ∃ entries, tabulate find keys = .ok entries := by
    refine exists_mapM_eq_ok fun key hkey => ?_
    obtain ⟨entry, hentry⟩ := hfind key hkey
    exact ⟨(key, entry), hrow.2 ⟨rfl, hentry⟩⟩
  have hlisted : entries.map (·.1) = keys := by
    have hforall := (mapM_eq_ok.1 hentries).imp fun _ _ h => (hrow.1 h).1
    rw [← List.forall₂_map_right_iff (f := Prod.fst), List.forall₂_eq_eq_eq] at hforall
    exact hforall.symm
  refine ⟨entries, hentries, fun key entry => ?_⟩
  rw [Ascending.last?_eq_some_iff_mem (hlisted.symm ▸ hkeys), mem_of_mapM_eq_ok hentries]
  simp only [hrow]
  exact ⟨fun ⟨_, hkey, heq, hentry⟩ => heq ▸ ⟨hkey, hentry⟩,
    fun ⟨hkey, hentry⟩ => ⟨key, hkey, rfl, hentry⟩⟩

theorem Model.exists_neighboursOf_iff {m : Model} {var : VarId} :
    (∃ others, m.neighboursOf var = .ok others) ↔ var < m.variableCount := by
  simp only [Model.neighboursOf, Checked.get_eq_ok]
  rw [← Option.isSome_iff_exists, Model.variableCount, isSome_getElem?]

namespace Problem

def allowedPair? (p : Problem V) (i j : VarId) (a b : ValId) : Checked (Option (V × V)) := do
  if ← p.model.allows i a j b then return some (← p.value a, ← p.value b) else return none

def allowedPairs (p : Problem V) (i j : VarId) : Checked (List (V × V)) := do
  let ids := List.range p.model.valueCount
  let found ← (ids ×ˢ ids).mapM fun (a, b) => p.allowedPair? i j a b
  return found.reduceOption

def constrainedPairs (p : Problem V) : List (VarId × VarId) :=
  p.model.relations.toList.map fun r => (r.pair.lower, r.pair.higher)

/-- The problem written out: the neighbours and the initial domain of each variable, and what each
relation allows. -/
def toTables (p : Problem V) : Checked (Tables V) := do
  return {
    neighbours := ← Checked.tabulate p.model.neighboursOf p.model.vars
    domains := ← Checked.tabulate p.domainValues p.model.vars
    constraints := ← Checked.tabulate (fun (i, j) => p.allowedPairs i j) p.constrainedPairs }

/-- The tables hold what the problem says. -/
structure WrittenOut (p : Problem V) (t : Tables V) : Prop where
  neighbours : ∀ {var : VarId} {others : List VarId},
    t.neighboursOf? var = some others ↔ p.model.neighboursOf var = .ok others
  domains : ∀ {var : VarId} {domain : List V},
    t.domainOf? var = some domain ↔ p.domainValues var = .ok domain
  constrained : ∀ {i j : VarId}, (t.allowedOf? i j).isSome ↔ p.model.Constrained ⟨i, j⟩
  allowed : ∀ {i j : VarId} {allowed : List (V × V)}, t.allowedOf? i j = some allowed →
    ∀ {x y : V}, (x, y) ∈ allowed ↔
      ∃ a b, p.value a = .ok x ∧ p.value b = .ok y ∧ p.model.Compatible i a j b

variable {calls : List (Call V)} {p : Problem V}

theorem Faithful.exists_allowedPair? (hp : p.Faithful calls) (i j : VarId) {a b : ValId}
    (ha : a < p.model.valueCount) (hb : b < p.model.valueCount) :
    ∃ found, p.allowedPair? i j a b = .ok found ∧ ∀ {x y : V}, found = some (x, y) ↔
      p.value a = .ok x ∧ p.value b = .ok y ∧ p.model.Compatible i a j b := by
  obtain ⟨x, hx⟩ := exists_value hp ha
  obtain ⟨y, hy⟩ := exists_value hp hb
  obtain ⟨flag, hflag⟩ := hp.wellFormed.allows_eq_ok i j ha hb
  unfold allowedPair? Model.Compatible
  cases flag with
  | false => exact ⟨none, by simp [hflag], by simp [hflag]⟩
  | true => exact ⟨some (x, y), by simp [hflag, hx, hy], by simp [hflag, hx, hy]⟩

theorem Faithful.exists_allowedPairs (hp : p.Faithful calls) (i j : VarId) :
    ∃ allowed, p.allowedPairs i j = .ok allowed ∧ ∀ {x y : V}, (x, y) ∈ allowed ↔
      ∃ a b, p.value a = .ok x ∧ p.value b = .ok y ∧ p.model.Compatible i a j b := by
  obtain ⟨found, hfound⟩ : ∃ found, (List.range p.model.valueCount ×ˢ
      List.range p.model.valueCount).mapM (fun (a, b) => p.allowedPair? i j a b) = .ok found := by
    refine Checked.exists_mapM_eq_ok fun ids hids => ?_
    obtain ⟨ha, hb⟩ := List.mem_product.1 hids
    obtain ⟨pair, hpair, _⟩ :=
      hp.exists_allowedPair? i j (List.mem_range.1 ha) (List.mem_range.1 hb)
    exact ⟨pair, hpair⟩
  refine ⟨found.reduceOption, by rw [allowedPairs, hfound]; rfl, fun {x y} => ?_⟩
  rw [List.reduceOption_mem_iff, Checked.mem_of_mapM_eq_ok hfound]
  constructor
  · rintro ⟨⟨a, b⟩, hids, hpair⟩
    obtain ⟨ha, hb⟩ := List.mem_product.1 hids
    obtain ⟨_, hpair', hiff⟩ :=
      hp.exists_allowedPair? i j (List.mem_range.1 ha) (List.mem_range.1 hb)
    exact ⟨a, b, hiff.1 (Except.ok.inj (hpair'.symm.trans hpair))⟩
  · rintro ⟨a, b, hx, hy, hcompatible⟩
    have ha := hp.lt_of_value hx
    have hb := hp.lt_of_value hy
    obtain ⟨_, hpair, hiff⟩ := hp.exists_allowedPair? i j ha hb
    refine ⟨(a, b), List.mem_product.2 ⟨List.mem_range.2 ha, List.mem_range.2 hb⟩, ?_⟩
    rw [hiff.2 ⟨hx, hy, hcompatible⟩] at hpair
    exact hpair

theorem mem_constrainedPairs {i j : VarId} :
    (i, j) ∈ p.constrainedPairs ↔ p.model.Constrained ⟨i, j⟩ := by
  simp only [constrainedPairs, List.mem_map, Array.mem_toList_iff, Model.Constrained]
  constructor
  · rintro ⟨r, hr, hpair⟩
    obtain ⟨rfl, rfl⟩ := Prod.mk.inj hpair
    exact ⟨r, hr, rfl⟩
  · rintro ⟨r, hr, hpair⟩
    exact ⟨r, hr, by rw [hpair]⟩

variable [DecidableEq V]

theorem Faithful.exists_domainValues_iff (hp : p.Faithful calls) {var : VarId} :
    (∃ domain, p.domainValues var = .ok domain) ↔ var < p.model.variableCount := by
  constructor
  · rintro ⟨domain, hdomain⟩
    obtain ⟨initial, hinitial, _⟩ := Checked.bind_eq_ok.1 hdomain
    have hvar := (Array.getElem?_eq_some_iff.1 (Checked.get_eq_ok.1 hinitial)).1
    exact hp.wellFormed.domains.size ▸ hvar
  · intro hvar
    rw [hp.variableCount] at hvar
    obtain ⟨domain, hdomain, _⟩ := hp.exists_domainValues (List.getElem?_eq_getElem hvar)
    exact ⟨domain, hdomain⟩

theorem Represents.nodup_constrainedPairs (h : p.Represents calls) :
    p.constrainedPairs.Nodup := by
  refine List.pairwise_map.2 (h.relations_ascend.imp fun {r s} hbefore heq => ?_)
  obtain ⟨hlower, hhigher⟩ := Prod.mk.inj heq
  obtain ⟨⟨lower, higher⟩, _, _⟩ := r
  dsimp only at hlower hhigher hbefore
  rw [hlower, hhigher] at hbefore
  exact Builder.before_strict.ne hbefore rfl

theorem exists_toTables (hp : Problem.ofCalls calls = .ok p) :
    ∃ t, p.toTables = .ok t ∧ p.WrittenOut t := by
  have hfaithful := faithful_of_ofCalls hp
  have hvars : p.model.vars.Nodup := List.nodup_range
  have hmem : ∀ {var : VarId}, var ∈ p.model.vars ↔ var < p.model.variableCount := List.mem_range
  obtain ⟨neighbours, hneighbours, hneighbour⟩ := Checked.tabulate_spec hvars
    fun var hvar => Model.exists_neighboursOf_iff.2 (hmem.1 hvar)
  obtain ⟨domains, hdomains, hdomain⟩ := Checked.tabulate_spec hvars
    fun var hvar => hfaithful.exists_domainValues_iff.2 (hmem.1 hvar)
  have hpairs : ∀ pair ∈ p.constrainedPairs, ∃ allowed,
      p.allowedPairs pair.1 pair.2 = .ok allowed := by
    intro pair _
    obtain ⟨allowed, hallowed, _⟩ := hfaithful.exists_allowedPairs pair.1 pair.2
    exact ⟨allowed, hallowed⟩
  obtain ⟨constraints, hconstraints, hconstraint⟩ := Checked.tabulate_spec
    (represents_of_ofCalls hp).nodup_constrainedPairs hpairs
  refine ⟨⟨neighbours, domains, constraints⟩, ?_, ?_, ?_, ?_, ?_⟩
  · rw [toTables, hneighbours, Checked.ok_bind, hdomains, Checked.ok_bind, hconstraints]
    rfl
  · intro var others
    rw [Tables.neighboursOf?, hneighbour, hmem, ← Model.exists_neighboursOf_iff]
    exact and_iff_right_of_imp fun h => ⟨_, h⟩
  · intro var domain
    rw [Tables.domainOf?, hdomain, hmem, ← hfaithful.exists_domainValues_iff]
    exact and_iff_right_of_imp fun h => ⟨_, h⟩
  · intro i j
    simp only [Option.isSome_iff_exists, Tables.allowedOf?, hconstraint, mem_constrainedPairs,
      exists_and_left]
    exact and_iff_left_of_imp fun h => hpairs (i, j) (mem_constrainedPairs.2 h)
  · intro i j allowed hallowed x y
    obtain ⟨_, hallowed', hiff⟩ := hfaithful.exists_allowedPairs i j
    obtain rfl := Except.ok.inj (hallowed'.symm.trans ((hconstraint _ _).1 hallowed).2)
    exact hiff

/-- The number of a value is its place in the order in which the values were first seen. -/
theorem Represents.idxOf_candidates (h : p.Represents calls) {id : ValId} {x : V}
    (hx : p.value id = .ok x) : (Call.candidates calls).eraseDups.idxOf x = id := by
  have hget := Checked.get_eq_ok.1 hx
  rw [← Array.getElem?_toList, h.values] at hget
  obtain ⟨hid, rfl⟩ := List.getElem?_eq_some_iff.1 hget
  exact (eraseDups_nodup _).idxOf_getElem id hid

/-- An initial domain is listed in the order in which the values were first seen. -/
theorem Represents.domainValues_precedes (h : p.Represents calls) {var : VarId} {domain : List V}
    (hdomain : p.domainValues var = .ok domain) :
    domain.Pairwise (Precedes (Call.candidates calls).eraseDups) := by
  obtain ⟨initial, _, hvalues⟩ := Checked.bind_eq_ok.1 hdomain
  have hids : domain.map (Call.candidates calls).eraseDups.idxOf = initial.toList := by
    rw [← List.forall₂_eq_eq_eq, List.forall₂_map_left_iff]
    exact ((Checked.mapM_eq_ok.1 hvalues).imp fun _ _ hx => h.idxOf_candidates hx).flip
  have hascend := initial.toList_ascending
  rw [← hids, List.pairwise_map] at hascend
  exact hascend

/-! ## The tables are accepted -/

theorem adjacent_iff_joined (hp : Problem.ofCalls calls = .ok p) {var other : VarId} :
    p.model.Adjacent var other ↔ Call.Joined calls var other := by
  have hr := represents_of_ofCalls hp
  rw [hr.adjacent_iff, hr.variableCount]
  exact and_iff_right_of_imp fun h =>
    ((Call.acceptable_iff.1 (exists_ofCalls_iff.1 ⟨p, hp⟩)).1 var other h).1

/-- Variables with a relation are neighbours, and the relation is seen from the lower one. -/
theorem Represents.joined_of_constrained (h : p.Represents calls) {i j : VarId}
    (hpair : p.model.Constrained ⟨i, j⟩) : i < j ∧ Call.Joined calls i j := by
  obtain ⟨a, b, allowed, hcall, hof⟩ := h.relations_given.1 hpair
  obtain ⟨r, hr, hrpair⟩ := hpair
  have hlt := h.relations_ordered r hr
  rw [hrpair] at hlt
  refine ⟨hlt, _, hcall, ?_⟩
  rw [VarPair.of] at hof
  split at hof
  · obtain ⟨rfl, rfl⟩ := VarPair.mk.inj hof
    exact .inl rfl
  · obtain ⟨rfl, rfl⟩ := VarPair.mk.inj hof
    exact .inr rfl

namespace WrittenOut

variable {t : Tables V}

omit [DecidableEq V] in
theorem isSome_neighboursOf? (h : p.WrittenOut t) {var : VarId} :
    (t.neighboursOf? var).isSome ↔ var < p.model.variableCount := by
  simp only [Option.isSome_iff_exists, h.neighbours, Model.exists_neighboursOf_iff]

omit [DecidableEq V] in
theorem lists_iff (h : p.WrittenOut t) {var other : VarId} :
    t.Lists var other ↔ p.model.Adjacent var other := by
  simp only [Tables.Lists, h.neighbours, Model.Adjacent, Model.neighboursOf, Checked.get_eq_ok]

/-- The domain listed for a variable has the members of the domain that it was given. -/
theorem sameMembers_domain (h : p.WrittenOut t) (hp : p.Faithful calls) {var : VarId}
    {given : List V} (hgiven : (Call.domains calls)[var]? = some given) :
    ∃ domain, t.domainOf? var = some domain ∧ SameMembers given domain := by
  obtain ⟨domain, hdomain, _, hmem⟩ := hp.exists_domainValues hgiven
  exact ⟨domain, h.domains.2 hdomain, fun x => (hmem x).symm⟩

theorem candidate_of_value (h : p.WrittenOut t) (hp : Problem.ofCalls calls = .ok p)
    {id : ValId} {x : V} (hx : p.value id = .ok x) : t.Candidate x := by
  have hr := represents_of_ofCalls hp
  obtain ⟨given, hgiven, hx⟩ := List.mem_flatten.1 (hr.numbered.2 ⟨id, hr.value_idOf.2 hx⟩)
  obtain ⟨var, hvar⟩ := List.getElem?_of_mem hgiven
  obtain ⟨domain, hdomain, hsame⟩ := h.sameMembers_domain (faithful_of_ofCalls hp) hvar
  exact ⟨var, domain, hdomain, (hsame x).1 hx⟩

theorem acceptable (h : p.WrittenOut t) (hp : Problem.ofCalls calls = .ok p) :
    t.Acceptable p.model.variableCount := by
  have hf := faithful_of_ofCalls hp
  have hr := represents_of_ofCalls hp
  have hlists : ∀ {var other : VarId}, t.Lists var other ↔ Call.Joined calls var other :=
    h.lists_iff.trans (adjacent_iff_joined hp)
  have hjoined := (Call.acceptable_iff.1 (exists_ofCalls_iff.1 ⟨p, hp⟩)).1
  rw [← hf.variableCount] at hjoined
  refine ⟨⟨fun _ => h.isSome_neighboursOf?, fun var => ?_, ?_, ?_, ?_⟩, ?_, ?_⟩
  · rw [h.isSome_neighboursOf?, ← hf.exists_domainValues_iff]
    simp only [Option.isSome_iff_exists, h.domains]
  · intro var other hvar
    rw [h.isSome_neighboursOf?]
    exact (hjoined _ _ (hlists.1 hvar)).2.1
  · exact fun hvar => hlists.2 (hlists.1 hvar).symm
  · intro i j allowed hallowed
    obtain ⟨hlt, hij⟩ := hr.joined_of_constrained
      (h.constrained.1 (Option.isSome_iff_exists.2 ⟨allowed, hallowed⟩))
    exact ⟨hlt, (hjoined i j hij).2.1, hlists.2 hij⟩
  · exact fun var hself => (hjoined var var (hlists.1 hself)).2.2 rfl
  · intro i j allowed hallowed x y hin
    obtain ⟨a, b, hx, hy, _⟩ := (h.allowed hallowed).1 hin
    exact ⟨h.candidate_of_value hp hx, h.candidate_of_value hp hy⟩

/-! ## They make the same problem -/

section Agree

variable {others : List (Call V)} {q : Problem V}

/-- The domains that the tables amount to are those that the problem was made from, each in the
order of the values. -/
theorem forall₂_domains (h : p.WrittenOut t) (hp : p.Faithful calls) (ht : t.Amounts others)
    (hlength : (Call.domains calls).length = (Call.domains others).length) :
    List.Forall₂ SameMembers (Call.domains calls) (Call.domains others) := by
  refine List.forall₂_iff_get.2 ⟨hlength, fun var hvar hvar' => ?_⟩
  obtain ⟨domain, hdomain, hsame⟩ := h.sameMembers_domain hp (List.getElem?_eq_getElem hvar)
  rw [← ht.domains, List.getElem?_eq_getElem hvar', Option.some.injEq] at hdomain
  simpa [hdomain] using hsame

theorem values_eq (h : p.WrittenOut t) (hp : Problem.ofCalls calls = .ok p) (ht : t.Amounts others)
    (hq : Problem.ofCalls others = .ok q)
    (hsame : List.Forall₂ SameMembers (Call.domains calls) (Call.domains others)) :
    p.values = q.values := by
  have hr := represents_of_ofCalls hp
  have hsorted : ∀ domain ∈ Call.domains others,
      domain.Pairwise (Precedes (Call.domains calls).flatten.eraseDups) := by
    intro domain hdomain
    obtain ⟨var, hvar⟩ := List.getElem?_of_mem hdomain
    rw [ht.domains, h.domains] at hvar
    exact hr.domainValues_precedes hvar
  have hvalues : p.values.values.toList = q.values.values.toList := by
    rw [hr.values, (represents_of_ofCalls hq).values]
    exact (eraseDups_flatten_eq hsame hsorted).symm
  exact ValueTable.ext_values (Array.toList_inj.1 hvalues)

theorem constrained_iff (h : p.WrittenOut t) (hp : Problem.ofCalls calls = .ok p)
    (ht : t.Amounts others) (hq : Problem.ofCalls others = .ok q) (pair : VarPair) :
    p.model.Constrained pair ↔ q.model.Constrained pair := by
  have hordered : ∀ {i j : VarId}, p.model.Constrained ⟨i, j⟩ → VarPair.of i j = ⟨i, j⟩ :=
    fun hij => VarPair.of_lt ((represents_of_ofCalls hp).joined_of_constrained hij).1
  rw [Model.Constrained, Model.Constrained, (represents_of_ofCalls hq).relations_given,
    ← Model.Constrained]
  simp only [ht.relation]
  constructor
  · intro hpair
    obtain ⟨allowed, hallowed⟩ := Option.isSome_iff_exists.1 (h.constrained.2 hpair)
    exact ⟨_, _, allowed, hallowed, (hordered hpair).symm⟩
  · rintro ⟨i, j, allowed, hallowed, rfl⟩
    have hpair := h.constrained.1 (Option.isSome_iff_exists.2 ⟨allowed, hallowed⟩)
    rwa [hordered hpair]

omit [DecidableEq V] in
/-- What the tables list for two variables is what these may take. -/
theorem forall_relation_iff (h : p.WrittenOut t) (hp : p.Faithful calls) (ht : t.Amounts others)
    {i j : VarId} {a b : ValId} {x y : V} (hx : p.value a = .ok x) (hy : p.value b = .ok y) :
    (∀ allowed, .relation i j allowed ∈ others → (x, y) ∈ allowed) ↔
      (p.model.Constrained ⟨i, j⟩ → p.model.Compatible i a j b) := by
  have hmem : ∀ {allowed : List (V × V)}, t.allowedOf? i j = some allowed →
      ((x, y) ∈ allowed ↔ p.model.Compatible i a j b) := by
    intro allowed hallowed
    rw [h.allowed hallowed]
    constructor
    · rintro ⟨a', b', hx', hy', hcompatible⟩
      have ha : a = a' := hp.distinct (Checked.get_eq_ok.1 hx) (Checked.get_eq_ok.1 hx')
      have hb : b = b' := hp.distinct (Checked.get_eq_ok.1 hy) (Checked.get_eq_ok.1 hy')
      rwa [ha, hb]
    · exact fun hcompatible => ⟨a, b, hx, hy, hcompatible⟩
  rw [← h.constrained, Option.isSome_iff_exists, forall_exists_index]
  exact forall_congr' fun allowed => by
    rw [ht.relation]
    exact forall_congr' hmem

omit [DecidableEq V] in
theorem compatible_iff (h : p.WrittenOut t) (hp : p.Faithful calls) (ht : t.Amounts others)
    (hq : q.Faithful others) (hvalues : p.values = q.values) {var other : VarId} {a b : ValId}
    (ha : a < p.model.valueCount) (hb : b < p.model.valueCount) :
    p.model.Compatible var a other b ↔ q.model.Compatible var a other b := by
  obtain ⟨x, hx⟩ := exists_value hp ha
  obtain ⟨y, hy⟩ := exists_value hp hb
  have hx' := Checked.get_eq_ok.1 hx
  have hy' := Checked.get_eq_ok.1 hy
  rw [hvalues] at hx' hy'
  rw [hq.compatible hx' hy', h.forall_relation_iff hp ht hx hy, h.forall_relation_iff hp ht hy hx,
    ← hp.wellFormed.compatible_comm]
  refine ⟨fun hcompatible => ⟨fun _ => hcompatible, fun _ => hcompatible⟩, ?_⟩
  rintro ⟨hlower, hhigher⟩
  by_cases hvar : p.model.Constrained ⟨var, other⟩
  · exact hlower hvar
  by_cases hother : p.model.Constrained ⟨other, var⟩
  · exact hhigher hother
  -- Where neither order of the variables has a relation, everything is allowed.
  · refine hp.wellFormed.compatible_of_not_connects ?_
    rintro link ⟨r, hget, hpair⟩ rfl
    have hr := Array.mem_of_getElem? hget
    split at hpair
    · exact hvar ⟨r, hr, hpair⟩
    · exact hother ⟨r, hr, hpair⟩

theorem agrees (h : p.WrittenOut t) (hp : Problem.ofCalls calls = .ok p) (ht : t.Amounts others)
    (hq : Problem.ofCalls others = .ok q) : p.Agrees q := by
  have hf := faithful_of_ofCalls hp
  have hf' := faithful_of_ofCalls hq
  have hcoherent := (h.acceptable hp).toCoherent
  have hlength : (Call.domains calls).length = (Call.domains others).length := by
    rw [← hf.variableCount]
    exact eq_of_forall_lt_iff fun var => (ht.lt_length_iff hcoherent var).symm
  have hsame := h.forall₂_domains hf ht hlength
  have hvalues := h.values_eq hp ht hq hsame
  refine ⟨hvalues, ?_, ?_, ?_, h.constrained_iff hp ht hq, h.compatible_iff hf ht hf' hvalues⟩
  · rw [hf.variableCount, hf'.variableCount, hlength]
  · intro var other
    rw [adjacent_iff_joined hq, ht.joined_iff hcoherent, h.lists_iff]
  · ext var id
    rw [hf.mem_family_iff, hf'.mem_family_iff, hvalues]
    constructor
    · rintro ⟨given, hgiven, v, hv, hid⟩
      obtain ⟨domain, hdomain, hmem⟩ := Checked.exists_of_forall₂_left hsame hgiven
      exact ⟨domain, hdomain, v, (hmem v).1 hv, hid⟩
    · rintro ⟨domain, hdomain, v, hv, hid⟩
      obtain ⟨given, hgiven, hmem⟩ := Checked.exists_of_forall₂_right hsame hdomain
      exact ⟨given, hgiven, v, (hmem v).2 hv, hid⟩

end Agree

end WrittenOut

/-- Every built problem can be written out as tables, and these make the very same problem: the
values have the same numbers, the relations the same places, the sets the same words. So do other
tables with the same entries, whatever the order in which they list neighbours and pairs. -/
theorem toTables_problem (hp : Problem.ofCalls calls = .ok p) :
    ∃ t, p.toTables = .ok t ∧ t.problem = .ok p ∧ ∀ u, t.Same u → u.problem = .ok p := by
  obtain ⟨t, ht, hwritten⟩ := exists_toTables hp
  obtain ⟨q, hq⟩ := Tables.exists_problem_iff.2 ⟨_, hwritten.acceptable hp⟩
  obtain ⟨others, hothers, hq'⟩ := Checked.bind_eq_ok.1 hq
  have hagrees := hwritten.agrees hp (Tables.amounts_of_calls hothers) hq'
  obtain rfl := eq_of_agrees hp hq' hagrees
  exact ⟨t, ht, hq, fun u hsame => hsame.problem_eq ▸ hq⟩

end Problem

/-- Domains that do not list their values in the order of the numbers, and repeat some. -/
def Call.unorderedDomains : List (Call Nat) :=
  [.newVariable [7, 3, 7], .newVariable [5, 3, 9, 7], .relation 1 0 [(9, 7), (3, 3)],
    .newVariable [9, 5, 5], .neighbour 2 0]

theorem Problem.toTables_problem_unordered :
    ∃ p t, Problem.ofCalls Call.unorderedDomains = .ok p ∧ p.toTables = .ok t ∧
      t.problem = .ok p ∧ ∀ u, t.Same u → u.problem = .ok p := by
  have hbuilt : (Problem.ofCalls Call.unorderedDomains).isOk = true := by decide +kernel
  cases hp : Problem.ofCalls Call.unorderedDomains with
  | error e =>
      rw [hp] at hbuilt
      cases hbuilt
  | ok p =>
      obtain ⟨t, ht, hproblem⟩ := toTables_problem hp
      exact ⟨p, t, rfl, ht, hproblem⟩

end BinaryCsp
