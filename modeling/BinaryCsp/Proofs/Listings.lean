import BinaryCsp.Proofs.Representation

/-! # Pairs may be listed in any order

A relation is given as a list of value pairs, but stands for the set of them. Two descriptions that
differ only in how their relations list the same pairs are built with the same outcome: the same
error, or the very same problem.
-/

namespace BinaryCsp

variable {V : Type}

def SameMembers {α : Type} (xs ys : List α) : Prop := ∀ x, x ∈ xs ↔ x ∈ ys

instance {α : Type} [DecidableEq α] (xs ys : List α) : Decidable (SameMembers xs ys) :=
  decidable_of_iff ((∀ x ∈ xs, x ∈ ys) ∧ ∀ x ∈ ys, x ∈ xs)
    ⟨fun h x => ⟨h.1 x, h.2 x⟩, fun h => ⟨fun x => (h x).1, fun x => (h x).2⟩⟩

/-! ## Rows -/

namespace Relation

/-- Inserting ids below `valueCount` leaves every row with the words it was made with. -/
theorem rows_row {valueCount : Nat} {pairs : List (ValId × ValId)}
    (hpairs : ∀ p ∈ pairs, p.2 < valueCount) :
    ∀ row ∈ rows valueCount pairs, row.Counted ∧
      row.words.size = (BitSet.empty valueCount).words.size := by
  have hfold : ∀ (rest : List (ValId × ValId)) (table : Array BitSet),
      (∀ p ∈ rest, p.2 < valueCount) →
      (∀ row ∈ table, row.Counted ∧ row.words.size = (BitSet.empty valueCount).words.size) →
      ∀ row ∈ rest.foldl (fun table (pair : ValId × ValId) =>
          table.modify pair.1 fun row => (row.insert pair.2).2) table,
        row.Counted ∧ row.words.size = (BitSet.empty valueCount).words.size := by
    intro rest
    induction rest with
    | nil => exact fun table _ htable => htable
    | cons pair rest ih =>
        intro table hrest htable
        refine ih _ (fun p hp => hrest p (List.mem_cons_of_mem _ hp)) ?_
        intro row hrow
        obtain ⟨i, hi⟩ := Array.getElem?_of_mem hrow
        rw [Array.getElem?_modify] at hi
        split at hi
        · obtain ⟨old, hold, rfl⟩ := Option.map_eq_some_iff.1 hi
          obtain ⟨hcounted, hsize⟩ := htable old (Array.mem_of_getElem? hold)
          exact ⟨hcounted.insert _, BitSet.size_words_insert_of_lt (hrest pair (by simp)) hsize⟩
        · exact htable row (Array.mem_of_getElem? hi)
  refine hfold pairs _ hpairs fun row hrow => ?_
  obtain rfl := (Array.mem_replicate.1 hrow).2
  exact ⟨BitSet.counted_empty valueCount, rfl⟩

theorem rows_congr {valueCount : Nat} {pairs others : List (ValId × ValId)}
    (hpairs : ∀ p ∈ pairs, p.2 < valueCount) (hsame : SameMembers pairs others) :
    rows valueCount pairs = rows valueCount others := by
  have hothers : ∀ p ∈ others, p.2 < valueCount := fun p hp => hpairs p ((hsame p).2 hp)
  obtain ⟨hsize, hrows⟩ := rows_spec valueCount pairs
  obtain ⟨hsize', hrows'⟩ := rows_spec valueCount others
  refine Array.ext (hsize.trans hsize'.symm) fun a ha ha' => ?_
  obtain ⟨hcounted, hwords⟩ := rows_row hpairs _ (Array.getElem_mem ha)
  obtain ⟨hcounted', hwords'⟩ := rows_row hothers _ (Array.getElem_mem ha')
  refine BitSet.ext_of_contains hcounted hcounted' (hwords.trans hwords'.symm) fun b => ?_
  have hiff : RowHas (rows valueCount pairs) a b ↔ RowHas (rows valueCount others) a b := by
    rw [hrows, hrows', hsame]
  simp only [RowHas, Array.getElem?_eq_getElem ha, Array.getElem?_eq_getElem ha',
    Option.some.injEq, exists_eq_left'] at hiff
  exact Bool.eq_iff_iff.2 hiff

theorem ofPairs_congr (pair : VarPair) {valueCount : Nat} {pairs others : List (ValId × ValId)}
    (hpairs : ∀ p ∈ pairs, p.1 < valueCount ∧ p.2 < valueCount) (hsame : SameMembers pairs others) :
    ofPairs pair valueCount pairs = ofPairs pair valueCount others := by
  have hswap : SameMembers (pairs.map Prod.swap) (others.map Prod.swap) := by
    intro p
    simp only [List.mem_map]
    exact exists_congr fun q => and_congr_left' (hsame q)
  have hfirst : ∀ p ∈ pairs.map Prod.swap, p.2 < valueCount := by
    intro p hp
    obtain ⟨q, hq, rfl⟩ := List.mem_map.1 hp
    exact (hpairs q hq).1
  unfold ofPairs
  rw [rows_congr (fun p hp => (hpairs p hp).2) hsame, rows_congr hfirst hswap]

end Relation

/-! ## Tables of one pair -/

namespace Builder

theorem mem_of_mapM_eq_some {α β : Type} {f : α → Option β} {xs : List α} {ys : List β}
    (h : xs.mapM f = some ys) (y : β) : y ∈ ys ↔ ∃ x ∈ xs, f x = some y := by
  have hforall := mapM_eq_some.1 h
  constructor
  · exact Checked.exists_mem_of_forall₂ hforall
  · rintro ⟨x, hx, hfx⟩
    obtain ⟨z, hz, hfz⟩ := Checked.exists_mem_of_forall₂ hforall.flip hx
    obtain rfl := Option.some.inj (hfx.symm.trans hfz)
    exact hz

theorem mapM_sameMembers {α β : Type} (f : α → Option β) {xs ys : List α}
    (h : SameMembers xs ys) : Option.Rel SameMembers (xs.mapM f) (ys.mapM f) := by
  have hiff : (∃ zs, xs.mapM f = some zs) ↔ ∃ zs, ys.mapM f = some zs := by
    simp only [exists_mapM_eq_some, h _]
  cases hxs : xs.mapM f with
  | none =>
      cases hys : ys.mapM f with
      | none => exact .none
      | some ws =>
          obtain ⟨zs, hzs⟩ := hiff.2 ⟨ws, hys⟩
          rw [hxs] at hzs
          cases hzs
  | some zs =>
      obtain ⟨ws, hws⟩ := hiff.1 ⟨zs, hxs⟩
      rw [hws]
      refine .some fun y => ?_
      simp only [mem_of_mapM_eq_some hxs, mem_of_mapM_eq_some hws, h _]

theorem bind_rel {α β γ δ : Type} {R : α → β → Prop} {S : γ → δ → Prop} {x : Option α}
    {y : Option β} {f : α → Option γ} {g : β → Option δ} (h : Option.Rel R x y)
    (hfg : ∀ {a b}, R a b → Option.Rel S (f a) (g b)) : Option.Rel S (x >>= f) (y >>= g) := by
  cases h with
  | none => exact .none
  | some hab => exact hfg hab

theorem mapM_rel {α β γ δ : Type} {f : α → Option γ} {g : β → Option δ} {S : γ → δ → Prop}
    {xs : List α} {ys : List β} (h : List.Forall₂ (fun x y => Option.Rel S (f x) (g y)) xs ys) :
    Option.Rel (List.Forall₂ S) (xs.mapM f) (ys.mapM g) := by
  induction h with
  | nil => exact .some .nil
  | cons hxy _ ih =>
      rw [List.mapM_cons, List.mapM_cons]
      exact bind_rel hxy fun hfirst => bind_rel ih fun hrest => .some (.cons hfirst hrest)

variable [DecidableEq V]

/-- The relation of a pair depends on the sets of pairs that its tables list. -/
theorem relate_congr {values : ValueTable V} (hv : values.Distinct) (pair : VarPair)
    {tables others : List (List (V × V))} (h : List.Forall₂ SameMembers tables others) :
    relate values (pair, tables) = relate values (pair, others) := by
  have hids := mapM_rel (h.imp fun _ _ => mapM_sameMembers (idsOf? values))
  unfold relate
  dsimp only
  generalize htables : tables.mapM (·.mapM (idsOf? values)) = ids at hids
  generalize hothers : others.mapM (·.mapM (idsOf? values)) = ids' at hids
  cases hids with
  | none => rfl
  | some hsame =>
      have hlt := ids_lt hv htables
      have hlt' := ids_lt hv hothers
      simp only [Checked.pure_eq_ok, Except.ok.injEq]
      refine Relation.ofPairs_congr pair (inAll_lt hlt) fun p => ?_
      rw [mem_inAll hlt, mem_inAll hlt', ← List.length_pos_iff, ← List.length_pos_iff,
        hsame.length_eq]
      exact and_congr_right' (Checked.forall_mem_congr_of_forall₂ hsame fun _ _ hxy => hxy p)

end Builder

/-! ## Whole descriptions -/

/-- Two calls that may differ in how they list the same pairs. -/
inductive Call.Same : Call V → Call V → Prop where
  | newVariable (domain : List V) : Same (.newVariable domain) (.newVariable domain)
  | neighbour (a b : VarId) : Same (.neighbour a b) (.neighbour a b)
  | relation {a b : VarId} {allowed listed : List (V × V)} (h : SameMembers allowed listed) :
      Same (.relation a b allowed) (.relation a b listed)

namespace Builder

/-- Two builders whose tables may differ in how they list the same pairs. -/
structure Same (b c : Builder V) : Prop where
  values : b.values = c.values
  domains : b.domains = c.domains
  edges : b.edges = c.edges
  tables : Ascending.Matched SameMembers b.tables.toList c.tables.toList

variable [DecidableEq V]

theorem Same.apply {b c : Builder V} (h : Same b c) {call other : Call V}
    (hcall : call.Same other) : Same (b.apply call) (c.apply other) := by
  obtain ⟨values, domains, edges, tables⟩ := b
  obtain ⟨values', domains', edges', tables'⟩ := c
  obtain ⟨rfl, rfl, rfl, htables⟩ := h
  cases hcall with
  | newVariable domain => exact ⟨rfl, rfl, rfl, htables⟩
  | neighbour x y => exact ⟨rfl, rfl, rfl, htables⟩
  | @relation x y allowed listed hsame =>
      refine ⟨rfl, rfl, rfl, ?_⟩
      simp only [Builder.apply, addRelation, Array.toList_push]
      refine List.rel_append htables (.cons ⟨rfl, ?_⟩ .nil)
      dsimp only
      split
      · exact hsame
      · intro pair
        simp only [List.mem_map]
        exact exists_congr fun q => and_congr_left' (hsame q)

theorem same_ofCalls {calls others : List (Call V)} (h : List.Forall₂ Call.Same calls others) :
    Same (ofCalls calls) (ofCalls others) := by
  have hstart : Same (empty : Builder V) empty := ⟨rfl, rfl, rfl, .nil⟩
  exact List.rel_foldl (fun _ _ hbc _ _ hcall => hbc.apply hcall) hstart h

theorem relate_tables_congr {values : ValueTable V} (hv : values.Distinct)
    {tables others : List (VarPair × List (V × V))}
    (h : Ascending.Matched SameMembers tables others) :
    (Ascending.group VarPair.before tables).mapM (relate values) =
      (Ascending.group VarPair.before others).mapM (relate values) := by
  have hgroups : Ascending.Matched (List.Forall₂ SameMembers)
      (Ascending.group VarPair.before tables) (Ascending.group VarPair.before others) :=
    Ascending.group_matched h
  have halike : Checked.Alike (List.Forall₂ Eq)
      ((Ascending.group VarPair.before tables).mapM (relate values))
      ((Ascending.group VarPair.before others).mapM (relate values)) := by
    refine Checked.Alike.mapM (hgroups.imp ?_)
    rintro ⟨pair, entry⟩ ⟨pair', entry'⟩ ⟨hpair, hentry⟩
    dsimp only at hpair hentry
    rw [← hpair, relate_congr hv pair hentry]
    exact .refl _
  rw [List.forall₂_eq_eq_eq] at halike
  exact halike.eq

end Builder

/-- How the pairs are listed makes no difference to the outcome. -/
theorem Problem.ofCalls_congr [DecidableEq V] {calls others : List (Call V)}
    (h : List.Forall₂ Call.Same calls others) :
    Problem.ofCalls calls = Problem.ofCalls others := by
  have hsame := Builder.same_ofCalls h
  have hv : (Builder.ofCalls calls).values.Distinct := (Builder.describes_ofCalls calls).distinct
  have hrelations := Builder.relate_tables_congr hv hsame.tables
  simp only [Problem.ofCalls, Builder.build, Builder.variableCount, ← hsame.values,
    ← hsame.domains, ← hsame.edges, hrelations]

end BinaryCsp
