import BinaryCsp.Proofs.Puzzle.Sudoku

/-! # The peers of a cell

The peers of a cell are listed as the rest of its row, the rest of its column, and what its box has
outside of both. No two of these have a cell in common, so no peer is listed twice, and all cells of
a board have equally many. Peers are peers of each other, and the constraint between two of them is
stated from the earlier one, so any two peers get one relation and no other cells get any.
-/

namespace BinaryCsp

variable {V : Type}

/-! ## Pairs with a relation -/

namespace Call

def relatedPair? : Call V → Option VarPair
  | .newVariable _ => none
  | .neighbour _ _ => none
  | .relation a b _ => some (VarPair.of a b)

def relatedPairs (calls : List (Call V)) : List VarPair := calls.filterMap relatedPair?

theorem mem_relatedPairs {calls : List (Call V)} {pair : VarPair} :
    pair ∈ relatedPairs calls ↔
      ∃ a b allowed, .relation a b allowed ∈ calls ∧ pair = VarPair.of a b := by
  rw [relatedPairs, List.mem_filterMap]
  constructor
  · rintro ⟨call, hcall, hpair⟩
    cases call with
    | newVariable domain => cases hpair
    | neighbour a b => cases hpair
    | relation a b allowed => exact ⟨a, b, allowed, hcall, (Option.some.inj hpair).symm⟩
  · rintro ⟨a, b, allowed, hcall, rfl⟩
    exact ⟨_, hcall, rfl⟩

end Call

def Model.relatedPairs (m : Model) : List VarPair := m.relations.toList.map (·.pair)

namespace Problem.Represents

variable [DecidableEq V] {calls : List (Call V)} {p : Problem V}

theorem nodup_relatedPairs (h : p.Represents calls) : p.model.relatedPairs.Nodup :=
  List.pairwise_map.2 (h.relations_ascend.imp Builder.before_strict.ne)

theorem mem_relatedPairs (h : p.Represents calls) {pair : VarPair} :
    pair ∈ p.model.relatedPairs ↔ pair ∈ Call.relatedPairs calls := by
  rw [Call.mem_relatedPairs, ← h.relations_given]
  simp [Model.relatedPairs]

end Problem.Represents

namespace Puzzle.Sudoku

/-! ## The list of peers -/

structure ListsPeers (side : Nat) (cell : Nat × Nat) (listed : List (Nat × Nat)) : Prop where
  nodup : listed.Nodup
  mem_iff : ∀ peer, peer ∈ listed ↔
    Inside (side * side) peer ∧ peer ≠ cell ∧ Share side cell peer
  /-- On a board of `n` rows there are `3 * n - 2 * side - 1` of them. -/
  length_add : listed.length + (2 * side + 1) = 3 * (side * side)

section Peers

variable {side size row col : Nat}

theorem length_filter_ne {xs : List Nat} (hxs : xs.Nodup) {x : Nat} (hx : x ∈ xs) :
    (xs.filter (· ≠ x)).length = xs.length - 1 := by
  have herase : xs.erase x = xs.filter (· ≠ x) := by
    rw [hxs.erase_eq_filter]
    exact List.filter_congr fun y _ => by simp [bne, beq_eq_decide]
  rw [← herase, List.length_erase_of_mem hx]

/-- The part of a box outside of one row and one column is a smaller rectangle. -/
theorem flatMap_filter_ne_eq_product (rows cols : List Nat) :
    (rows.flatMap fun r => (cols.filter fun c => r ≠ row && c ≠ col).map fun c => (r, c)) =
      rows.filter (· ≠ row) ×ˢ cols.filter (· ≠ col) := by
  induction rows with
  | nil => rfl
  | cons r rows ih =>
      rw [List.flatMap_cons, ih]
      by_cases hr : r = row
      · simp [hr]
      · simp [hr, List.product_cons]

/-- The peers in the row, in the column, and elsewhere in the box. -/
theorem peers_eq_append : peers row col size side =
    ((List.range size).filter (· ≠ col)).map (fun c => (row, c)) ++
      ((List.range size).filter (· ≠ row)).map (fun r => (r, col)) ++
      (List.range' (row / side * side) side).filter (· ≠ row) ×ˢ
        (List.range' (col / side * side) side).filter (· ≠ col) := by
  rw [peers, flatMap_filter_ne_eq_product]

/-- The three parts are disjoint: only the first has cells of the row, and only the second has cells
of the column. -/
theorem nodup_peers : (peers row col size side).Nodup := by
  rw [peers_eq_append, List.nodup_append', List.nodup_append']
  refine ⟨⟨?_, ?_, ?_⟩, ?_, ?_⟩
  · exact (List.nodup_range.filter _).map fun c d h => (Prod.mk.inj h).2
  · exact (List.nodup_range.filter _).map fun r s h => (Prod.mk.inj h).1
  · intro cell hrow hcolumn
    simp only [List.mem_map, List.mem_filter, decide_eq_true_eq] at hrow hcolumn
    obtain ⟨c, _, rfl⟩ := hrow
    obtain ⟨r, ⟨_, hr⟩, h⟩ := hcolumn
    exact hr (Prod.mk.inj h).1
  · exact ((List.nodup_range' ..).filter _).product ((List.nodup_range' ..).filter _)
  · rintro ⟨r, c⟩ hline hbox
    simp only [List.mem_product, List.mem_filter, decide_eq_true_eq] at hbox
    simp only [List.mem_append, List.mem_map, Prod.mk.injEq] at hline
    rcases hline with ⟨_, _, hr, _⟩ | ⟨_, _, _, hc⟩
    · exact hbox.1.2 hr.symm
    · exact hbox.2.2 hc.symm

/-- A row and a column short of one cell, and a box short of one row and one column. -/
theorem length_peers (hside : 0 < side) (hrow : row < size) (hcol : col < size) :
    (peers row col size side).length = (size - 1) + (size - 1) + (side - 1) * (side - 1) := by
  have hown : ∀ n, n ∈ List.range' (n / side * side) side := fun n => (mem_stretch hside).2 rfl
  rw [peers_eq_append, List.length_append, List.length_append, List.length_map, List.length_map,
    List.length_product, length_filter_ne List.nodup_range (List.mem_range.2 hcol),
    length_filter_ne List.nodup_range (List.mem_range.2 hrow),
    length_filter_ne (List.nodup_range' ..) (hown row),
    length_filter_ne (List.nodup_range' ..) (hown col), List.length_range, List.length_range',
    List.length_range']

theorem length_peers_add {cell : Nat × Nat} (hcell : Inside (side * side) cell) :
    (peers cell.1 cell.2 (side * side) side).length + (2 * side + 1) = 3 * (side * side) := by
  have hside : 0 < side := Nat.pos_of_mul_pos_left (Nat.zero_lt_of_lt hcell.1)
  rw [length_peers hside hcell.1 hcell.2]
  obtain ⟨k, rfl⟩ : ∃ k, side = k + 1 := ⟨side - 1, by omega⟩
  have hsquare : (k + 1) * (k + 1) = k * k + k + (k + 1) := by
    rw [Nat.succ_mul, Nat.mul_succ]
  rw [hsquare, Nat.add_sub_cancel]
  omega

theorem listsPeers_peers {cell : Nat × Nat} (hcell : Inside (side * side) cell) :
    ListsPeers side cell (peers cell.1 cell.2 (side * side) side) :=
  ⟨nodup_peers, fun _ => mem_peers hcell, length_peers_add hcell⟩

example : (peers 4 4 9 3).length = 20 := by decide

end Peers

/-! ## Pairs of peers -/

def IsPeer (side : Nat) (cell peer : Nat × Nat) : Prop :=
  peer ∈ peers cell.1 cell.2 (side * side) side

/-- Any two peers are among the pairs once, and no other pair is. -/
structure PairsPeers (side : Nat) (pairs : List VarPair) : Prop where
  once : ∀ p q, Inside (side * side) p → IsPeer side p q →
    pairs.count (VarPair.of (index (side * side) p) (index (side * side) q)) = 1
  only : ∀ pair ∈ pairs, ∃ p q, Inside (side * side) p ∧ IsPeer side p q ∧
    pair = VarPair.of (index (side * side) p) (index (side * side) q)

section Pairs

variable {side size boxSize : Nat} {p q : Nat × Nat}

theorem IsPeer.inside (hp : Inside (side * side) p) (h : IsPeer side p q) :
    Inside (side * side) q :=
  ((mem_peers hp).1 h).1

theorem IsPeer.symm (hp : Inside (side * side) p) (h : IsPeer side p q) : IsPeer side q p := by
  obtain ⟨hq, hne, hshare⟩ := (mem_peers hp).1 h
  exact (mem_peers hq).2 ⟨hp, hne.symm, hshare.symm⟩

theorem PairsPeers.of_nodup {pairs : List VarPair} (hnodup : pairs.Nodup)
    (hmem : ∀ pair, pair ∈ pairs ↔ ∃ p q, Inside (side * side) p ∧ IsPeer side p q ∧
      pair = VarPair.of (index (side * side) p) (index (side * side) q)) :
    PairsPeers side pairs where
  once p q hp hpeer := List.count_eq_one_of_mem hnodup ((hmem _).2 ⟨p, q, hp, hpeer, rfl⟩)
  only pair hpair := (hmem pair).1 hpair

def laterPairs (size boxSize cell : Nat) : List VarPair :=
  (laterPeers size boxSize cell).map fun peer => ⟨cell, peer⟩

theorem relatedPairs_description (digits : List (List Nat)) :
    Call.relatedPairs (description side digits) =
      (List.range (side * side * (side * side))).flatMap (laterPairs (side * side) side) := by
  have hvariables : Call.relatedPairs (digits.map Call.newVariable) = [] := by
    simp [Call.relatedPairs, Call.relatedPair?, List.filterMap_map]
  rw [description, Call.relatedPairs, List.filterMap_append, ← Call.relatedPairs, hvariables,
    List.nil_append, List.filterMap_flatMap]
  refine List.flatMap_congr fun cell _ => ?_
  rw [laterPairs, List.filterMap_map, ← List.filterMap_eq_map]
  refine List.filterMap_congr fun peer hpeer => ?_
  obtain ⟨_, _, rfl, hlt⟩ := mem_laterPeers.1 hpeer
  simp only [Function.comp_apply, differCall, Call.relatedPair?, VarPair.of_lt hlt]

theorem nodup_laterPeers {cell : Nat} (hcell : cell < side * side * (side * side)) :
    (laterPeers (side * side) side cell).Nodup := by
  have hinside := inside_cellOf.2 hcell
  refine (nodup_peers.map_on fun p hp q hq h => ?_).filter _
  exact index_inj (IsPeer.inside hinside hp) (IsPeer.inside hinside hq) h

/-- Pairs from different cells differ in the earlier variable, pairs from one cell in the later. -/
theorem nodup_relatedPairs_description (digits : List (List Nat)) :
    (Call.relatedPairs (description side digits)).Nodup := by
  rw [relatedPairs_description, List.nodup_flatMap]
  constructor
  · intro cell hcell
    exact (nodup_laterPeers (List.mem_range.1 hcell)).map fun p q h => (VarPair.mk.inj h).2
  · refine List.nodup_range.imp fun {cell other} hne pair hpair hpair' => ?_
    obtain ⟨_, _, rfl⟩ := List.mem_map.1 hpair
    obtain ⟨_, _, h⟩ := List.mem_map.1 hpair'
    exact hne (VarPair.mk.inj h).1.symm

theorem mem_relatedPairs_description {digits : List (List Nat)} {pair : VarPair} :
    pair ∈ Call.relatedPairs (description side digits) ↔
      ∃ p q, Inside (side * side) p ∧ IsPeer side p q ∧
        pair = VarPair.of (index (side * side) p) (index (side * side) q) := by
  rw [Call.mem_relatedPairs]
  constructor
  · rintro ⟨a, b, allowed, hcall, rfl⟩
    obtain ⟨_, _, h⟩ | ⟨p, q, hp, hq, hshare, hlt, h⟩ := mem_description.1 hcall
    · cases h
    · cases h
      have hne : q ≠ p := by
        rintro rfl
        exact Nat.lt_irrefl _ hlt
      exact ⟨p, q, hp, (mem_peers hp).2 ⟨hq, hne, hshare⟩, rfl⟩
  · rintro ⟨p, q, hp, hpeer, rfl⟩
    obtain ⟨hq, hne, hshare⟩ := (mem_peers hp).1 hpeer
    -- The call is made from whichever of the two comes first.
    rcases Nat.lt_trichotomy (index (side * side) p) (index (side * side) q) with hlt | heq | hlt
    · exact ⟨_, _, _, mem_description.2 (.inr ⟨p, q, hp, hq, hshare, hlt, rfl⟩), rfl⟩
    · exact absurd (index_inj hq hp heq.symm) hne
    · exact ⟨_, _, _, mem_description.2 (.inr ⟨q, p, hq, hp, hshare.symm, hlt, rfl⟩),
        VarPair.of_comm _ _⟩

theorem pairsPeers_description (digits : List (List Nat)) :
    PairsPeers side (Call.relatedPairs (description side digits)) :=
  .of_nodup (nodup_relatedPairs_description digits) fun _ => mem_relatedPairs_description

/-- The relations of the problem are those of the calls, none of them merged. -/
theorem pairsPeers_model {digits : List (List Nat)} {problem : Problem Nat}
    (h : Problem.ofCalls (description side digits) = .ok problem) :
    PairsPeers side problem.model.relatedPairs := by
  have hrepresents := Problem.represents_of_ofCalls h
  refine .of_nodup hrepresents.nodup_relatedPairs fun pair => ?_
  rw [hrepresents.mem_relatedPairs, mem_relatedPairs_description]

end Pairs

/-- The peers of a cell are the other cells of its row, its column and its box, each listed once,
and to be a peer is mutual. An accepted board is described with one relation for any two peers and
none for other cells, and its problem has just these. -/
theorem peers_related_once (side : Nat) :
    (∀ cell, Inside (side * side) cell →
      ListsPeers side cell (peers cell.1 cell.2 (side * side) side)) ∧
    (∀ p q, Inside (side * side) p → Inside (side * side) q →
      (IsPeer side p q ↔ IsPeer side q p)) ∧
    ∀ input : SudokuInput, Acceptable side input.board →
      ∃ s digits described, ofInput input = .ok (.ok s) ∧ s.size = side * side ∧
        s.boxSize = side ∧ candidates s.size input.board = .ok digits ∧
        calls s.size s.boxSize digits = .ok described ∧
        Problem.ofCalls described = .ok s.problem ∧
        PairsPeers side (Call.relatedPairs described) ∧
        PairsPeers side s.problem.model.relatedPairs := by
  refine ⟨fun cell => listsPeers_peers, fun p q hp hq => ⟨.symm hp, .symm hq⟩, ?_⟩
  intro input hboard
  obtain ⟨problem, hproblem, hs⟩ := ofInput_of_acceptable hboard
  exact ⟨_, _, _, hs, rfl, rfl, candidates_of_acceptable hboard, calls_of_acceptable hboard,
    hproblem, pairsPeers_description _, pairsPeers_model hproblem⟩

theorem peers_related_once_small :
    Inside (2 * 2) (1, 2) ∧ Inside (2 * 2) (0, 3) ∧
      ListsPeers 2 (1, 2) (peers 1 2 (2 * 2) 2) ∧
      (IsPeer 2 (1, 2) (0, 3) ↔ IsPeer 2 (0, 3) (1, 2)) ∧
      Acceptable 2 small.board ∧ ∃ s digits described, ofInput small = .ok (.ok s) ∧
        candidates 4 small.board = .ok digits ∧ calls 4 2 digits = .ok described ∧
        (Call.relatedPairs described).count ⟨3, 6⟩ = 1 ∧
        s.problem.model.relatedPairs.count ⟨3, 6⟩ = 1 := by
  obtain ⟨hlists, hmutual, hboards⟩ := peers_related_once 2
  have hcell : Inside (2 * 2) (1, 2) := ⟨by decide, by decide⟩
  have hother : Inside (2 * 2) (0, 3) := ⟨by decide, by decide⟩
  have hpeer : (0, 3) ∈ peers 1 2 (2 * 2) 2 := by decide
  have hboard : Acceptable 2 small.board := ⟨by decide, ⟨by decide, by decide⟩, by decide⟩
  obtain ⟨s, digits, described, hs, hsize, hbox, hdigits, hcalls, _, hpairs, hmodel⟩ :=
    hboards small hboard
  rw [hsize] at hdigits hcalls
  rw [hbox] at hcalls
  -- The cells are variables 6 and 3.
  exact ⟨hcell, hother, hlists (1, 2) hcell, hmutual _ _ hcell hother, hboard, s, digits,
    described, hs, hdigits, hcalls, hpairs.once _ _ hcell hpeer, hmodel.once _ _ hcell hpeer⟩

end Puzzle.Sudoku

end BinaryCsp
