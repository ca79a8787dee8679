import BinaryCsp.Proofs.Representation
import BinaryCsp.Proofs.Solver
import BinaryCsp.Puzzle.Sudoku
import Mathlib.Data.List.Pairwise
import Mathlib.Data.List.Perm.Subperm
import Mathlib.Data.List.ProdSigma

/-! # The Sudoku problem is the Sudoku board

A board of `side * side` rows is turned into calls whose solutions are its completions, read row by
row. A completion repeats no digit in a unit, and a unit has as many cells as there are digits, so
every digit stands in it exactly once.
-/

namespace BinaryCsp.Puzzle.Sudoku

/-! ## Boards -/

def digitAt? (grid : List (List Nat)) (cell : Nat × Nat) : Option Nat :=
  grid[cell.1]?.bind (·[cell.2]?)

def Inside (size : Nat) (cell : Nat × Nat) : Prop := cell.1 < size ∧ cell.2 < size

structure Square (size : Nat) (grid : List (List Nat)) : Prop where
  rows : grid.length = size
  cells : ∀ cells ∈ grid, cells.length = size

structure Acceptable (side : Nat) (board : List (List Nat)) : Prop where
  positive : 0 < side
  square : Square (side * side) board
  clues : ∀ cells ∈ board, ∀ clue ∈ cells, clue ≤ side * side

def rowUnit (size row : Nat) : List (Nat × Nat) := (List.range size).map fun col => (row, col)

def columnUnit (size col : Nat) : List (Nat × Nat) := (List.range size).map fun row => (row, col)

/-- The boxes are numbered row by row. -/
def boxUnit (side number : Nat) : List (Nat × Nat) :=
  List.range' (number / side * side) side ×ˢ List.range' (number % side * side) side

def units (side : Nat) : List (List (Nat × Nat)) :=
  (List.range (side * side)).map (rowUnit (side * side)) ++
    (List.range (side * side)).map (columnUnit (side * side)) ++
    (List.range (side * side)).map (boxUnit side)

def digitsIn (grid : List (List Nat)) (unit : List (Nat × Nat)) : List Nat :=
  unit.filterMap (digitAt? grid)

/-- A way to fill a board: every clue is kept and no digit is repeated in a unit. -/
structure Fills (side : Nat) (board grid : List (List Nat)) : Prop where
  square : Square (side * side) grid
  digits : ∀ cells ∈ grid, ∀ digit ∈ cells, 1 ≤ digit ∧ digit ≤ side * side
  clues : ∀ cell clue, digitAt? board cell = some clue → clue ≠ 0 →
    digitAt? grid cell = some clue
  distinct : ∀ unit ∈ units side, (digitsIn grid unit).Nodup

/-! ## Cells row by row -/

section Rows

variable {width count : Nat} {grid : List (List Nat)}

theorem digitAt?_eq_flatten (hcells : ∀ cells ∈ grid, cells.length = width) {row col : Nat}
    (hcol : col < width) : digitAt? grid (row, col) = grid.flatten[row * width + col]? := by
  induction grid generalizing row with
  | nil => simp [digitAt?]
  | cons first rest ih =>
      have hfirst : first.length = width := hcells first (by simp)
      cases row with
      | zero =>
          rw [List.flatten_cons, List.getElem?_append_left (by omega)]
          simp [digitAt?]
      | succ row =>
          have hrest : digitAt? rest (row, col) = rest.flatten[row * width + col]? :=
            ih fun cells hin => hcells cells (List.mem_cons_of_mem _ hin)
          rw [List.flatten_cons, List.getElem?_append_right (by rw [Nat.succ_mul]; omega), hfirst,
            show (row + 1) * width + col - width = row * width + col by rw [Nat.succ_mul]; omega,
            ← hrest]
          rfl

theorem flatten_rowsOf {cells : List Nat} (hlength : cells.length = count * width) :
    (SolvedSudoku.rowsOf width count cells).flatten = cells := by
  induction count generalizing cells with
  | zero => simpa [SolvedSudoku.rowsOf, eq_comm] using hlength
  | succ count ih =>
      have hrest : (cells.drop width).length = count * width := by
        rw [List.length_drop, hlength, Nat.succ_mul]
        omega
      rw [SolvedSudoku.rowsOf, List.flatten_cons, ih hrest, List.take_append_drop]

theorem length_rowsOf (cells : List Nat) :
    (SolvedSudoku.rowsOf width count cells).length = count := by
  induction count generalizing cells with
  | zero => rfl
  | succ count ih => rw [SolvedSudoku.rowsOf, List.length_cons, ih]

theorem length_of_mem_rowsOf {cells row : List Nat} (hlength : cells.length = count * width)
    (hrow : row ∈ SolvedSudoku.rowsOf width count cells) : row.length = width := by
  induction count generalizing cells with
  | zero => cases hrow
  | succ count ih =>
      rw [Nat.succ_mul] at hlength
      rcases List.mem_cons.1 hrow with rfl | hrow
      · rw [List.length_take]
        omega
      · refine ih ?_ hrow
        rw [List.length_drop]
        omega

end Rows

theorem square_rowsOf {size : Nat} {cells : List Nat} (hlength : cells.length = size * size) :
    Square size (SolvedSudoku.rowsOf size size cells) :=
  ⟨length_rowsOf cells, fun _ hrow => length_of_mem_rowsOf hlength hrow⟩

namespace Square

variable {size : Nat} {grid : List (List Nat)}

theorem length_flatten (h : Square size grid) : grid.flatten.length = size * size := by
  rw [List.length_flatten, List.map_congr_left h.cells]
  simp [h.rows]

theorem digitAt?_eq (h : Square size grid) {cell : Nat × Nat} (hcol : cell.2 < size) :
    digitAt? grid cell = grid.flatten[cell.1 * size + cell.2]? :=
  digitAt?_eq_flatten h.cells hcol

theorem exists_digitAt? (h : Square size grid) {cell : Nat × Nat} :
    (∃ digit, digitAt? grid cell = some digit) ↔ Inside size cell := by
  obtain ⟨row, col⟩ := cell
  constructor
  · rintro ⟨digit, hdigit⟩
    obtain ⟨cells, hcells, hcol⟩ := Option.bind_eq_some_iff.1 hdigit
    have hrow := (List.getElem?_eq_some_iff.1 hcells).1
    have hcol := (List.getElem?_eq_some_iff.1 hcol).1
    rw [h.rows] at hrow
    rw [h.cells cells (List.mem_of_getElem? hcells)] at hcol
    exact ⟨hrow, hcol⟩
  · rintro ⟨hrow, hcol⟩
    rw [h.digitAt?_eq hcol, ← Option.isSome_iff_exists, isSome_getElem?, h.length_flatten]
    calc row * size + col < row * size + size := by omega
      _ = (row + 1) * size := (Nat.succ_mul row size).symm
      _ ≤ size * size := Nat.mul_le_mul_right size hrow

end Square

/-! ## Units -/

def Share (side : Nat) (p q : Nat × Nat) : Prop :=
  p.1 = q.1 ∨ p.2 = q.2 ∨ (p.1 / side = q.1 / side ∧ p.2 / side = q.2 / side)

theorem Share.symm {side : Nat} {p q : Nat × Nat} (h : Share side p q) : Share side q p := by
  simpa [Share, eq_comm] using h

section Units

variable {side : Nat}

theorem mem_rowUnit {size row : Nat} {cell : Nat × Nat} :
    cell ∈ rowUnit size row ↔ cell.1 = row ∧ cell.2 < size := by
  obtain ⟨r, c⟩ := cell
  simp [rowUnit, eq_comm, and_comm]

theorem mem_columnUnit {size col : Nat} {cell : Nat × Nat} :
    cell ∈ columnUnit size col ↔ cell.2 = col ∧ cell.1 < size := by
  obtain ⟨r, c⟩ := cell
  simp [columnUnit, eq_comm, and_comm]

theorem mem_stretch (hside : 0 < side) {start n : Nat} :
    n ∈ List.range' (start * side) side ↔ n / side = start := by
  rw [List.mem_range'_1, Nat.div_eq_iff hside, Nat.mul_comm]
  omega

theorem mem_boxUnit (hside : 0 < side) {number : Nat} {cell : Nat × Nat} :
    cell ∈ boxUnit side number ↔
      cell.1 / side = number / side ∧ cell.2 / side = number % side := by
  obtain ⟨r, c⟩ := cell
  rw [boxUnit, List.mem_product, mem_stretch hside, mem_stretch hside]

theorem lt_of_div_eq {m n : Nat} (hn : n < side * side) (h : m / side = n / side) :
    m < side * side := by
  have hside : 0 < side := Nat.pos_of_mul_pos_left (Nat.zero_lt_of_lt hn)
  rw [← Nat.div_lt_iff_lt_mul hside] at hn ⊢
  rwa [h]

/-- The peers of a cell are the other cells that share a unit with it. -/
theorem mem_peers {cell peer : Nat × Nat} (hcell : Inside (side * side) cell) :
    peer ∈ peers cell.1 cell.2 (side * side) side ↔
      Inside (side * side) peer ∧ peer ≠ cell ∧ Share side cell peer := by
  obtain ⟨hrow, hcol⟩ := hcell
  have hside : 0 < side := Nat.pos_of_mul_pos_left (Nat.zero_lt_of_lt hrow)
  obtain ⟨row, col⟩ := cell
  obtain ⟨r, c⟩ := peer
  simp only [peers, List.mem_append, List.mem_map, List.mem_filter, List.mem_range,
    List.mem_flatMap, mem_stretch hside, Bool.and_eq_true, decide_eq_true_eq, ne_eq, Prod.mk.injEq,
    Inside, Share]
  constructor
  · rintro ((⟨c', ⟨hc, hne⟩, rfl, rfl⟩ | ⟨r', ⟨hr, hne⟩, rfl, rfl⟩) |
      ⟨r', hr, c', ⟨hc, hne⟩, rfl, rfl⟩)
    · exact ⟨⟨hrow, hc⟩, fun h => hne h.2, .inl rfl⟩
    · exact ⟨⟨hr, hcol⟩, fun h => hne h.1, .inr (.inl rfl)⟩
    · exact ⟨⟨lt_of_div_eq hrow hr, lt_of_div_eq hcol hc⟩, fun h => hne.1 h.1,
        .inr (.inr ⟨hr.symm, hc.symm⟩)⟩
  · rintro ⟨⟨hr, hc⟩, hne, hshare⟩
    by_cases hsameRow : r = row
    · exact .inl (.inl ⟨c, ⟨hc, fun h => hne ⟨hsameRow, h⟩⟩, hsameRow.symm, rfl⟩)
    · by_cases hsameCol : c = col
      · exact .inl (.inr ⟨r, ⟨hr, hsameRow⟩, rfl, hsameCol.symm⟩)
      · obtain h | h | ⟨hboxRow, hboxCol⟩ := hshare
        · exact absurd h.symm hsameRow
        · exact absurd h.symm hsameCol
        · exact .inr ⟨r, hboxRow.symm, c, ⟨hboxCol.symm, hsameRow, hsameCol⟩, rfl, rfl⟩

theorem nodup_of_mem_units {unit : List (Nat × Nat)} (hunit : unit ∈ units side) : unit.Nodup := by
  simp only [units, List.mem_append, List.mem_map] at hunit
  rcases hunit with (⟨row, _, rfl⟩ | ⟨col, _, rfl⟩) | ⟨number, _, rfl⟩
  · exact List.nodup_range.map fun c d h => (Prod.mk.inj h).2
  · exact List.nodup_range.map fun r s h => (Prod.mk.inj h).1
  · exact .product (List.nodup_range' ..) (List.nodup_range' ..)

theorem length_of_mem_units {unit : List (Nat × Nat)} (hunit : unit ∈ units side) :
    unit.length = side * side := by
  simp only [units, List.mem_append, List.mem_map] at hunit
  rcases hunit with (⟨row, _, rfl⟩ | ⟨col, _, rfl⟩) | ⟨number, _, rfl⟩
  · simp [rowUnit]
  · simp [columnUnit]
  · simp [boxUnit, List.length_product]

theorem exists_unit_iff (hside : 0 < side) {p q : Nat × Nat} :
    (∃ unit ∈ units side, p ∈ unit ∧ q ∈ unit) ↔
      Inside (side * side) p ∧ Inside (side * side) q ∧ Share side p q := by
  simp only [Inside, units, List.mem_append, List.mem_map, List.mem_range]
  constructor
  · rintro ⟨_, (⟨row, hrow, rfl⟩ | ⟨col, hcol, rfl⟩) | ⟨number, hnumber, rfl⟩, hp, hq⟩
    · rw [mem_rowUnit] at hp hq
      exact ⟨⟨hp.1 ▸ hrow, hp.2⟩, ⟨hq.1 ▸ hrow, hq.2⟩, .inl (hp.1.trans hq.1.symm)⟩
    · rw [mem_columnUnit] at hp hq
      exact ⟨⟨hp.2, hp.1 ▸ hcol⟩, ⟨hq.2, hq.1 ▸ hcol⟩, .inr (.inl (hp.1.trans hq.1.symm))⟩
    · rw [mem_boxUnit hside] at hp hq
      have hband : number / side < side := (Nat.div_lt_iff_lt_mul hside).2 hnumber
      have hstack : number % side < side := Nat.mod_lt _ hside
      refine ⟨?_, ?_, .inr (.inr ⟨hp.1.trans hq.1.symm, hp.2.trans hq.2.symm⟩)⟩ <;>
        simp only [← Nat.div_lt_iff_lt_mul hside]
      · exact ⟨hp.1 ▸ hband, hp.2 ▸ hstack⟩
      · exact ⟨hq.1 ▸ hband, hq.2 ▸ hstack⟩
  · rintro ⟨hp, hq, hsame | hsame | ⟨hrows, hcols⟩⟩
    · exact ⟨_, .inl (.inl ⟨p.1, hp.1, rfl⟩), mem_rowUnit.2 ⟨rfl, hp.2⟩,
        mem_rowUnit.2 ⟨hsame.symm, hq.2⟩⟩
    · exact ⟨_, .inl (.inr ⟨p.2, hp.2, rfl⟩), mem_columnUnit.2 ⟨rfl, hp.1⟩,
        mem_columnUnit.2 ⟨hsame.symm, hq.1⟩⟩
    · have hband : p.1 / side < side := (Nat.div_lt_iff_lt_mul hside).2 hp.1
      have hstack : p.2 / side < side := (Nat.div_lt_iff_lt_mul hside).2 hp.2
      have hdiv : (p.1 / side * side + p.2 / side) / side = p.1 / side := by
        rw [Nat.mul_comm, Nat.mul_add_div hside, Nat.div_eq_of_lt hstack, Nat.add_zero]
      have hmod : (p.1 / side * side + p.2 / side) % side = p.2 / side := by
        rw [Nat.mul_add_mod', Nat.mod_eq_of_lt hstack]
      refine ⟨_, .inr ⟨p.1 / side * side + p.2 / side, ?_, rfl⟩, ?_, ?_⟩
      · rwa [← Nat.div_lt_iff_lt_mul hside, hdiv]
      · rw [mem_boxUnit hside, hdiv, hmod]
        exact ⟨rfl, rfl⟩
      · rw [mem_boxUnit hside, hdiv, hmod]
        exact ⟨hrows.symm, hcols.symm⟩

end Units

/-! ## No digit twice -/

section Digits

variable {side : Nat} {grid : List (List Nat)}

theorem nodup_digitsIn_iff {unit : List (Nat × Nat)} (hunit : unit.Nodup) :
    (digitsIn grid unit).Nodup ↔ ∀ p ∈ unit, ∀ q ∈ unit, p ≠ q → ∀ digit,
      digitAt? grid p = some digit → digitAt? grid q ≠ some digit := by
  have hsymm : Std.Symm fun p q => ∀ digit, digitAt? grid p = some digit → ∀ other,
      digitAt? grid q = some other → digit ≠ other :=
    ⟨fun p q h digit hq other hp hsame => h other hp digit hq hsame.symm⟩
  rw [digitsIn, List.Nodup, List.pairwise_filterMap]
  constructor
  · intro h p hp q hq hne digit hdigit hsame
    exact h.forall hp hq hne digit hdigit digit hsame rfl
  · intro h
    refine hunit.pairwise_of_forall_ne fun p hp q hq hne digit hdigit other hother => ?_
    rintro rfl
    exact h p hp q hq hne digit hdigit hother

/-- No unit repeats a digit exactly when cells that share a unit differ. -/
theorem forall_units_nodup_iff (hside : 0 < side) (hgrid : Square (side * side) grid) :
    (∀ unit ∈ units side, (digitsIn grid unit).Nodup) ↔
      ∀ p q, p ≠ q → Share side p q → ∀ digit, digitAt? grid p = some digit →
        digitAt? grid q ≠ some digit := by
  constructor
  · intro h p q hne hshare digit hp hq
    have hcells := (exists_unit_iff hside).2
      ⟨hgrid.exists_digitAt?.1 ⟨digit, hp⟩, hgrid.exists_digitAt?.1 ⟨digit, hq⟩, hshare⟩
    obtain ⟨unit, hunit, hpin, hqin⟩ := hcells
    exact (nodup_digitsIn_iff (nodup_of_mem_units hunit)).1 (h unit hunit) p hpin q hqin hne digit
      hp hq
  · intro h unit hunit
    refine (nodup_digitsIn_iff (nodup_of_mem_units hunit)).2 fun p hp q hq hne => ?_
    exact h p q hne ((exists_unit_iff hside).1 ⟨unit, hunit, hp, hq⟩).2.2

/-- As a unit has as many cells as there are digits, it has each of them. -/
theorem Fills.count_eq_one {board : List (List Nat)} (hside : 0 < side)
    (h : Fills side board grid) {unit : List (Nat × Nat)} (hunit : unit ∈ units side) {digit : Nat}
    (hpos : 1 ≤ digit) (hle : digit ≤ side * side) : (digitsIn grid unit).count digit = 1 := by
  have hnodup := h.distinct unit hunit
  have hlength : (digitsIn grid unit).length = side * side := by
    rw [← length_of_mem_units hunit, digitsIn, List.filterMap_length_eq_length]
    intro p hp
    have hcell := ((exists_unit_iff hside).1 ⟨unit, hunit, hp, hp⟩).1
    exact Option.isSome_iff_exists.2 (h.square.exists_digitAt?.2 hcell)
  have hdigits : digitsIn grid unit ⊆ List.range' 1 (side * side) := by
    intro d hd
    obtain ⟨p, _, hp⟩ := List.mem_filterMap.1 hd
    obtain ⟨cells, hcells, hget⟩ := Option.bind_eq_some_iff.1 hp
    have hrange := h.digits cells (List.mem_of_getElem? hcells) d (List.mem_of_getElem? hget)
    rw [List.mem_range'_1]
    omega
  -- As many distinct digits as there are digits: they are all of them.
  have hperm : (digitsIn grid unit).Perm (List.range' 1 (side * side)) := by
    refine (List.subperm_of_subset hnodup hdigits).perm_of_length_le ?_
    rw [hlength, List.length_range']
  refine List.count_eq_one_of_mem hnodup (hperm.mem_iff.2 ?_)
  rw [List.mem_range'_1]
  omega

end Digits

/-! ## The calls -/

def index (size : Nat) (cell : Nat × Nat) : Nat := cell.1 * size + cell.2

def cellOf (size var : Nat) : Nat × Nat := (var / size, var % size)

section Index

variable {size : Nat} {cell : Nat × Nat}

theorem index_cellOf (size var : Nat) : index size (cellOf size var) = var := by
  rw [index, cellOf, Nat.div_add_mod']

theorem cellOf_index (hcell : Inside size cell) : cellOf size (index size cell) = cell := by
  have hsize : 0 < size := Nat.zero_lt_of_lt hcell.2
  rw [index, cellOf, Nat.mul_add_mod', Nat.mod_eq_of_lt hcell.2, Nat.mul_comm,
    Nat.mul_add_div hsize, Nat.div_eq_of_lt hcell.2, Nat.add_zero]

theorem index_inj {p q : Nat × Nat} (hp : Inside size p) (hq : Inside size q)
    (h : index size p = index size q) : p = q := by
  rw [← cellOf_index hp, h, cellOf_index hq]

theorem inside_cellOf {var : Nat} : Inside size (cellOf size var) ↔ var < size * size := by
  constructor
  · rintro ⟨hrow, hcol⟩
    exact (Nat.div_lt_iff_lt_mul (Nat.zero_lt_of_lt hcol)).1 hrow
  · intro hvar
    have hsize : 0 < size := Nat.pos_of_mul_pos_left (Nat.zero_lt_of_lt hvar)
    exact ⟨(Nat.div_lt_iff_lt_mul hsize).2 hvar, Nat.mod_lt _ hsize⟩

theorem index_lt (hcell : Inside size cell) : index size cell < size * size := by
  rw [← inside_cellOf, cellOf_index hcell]
  exact hcell

end Index

theorem mem_differing {first second : List Nat} {x y : Nat} :
    (x, y) ∈ differing first second ↔ x ∈ first ∧ y ∈ second ∧ x ≠ y := by
  simp [differing]

section Calls

variable {side : Nat} {digits : List (List Nat)} {values : List Nat}

theorem mem_laterPeers {size boxSize cell peer : Nat} :
    peer ∈ laterPeers size boxSize cell ↔
      ∃ q ∈ peers (cellOf size cell).1 (cellOf size cell).2 size boxSize,
        peer = index size q ∧ cell < peer := by
  simp only [laterPeers, List.mem_filter, List.mem_map, decide_eq_true_eq, cellOf, index]
  constructor
  · rintro ⟨⟨q, hq, rfl⟩, hlt⟩
    exact ⟨q, hq, rfl, hlt⟩
  · rintro ⟨q, hq, rfl, hlt⟩
    exact ⟨⟨q, hq, rfl⟩, hlt⟩

theorem mem_laterPeers_iff {cell peer : Nat} (hcell : cell < side * side * (side * side)) :
    peer ∈ laterPeers (side * side) side cell ↔
      ∃ q, Inside (side * side) q ∧ Share side (cellOf (side * side) cell) q ∧
        peer = index (side * side) q ∧ cell < peer := by
  have hinside := inside_cellOf.2 hcell
  rw [mem_laterPeers]
  constructor
  · rintro ⟨q, hq, rfl, hlt⟩
    obtain ⟨hq, _, hshare⟩ := (mem_peers hinside).1 hq
    exact ⟨q, hq, hshare, rfl, hlt⟩
  · rintro ⟨q, hq, hshare, rfl, hlt⟩
    refine ⟨q, (mem_peers hinside).2 ⟨hq, ?_, hshare⟩, rfl, hlt⟩
    rintro rfl
    rw [index_cellOf] at hlt
    exact Nat.lt_irrefl _ hlt

/-- The constraint between two cells whose candidates are known to be there. -/
def differCall (digits : List (List Nat)) (cell peer : Nat) : Call Nat :=
  .relation cell peer (differing (digits[cell]?.getD []) (digits[peer]?.getD []))

def description (side : Nat) (digits : List (List Nat)) : List (Call Nat) :=
  digits.map .newVariable ++ (List.range (side * side * (side * side))).flatMap fun cell =>
    (laterPeers (side * side) side cell).map (differCall digits cell)

/-- With as many candidates as there are cells none is missing, for a cell or for its peers. -/
theorem calls_eq_ok (hlength : digits.length = side * side * (side * side)) :
    calls (side * side) side digits = .ok (description side digits) := by
  have hpair : ∀ {cell peer : Nat}, cell < digits.length → peer < digits.length →
      pairCall digits.toArray cell peer = .ok (differCall digits cell peer) := by
    intro cell peer hcell hpeer
    have hfirst : Checked.get digits.toArray cell = .ok digits[cell] := Checked.get_of_lt hcell
    have hsecond : Checked.get digits.toArray peer = .ok digits[peer] := Checked.get_of_lt hpeer
    simp [pairCall, differCall, hfirst, hsecond, hcell, hpeer]
  have hcells : ∀ cell ∈ List.range (side * side * (side * side)),
      (laterPeers (side * side) side cell).mapM (pairCall digits.toArray cell) =
        .ok ((laterPeers (side * side) side cell).map (differCall digits cell)) := by
    intro cell hcell
    rw [List.mem_range] at hcell
    refine Checked.mapM_eq_ok_map fun peer hpeer => ?_
    obtain ⟨q, hq, _, rfl, _⟩ := (mem_laterPeers_iff hcell).1 hpeer
    exact hpair (hlength ▸ hcell) (hlength ▸ index_lt hq)
  rw [calls, Checked.mapM_eq_ok_map hcells, description, List.flatMap_def]
  rfl

/-- The calls are a variable for each cell and a constraint between any two cells that share a
unit, seen from the earlier one. -/
theorem mem_description {call : Call Nat} :
    call ∈ description side digits ↔
      (∃ candidates ∈ digits, call = .newVariable candidates) ∨
      ∃ p q, Inside (side * side) p ∧ Inside (side * side) q ∧ Share side p q ∧
        index (side * side) p < index (side * side) q ∧
        call = differCall digits (index (side * side) p) (index (side * side) q) := by
  simp only [description, List.mem_append, List.mem_map, List.mem_flatMap, List.mem_range]
  refine or_congr (by simp only [eq_comm]) ?_
  constructor
  · rintro ⟨var, hvar, peer, hpeer, rfl⟩
    obtain ⟨q, hq, hshare, rfl, hlt⟩ := (mem_laterPeers_iff hvar).1 hpeer
    refine ⟨cellOf (side * side) var, q, inside_cellOf.2 hvar, hq, hshare, ?_⟩
    rw [index_cellOf]
    exact ⟨hlt, rfl⟩
  · rintro ⟨p, q, hp, hq, hshare, hlt, rfl⟩
    refine ⟨index (side * side) p, index_lt hp, index (side * side) q, ?_, rfl⟩
    rw [mem_laterPeers_iff (index_lt hp), cellOf_index hp]
    exact ⟨q, hq, hshare, rfl, hlt⟩

theorem domains_description : Call.domains (description side digits) = digits := by
  refine Call.domains_newVariable_append digits fun call hcall => ?_
  obtain ⟨cell, _, hcall⟩ := List.mem_flatMap.1 hcall
  obtain ⟨q, _, rfl⟩ := List.mem_map.1 hcall
  nofun

/-- The calls make a problem, whatever the candidates of the cells. -/
theorem description_acceptable (hlength : digits.length = side * side * (side * side)) :
    Call.Acceptable (description side digits) := by
  have hends : ∀ call ∈ description side digits, ∀ {a b : VarId},
      call.ends? = some (a, b) → a < b ∧ b < side * side * (side * side) := by
    intro call hcall a b hends
    obtain ⟨_, _, rfl⟩ | ⟨p, q, _, hq, _, hlt, rfl⟩ := mem_description.1 hcall
    · cases hends
    · cases hends
      exact ⟨hlt, index_lt hq⟩
  have hcandidates : ∀ {var : VarId} {x : Nat}, x ∈ digits[var]?.getD [] →
      x ∈ Call.candidates (description side digits) := by
    intro var x hx
    rw [Call.candidates, domains_description, List.mem_flatten]
    cases hvar : digits[var]? with
    | none => simp [hvar] at hx
    | some candidates =>
        rw [hvar] at hx
        exact ⟨candidates, List.mem_of_getElem? hvar, hx⟩
  refine ⟨?_, ?_, ?_⟩
  · intro call hcall a b h
    obtain ⟨hlt, hb⟩ := hends call hcall h
    rw [domains_description, hlength]
    exact ⟨Nat.lt_trans hlt hb, hb⟩
  · intro call hcall a b h
    exact Nat.ne_of_lt (hends call hcall h).1
  · intro a b allowed hcall x y hin
    obtain ⟨_, _, h⟩ | ⟨p, q, _, _, _, _, h⟩ := mem_description.1 hcall
    · cases h
    · cases h
      obtain ⟨hx, hy, _⟩ := mem_differing.1 hin
      exact ⟨hcandidates hx, hcandidates hy⟩

/-- Values taken from the candidates solve the calls when cells that share a unit differ. -/
theorem solution_description_iff :
    Call.Solution (description side digits) values ↔
      List.Forall₂ (fun value candidates => value ∈ candidates) values digits ∧
        ∀ p q, Inside (side * side) p → Inside (side * side) q → p ≠ q → Share side p q →
          ∃ x y, values[index (side * side) p]? = some x ∧
            values[index (side * side) q]? = some y ∧ x ≠ y := by
  constructor
  · intro h
    have hdiffer : ∀ {p q}, Inside (side * side) p → Inside (side * side) q → Share side p q →
        index (side * side) p < index (side * side) q →
        ∃ x y, values[index (side * side) p]? = some x ∧
          values[index (side * side) q]? = some y ∧ x ≠ y := by
      intro p q hp hq hshare hlt
      obtain ⟨x, y, hx, hy, hin⟩ :=
        h.related (mem_description.2 (.inr ⟨p, q, hp, hq, hshare, hlt, rfl⟩))
      exact ⟨x, y, hx, hy, (mem_differing.1 hin).2.2⟩
    have hcandidates := h.candidates
    rw [domains_description] at hcandidates
    refine ⟨hcandidates, fun p q hp hq hne hshare => ?_⟩
    rcases Nat.lt_trichotomy (index (side * side) p) (index (side * side) q) with hlt | heq | hlt
    · exact hdiffer hp hq hshare hlt
    · exact absurd (index_inj hp hq heq) hne
    -- The constraint is stated once, from the earlier of the two cells.
    · obtain ⟨y, x, hy, hx, hyx⟩ := hdiffer hq hp hshare.symm hlt
      exact ⟨x, y, hx, hy, hyx.symm⟩
  · rintro ⟨hcandidates, hdiffer⟩
    refine ⟨by rwa [domains_description], fun hcall => ?_⟩
    obtain ⟨_, _, h⟩ | ⟨p, q, hp, hq, hshare, hlt, h⟩ := mem_description.1 hcall
    · cases h
    · cases h
      have hne : p ≠ q := by
        rintro rfl
        exact Nat.lt_irrefl _ hlt
      obtain ⟨x, y, hx, hy, hxy⟩ := hdiffer p q hp hq hne hshare
      obtain ⟨first, hfirst, hin⟩ := Checked.exists_of_forall₂_left hcandidates hx
      obtain ⟨second, hsecond, hin'⟩ := Checked.exists_of_forall₂_left hcandidates hy
      refine ⟨x, y, hx, hy, mem_differing.2 ?_⟩
      rw [hfirst, hsecond]
      exact ⟨hin, hin', hxy⟩

end Calls

/-! ## Candidates -/

def choices (size clue : Nat) : List Nat :=
  if clue = 0 then (List.range size).map (· + 1) else [clue]

theorem mem_choices {size clue digit : Nat} (hclue : clue ≤ size) :
    digit ∈ choices size clue ↔ (1 ≤ digit ∧ digit ≤ size) ∧ (clue ≠ 0 → digit = clue) := by
  unfold choices
  split
  next hzero =>
    simp only [List.mem_map, List.mem_range, hzero, ne_eq, not_true, false_imp_iff, and_true]
    constructor
    · rintro ⟨n, hn, rfl⟩
      omega
    · intro h
      exact ⟨digit - 1, by omega, by omega⟩
  next hpos =>
    rw [List.mem_singleton]
    omega

theorem candidatesOf_eq_ok {size row col clue : Nat} {found : List Nat} :
    candidatesOf size row col clue = .ok found ↔ clue ≤ size ∧ found = choices size clue := by
  unfold candidatesOf choices
  by_cases hzero : clue = 0
  · simp [hzero, eq_comm]
  · by_cases hle : clue ≤ size
    · simp [hzero, hle, eq_comm]
    · simp [hzero, hle]

theorem mapM_zipIdx_eq_ok {α β : Type} {f : α × Nat → Except ModelError β} {P : α → Prop}
    {g : α → β} (hf : ∀ x i y, f (x, i) = .ok y ↔ P x ∧ y = g x) {xs : List α} {start : Nat}
    {ys : List β} : (xs.zipIdx start).mapM f = .ok ys ↔ (∀ x ∈ xs, P x) ∧ ys = xs.map g := by
  induction xs generalizing start ys with
  | nil => simp [eq_comm]
  | cons x xs ih =>
      rw [List.zipIdx_cons, List.mapM_cons]
      simp only [Checked.bind_eq_ok, hf, ih, List.forall_mem_cons, List.map_cons,
        Checked.pure_eq_ok, Except.ok.injEq]
      constructor
      · rintro ⟨_, ⟨hx, rfl⟩, _, ⟨hxs, rfl⟩, rfl⟩
        exact ⟨⟨hx, hxs⟩, rfl⟩
      · rintro ⟨⟨hx, hxs⟩, rfl⟩
        exact ⟨_, ⟨hx, rfl⟩, _, ⟨hxs, rfl⟩, rfl⟩

theorem rowCandidates_eq_ok {size number : Nat} {cells : List Nat} {found : List (List Nat)} :
    rowCandidates size (cells, number) = .ok found ↔
      (cells.length = size ∧ ∀ clue ∈ cells, clue ≤ size) ∧ found = cells.map (choices size) := by
  unfold rowCandidates
  dsimp only
  by_cases hlength : cells.length = size
  · simp only [hlength, ne_eq, not_true, if_false, true_and]
    exact mapM_zipIdx_eq_ok fun clue col found => candidatesOf_eq_ok
  · simp [hlength]

theorem candidates_eq_ok {size : Nat} {board found : List (List Nat)} :
    candidates size board = .ok found ↔
      (∀ cells ∈ board, cells.length = size ∧ ∀ clue ∈ cells, clue ≤ size) ∧
        found = board.flatten.map (choices size) := by
  simp only [candidates, Checked.bind_eq_ok, mapM_zipIdx_eq_ok fun _ _ _ => rowCandidates_eq_ok,
    Checked.pure_eq_ok, Except.ok.injEq]
  rw [List.map_flatten]
  constructor
  · rintro ⟨_, ⟨hcells, rfl⟩, rfl⟩
    exact ⟨hcells, rfl⟩
  · rintro ⟨hcells, rfl⟩
    exact ⟨_, ⟨hcells, rfl⟩, rfl⟩

/-! ## The side of a box -/

theorem boxSide_mul_self {side : Nat} (hside : 0 < side) : boxSide (side * side) = side := by
  have hfind : ((List.range (side * side)).map (· + 1)).find?
      (fun other => side * side ≤ other * other) = some side := by
    rw [List.find?_eq_some_iff_getElem]
    have hle : side ≤ side * side := Nat.le_mul_of_pos_left side hside
    refine ⟨by simp, side - 1, by simp; omega, by simp; omega, fun j hj => ?_⟩
    have hlt : (j + 1) * (j + 1) < side * side := Nat.mul_self_lt_mul_self (by omega)
    simpa using hlt
  rw [boxSide, hfind, Option.getD_some]

/-! ## Solutions -/

section Solutions

variable {side : Nat} {board grid : List (List Nat)}

def boardCalls (side : Nat) (board : List (List Nat)) : List (Call Nat) :=
  description side (board.flatten.map (choices (side * side)))

/-- The cells of a grid are among the candidates when they are digits and keep the clues. -/
theorem candidates_iff (hboard : Acceptable side board) (hgrid : Square (side * side) grid) :
    List.Forall₂ (fun value candidates => value ∈ candidates) grid.flatten
        (board.flatten.map (choices (side * side))) ↔
      (∀ cells ∈ grid, ∀ digit ∈ cells, 1 ≤ digit ∧ digit ≤ side * side) ∧
        ∀ cell clue, digitAt? board cell = some clue → clue ≠ 0 →
          digitAt? grid cell = some clue := by
  have hclue : ∀ clue ∈ board.flatten, clue ≤ side * side := by
    intro clue hclue
    obtain ⟨cells, hcells, hin⟩ := List.mem_flatten.1 hclue
    exact hboard.clues cells hcells clue hin
  -- A clue and the digit of its cell stand at the same place of the flattened boards.
  rw [List.forall₂_map_right_iff]
  constructor
  · intro h
    constructor
    · intro cells hcells digit hdigit
      obtain ⟨i, hi⟩ := List.getElem?_of_mem (List.mem_flatten.2 ⟨cells, hcells, hdigit⟩)
      obtain ⟨clue, hget, hchoice⟩ := Checked.exists_of_forall₂_left h hi
      exact ((mem_choices (hclue clue (List.mem_of_getElem? hget))).1 hchoice).1
    · intro cell clue hget hpos
      have hinside := hboard.square.exists_digitAt?.1 ⟨clue, hget⟩
      rw [hboard.square.digitAt?_eq hinside.2] at hget
      obtain ⟨digit, hdigit, hchoice⟩ := Checked.exists_of_forall₂_right h hget
      rw [hgrid.digitAt?_eq hinside.2, hdigit,
        ((mem_choices (hclue clue (List.mem_of_getElem? hget))).1 hchoice).2 hpos]
  · rintro ⟨hdigits, hclues⟩
    have hlength : grid.flatten.length = board.flatten.length := by
      rw [hgrid.length_flatten, hboard.square.length_flatten]
    refine List.forall₂_iff_get.2 ⟨hlength, fun i hi hi' => ?_⟩
    have hinside : Inside (side * side) (cellOf (side * side) i) := by
      rwa [inside_cellOf, ← hgrid.length_flatten]
    have hdigit := hgrid.digitAt?_eq hinside.2
    have hgiven := hboard.square.digitAt?_eq hinside.2
    rw [← index, index_cellOf, List.getElem?_eq_getElem hi] at hdigit
    rw [← index, index_cellOf, List.getElem?_eq_getElem hi'] at hgiven
    obtain ⟨cells, hcells, hin⟩ := List.mem_flatten.1 (List.getElem_mem hi)
    refine (mem_choices (hclue _ (List.getElem_mem hi'))).2 ⟨hdigits cells hcells _ hin, ?_⟩
    intro hpos
    exact Option.some.inj (hdigit.symm.trans (hclues _ _ hgiven hpos))

theorem solution_iff_fills (hboard : Acceptable side board) (hgrid : Square (side * side) grid) :
    Call.Solution (boardCalls side board) grid.flatten ↔ Fills side board grid := by
  have hdigitAt : ∀ {cell}, Inside (side * side) cell →
      digitAt? grid cell = grid.flatten[index (side * side) cell]? :=
    fun hinside => hgrid.digitAt?_eq hinside.2
  rw [boardCalls, solution_description_iff, candidates_iff hboard hgrid]
  constructor
  · rintro ⟨⟨hdigits, hclues⟩, hdiffer⟩
    refine ⟨hgrid, hdigits, hclues, (forall_units_nodup_iff hboard.positive hgrid).2 ?_⟩
    intro p q hne hshare digit hp hq
    have hinside := hgrid.exists_digitAt?.1 ⟨digit, hp⟩
    have hinside' := hgrid.exists_digitAt?.1 ⟨digit, hq⟩
    obtain ⟨x, y, hx, hy, hxy⟩ := hdiffer p q hinside hinside' hne hshare
    rw [hdigitAt hinside, hx] at hp
    rw [hdigitAt hinside', hy] at hq
    exact hxy ((Option.some.inj hp).trans (Option.some.inj hq).symm)
  · intro h
    refine ⟨⟨h.digits, h.clues⟩, fun p q hp hq hne hshare => ?_⟩
    obtain ⟨x, hx⟩ := hgrid.exists_digitAt?.2 hp
    obtain ⟨y, hy⟩ := hgrid.exists_digitAt?.2 hq
    refine ⟨x, y, (hdigitAt hp).symm.trans hx, (hdigitAt hq).symm.trans hy, ?_⟩
    rintro rfl
    exact (forall_units_nodup_iff hboard.positive hgrid).1 h.distinct p q hne hshare x hx hy

theorem boardCalls_acceptable (hboard : Acceptable side board) :
    Call.Acceptable (boardCalls side board) := by
  refine description_acceptable ?_
  rw [List.length_map, hboard.square.length_flatten]

theorem candidates_of_acceptable (hboard : Acceptable side board) :
    candidates (side * side) board = .ok (board.flatten.map (choices (side * side))) :=
  candidates_eq_ok.2
    ⟨fun cells hcells => ⟨hboard.square.cells cells hcells, hboard.clues cells hcells⟩, rfl⟩

theorem calls_of_acceptable (hboard : Acceptable side board) :
    calls (side * side) side (board.flatten.map (choices (side * side))) =
      .ok (boardCalls side board) := by
  refine calls_eq_ok ?_
  rw [List.length_map, hboard.square.length_flatten]

end Solutions

/-! ## Solving a board -/

theorem ofInput_of_acceptable {input : SudokuInput} {side : Nat}
    (hboard : Acceptable side input.board) :
    ∃ p, Problem.ofCalls (boardCalls side input.board) = .ok p ∧
      ofInput input = .ok (.ok ⟨input.name, side * side, side, p⟩) := by
  obtain ⟨p, hp⟩ := Problem.exists_ofCalls_iff.2 (boardCalls_acceptable hboard)
  have hne : side * side ≠ 0 := Nat.ne_of_gt (Nat.mul_pos hboard.positive hboard.positive)
  refine ⟨p, hp, ?_⟩
  simp only [ofInput, hboard.square.rows, boxSide_mul_self hboard.positive, hne, ne_eq, not_true,
    decide_false, Bool.or_false, Bool.false_eq_true, if_false, candidates_of_acceptable hboard,
    ofCandidates, calls_of_acceptable hboard, Checked.ok_bind, hp, Checked.pure_eq_ok]

/-- A board that is not well formed is turned down before its calls are made. -/
theorem ofInput_of_not_acceptable {input : SudokuInput}
    (h : ∀ side, ¬ Acceptable side input.board) : ∃ error, ofInput input = .ok (.error error) := by
  unfold ofInput
  simp only [Bool.or_eq_true, decide_eq_true_eq]
  split
  next hsize => exact ⟨_, rfl⟩
  next hsize =>
    obtain ⟨hne, hsquare⟩ := not_or.1 hsize
    rw [Decidable.not_not] at hsquare
    cases hdigits : candidates input.board.length input.board with
    | error error => exact ⟨error, rfl⟩
    | ok digits =>
        have hcells := (candidates_eq_ok.1 hdigits).1
        refine absurd ?_ (h (boxSide input.board.length))
        rw [← hsquare] at hne
        refine ⟨Nat.pos_of_ne_zero fun hzero => hne (by rw [hzero]), ?_, ?_⟩ <;> rw [hsquare]
        · exact ⟨rfl, fun cells hin => (hcells cells hin).1⟩
        · exact fun cells hin => (hcells cells hin).2

theorem ofInput_spec (input : SudokuInput) :
    ∃ outcome, ofInput input = .ok outcome ∧
      ((∃ s, outcome = .ok s) ↔ ∃ side, Acceptable side input.board) := by
  by_cases h : ∃ side, Acceptable side input.board
  · obtain ⟨side, hboard⟩ := h
    obtain ⟨p, _, hinput⟩ := ofInput_of_acceptable hboard
    exact ⟨_, hinput, iff_of_true ⟨_, rfl⟩ ⟨side, hboard⟩⟩
  · obtain ⟨error, hinput⟩ := ofInput_of_not_acceptable (not_exists.1 h)
    exact ⟨_, hinput, iff_of_false nofun h⟩

/-- A board is accepted exactly when it is well formed. Solving it always comes to an end, with a
grid exactly when the board can be filled, and then every digit stands in every unit once. -/
theorem solve_fills (input : SudokuInput) :
    (∃ outcome, ofInput input = .ok outcome ∧
      ((∃ s, outcome = .ok s) ↔ ∃ side, Acceptable side input.board)) ∧
      ∀ s, ofInput input = .ok (.ok s) → ∀ side, Acceptable side input.board →
        ∀ config : Config, ∃ solved, s.solve config = .ok solved ∧
          (solved.grid?.isSome ↔ ∃ grid, Fills side input.board grid) ∧
          ∀ grid, solved.grid? = some grid → Fills side input.board grid ∧
            ∀ unit ∈ units side, ∀ digit, 1 ≤ digit → digit ≤ side * side →
              (digitsIn grid unit).count digit = 1 := by
  refine ⟨ofInput_spec input, fun s hs side hboard config => ?_⟩
  obtain ⟨p, hp, hinput⟩ := ofInput_of_acceptable hboard
  obtain rfl := Except.ok.inj (Except.ok.inj (hinput.symm.trans hs))
  obtain ⟨_, report, _, hsolve, _, hsolved, hsound⟩ :=
    (Problem.faithful_of_ofCalls hp).exists_report ⟨.recursive, config⟩
  have hfilled : ∀ {values : List Nat}, Call.Solution (boardCalls side input.board) values →
      Fills side input.board (SolvedSudoku.rowsOf (side * side) (side * side) values) := by
    intro values hvalues
    have hlength : values.length = side * side * (side * side) := by
      have hcount := hvalues.candidates.length_eq
      rwa [boardCalls, domains_description, List.length_map, hboard.square.length_flatten] at hcount
    rw [← flatten_rowsOf hlength] at hvalues
    exact (solution_iff_fills hboard (square_rowsOf hlength)).1 hvalues
  refine ⟨⟨⟨input.name, side * side, side, p⟩, report⟩, ?_, ?_, ?_⟩
  · rw [solve, Solver.recursive, hsolve]
    rfl
  · rw [SolvedSudoku.grid?, Option.isSome_map, ← Report.isSolved, hsolved]
    constructor
    · rintro ⟨values, hvalues⟩
      exact ⟨_, hfilled hvalues⟩
    · rintro ⟨grid, hgrid⟩
      exact ⟨_, (solution_iff_fills hboard hgrid.square).2 hgrid⟩
  · intro grid hgrid
    obtain ⟨assignment, hassignment, rfl⟩ := Option.map_eq_some_iff.1 hgrid
    have hfills := hfilled (hsound assignment hassignment)
    exact ⟨hfills, fun unit hunit digit hpos hle =>
      hfills.count_eq_one hboard.positive hunit hpos hle⟩

def small : SudokuInput :=
  ⟨"small", [[1, 0, 0, 0], [0, 0, 3, 0], [0, 4, 0, 0], [0, 0, 0, 2]]⟩

theorem fills_small :
    Fills 2 small.board [[1, 3, 2, 4], [4, 2, 3, 1], [2, 4, 1, 3], [3, 1, 4, 2]] := by
  have hkept : ∀ row < 4, ∀ col < 4, ∀ clue ∈ digitAt? small.board (row, col), clue ≠ 0 →
      digitAt? [[1, 3, 2, 4], [4, 2, 3, 1], [2, 4, 1, 3], [3, 1, 4, 2]] (row, col) = some clue := by
    decide
  refine ⟨⟨by decide, by decide⟩, by decide, fun cell clue hclue => ?_, by decide⟩
  have hsquare : Square 4 small.board := ⟨by decide, by decide⟩
  obtain ⟨hrow, hcol⟩ := hsquare.exists_digitAt?.1 ⟨clue, hclue⟩
  exact hkept cell.1 hrow cell.2 hcol clue hclue

theorem solve_fills_small :
    ∃ s solved grid, ofInput small = .ok (.ok s) ∧ s.solve .standard = .ok solved ∧
      solved.grid? = some grid ∧ Acceptable 2 small.board ∧ Fills 2 small.board grid ∧
        (digitsIn grid (boxUnit 2 3)).count 4 = 1 := by
  obtain ⟨⟨outcome, hs, haccepted⟩, hsolve⟩ := solve_fills small
  have hboard : Acceptable 2 small.board := ⟨by decide, ⟨by decide, by decide⟩, by decide⟩
  obtain ⟨s, rfl⟩ := haccepted.2 ⟨2, hboard⟩
  obtain ⟨solved, hsolved, hiff, hgrid⟩ := hsolve s hs 2 hboard .standard
  obtain ⟨grid, hfound⟩ := Option.isSome_iff_exists.1 (hiff.2 ⟨_, fills_small⟩)
  obtain ⟨hfills, hcount⟩ := hgrid grid hfound
  exact ⟨s, solved, grid, hs, hsolved, hfound, hboard, hfills,
    hcount _ (by decide) 4 (by decide) (by decide)⟩

end BinaryCsp.Puzzle.Sudoku
