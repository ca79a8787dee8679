import BinaryCsp.Proofs.Puzzle.CircuitBoard

/-! # The drawn board is the layout

The pieces of a solved board are written cell by cell into one buffer, which holds the rows from the
top and is then cut into them. A cell of the board has its own place in the buffer, so a write
changes one cell and no other; and as the pieces of a layout lie apart, none is written over. What
the rows show is therefore the layout, as far as the buffer and the rows can be kept at all: a table
that cannot be addressed is refused.
-/

namespace BinaryCsp.Puzzle

open SolvedBoard

namespace SolvedBoard

/-! ## The buffer -/

def place (width height : Nat) (cell : Position) : Nat :=
  (height - (cell.y + 1)) * width + cell.x

def Within (width height : Nat) (cell : Position) : Prop := cell.x < width ∧ cell.y < height

structure Pictures (width height : Nat) (colour : Position → Char) (cells : Array Char) : Prop where
  size : cells.size = width * height
  colours : ∀ {cell : Position}, Within width height cell →
    cells[place width height cell]? = some (colour cell)

theorem eq_of_place_eq {width height : Nat} {cell other : Position}
    (hcell : Within width height cell) (hother : Within width height other)
    (h : place width height cell = place width height other) : cell = other := by
  obtain ⟨hx, hy⟩ := hcell
  obtain ⟨hx', hy'⟩ := hother
  have hpos : 0 < width := Nat.zero_lt_of_lt hx
  rw [place, place, Nat.add_comm, Nat.add_comm _ other.x] at h
  have hcolumn : cell.x = other.x := by
    have hmod := congrArg (· % width) h
    simpa only [Nat.add_mul_mod_self_right, Nat.mod_eq_of_lt hx, Nat.mod_eq_of_lt hx'] using hmod
  have hrow : height - (cell.y + 1) = height - (other.y + 1) := by
    have hdiv := congrArg (· / width) h
    simpa only [Nat.add_mul_div_right _ _ hpos, Nat.div_eq_of_lt hx, Nat.div_eq_of_lt hx',
      Nat.zero_add] using hdiv
  obtain ⟨x, y⟩ := cell
  obtain ⟨x', y'⟩ := other
  dsimp only at hcolumn hrow hy hy'
  rw [Position.mk.injEq]
  omega

theorem place_lt {width height : Nat} {cell : Position} (h : Within width height cell) :
    place width height cell < width * height := by
  obtain ⟨hx, hy⟩ := h
  have hrow : (height - (cell.y + 1) + 1) * width ≤ height * width :=
    Nat.mul_le_mul_right width (by omega)
  rw [Nat.succ_mul] at hrow
  rw [place, Nat.mul_comm width height]
  omega

theorem pictures_blank (width height : Nat) :
    Pictures width height (fun _ => '.') (Array.replicate (width * height) '.') where
  size := Array.size_replicate
  colours h := by rw [Array.getElem?_replicate, if_pos (place_lt h)]

/-! ## Drawing -/

def paint (label : Char) (listed : List Position) (colour : Position → Char) : Position → Char :=
  fun cell => if cell ∈ listed then label else colour cell

theorem paint_cons (label : Char) (first : Position) (rest : List Position)
    (colour : Position → Char) :
    paint label (first :: rest) colour = paint label rest (paint label [first] colour) := by
  funext cell
  by_cases hrest : cell ∈ rest <;> simp [paint, hrest]

section Draw

variable {width height : Nat} {colour : Position → Char} {cells : Array Char}

/-- Writing one cell changes its colour and no other. -/
theorem Pictures.write (h : Pictures width height colour cells) {cell : Position}
    (hcell : Within width height cell) (label : Char) :
    ∃ written, Checked.set cells (place width height cell) label = .ok written ∧
      Pictures width height (paint label [cell] colour) written := by
  have hlt : place width height cell < cells.size := h.size ▸ place_lt hcell
  refine ⟨_, Checked.set_of_lt hlt label, by rw [Array.size_set, h.size], fun {other} hother => ?_⟩
  rw [Array.getElem?_set, h.colours hother, paint]
  by_cases hsame : other = cell
  · simp [hsame]
  · have hplace : place width height cell ≠ place width height other :=
      fun heq => hsame (eq_of_place_eq hother hcell heq.symm)
    simp [hplace, hsame]

theorem draw_spec (h : Pictures width height colour cells) (label : Char) {listed : List Position}
    (hlisted : ∀ cell ∈ listed, Within width height cell) :
    ∃ drawn, draw width height label listed cells = .ok drawn ∧
      Pictures width height (paint label listed colour) drawn := by
  induction listed generalizing colour cells with
  | nil => exact ⟨cells, rfl, h⟩
  | cons cell rest ih =>
      obtain ⟨hcell, hrest⟩ := List.forall_mem_cons.1 hlisted
      obtain ⟨written, hwritten, hone⟩ := h.write hcell label
      obtain ⟨drawn, hdrawn, hall⟩ := ih hone hrest
      refine ⟨drawn, ?_, paint_cons label cell rest colour ▸ hall⟩
      rw [draw, Checked.sub_of_le hcell.2, Checked.ok_bind]
      rw [place] at hwritten
      rw [hwritten, Checked.ok_bind, hdrawn]

def painted (placed : List (Piece × Position)) (colour : Position → Char) : Position → Char :=
  placed.foldl (fun colour (p, corner) => paint p.label (covered p corner) colour) colour

theorem drawAll_spec (h : Pictures width height colour cells) {placed : List (Piece × Position)}
    (hplaced : ∀ entry ∈ placed, ∀ cell ∈ covered entry.1 entry.2, Within width height cell) :
    ∃ drawn, drawAll width height placed cells = .ok drawn ∧
      Pictures width height (painted placed colour) drawn := by
  induction placed generalizing colour cells with
  | nil => exact ⟨cells, rfl, h⟩
  | cons entry rest ih =>
      obtain ⟨p, corner⟩ := entry
      obtain ⟨hfirst, hrest⟩ := List.forall_mem_cons.1 hplaced
      obtain ⟨written, hwritten, hone⟩ := draw_spec h p.label hfirst
      obtain ⟨drawn, hdrawn, hall⟩ := ih hone hrest
      exact ⟨drawn, by rw [drawAll, hwritten, Checked.ok_bind, hdrawn], hall⟩

end Draw

theorem painted_of_uncovered {placed : List (Piece × Position)} {colour : Position → Char}
    {cell : Position} (h : ∀ entry ∈ placed, cell ∉ covered entry.1 entry.2) :
    painted placed colour cell = colour cell := by
  induction placed generalizing colour with
  | nil => rfl
  | cons entry rest ih =>
      obtain ⟨hfirst, hrest⟩ := List.forall_mem_cons.1 h
      rw [painted, List.foldl_cons, ← painted, ih hrest]
      exact if_neg hfirst

/-- A cell that one piece covers, and none after it, has the label of this piece. -/
theorem painted_of_covered {earlier later : List (Piece × Position)} {p : Piece}
    {corner cell : Position} {colour : Position → Char} (hcell : cell ∈ covered p corner)
    (hlater : ∀ entry ∈ later, cell ∉ covered entry.1 entry.2) :
    painted (earlier ++ (p, corner) :: later) colour cell = p.label := by
  rw [painted, List.foldl_append, List.foldl_cons, ← painted, painted_of_uncovered hlater]
  exact if_pos hcell

/-! ## Rows -/

section Rows

variable {width height count : Nat} {cells : List Char}

theorem rowsOf_succ (hcells : cells ≠ []) : rowsOf width (count + 1) cells =
    String.ofList (cells.take width) :: rowsOf width count (cells.drop width) := by
  cases cells with
  | nil => exact absurd rfl hcells
  | cons first rest => rfl

theorem rowsOf_eq (hwidth : 0 < width) (hlength : cells.length = height * width)
    (hcount : height ≤ count) : rowsOf width count cells =
      (List.range height).map fun row => String.ofList ((cells.drop (row * width)).take width) := by
  induction height generalizing count cells with
  | zero =>
      obtain rfl := List.length_eq_zero_iff.1 (hlength.trans (Nat.zero_mul width))
      rw [rowsOf]
      rfl
  | succ height ih =>
      rw [Nat.succ_mul] at hlength
      obtain ⟨count, rfl⟩ := Nat.exists_eq_add_of_lt (Nat.lt_of_succ_le hcount)
      have hcells : cells ≠ [] := List.ne_nil_of_length_pos (by omega)
      have hrest : (cells.drop width).length = height * width := by
        rw [List.length_drop, hlength, Nat.add_sub_cancel]
      rw [rowsOf_succ hcells, ih hrest (Nat.le_add_right _ _), List.range_succ_eq_map,
        List.map_cons, List.map_map, Nat.zero_mul, List.drop_zero]
      refine congrArg _ (List.map_congr_left fun row _ => ?_)
      rw [Function.comp_apply, List.drop_drop, Nat.succ_mul, Nat.add_comm width]

theorem length_rowsOf (hwidth : 0 < width) (hlength : cells.length = height * width)
    (hcount : height ≤ count) : (rowsOf width count cells).length = height := by
  rw [rowsOf_eq hwidth hlength hcount, List.length_map, List.length_range]

theorem length_of_mem_rowsOf (hwidth : 0 < width) (hlength : cells.length = height * width)
    (hcount : height ≤ count) {row : String} (hrow : row ∈ rowsOf width count cells) :
    row.length = width := by
  rw [rowsOf_eq hwidth hlength hcount] at hrow
  obtain ⟨r, hr, rfl⟩ := List.mem_map.1 hrow
  have hr : (r + 1) * width ≤ height * width :=
    Nat.mul_le_mul_right width (List.mem_range.1 hr)
  rw [Nat.succ_mul] at hr
  rw [String.length_ofList, List.length_take, List.length_drop]
  omega

theorem exists_rowsOf (hwidth : 0 < width) (hlength : cells.length = height * width)
    (hcount : height ≤ count) {row x : Nat} (hrow : row < height) (hx : x < width) :
    ∃ text, (rowsOf width count cells)[row]? = some text ∧
      text.toList[x]? = cells[row * width + x]? := by
  rw [rowsOf_eq hwidth hlength hcount]
  refine ⟨_, by rw [List.getElem?_map, List.getElem?_range hrow, Option.map_some], ?_⟩
  rw [String.toList_ofList, List.getElem?_take, if_pos hx, List.getElem?_drop]

end Rows

/-! ## The drawn board -/

/-- The character that stands for a cell in rows that are given from the top. -/
def shown? (height : Nat) (rows : List String) (cell : Position) : Option Char := do
  (← rows[height - 1 - cell.y]?).toList[cell.x]?

/-- The rows show the pieces of a board at the corners of their labels, and nothing else. -/
structure Depicts (board : CircuitBoard) (corner : Char → Position) (rows : List String) :
    Prop where
  height : rows.length = board.height
  width : ∀ row ∈ rows, row.length = board.width
  /-- What is drawn lies on the board, and its place in the buffer. -/
  inside : ∀ p ∈ board.pieces, ∀ cell ∈ covered p (corner p.label),
    Within board.width board.height cell ∧
      place board.width board.height cell < board.width * board.height
  /-- A cell shows the label of the one piece that covers it. -/
  piece : ∀ p ∈ board.pieces, ∀ cell ∈ covered p (corner p.label),
    shown? board.height rows cell = some p.label ∧
      ∀ q ∈ board.pieces, cell ∈ covered q (corner q.label) → q = p
  /-- A cell that no piece covers shows a point. -/
  empty : ∀ cell, Within board.width board.height cell →
    (∀ p ∈ board.pieces, cell ∉ covered p (corner p.label)) →
      shown? board.height rows cell = some '.'
  /-- The cells that show a label are those of its piece. -/
  label : ∀ p ∈ board.pieces, p.label ≠ '.' → ∀ cell,
    cell ∈ covered p (corner p.label) ↔
      Within board.width board.height cell ∧ shown? board.height rows cell = some p.label

theorem Pictures.shown?_rowsOf {width height : Nat} {colour : Position → Char}
    {cells : Array Char} (h : Pictures width height colour cells) {cell : Position}
    (hcell : Within width height cell) :
    shown? height (rowsOf width cells.size cells.toList) cell = some (colour cell) := by
  obtain ⟨hx, hy⟩ := id hcell
  have hwidth : 0 < width := Nat.zero_lt_of_lt hx
  have hlength : cells.toList.length = height * width := by
    rw [Array.length_toList, h.size, Nat.mul_comm]
  have hcount : height ≤ cells.size := h.size ▸ Nat.le_mul_of_pos_left height hwidth
  obtain ⟨text, htext, hat⟩ := exists_rowsOf hwidth hlength hcount
    (show height - 1 - cell.y < height by omega) hx
  rw [shown?, htext]
  simp only [Option.bind_eq_bind, Option.bind_some]
  rw [hat, ← h.colours hcell, place, Array.getElem?_toList, Nat.sub_sub, Nat.add_comm 1]

end SolvedBoard

namespace CircuitBoard

variable {input : BoardInput} {board : CircuitBoard}

def colouring (pieces : List Piece) (corner : Char → Position) : Position → Char :=
  painted (pieces.map fun p => (p, corner p.label)) fun _ => '.'

section Layout

variable {pieces : List Piece} {corner : Char → Position} {p : Piece} {cell : Position}

theorem colouring_of_uncovered (h : ∀ p ∈ pieces, cell ∉ covered p (corner p.label)) :
    colouring pieces corner cell = '.' :=
  painted_of_uncovered (List.forall_mem_map.2 h)

variable (hpieces : input.entries.mapM Piece.ofEntry = .ok pieces) (hlays : input.Lays corner)

include hpieces hlays

theorem eq_of_covered {q : Piece} (hp : p ∈ pieces) (hq : q ∈ pieces)
    (hcell : cell ∈ covered p (corner p.label)) (hcell' : cell ∈ covered q (corner q.label)) :
    q = p := by
  by_cases hlabel : p.label = q.label
  · exact List.inj_on_of_nodup_map (BoardInput.nodup_labels hpieces) hq hp hlabel.symm
  · rw [BoardInput.mem_pieces hpieces] at hp hq
    exact absurd hcell' (hlays.apart p q hp hq hlabel cell hcell)

theorem colouring_of_covered (hp : p ∈ pieces) (hcell : cell ∈ covered p (corner p.label)) :
    colouring pieces corner cell = p.label := by
  obtain ⟨earlier, later, hsplit⟩ := List.append_of_mem hp
  have hlater : ∀ q ∈ later, cell ∉ covered q (corner q.label) := by
    intro q hq hcell'
    have hsame := eq_of_covered hpieces hlays hp (by simp [hsplit, hq]) hcell hcell'
    -- A later piece that covered the cell would be this one, which is listed once.
    have hnodup := List.Nodup.of_map _ (BoardInput.nodup_labels hpieces)
    rw [hsplit] at hnodup
    exact (List.nodup_cons.1 (List.nodup_append.1 hnodup).2.1).1 (hsame ▸ hq)
  rw [colouring, hsplit, List.map_append, List.map_cons]
  exact painted_of_covered hcell (List.forall_mem_map.2 hlater)

theorem depicts_of_pictures (hwidth : 0 < input.width) {problem : Problem Position}
    {cells : Array Char}
    (hcells : Pictures input.width input.height (colouring pieces corner) cells) :
    Depicts ⟨input.name, input.width, input.height, pieces, problem⟩ corner
      (rowsOf input.width cells.size cells.toList) := by
  have hlength : cells.toList.length = input.height * input.width := by
    rw [Array.length_toList, hcells.size, Nat.mul_comm]
  have hcount : input.height ≤ cells.size :=
    hcells.size ▸ Nat.le_mul_of_pos_left input.height hwidth
  have hinside : ∀ p ∈ pieces, ∀ cell ∈ covered p (corner p.label),
      Within input.width input.height cell :=
    fun p hp => hlays.inside p ((BoardInput.mem_pieces hpieces).1 hp)
  refine ⟨length_rowsOf hwidth hlength hcount,
    fun row => length_of_mem_rowsOf hwidth hlength hcount,
    fun p hp cell hcell => ⟨hinside p hp cell hcell, place_lt (hinside p hp cell hcell)⟩,
    ?_, ?_, ?_⟩
  · intro p hp cell hcell
    refine ⟨?_, fun q hq => eq_of_covered hpieces hlays hp hq hcell⟩
    rw [hcells.shown?_rowsOf (hinside p hp cell hcell), colouring_of_covered hpieces hlays hp hcell]
  · intro cell hwithin huncovered
    rw [hcells.shown?_rowsOf hwithin, colouring_of_uncovered huncovered]
  · intro p hp hlabel cell
    constructor
    · intro hcell
      refine ⟨hinside p hp cell hcell, ?_⟩
      rw [hcells.shown?_rowsOf (hinside p hp cell hcell),
        colouring_of_covered hpieces hlays hp hcell]
    · rintro ⟨hwithin, hshown⟩
      rw [hcells.shown?_rowsOf hwithin, Option.some.injEq] at hshown
      by_cases hcovered : ∃ q ∈ pieces, cell ∈ covered q (corner q.label)
      · obtain ⟨q, hq, hcell⟩ := hcovered
        rw [colouring_of_covered hpieces hlays hq hcell] at hshown
        have hsame := List.inj_on_of_nodup_map (BoardInput.nodup_labels hpieces) hq hp hshown
        exact hsame ▸ hcell
      · rw [colouring_of_uncovered (by simpa using hcovered)] at hshown
        exact absurd hshown.symm hlabel

end Layout

/-- The cells of a solved board are drawn, if they can be kept at four bytes each. What is then left
is to keep the rows. -/
theorem exists_drawn (hrange : input.InRange) (hboard : ofInput input = .ok (.ok board))
    (hwidth : 1 ≤ board.width) (hcells : board.width * board.height * 4 < Checked.byteLimit)
    {config : Config} {solved : SolvedBoard} (hsolve : board.solve config = .ok solved)
    (hsolved : solved.report.isSolved = true) :
    ∃ cells corner, solved.rows? = some <$> rowsOf? board.width cells ∧
      (∀ p ∈ board.pieces, solved.positionOf? p.label = .ok (some (corner p.label))) ∧
      Depicts board corner (rowsOf board.width cells.size cells.toList) := by
  obtain ⟨_, hsolve', hsame, _, hreported⟩ := exists_layout hrange hboard config
  obtain rfl := Except.ok.inj (hsolve.symm.trans hsolve')
  obtain ⟨assignment, corner, hassignment, hlays, hvalues, htold⟩ := hreported hsolved
  obtain ⟨outcome, hinput, _, hboards⟩ := ofInput_spec hrange
  obtain rfl := Except.ok.inj (hinput.symm.trans hboard)
  obtain ⟨pieces, p, hpieces, _, rfl⟩ := hboards board rfl
  dsimp only at hwidth hcells hvalues htold ⊢
  obtain ⟨cells, hdrawn, hpictures⟩ : ∃ cells, drawAll input.width input.height
      (pieces.map fun p => (p, corner p.label)) (Array.replicate (input.width * input.height) '.') =
        .ok cells ∧ Pictures input.width input.height (colouring pieces corner) cells := by
    refine drawAll_spec (pictures_blank input.width input.height) (List.forall_mem_map.2 ?_)
    exact fun q hq => hlays.inside q ((BoardInput.mem_pieces hpieces).1 hq)
  refine ⟨cells, corner, ?_, htold, depicts_of_pictures hpieces hlays hwidth hpictures⟩
  simp only [rows?, hassignment, hsame, hvalues]
  rw [blank, Checked.room, if_pos hcells, ← List.map_prod_left_eq_zip]
  simp only [Checked.ok_bind, Checked.pure_eq_ok, hdrawn]
  rfl

/-- A board that is solved is drawn, if its cells can be kept at four bytes each and its rows at
twenty-four. The rows are as many and as long as the board has them, and show its layout: every cell
the label of the one piece that covers it, or a point if there is none. -/
theorem rows_depict_layout (hrange : input.InRange) (hboard : ofInput input = .ok (.ok board))
    (hwidth : 1 ≤ board.width) (hcells : board.width * board.height * 4 < Checked.byteLimit)
    (hrows : board.height * 24 < Checked.byteLimit) {config : Config} {solved : SolvedBoard}
    (hsolve : board.solve config = .ok solved) (hsolved : solved.report.isSolved = true) :
    ∃ rows corner, solved.rows? = .ok (some rows) ∧
      (∀ p ∈ board.pieces, solved.positionOf? p.label = .ok (some (corner p.label))) ∧
      Depicts board corner rows := by
  obtain ⟨cells, corner, hdrawn, htold, hdepicts⟩ :=
    exists_drawn hrange hboard hwidth hcells hsolve hsolved
  refine ⟨_, corner, ?_, htold, hdepicts⟩
  rw [hdrawn, rowsOf?, hdepicts.height, Checked.room, if_pos hrows]
  rfl

/-- The pieces fill the board, row zero last. -/
theorem rows_depict_layout_packed :
    ∃ board solved rows corner, ofInput packed = .ok (.ok board) ∧ packed.InRange ∧
      1 ≤ board.width ∧ board.width * board.height * 4 < Checked.byteLimit ∧
      board.height * 24 < Checked.byteLimit ∧
      board.solve .standard = .ok solved ∧ solved.report.isSolved = true ∧
      solved.rows? = .ok (some rows) ∧
      (∀ p ∈ board.pieces, solved.positionOf? p.label = .ok (some (corner p.label))) ∧
      Depicts board corner rows := by
  obtain ⟨outcome, hinput, haccepted, hmade⟩ := ofInput_spec inRange_packed
  obtain ⟨board, rfl⟩ := haccepted.2 (packed.exists_pieces_iff.1 ⟨_, pieces_packed⟩)
  obtain ⟨solved, hsolve, _, hiff, _⟩ := exists_layout inRange_packed hinput .standard
  have hsolved := hiff.2 ⟨_, lays_packed⟩
  obtain ⟨pieces, p, _, _, rfl⟩ := hmade board rfl
  have hwidth : 1 ≤ packed.width := by decide
  have hcells : packed.width * packed.height * 4 < Checked.byteLimit := by decide
  have hrows : packed.height * 24 < Checked.byteLimit := by decide
  obtain ⟨rows, corner, hdrawn⟩ :=
    rows_depict_layout inRange_packed hinput hwidth hcells hrows hsolve hsolved
  exact ⟨_, solved, rows, corner, hinput, inRange_packed, hwidth, hcells, hrows, hsolve, hsolved,
    hdrawn⟩

example : (do
    let cells ← drawAll 3 2 [(⟨'a', 3, 1⟩, ⟨0, 0⟩), (⟨'b', 1, 1⟩, ⟨0, 1⟩)] (← blank 3 2)
    rowsOf? 3 cells) = .ok ["b..", "aaa"] := by
  decide +kernel

/-! ## Boards that cannot be drawn -/

/-- A solved board is not drawn if its cells cannot be kept. -/
theorem rows?_of_large {solved : SolvedBoard} (hsolved : solved.report.isSolved = true)
    (hlarge : Checked.byteLimit ≤ solved.board.width * solved.board.height * 4) :
    solved.rows? = .error (.tooLarge (solved.board.width * solved.board.height)) := by
  obtain ⟨assignment, hassignment⟩ := Option.isSome_iff_exists.1 hsolved
  simp only [rows?, hassignment, blank, Checked.room, if_neg (Nat.not_lt.2 hlarge),
    Checked.error_bind]

/-- Neither is one whose rows cannot be kept, although its cells can. -/
theorem rows?_of_tall (hrange : input.InRange) (hboard : ofInput input = .ok (.ok board))
    (hwidth : 1 ≤ board.width) (hcells : board.width * board.height * 4 < Checked.byteLimit)
    (htall : Checked.byteLimit ≤ board.height * 24) {config : Config} {solved : SolvedBoard}
    (hsolve : board.solve config = .ok solved) (hsolved : solved.report.isSolved = true) :
    solved.rows? = .error (.tooLarge board.height) := by
  obtain ⟨cells, _, hdrawn, _, hdepicts⟩ :=
    exists_drawn hrange hboard hwidth hcells hsolve hsolved
  rw [hdrawn, rowsOf?, hdepicts.height, Checked.room, if_neg (Nat.not_lt.2 htall)]
  rfl

/-- One column without pieces, with fewer cells than there are machine words. -/
def column : BoardInput := ⟨"b", 1, 0x4000000000000000, []⟩

theorem rows?_of_large_column :
    ∃ board solved, ofInput column = .ok (.ok board) ∧ 1 ≤ board.width ∧
      board.width * board.height < wordCount ∧ board.solve .standard = .ok solved ∧
      solved.report.isSolved = true ∧
      solved.rows? = .error (.tooLarge (column.width * column.height)) := by
  obtain ⟨p, _, hinput⟩ := @ofInput_of_pieces column [] rfl nofun
  have hnone : ∀ p, ¬ column.HasPiece p := nofun
  have hrange : column.InRange := ⟨by decide, by decide, fun _ p hp => absurd hp (hnone p)⟩
  obtain ⟨solved, hsolve, hsame, hiff, _⟩ := exists_layout hrange hinput .standard
  have hsolved := hiff.2 ⟨fun _ => ⟨0, 0⟩, fun p hp => absurd hp (hnone p),
    fun p _ hp => absurd hp (hnone p)⟩
  have hwidth : 1 ≤ column.width := by decide
  have hwords : column.width * column.height < wordCount := by decide
  have hlarge : Checked.byteLimit ≤ column.width * column.height * 4 := by decide
  refine ⟨_, solved, hinput, hwidth, hwords, hsolve, hsolved, ?_⟩
  rw [rows?_of_large hsolved (by rw [hsame]; exact hlarge), hsame]

end CircuitBoard

end BinaryCsp.Puzzle
