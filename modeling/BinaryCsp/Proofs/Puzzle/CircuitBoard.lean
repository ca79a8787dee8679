import BinaryCsp.Proofs.Puzzle.Named
import BinaryCsp.Proofs.Representation
import BinaryCsp.Proofs.Text.Order
import BinaryCsp.Puzzle.CircuitBoard

/-! # The board problem is the board

A board is turned into calls whose solutions are its layouts, a corner for each piece in the order
of the labels. Pieces are compared by their sides; as the sides are not empty, that is the same as
comparing the cells they cover.
-/

namespace BinaryCsp.Puzzle

open SolvedBoard

/-- The number of value ids, of which a board uses one for each corner. -/
def idCount : Nat := 0x100000000

def wordCount : Nat := 0x10000000000000000

/-! ## Cells -/

namespace Piece

theorem mem_covered {p : Piece} {corner cell : Position} :
    cell ∈ covered p corner ↔
      (corner.x ≤ cell.x ∧ cell.x < corner.x + p.width) ∧
        corner.y ≤ cell.y ∧ cell.y < corner.y + p.height := by
  obtain ⟨x, y⟩ := cell
  simp only [covered, List.mem_flatMap, List.mem_map, List.mem_range'_1, Position.mk.injEq]
  constructor
  · rintro ⟨_, hx, _, hy, rfl, rfl⟩
    exact ⟨hx, hy⟩
  · rintro ⟨hx, hy⟩
    exact ⟨x, hx, y, hy, rfl, rfl⟩

def Solid (p : Piece) : Prop := 0 < p.width ∧ 0 < p.height

section Fitting

variable {p q : Piece} {width height : Nat} {corner other : Position}

theorem mem_fittingPositions :
    corner ∈ p.fittingPositions width height ↔
      corner.x + p.width ≤ width ∧ corner.y + p.height ≤ height := by
  obtain ⟨x, y⟩ := corner
  unfold fittingPositions
  split
  next hlarge =>
    simp only [Bool.or_eq_true, decide_eq_true_eq] at hlarge
    simp only [List.not_mem_nil, false_iff]
    omega
  next hfits =>
    simp only [Bool.or_eq_true, decide_eq_true_eq, not_or, Nat.not_lt] at hfits
    simp only [List.mem_flatMap, List.mem_map, List.mem_range, Position.mk.injEq]
    constructor
    · rintro ⟨_, hx, _, hy, rfl, rfl⟩
      omega
    · rintro ⟨hx, hy⟩
      exact ⟨x, by omega, y, by omega, rfl, rfl⟩

/-- The corners listed are those at which every cell of the piece is on the board. -/
theorem Solid.mem_fittingPositions_iff (hp : p.Solid) :
    corner ∈ p.fittingPositions width height ↔
      ∀ cell ∈ covered p corner, cell.x < width ∧ cell.y < height := by
  obtain ⟨hwidth, hheight⟩ := hp
  simp only [mem_fittingPositions, mem_covered]
  constructor
  · intro h cell hcell
    omega
  · intro h
    -- The cell at the far end of the piece.
    have hfar := h ⟨corner.x + p.width - 1, corner.y + p.height - 1⟩ (by dsimp only; omega)
    dsimp only at hfar
    omega

/-- Pieces lie apart when no cell is covered by both. -/
theorem Solid.clearOf_iff (hp : p.Solid) (hq : q.Solid) :
    p.clearOf corner q other = true ↔
      ∀ cell ∈ covered p corner, cell ∉ covered q other := by
  obtain ⟨hpw, hph⟩ := hp
  obtain ⟨hqw, hqh⟩ := hq
  simp only [clearOf, Bool.or_eq_true, decide_eq_true_eq, mem_covered]
  constructor
  · intro h cell hcell hcell'
    omega
  · intro h
    -- The lowest cell that is not to the left of either corner, nor below it.
    have hshared := h ⟨max corner.x other.x, max corner.y other.y⟩
    dsimp only at hshared
    omega

theorem length_fittingPositions (hwidth : p.width ≤ width) (hheight : p.height ≤ height) :
    (p.fittingPositions width height).length =
      (width - p.width + 1) * (height - p.height + 1) := by
  simp [fittingPositions, Nat.not_lt.2 hwidth, Nat.not_lt.2 hheight]

/-- The corners of one column can be kept if all corners are fewer than there are value ids. -/
theorem fittingPositions?_eq (hfew : (p.fittingPositions width height).length < idCount) :
    p.fittingPositions? width height = .ok (p.fittingPositions width height) := by
  unfold fittingPositions?
  by_cases hfits : p.width ≤ width ∧ p.height ≤ height
  · obtain ⟨hwidth, hheight⟩ := hfits
    rw [length_fittingPositions hwidth hheight] at hfew
    have hcolumn : height - p.height + 1 ≤ (width - p.width + 1) * (height - p.height + 1) :=
      Nat.le_mul_of_pos_left _ (Nat.succ_pos _)
    have hroom : (height - p.height + 1) * 16 < Checked.byteLimit := by
      rw [idCount] at hfew
      rw [Checked.byteLimit]
      omega
    simp [hwidth, hheight, Checked.room, hroom]
  · simp [hfits]

end Fitting

end Piece

/-! ## Machine words -/

def add64? (a b : Nat) : Option Nat := if a + b < wordCount then some (a + b) else none

def sub64? (a b : Nat) : Option Nat := if b ≤ a then some (a - b) else none

theorem add64?_of_le {a b bound : Nat} (h : a + b ≤ bound) (hbound : bound < wordCount) :
    add64? a b = some (a + b) :=
  if_pos (Nat.lt_of_le_of_lt h hbound)

namespace Piece

/-- `clearOf` in machine words: a sum is formed once the comparisons before it have failed. -/
def clearOf64? (p : Piece) (pAt : Position) (q : Piece) (qAt : Position) : Option Bool := do
  if (← add64? pAt.x p.width) ≤ qAt.x then return true
  if (← add64? qAt.x q.width) ≤ pAt.x then return true
  if (← add64? pAt.y p.height) ≤ qAt.y then return true
  return (← add64? qAt.y q.height) ≤ pAt.y

/-- `fittingPositions` in machine words. The ranges include their upper ends, which are the
differences themselves. -/
def fittingPositions64? (p : Piece) (width height : Nat) : Option (List Position) :=
  if width < p.width || height < p.height then some []
  else do
    let right ← sub64? width p.width
    let top ← sub64? height p.height
    return (List.range (right + 1)).flatMap fun x => (List.range (top + 1)).map fun y => ⟨x, y⟩

section Words

variable {p q : Piece} {width height : Nat} {corner other : Position}

/-- At corners on the board, no sum of `clearOf` exceeds the sides of the board. -/
theorem clearOf64?_eq (hwidth : width < wordCount) (hheight : height < wordCount)
    (hcorner : corner ∈ p.fittingPositions width height)
    (hother : other ∈ q.fittingPositions width height) :
    p.clearOf64? corner q other = some (p.clearOf corner q other) := by
  obtain ⟨hx, hy⟩ := mem_fittingPositions.1 hcorner
  obtain ⟨hx', hy'⟩ := mem_fittingPositions.1 hother
  simp only [clearOf64?, add64?_of_le hx hwidth, add64?_of_le hx' hwidth,
    add64?_of_le hy hheight, add64?_of_le hy' hheight, clearOf]
  by_cases hleft : corner.x + p.width ≤ other.x
  · simp [hleft]
  · by_cases hright : other.x + q.width ≤ corner.x
    · simp [hright]
    · by_cases hbelow : corner.y + p.height ≤ other.y <;> simp [hleft, hright, hbelow]

theorem fittingPositions64?_eq :
    p.fittingPositions64? width height = some (p.fittingPositions width height) := by
  unfold fittingPositions64? fittingPositions
  split
  next => rfl
  next hfits =>
    simp only [Bool.or_eq_true, decide_eq_true_eq, not_or, Nat.not_lt] at hfits
    simp only [sub64?, if_pos hfits.1, if_pos hfits.2]
    rfl

end Words

end Piece

/-! ## Pieces -/

namespace Piece

def entry (p : Piece) : String × Nat × Nat := (String.singleton p.label, p.width, p.height)

theorem ofEntry_eq_ok {given : String × Nat × Nat} {p : Piece} :
    ofEntry given = .ok p ↔ given = p.entry ∧ p.Solid := by
  obtain ⟨name, width, height⟩ := given
  obtain ⟨label, pw, ph⟩ := p
  rw [entry, Prod.mk.injEq, Prod.mk.injEq, ← String.toList_inj, String.toList_singleton]
  unfold ofEntry Solid
  dsimp only
  split
  next found hname =>
    simp only [hname, List.cons.injEq, and_true]
    by_cases hsides : 0 < width ∧ 0 < height
    · simp only [hsides, decide_true, Bool.and_self, if_true, Checked.pure_eq_ok, Except.ok.injEq,
        mk.injEq]
      constructor
      · rintro ⟨rfl, rfl, rfl⟩
        exact ⟨⟨rfl, rfl, rfl⟩, hsides⟩
      · exact And.left
    · simp only [Bool.and_eq_true, decide_eq_true_eq, hsides, if_false, Checked.throw_eq_error,
        reduceCtorEq, false_iff]
      rintro ⟨⟨_, rfl, rfl⟩, h⟩
      exact hsides h
  next hname =>
    simp only [Checked.throw_eq_error, reduceCtorEq, false_iff]
    rintro ⟨⟨h, _⟩, _⟩
    exact hname _ h

end Piece

namespace BoardInput

variable (input : BoardInput)

/-- The board has the piece, as the entry that counts for its label gives it. -/
def HasPiece (p : Piece) : Prop :=
  Ascending.last? input.pieces (String.singleton p.label) = some (p.width, p.height)

structure Acceptable : Prop where
  label : ∀ name sides, Ascending.last? input.pieces name = some sides → name.length = 1
  sides : ∀ name width height, Ascending.last? input.pieces name = some (width, height) →
    0 < width ∧ 0 < height

/-- Boards whose sides are machine words and whose corners are fewer than there are value ids. -/
structure InRange : Prop where
  width : input.width < wordCount
  height : input.height < wordCount
  corners : input.Acceptable → ∀ p, input.HasPiece p →
    (p.fittingPositions input.width input.height).length < idCount

/-- A layout, as a corner for each label: every cell of every piece is on the board, and no cell is
covered by two pieces. -/
structure Lays (corner : Char → Position) : Prop where
  inside : ∀ p, input.HasPiece p → ∀ cell ∈ covered p (corner p.label),
    cell.x < input.width ∧ cell.y < input.height
  apart : ∀ p q, input.HasPiece p → input.HasPiece q → p.label ≠ q.label →
    ∀ cell ∈ covered p (corner p.label), cell ∉ covered q (corner q.label)

/-! ### The entries that count -/

def entries : List (String × Nat × Nat) := Ascending.mapOf Text.before input.pieces

theorem mem_entries {name : String} {sides : Nat × Nat} :
    (name, sides) ∈ input.entries ↔ Ascending.last? input.pieces name = some sides :=
  (Ascending.mapOf_spec Text.before_strict input.pieces).2 name sides

theorem mapM_ofEntry_eq_ok {given : List (String × Nat × Nat)} {pieces : List Piece} :
    given.mapM Piece.ofEntry = .ok pieces ↔
      given = pieces.map Piece.entry ∧ ∀ p ∈ pieces, p.Solid := by
  simp only [Checked.mapM_eq_ok, Piece.ofEntry_eq_ok]
  induction pieces generalizing given with
  | nil => simp
  | cons p pieces ih =>
      cases given with
      | nil => simp
      | cons first given =>
          rw [List.forall₂_cons, ih, List.map_cons, List.cons.injEq, List.forall_mem_cons]
          exact and_and_and_comm

theorem exists_pieces_iff :
    (∃ pieces, input.entries.mapM Piece.ofEntry = .ok pieces) ↔ input.Acceptable := by
  simp only [Checked.exists_mapM_eq_ok_iff, Piece.ofEntry_eq_ok, Prod.forall, mem_entries]
  constructor
  · intro h
    constructor
    · rintro name ⟨width, height⟩ hentry
      obtain ⟨p, hp, _⟩ := h name width height hentry
      obtain ⟨rfl, _⟩ := Prod.mk.inj hp
      exact String.length_singleton
    · intro name width height hentry
      obtain ⟨p, hp, hsolid⟩ := h name width height hentry
      obtain ⟨rfl, rfl⟩ := Prod.mk.inj (Prod.mk.inj hp).2
      exact hsolid
  · intro h name width height hentry
    obtain ⟨label, hlabel⟩ := List.length_eq_one_iff.1 (h.label name _ hentry)
    refine ⟨⟨label, width, height⟩, ?_, h.sides name width height hentry⟩
    rw [← String.toList_singleton, String.toList_inj] at hlabel
    rw [hlabel, Piece.entry]

section Pieces

variable {input} {pieces : List Piece} (h : input.entries.mapM Piece.ofEntry = .ok pieces)

include h

theorem mem_pieces {p : Piece} : p ∈ pieces ↔ input.HasPiece p := by
  obtain ⟨hentries, _⟩ := mapM_ofEntry_eq_ok.1 h
  have hinjective : Function.Injective Piece.entry := by
    rintro ⟨label, _, _⟩ ⟨label', _, _⟩ hsame
    simpa [Piece.entry, String.singleton_inj] using hsame
  rw [HasPiece, ← mem_entries, hentries]
  exact (List.mem_map_of_injective hinjective).symm

theorem solid_pieces {p : Piece} (hp : p ∈ pieces) : p.Solid :=
  (mapM_ofEntry_eq_ok.1 h).2 p hp

theorem nodup_labels : (pieces.map (·.label)).Nodup := by
  obtain ⟨hentries, _⟩ := mapM_ofEntry_eq_ok.1 h
  have hkeys := (Ascending.mapOf_spec Text.before_strict input.pieces).1.nodup_keys
    Text.before_strict
  rw [← entries, hentries, List.map_map] at hkeys
  refine List.Nodup.of_map String.singleton ?_
  rwa [List.map_map]

theorem label_ne {a b : VarId} {p q : Piece} (hlt : a < b) (ha : pieces[a]? = some p)
    (hb : pieces[b]? = some q) : p.label ≠ q.label := by
  have hlabels := List.pairwise_iff_getElem.1 (List.pairwise_map.1 (nodup_labels h))
  obtain ⟨ha', rfl⟩ := List.getElem?_eq_some_iff.1 ha
  obtain ⟨hb', rfl⟩ := List.getElem?_eq_some_iff.1 hb
  exact hlabels a b ha' hb' hlt

theorem findIdx?_label {a : VarId} {p : Piece} (ha : pieces[a]? = some p) :
    pieces.findIdx? (·.label == p.label) = some a := by
  obtain ⟨halt, hget⟩ := List.getElem?_eq_some_iff.1 ha
  rw [List.findIdx?_eq_some_iff_getElem]
  refine ⟨halt, by simp [hget], fun b hb => ?_⟩
  have hne := label_ne h hb (List.getElem?_eq_getElem (Nat.lt_trans hb halt)) ha
  simpa using hne

end Pieces

end BoardInput

namespace SolvedBoard

theorem positionOf?_of_get {s : SolvedBoard} {assignment : Assignment Position}
    (hassignment : s.report.assignment = some assignment) {label : Char} {corner : Position}
    {id : VarId} (hid : s.board.pieces.findIdx? (·.label == label) = some id)
    (hcorner : assignment.get id = .ok corner) : s.positionOf? label = .ok (some corner) := by
  simp only [positionOf?, hid, hassignment, hcorner, Checked.ok_bind, Checked.pure_eq_ok]

end SolvedBoard

namespace CircuitBoard

/-! ## The calls -/

theorem mem_clearPairs {p q : Piece} {ps qs : List Position} {a b : Position} :
    (a, b) ∈ clearPairs p ps q qs ↔ a ∈ ps ∧ b ∈ qs ∧ p.clearOf a q b = true := by
  simp only [clearPairs, List.mem_flatMap, List.mem_map, List.mem_filter, Prod.mk.injEq]
  constructor
  · rintro ⟨_, ha, _, ⟨hb, hclear⟩, rfl, rfl⟩
    exact ⟨ha, hb, hclear⟩
  · rintro ⟨ha, hb, hclear⟩
    exact ⟨a, ha, b, ⟨hb, hclear⟩, rfl, rfl⟩

theorem mem_pairCalls {numbered : List ((Piece × List Position) × VarId)} {call : Call Position} :
    call ∈ pairCalls numbered ↔ ∃ (i j : Nat) (first later : (Piece × List Position) × VarId),
      i < j ∧ numbered[i]? = some first ∧ numbered[j]? = some later ∧
        call = .relation first.2 later.2
          (clearPairs first.1.1 first.1.2 later.1.1 later.1.2) := by
  induction numbered with
  | nil => simp [pairCalls]
  | cons head rest ih =>
      rw [pairCalls, List.mem_append, ih, pieceCalls, List.mem_map]
      constructor
      · rintro (⟨later, hlater, rfl⟩ | ⟨i, j, first, later, hlt, hfirst, hlater, rfl⟩)
        · obtain ⟨j, hj⟩ := List.getElem?_of_mem hlater
          exact ⟨0, j + 1, head, later, Nat.succ_pos j, rfl, hj, rfl⟩
        · exact ⟨i + 1, j + 1, first, later, Nat.succ_lt_succ hlt, hfirst, hlater, rfl⟩
      · rintro ⟨i, j, first, later, hlt, hfirst, hlater, rfl⟩
        obtain ⟨j, rfl⟩ := Nat.exists_eq_succ_of_ne_zero (Nat.ne_of_gt (Nat.zero_lt_of_lt hlt))
        cases i with
        | zero =>
            obtain rfl := Option.some.inj hfirst
            exact .inl ⟨later, List.mem_of_getElem? hlater, rfl⟩
        | succ i => exact .inr ⟨i, j, first, later, Nat.lt_of_succ_lt_succ hlt, hfirst, hlater, rfl⟩

def placed (width height : Nat) (pieces : List Piece) : List (Piece × List Position) :=
  pieces.map fun p => (p, p.fittingPositions width height)

section Calls

variable {width height : Nat} {pieces : List Piece}

theorem mem_pairCalls_placed {call : Call Position} :
    call ∈ pairCalls (placed width height pieces).zipIdx ↔ ∃ (a b : VarId) (p q : Piece), a < b ∧
      pieces[a]? = some p ∧ pieces[b]? = some q ∧ call = .relation a b
        (clearPairs p (p.fittingPositions width height) q (q.fittingPositions width height)) := by
  simp only [mem_pairCalls, placed, List.getElem?_zipIdx, List.getElem?_map, Option.map_map,
    Option.map_eq_some_iff, Function.comp_apply, Nat.zero_add]
  constructor
  · rintro ⟨a, b, _, _, hlt, ⟨p, hp, rfl⟩, ⟨q, hq, rfl⟩, rfl⟩
    exact ⟨a, b, p, q, hlt, hp, hq, rfl⟩
  · rintro ⟨a, b, p, q, hlt, hp, hq, rfl⟩
    exact ⟨a, b, _, _, hlt, ⟨p, hp, rfl⟩, ⟨q, hq, rfl⟩, rfl⟩

theorem calls_placed : calls (placed width height pieces) =
    (pieces.map (·.fittingPositions width height)).map .newVariable ++
      pairCalls (placed width height pieces).zipIdx := by
  rw [calls, placed, List.map_map, List.map_map]
  rfl

theorem domains_calls : Call.domains (calls (placed width height pieces)) =
    pieces.map (·.fittingPositions width height) := by
  rw [calls_placed]
  refine Call.domains_newVariable_append _ fun call hcall => ?_
  obtain ⟨_, _, _, _, _, _, _, rfl⟩ := mem_pairCalls_placed.1 hcall
  nofun

theorem calls_acceptable : Call.Acceptable (calls (placed width height pieces)) := by
  rw [calls_placed]
  refine Call.acceptable_newVariable_append fun call hcall => ?_
  obtain ⟨a, b, p, q, hlt, hp, hq, rfl⟩ := mem_pairCalls_placed.1 hcall
  refine ⟨a, b, _, p.fittingPositions width height, q.fittingPositions width height, rfl,
    Nat.ne_of_lt hlt, ?_, ?_, fun x y hin => ?_⟩
  · rw [List.getElem?_map, hp]
    rfl
  · rw [List.getElem?_map, hq]
    rfl
  · obtain ⟨hx, hy, _⟩ := mem_clearPairs.1 hin
    exact ⟨hx, hy⟩

theorem relation_mem_calls {a b : VarId} {allowed : List (Position × Position)} :
    .relation a b allowed ∈ calls (placed width height pieces) ↔ ∃ p q, a < b ∧
      pieces[a]? = some p ∧ pieces[b]? = some q ∧ allowed =
        clearPairs p (p.fittingPositions width height) q (q.fittingPositions width height) := by
  rw [calls_placed, List.mem_append, mem_pairCalls_placed]
  constructor
  · rintro (hcall | ⟨_, _, p, q, hlt, hp, hq, h⟩)
    · obtain ⟨_, _, h⟩ := List.mem_map.1 hcall
      cases h
    · cases h
      exact ⟨p, q, hlt, hp, hq, rfl⟩
  · rintro ⟨p, q, hlt, hp, hq, rfl⟩
    exact .inr ⟨a, b, p, q, hlt, hp, hq, rfl⟩

end Calls

/-! ## Solutions -/

section Solutions

variable {input : BoardInput} {pieces : List Piece} {corner : Char → Position}

theorem candidates_iff_inside (hpieces : input.entries.mapM Piece.ofEntry = .ok pieces) :
    List.Forall₂ (fun value domain => value ∈ domain) (pieces.map fun p => corner p.label)
        (Call.domains (calls (placed input.width input.height pieces))) ↔
      ∀ p, input.HasPiece p → ∀ cell ∈ covered p (corner p.label),
        cell.x < input.width ∧ cell.y < input.height := by
  rw [domains_calls, List.forall₂_map_left_iff, List.forall₂_map_right_iff, List.forall₂_same]
  simp only [← BoardInput.mem_pieces hpieces]
  exact forall₂_congr fun p hp => (BoardInput.solid_pieces hpieces hp).mem_fittingPositions_iff

theorem clearOf_iff_disjoint (hpieces : input.entries.mapM Piece.ofEntry = .ok pieces)
    {p q : Piece} (hp : p ∈ pieces) (hq : q ∈ pieces) :
    p.clearOf (corner p.label) q (corner q.label) = true ↔
      ∀ cell ∈ covered p (corner p.label), cell ∉ covered q (corner q.label) :=
  (BoardInput.solid_pieces hpieces hp).clearOf_iff (BoardInput.solid_pieces hpieces hq)

theorem getElem?_corners {a : VarId} {p : Piece} (ha : pieces[a]? = some p) :
    (pieces.map fun p => corner p.label)[a]? = some (corner p.label) := by
  rw [List.getElem?_map, ha]
  rfl

/-- The constraint is stated once, from the earlier of two pieces. -/
theorem disjoint_of_solution (hpieces : input.entries.mapM Piece.ofEntry = .ok pieces)
    (h : Call.Solution (calls (placed input.width input.height pieces))
      (pieces.map fun p => corner p.label)) {a b : VarId} {p q : Piece} (hlt : a < b)
    (ha : pieces[a]? = some p) (hb : pieces[b]? = some q) :
    ∀ cell ∈ covered p (corner p.label), cell ∉ covered q (corner q.label) := by
  obtain ⟨x, y, hx, hy, hin⟩ := h.related (relation_mem_calls.2 ⟨p, q, hlt, ha, hb, rfl⟩)
  obtain rfl := Option.some.inj ((getElem?_corners ha).symm.trans hx)
  obtain rfl := Option.some.inj ((getElem?_corners hb).symm.trans hy)
  exact (clearOf_iff_disjoint hpieces (List.mem_of_getElem? ha) (List.mem_of_getElem? hb)).1
    (mem_clearPairs.1 hin).2.2

/-- The corners of the pieces solve the calls exactly when they lay the board. -/
theorem solution_iff_lays (hpieces : input.entries.mapM Piece.ofEntry = .ok pieces) :
    Call.Solution (calls (placed input.width input.height pieces))
        (pieces.map fun p => corner p.label) ↔ input.Lays corner := by
  constructor
  · intro h
    refine ⟨(candidates_iff_inside hpieces).1 h.candidates, ?_⟩
    intro p q hp hq hne cell hcell hcell'
    obtain ⟨a, ha⟩ := List.getElem?_of_mem ((BoardInput.mem_pieces hpieces).2 hp)
    obtain ⟨b, hb⟩ := List.getElem?_of_mem ((BoardInput.mem_pieces hpieces).2 hq)
    rcases Nat.lt_trichotomy a b with hlt | rfl | hlt
    · exact disjoint_of_solution hpieces h hlt ha hb cell hcell hcell'
    · exact hne (congrArg _ (Option.some.inj (ha.symm.trans hb)))
    · exact disjoint_of_solution hpieces h hlt hb ha cell hcell' hcell
  · intro h
    have hcandidates := (candidates_iff_inside hpieces).2 h.inside
    refine ⟨hcandidates, @fun a b allowed hcall => ?_⟩
    obtain ⟨p, q, hlt, ha, hb, rfl⟩ := relation_mem_calls.1 hcall
    rw [domains_calls, List.forall₂_map_left_iff, List.forall₂_map_right_iff,
      List.forall₂_same] at hcandidates
    have hp := List.mem_of_getElem? ha
    have hq := List.mem_of_getElem? hb
    have hne := BoardInput.label_ne hpieces hlt ha hb
    have hapart := h.apart p q ((BoardInput.mem_pieces hpieces).1 hp)
      ((BoardInput.mem_pieces hpieces).1 hq) hne
    exact ⟨_, _, getElem?_corners ha, getElem?_corners hb, mem_clearPairs.2
      ⟨hcandidates p hp, hcandidates q hq, (clearOf_iff_disjoint hpieces hp hq).2 hapart⟩⟩

end Solutions

/-! ## Solving a board -/

theorem ofInput_of_pieces {input : BoardInput} {pieces : List Piece}
    (hpieces : input.entries.mapM Piece.ofEntry = .ok pieces)
    (hfew : ∀ p ∈ pieces, (p.fittingPositions input.width input.height).length < idCount) :
    ∃ p, Problem.ofCalls (calls (placed input.width input.height pieces)) = .ok p ∧
      ofInput input = .ok (.ok ⟨input.name, input.width, input.height, pieces, p⟩) := by
  obtain ⟨p, hp⟩ :=
    Problem.exists_ofCalls_iff.2 (@calls_acceptable input.width input.height pieces)
  have hpositions : pieces.mapM (·.fittingPositions? input.width input.height) =
      .ok (pieces.map (·.fittingPositions input.width input.height)) := by
    rw [Checked.mapM_eq_ok, List.forall₂_map_right_iff, List.forall₂_same]
    exact fun p hp => Piece.fittingPositions?_eq (hfew p hp)
  refine ⟨p, hp, ?_⟩
  rw [BoardInput.entries] at hpieces
  rw [ofInput, hpieces]
  dsimp only
  rw [ofPieces, hpositions, Checked.ok_bind, ← List.map_prod_left_eq_zip, ← placed, hp]
  rfl

theorem ofInput_spec {input : BoardInput} (hrange : input.InRange) :
    ∃ outcome, ofInput input = .ok outcome ∧ ((∃ board, outcome = .ok board) ↔ input.Acceptable) ∧
      ∀ board, outcome = .ok board → ∃ pieces p,
        input.entries.mapM Piece.ofEntry = .ok pieces ∧
        Problem.ofCalls (calls (placed input.width input.height pieces)) = .ok p ∧
        board = ⟨input.name, input.width, input.height, pieces, p⟩ := by
  cases hpieces : input.entries.mapM Piece.ofEntry with
  | error error =>
      have hrejected : ¬ input.Acceptable := by
        rw [← input.exists_pieces_iff, hpieces]
        nofun
      refine ⟨.error error, ?_, iff_of_false nofun hrejected, nofun⟩
      rw [BoardInput.entries] at hpieces
      rw [ofInput, hpieces]
      rfl
  | ok pieces =>
      have haccepted := input.exists_pieces_iff.1 ⟨pieces, hpieces⟩
      obtain ⟨p, hp, hinput⟩ := ofInput_of_pieces hpieces fun p hp =>
        hrange.corners haccepted p ((BoardInput.mem_pieces hpieces).1 hp)
      refine ⟨_, hinput, iff_of_true ⟨_, rfl⟩ haccepted, fun board hboard => ?_⟩
      exact ⟨pieces, p, rfl, hp, (Except.ok.inj hboard).symm⟩

/-- Solving a board comes to an end, with a layout exactly when there is one. The corners are then
listed in the order of the pieces, and each label is told its own. -/
theorem exists_layout {input : BoardInput} (hrange : input.InRange) {board : CircuitBoard}
    (hboard : ofInput input = .ok (.ok board)) (config : Config) :
    ∃ solved, board.solve config = .ok solved ∧ solved.board = board ∧
      (solved.report.isSolved = true ↔ ∃ corner, input.Lays corner) ∧
      (solved.report.isSolved = true → ∃ assignment corner,
        solved.report.assignment = some assignment ∧ input.Lays corner ∧
          assignment.values.toList = (board.pieces.map fun p => corner p.label) ∧
          ∀ p ∈ board.pieces, solved.positionOf? p.label = .ok (some (corner p.label))) := by
  obtain ⟨outcome, hinput, _, hboards⟩ := ofInput_spec hrange
  obtain rfl := Except.ok.inj (hinput.symm.trans hboard)
  obtain ⟨pieces, p, hpieces, hp, rfl⟩ := hboards board rfl
  have hcount : (Call.domains (calls (placed input.width input.height pieces))).length =
      (pieces.map (·.label)).length := by
    rw [domains_calls, List.length_map, List.length_map]
  have hlays : ∀ corner, Call.Solution (calls (placed input.width input.height pieces))
      ((pieces.map (·.label)).map corner) ↔ input.Lays corner := by
    intro corner
    rw [List.map_map]
    exact solution_iff_lays hpieces
  have : Inhabited Position := ⟨⟨0, 0⟩⟩
  obtain ⟨report, hsolve, hsolved, hreported⟩ := Problem.exists_named_report hp
    (BoardInput.nodup_labels hpieces) hcount hlays config
  refine ⟨⟨_, report⟩, by rw [solve, hsolve]; rfl, rfl, hsolved, fun hreport => ?_⟩
  obtain ⟨assignment, corner, hassignment, hcorner, hvalues⟩ := hreported hreport
  rw [List.map_map] at hvalues
  refine ⟨assignment, corner, hassignment, hcorner, hvalues, fun q hq => ?_⟩
  obtain ⟨id, hid⟩ := List.getElem?_of_mem hq
  exact positionOf?_of_get hassignment (BoardInput.findIdx?_label hpieces hid)
    (Assignment.get_of_eq_map hvalues hid)

/-- A board is accepted exactly when each label is one character and no side is empty. Solving it
always comes to an end, with a layout exactly when there is one, and then every piece is told its
corner in one. The corners listed and the comparison of sides mean what they mean for cells, and
none of the machine words they are computed with overflows. -/
theorem solve_lays (input : BoardInput) (hrange : input.InRange) :
    (∃ outcome, ofInput input = .ok outcome ∧
      ((∃ board, outcome = .ok board) ↔ input.Acceptable)) ∧
    (∀ board, ofInput input = .ok (.ok board) → ∀ config : Config,
      ∃ solved, board.solve config = .ok solved ∧
        (solved.report.isSolved = true ↔ ∃ corner, input.Lays corner) ∧
        (solved.report.isSolved = true → ∃ corner, input.Lays corner ∧
          ∀ p, input.HasPiece p → solved.positionOf? p.label = .ok (some (corner p.label)))) ∧
    (input.Acceptable →
      (∀ p, input.HasPiece p →
        p.fittingPositions64? input.width input.height =
          some (p.fittingPositions input.width input.height) ∧
        ∀ corner, corner ∈ p.fittingPositions input.width input.height ↔
          ∀ cell ∈ covered p corner, cell.x < input.width ∧ cell.y < input.height) ∧
      ∀ p q, input.HasPiece p → input.HasPiece q → ∀ a b,
        (p.clearOf a q b = true ↔ ∀ cell ∈ covered p a, cell ∉ covered q b) ∧
        (a ∈ p.fittingPositions input.width input.height →
          b ∈ q.fittingPositions input.width input.height →
          p.clearOf64? a q b = some (p.clearOf a q b))) := by
  obtain ⟨outcome, hinput, haccepted, hboards⟩ := ofInput_spec hrange
  refine ⟨⟨outcome, hinput, haccepted⟩, fun board hboard config => ?_, fun hacceptable => ?_⟩
  · obtain rfl := Except.ok.inj (hinput.symm.trans hboard)
    obtain ⟨pieces, p, hpieces, _, rfl⟩ := hboards board rfl
    obtain ⟨solved, hsolve, _, hsolved, hreported⟩ := exists_layout hrange hboard config
    refine ⟨solved, hsolve, hsolved, fun hreport => ?_⟩
    obtain ⟨_, corner, _, hcorner, _, htold⟩ := hreported hreport
    exact ⟨corner, hcorner, fun q hq => htold q ((BoardInput.mem_pieces hpieces).2 hq)⟩
  · have hsolid : ∀ {p : Piece}, input.HasPiece p → p.Solid :=
      fun hp => hacceptable.sides _ _ _ hp
    refine ⟨fun p hp => ?_, fun p q hp hq a b => ?_⟩
    · exact ⟨Piece.fittingPositions64?_eq, fun corner => (hsolid hp).mem_fittingPositions_iff⟩
    · exact ⟨(hsolid hp).clearOf_iff (hsolid hq),
        Piece.clearOf64?_eq hrange.width hrange.height⟩

def packed : BoardInput where
  name := "packed"
  width := 3
  height := 2
  pieces := [("c", 1, 2), ("a", 3, 3), ("b", 2, 1), ("a", 2, 1)]

def packedPieces : List Piece := [⟨'a', 2, 1⟩, ⟨'b', 2, 1⟩, ⟨'c', 1, 2⟩]

def packedCorner (label : Char) : Position :=
  if label = 'a' then ⟨0, 0⟩ else if label = 'b' then ⟨0, 1⟩ else ⟨2, 0⟩

theorem pieces_packed : packed.entries.mapM Piece.ofEntry = .ok packedPieces := by
  rfl

theorem inRange_packed : packed.InRange := by
  refine ⟨by decide, by decide, fun _ p hp => ?_⟩
  have hin := (BoardInput.mem_pieces pieces_packed).2 hp
  clear hp
  revert p
  decide

theorem lays_packed : packed.Lays packedCorner := by
  have hinside : ∀ p ∈ packedPieces, ∀ cell ∈ covered p (packedCorner p.label),
      cell.x < packed.width ∧ cell.y < packed.height := by
    decide
  have hapart : ∀ p ∈ packedPieces, ∀ q ∈ packedPieces, p.label ≠ q.label →
      ∀ cell ∈ covered p (packedCorner p.label), cell ∉ covered q (packedCorner q.label) := by
    decide
  have hgiven : ∀ {p}, packed.HasPiece p → p ∈ packedPieces :=
    (BoardInput.mem_pieces pieces_packed).2
  exact ⟨fun p hp => hinside p (hgiven hp), fun p q hp hq => hapart p (hgiven hp) q (hgiven hq)⟩

theorem solve_lays_packed :
    ∃ board solved corner, ofInput packed = .ok (.ok board) ∧
      board.solve .standard = .ok solved ∧ packed.Lays corner ∧
        solved.positionOf? 'c' = .ok (some (corner 'c')) := by
  obtain ⟨⟨outcome, hinput, haccepted⟩, hsolve, _⟩ := solve_lays packed inRange_packed
  obtain ⟨board, rfl⟩ := haccepted.2 (packed.exists_pieces_iff.1 ⟨_, pieces_packed⟩)
  obtain ⟨solved, hsolved, hiff, hcorners⟩ := hsolve board hinput .standard
  obtain ⟨corner, hcorner, hreported⟩ := hcorners (hiff.2 ⟨_, lays_packed⟩)
  exact ⟨board, solved, corner, hinput, hsolved, hcorner, hreported ⟨'c', 1, 2⟩
    ((BoardInput.mem_pieces pieces_packed).1 (by decide))⟩

end CircuitBoard

end BinaryCsp.Puzzle
