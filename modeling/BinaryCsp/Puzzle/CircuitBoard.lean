import BinaryCsp.Puzzle.Heading
import BinaryCsp.Text.Order
import BinaryCsp.Text.Quoted

/-!
# Circuit boards

Rectangular pieces are placed on a board so that no two overlap. A piece is placed by its bottom
left corner; columns are counted from the left and rows from the bottom.
-/

namespace BinaryCsp.Puzzle

structure Position where
  x : Nat
  y : Nat
deriving DecidableEq

/-- A board as it is given: its sides, and the sides of each piece by label. Of two entries for one
label the later one counts. -/
structure BoardInput where
  name : String
  width : Nat
  height : Nat
  pieces : List (String × Nat × Nat)

structure Piece where
  label : Char
  width : Nat
  height : Nat
deriving DecidableEq

namespace Piece

/-- A piece has a label of one character and sides that are not empty. -/
def ofEntry (entry : String × Nat × Nat) : Except ModelError Piece :=
  let (name, width, height) := entry
  match name.toList with
  | [label] =>
    if 0 < width && 0 < height then return ⟨label, width, height⟩
    else throw (.invalidPuzzle s!"piece {name} has an empty side ({width} x {height})")
  | _ =>
    let quoted := Text.Quoted.quote name
    throw (.invalidPuzzle s!"piece label {quoted} must be a single character")

/-- Whether two placed pieces lie apart, along one side or the other. -/
def clearOf (p : Piece) (pAt : Position) (q : Piece) (qAt : Position) : Bool :=
  pAt.x + p.width ≤ qAt.x || qAt.x + q.width ≤ pAt.x ||
    pAt.y + p.height ≤ qAt.y || qAt.y + q.height ≤ pAt.y

/-- The corners at which the piece lies on the board, column by column. -/
def fittingPositions (p : Piece) (width height : Nat) : List Position :=
  if width < p.width || height < p.height then []
  else (List.range (width - p.width + 1)).flatMap fun x =>
    (List.range (height - p.height + 1)).map fun y => ⟨x, y⟩

/-- The corners at which the piece lies on the board, if those of one column can be kept at
sixteen bytes a corner. -/
def fittingPositions? (p : Piece) (width height : Nat) : Checked (List Position) := do
  if p.width ≤ width && p.height ≤ height then Checked.room (height - p.height + 1) 16
  return p.fittingPositions width height

end Piece

/-- A board with its problem: one variable per piece, in the order of the labels. -/
structure CircuitBoard where
  name : String
  width : Nat
  height : Nat
  pieces : List Piece
  problem : Problem Position

namespace CircuitBoard

def clearPairs (p : Piece) (ps : List Position) (q : Piece) (qs : List Position) :
    List (Position × Position) :=
  ps.flatMap fun a => (qs.filter (p.clearOf a q ·)).map fun b => (a, b)

def pieceCalls (first : (Piece × List Position) × VarId)
    (later : List ((Piece × List Position) × VarId)) : List (Call Position) :=
  let ((p, ps), i) := first
  later.map fun ((q, qs), j) => .relation i j (clearPairs p ps q qs)

def pairCalls : List ((Piece × List Position) × VarId) → List (Call Position)
  | [] => []
  | first :: later => pieceCalls first later ++ pairCalls later

def calls (placed : List (Piece × List Position)) : List (Call Position) :=
  placed.map (fun (_, positions) => .newVariable positions) ++ pairCalls placed.zipIdx

def ofPieces (name : String) (width height : Nat) (pieces : List Piece) :
    Checked (Except ModelError CircuitBoard) := do
  let positions ← pieces.mapM (·.fittingPositions? width height)
  return do
    let problem ← Problem.ofCalls (calls (pieces.zip positions))
    return ⟨name, width, height, pieces, problem⟩

/-- The board with its problem. The pieces are checked before any of them is placed. -/
def ofInput (input : BoardInput) : Checked (Except ModelError CircuitBoard) :=
  match (Ascending.mapOf Text.before input.pieces).mapM Piece.ofEntry with
  | .error error => return .error error
  | .ok pieces => ofPieces input.name input.width input.height pieces

end CircuitBoard

structure SolvedBoard where
  board : CircuitBoard
  report : Report Position

namespace CircuitBoard

def solve (board : CircuitBoard) (config : Config) : Checked SolvedBoard := do
  return ⟨board, ← (Solver.recursive board.problem config).solve⟩

end CircuitBoard

namespace SolvedBoard

def positionOf? (s : SolvedBoard) (label : Char) : Checked (Option Position) :=
  match s.board.pieces.findIdx? (·.label == label), s.report.assignment with
  | some id, some assignment => do return some (← assignment.get id)
  | _, _ => return none

def covered (p : Piece) (corner : Position) : List Position :=
  (List.range' corner.x p.width).flatMap fun x =>
    (List.range' corner.y p.height).map fun y => ⟨x, y⟩

/-- Writes `label` into the given cells. The buffer holds the rows from the top, and a cell that
lies above the board has no place in it. -/
def draw (width height : Nat) (label : Char) : List Position → Array Char → Checked (Array Char)
  | [], cells => return cells
  | cell :: rest, cells => do
    let row ← Checked.sub height (cell.y + 1)
    draw width height label rest (← Checked.set cells (row * width + cell.x) label)

def drawAll (width height : Nat) : List (Piece × Position) → Array Char → Checked (Array Char)
  | [], cells => return cells
  | (p, corner) :: rest, cells => do
    drawAll width height rest (← draw width height p.label (covered p corner) cells)

/-- A board of empty cells, if it can be kept at four bytes a cell. -/
def blank (width height : Nat) : Checked (Array Char) := do
  Checked.room (width * height) 4
  return Array.replicate (width * height) '.'

def rowsOf (width : Nat) : (count : Nat) → List Char → List String
  | _, [] => []
  | 0, _ => []
  | count + 1, cells => String.ofList (cells.take width) :: rowsOf width count (cells.drop width)

/-- The rows of a buffer, if a table of them can be kept at twenty-four bytes a row. -/
def rowsOf? (width : Nat) (cells : Array Char) : Checked (List String) := do
  let rows := rowsOf width cells.size cells.toList
  Checked.room rows.length 24
  return rows

/-- The board as rows of text, the top row first, with a point for an empty cell. A board without
columns has no rows. -/
def rows? (s : SolvedBoard) : Checked (Option (List String)) := do
  match s.report.assignment with
  | none => return none
  | some assignment =>
    let ⟨_, width, height, pieces, _⟩ := s.board
    let cells ← drawAll width height (pieces.zip assignment.values.toList) (← blank width height)
    return some (← rowsOf? width cells)

def text (s : SolvedBoard) : Checked String := do
  let lines ← match s.report.assignment, ← s.rows? with
    | some assignment, some rows =>
      let corners := (s.board.pieces.zip assignment.values.toList).map fun (p, corner) =>
        let ⟨x, y⟩ := corner
        let label := p.label
        s!"{label}: ({x}, {y})"
      pure (corners ++ rows)
    | _, _ => pure []
  return heading "Circuit Board" s.board.name s.report ++ unlines lines

end SolvedBoard

end BinaryCsp.Puzzle
