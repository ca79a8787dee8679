import BinaryCsp.Puzzle.Heading

/-!
# Sudoku

A board of `n` rows of `n` cells, where `n` is the square of the side of a box. Every row, every
column and every box holds each of the digits from 1 to `n` once. Cell `(row, col)` is variable
`row * n + col`.
-/

namespace BinaryCsp.Puzzle

/-- A board as it is given, with zero for an empty cell. -/
structure SudokuInput where
  name : String
  board : List (List Nat)

structure Sudoku where
  name : String
  /-- The number of rows. -/
  size : Nat
  /-- The side of a box. -/
  boxSize : Nat
  problem : Problem Nat

namespace Sudoku

/-- The side of a box: the least number whose square is not below `size`, and zero on an empty
board. -/
def boxSide (size : Nat) : Nat :=
  ((List.range size).map (· + 1)).find? (fun side => size ≤ side * side) |>.getD 0

def candidatesOf (size row col clue : Nat) : Except ModelError (List Nat) :=
  if clue = 0 then return (List.range size).map (· + 1)
  else if clue ≤ size then return [clue]
  else throw (.invalidPuzzle s!"clue {clue} at ({row}, {col}) is outside 1..={size}")

def rowCandidates (size : Nat) (row : List Nat × Nat) : Except ModelError (List (List Nat)) := do
  let (cells, number) := row
  let count := cells.length
  if count ≠ size then
    throw (.invalidPuzzle s!"row {number} has {count} cells, expected {size}")
  cells.zipIdx.mapM fun (clue, col) => candidatesOf size number col clue

def candidates (size : Nat) (board : List (List Nat)) : Except ModelError (List (List Nat)) := do
  return (← board.zipIdx.mapM (rowCandidates size)).flatten

/-- The cells that share a row, a column or a box with `(row, col)`: first those of the row, then
those of the column, then the rest of the box. -/
def peers (row col size boxSize : Nat) : List (Nat × Nat) :=
  let top := row / boxSize * boxSize
  let left := col / boxSize * boxSize
  let inRow := ((List.range size).filter (· ≠ col)).map fun c => (row, c)
  let inColumn := ((List.range size).filter (· ≠ row)).map fun r => (r, col)
  let inBox := (List.range' top boxSize).flatMap fun r =>
    ((List.range' left boxSize).filter fun c => r ≠ row && c ≠ col).map fun c => (r, c)
  inRow ++ inColumn ++ inBox

def differing (first second : List Nat) : List (Nat × Nat) :=
  first.flatMap fun x => (second.filter (x ≠ ·)).map fun y => (x, y)

def laterPeers (size boxSize cell : Nat) : List Nat :=
  ((peers (cell / size) (cell % size) size boxSize).map fun (row, col) => row * size + col).filter
    (cell < ·)

/-- The constraint between a cell and a later peer. Only digits that the cells can hold are listed:
a full board need not have every digit. -/
def pairCall (digits : Array (List Nat)) (cell peer : Nat) : Checked (Call Nat) := do
  let first ← Checked.get digits cell
  let second ← Checked.get digits peer
  return .relation cell peer (differing first second)

def calls (size boxSize : Nat) (digits : List (List Nat)) : Checked (List (Call Nat)) := do
  let relations ← (List.range (size * size)).mapM fun cell =>
    (laterPeers size boxSize cell).mapM (pairCall digits.toArray cell)
  return digits.map .newVariable ++ relations.flatten

def ofCandidates (name : String) (size boxSize : Nat) (digits : List (List Nat)) :
    Checked (Except ModelError Sudoku) := do
  let calls ← calls size boxSize digits
  return do
    let problem ← Problem.ofCalls calls
    return ⟨name, size, boxSize, problem⟩

def ofInput (input : SudokuInput) : Checked (Except ModelError Sudoku) :=
  let size := input.board.length
  let boxSize := boxSide size
  if size = 0 || boxSize * boxSize ≠ size then
    return throw (.invalidPuzzle s!"board size {size} is not a positive perfect square")
  else match candidates size input.board with
    | .error error => return .error error
    | .ok digits => ofCandidates input.name size boxSize digits

end Sudoku

structure SolvedSudoku where
  sudoku : Sudoku
  report : Report Nat

namespace Sudoku

def solve (s : Sudoku) (config : Config) : Checked SolvedSudoku := do
  return ⟨s, ← (Solver.recursive s.problem config).solve⟩

end Sudoku

namespace SolvedSudoku

def rowsOf (width : Nat) : (count : Nat) → List Nat → List (List Nat)
  | 0, _ => []
  | count + 1, cells => cells.take width :: rowsOf width count (cells.drop width)

def grid? (s : SolvedSudoku) : Option (List (List Nat)) :=
  s.report.assignment.map fun assignment =>
    rowsOf s.sudoku.size s.sudoku.size assignment.values.toList

def padLeft (width n : Nat) : String :=
  let digits := toString n
  String.ofList (List.replicate (width - digits.length) ' ') ++ digits

def rowText (width boxSize : Nat) (cells : List Nat) : String :=
  String.join <| cells.zipIdx.map fun (digit, col) =>
    let bar := if 0 < col && col % boxSize = 0 then " |" else ""
    bar ++ " " ++ padLeft width digit

def gridLines (width boxSize : Nat) (grid : List (List Nat)) : List String :=
  grid.zipIdx.flatMap fun (cells, row) =>
    let line := rowText width boxSize cells
    if 0 < row && row % boxSize = 0 then
      [String.ofList (List.replicate line.length '-'), line]
    else [line]

def text (s : SolvedSudoku) : String :=
  let width := (toString s.sudoku.size).length
  let lines := match s.grid? with
    | none => []
    | some grid => gridLines width s.sudoku.boxSize grid
  heading "Sudoku" s.sudoku.name s.report ++ unlines lines

end SolvedSudoku

end BinaryCsp.Puzzle
