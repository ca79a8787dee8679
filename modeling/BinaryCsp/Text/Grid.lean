/-!
# Ruled tables of text

Every column is as wide as its longest cell, with a blank on each side. A rule stands before the
first row and after every row.
-/

namespace BinaryCsp.Text.Grid

/-- The widths of the columns. All rows have as many cells as the first. -/
def widths : List (List String) → List Nat
  | [] => []
  | [row] => row.map String.length
  | row :: rest => List.zipWith max (row.map String.length) (widths rest)

def pad (width : Nat) (text : String) : String :=
  text ++ String.ofList (List.replicate (width - text.length) ' ')

def rule (columns : List Nat) : String :=
  "+" ++ String.join (columns.map fun width =>
    String.ofList (List.replicate (width + 2) '-') ++ "+") ++ "\n"

def line (columns : List Nat) (row : List String) : String :=
  "|" ++ String.join (List.zipWith (fun width cell => " " ++ pad width cell ++ " |") columns row)
    ++ "\n"

def render (rows : List (List String)) : String :=
  let columns := widths rows
  rule columns ++ String.join (rows.map fun row => line columns row ++ rule columns)

end BinaryCsp.Text.Grid
