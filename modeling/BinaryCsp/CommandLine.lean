import BinaryCsp.Input
import BinaryCsp.Summary

/-!
# The command line

One puzzle is read from a file and solved, with switches before or after the name of the puzzle.
Parsing the arguments and carrying out the command are pure; the file is read in between.
-/

namespace BinaryCsp.CommandLine

open Puzzle

inductive Kind where
  | map
  | sudoku
  | board
deriving DecidableEq

namespace Kind

def ofName? : String → Option Kind
  | "map" => some .map
  | "sudoku" => some .sudoku
  | "board" => some .board
  | _ => none

end Kind

structure Switches where
  mrv : Option Bool
  degree : Option Bool
  lcv : Option Bool
  ac3 : Option Bool
  seed : Option UInt64
  /-- Solve with all combinations and print one table. -/
  compare : Bool
  /-- Print the counters after the solution. -/
  stats : Bool

namespace Switches

def none : Switches := ⟨.none, .none, .none, .none, .none, false, false⟩

/-- The switches of two places. What both give counts as in `later`. -/
def overlay (earlier later : Switches) : Switches where
  mrv := later.mrv <|> earlier.mrv
  degree := later.degree <|> earlier.degree
  lcv := later.lcv <|> earlier.lcv
  ac3 := later.ac3 <|> earlier.ac3
  seed := later.seed <|> earlier.seed
  compare := earlier.compare || later.compare
  stats := earlier.stats || later.stats

def tieBreak (s : Switches) : TieBreak :=
  match s.seed with
  | some seed => .seeded seed
  | .none => .lowest

/-- The configuration, with the standard one for what was not given. -/
def config (s : Switches) : Config where
  mrv := s.mrv.getD Config.standard.mrv
  degree := s.degree.getD Config.standard.degree
  lcv := s.lcv.getD Config.standard.lcv
  ac3 := s.ac3.getD Config.standard.ac3
  tieBreak := s.tieBreak

end Switches

structure Command where
  kind : Kind
  file : String
  switches : Switches

def bool? : String → Option Bool
  | "true" => some true
  | "false" => some false
  | _ => none

/-- A number that fits 64 bits, with or without a plus sign. -/
def seed? (text : String) : Option UInt64 :=
  let digits := match text.toList with
    | '+' :: digits => digits
    | digits => digits
  if digits.isEmpty || !digits.all Char.isDigit then none
  else
    let value := Json.Decoder.digitsValue digits
    if value < Json.Decoder.limit64 then some (UInt64.ofNat value) else none

def fill {α : Type} (place : Option α) (value : Option α) : Option (Option α) :=
  match place, value with
  | none, some value => some (some value)
  | _, _ => none

inductive Shape where
  /-- A name after two dashes, with the value after an equals sign if there is one. -/
  | long (name : String) (value : Option String)
  /-- Two dashes alone: all that follows is taken literally. -/
  | escape
  /-- Letters after one dash. -/
  | short
  /-- Anything else. -/
  | word

def shapeOf (arg : String) : Shape :=
  match arg.toList with
  | ['-', '-'] => .escape
  | '-' :: '-' :: rest =>
    match rest.span (· ≠ '=') with
    | (name, []) => .long (String.ofList name) none
    | (name, _ :: value) => .long (String.ofList name) (some (String.ofList value))
  | '-' :: _ :: _ => .short
  | _ => .word

/-- Whether an argument can be the value of the switch before it. -/
def isWord (arg : String) : Bool :=
  match shapeOf arg with
  | .word => true
  | _ => false

/-- Gives a switch its value. A switch has one value only, and a second one is refused. -/
def setValue (s : Switches) (name value : String) : Option Switches :=
  match name with
  | "mrv" => do return { s with mrv := ← fill s.mrv (bool? value) }
  | "degree" => do return { s with degree := ← fill s.degree (bool? value) }
  | "lcv" => do return { s with lcv := ← fill s.lcv (bool? value) }
  | "ac3" => do return { s with ac3 := ← fill s.ac3 (bool? value) }
  | "seed" => do return { s with seed := ← fill s.seed (seed? value) }
  | _ => none

def setFlag (s : Switches) (name : String) : Option Switches :=
  match name with
  | "compare" => if s.compare then none else some { s with compare := true }
  | "stats" => if s.stats then none else some { s with stats := true }
  | _ => none

def takeSwitches (s : Switches) : List String → Option (Switches × List String)
  | [] => some (s, [])
  | arg :: rest =>
    match shapeOf arg with
    | .short => none
    | .long name (some value) => do takeSwitches (← setValue s name value) rest
    | .long name none =>
      match setFlag s name, rest with
      | some s, rest => takeSwitches s rest
      | none, value :: rest =>
        if isWord value then do takeSwitches (← setValue s name value) rest else none
      | none, [] => none
    | _ => some (s, arg :: rest)

/-- Reads the arguments after the name of the puzzle: one file, and switches before or after. -/
def takeFile (args : List String) : Option (Switches × String) := do
  match ← takeSwitches .none args with
  | (_, []) => none
  | (s, arg :: rest) =>
    match shapeOf arg, rest with
    | .escape, [file] => return (s, file)
    | .escape, _ => none
    | _, rest =>
      match ← takeSwitches s rest with
      | (s, []) => return (s, arg)
      | (s, ["--"]) => return (s, arg)
      | _ => none

def parse (args : List String) : Option Command := do
  let (earlier, rest) ← takeSwitches .none args
  match rest with
  | [] => none
  | name :: rest =>
    let kind ← Kind.ofName? name
    let (later, file) ← takeFile rest
    if file.isEmpty then none else return ⟨kind, file, earlier.overlay later⟩

/-- How a run ends: its exit code and what it prints. -/
structure Ending where
  exit : Nat
  output : String

def Ending.usage : Ending := ⟨2, ""⟩

def Ending.rejected : Ending := ⟨1, ""⟩

def Ending.broken : Ending := ⟨101, ""⟩

/-- A puzzle that is ready to be solved: its model, and how a configuration fares on it. -/
structure Task (V : Type) where
  model : Model
  run : Config → Checked (String × Report V)

/-- Solves once and prints the report, or solves with all combinations and prints a table. -/
def output {V : Type} (s : Switches) (task : Task V) : Checked String := do
  if s.compare then
    let reports ← Config.combinations.mapM fun config => do
      return (← task.run { config with tieBreak := s.tieBreak }).2
    return Summary.comparisonTable reports ++ "\n"
  else
    let (text, report) ← task.run s.config
    if s.stats then
      let table ← Summary.relationTable report.stats task.model
      let backtracks := report.stats.backtracks
      let prunings := report.stats.forwardPrunings
      return text ++ "\n" ++
        s!"Backtracks: {backtracks}. Forward-check prunings: {prunings}.\n" ++ table ++ "\n"
    else return text ++ "\n"

def perform {V : Type} (s : Switches) (task : Checked (Option (Task V))) : Ending :=
  match do (← task).mapM (output s) with
  | .ok (some text) => ⟨0, text⟩
  | .ok none => .rejected
  | .error _ => .broken

def decode {α : Type} (decoder : Json.Decoder α) (text : String) : Option α := do
  decoder (← Json.ofText? text)

def taskOf {α P V : Type} (decoder : Json.Decoder α) (make : α → Checked (Except ModelError P))
    (task : P → Task V) (text : String) : Checked (Option (Task V)) :=
  match decode decoder text with
  | none => return none
  | some input => do return (← make input).toOption.map task

def mapTask : String → Checked (Option (Task String)) :=
  taskOf Input.map (fun input => return MapColouring.ofInput input) fun puzzle =>
    ⟨puzzle.problem.model, fun config => do
      let solved ← puzzle.solve config
      return (solved.text, solved.report)⟩

def sudokuTask : String → Checked (Option (Task Nat)) :=
  taskOf Input.sudoku Sudoku.ofInput fun puzzle =>
    ⟨puzzle.problem.model, fun config => do
      let solved ← puzzle.solve config
      return (solved.text, solved.report)⟩

def boardTask : String → Checked (Option (Task Position)) :=
  taskOf Input.board CircuitBoard.ofInput fun puzzle =>
    ⟨puzzle.problem.model, fun config => do
      let solved ← puzzle.solve config
      return (← solved.text, solved.report)⟩

def execute (command : Command) : (contents : Option String) → Ending
  | none => .rejected
  | some text =>
    match command.kind with
    | .map => perform command.switches (mapTask text)
    | .sudoku => perform command.switches (sudokuTask text)
    | .board => perform command.switches (boardTask text)

def run (args : List String) (contents : String → Option String) : Ending :=
  match parse args with
  | none => .usage
  | some command => execute command (contents command.file)

end BinaryCsp.CommandLine
