import BinaryCsp.CommandLine

/-!
# The program

Reads the arguments and the file, prints what the command line answers, and exits with its code.
-/

open BinaryCsp

def readContents (file : String) : IO (Option String) := do
  try return some (← IO.FS.readFile file)
  catch _ => return none

def main (args : List String) : IO UInt32 := do
  let ending ← match CommandLine.parse args with
    | none => pure CommandLine.Ending.usage
    | some command => do pure (CommandLine.execute command (← readContents command.file))
  IO.print ending.output
  return UInt32.ofNat ending.exit
