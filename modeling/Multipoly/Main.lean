import Multipoly.CommandLine

/-!
# The program

Prints the canonical form of each polynomial given as an argument.
-/
open Multipoly

def main (args : List String) : IO UInt32 := do
  let (transcript, ended) := CommandLine.run args
  (← IO.getStdout).putStr transcript.output
  (← IO.getStderr).putStr transcript.errors
  match ended with
  | some e =>
    IO.eprintln e.message
    return 1
  | none => return transcript.status.toUInt32
