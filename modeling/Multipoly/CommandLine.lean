import Multipoly.Parser

/-!
# The command line

Each argument is read over the standard ring. Its polynomial goes to the output; a rejection goes
to the error output with its cursor. A number that is too long to be read as an exponent, or to be
written, ends the run.
-/
namespace Multipoly.CommandLine

/-- What a run has written, and whether an argument was rejected. -/
structure Transcript where
  output : String
  errors : String
  rejected : Bool

/-- The exit status: one as soon as an argument is rejected. -/
def Transcript.status (t : Transcript) : Nat := if t.rejected then 1 else 0

/-- The transcript of no arguments. -/
def Transcript.empty : Transcript := ⟨"", "", false⟩

/-- One transcript after another. -/
def Transcript.append (t u : Transcript) : Transcript :=
  ⟨t.output ++ u.output, t.errors ++ u.errors, t.rejected || u.rejected⟩

/-- What ends a run before its last argument. -/
inductive Abort where
  | exponent (e : NumeralError)
  | text (e : Oversized)

def Abort.message : Abort → String
  | exponent e => e.message
  | text e => e.message

/-- The transcript of one argument. -/
def argument (arg : String) : Except Abort Transcript :=
  match Poly.read PolyRing.standard arg.toList with
  | .ok p => do
    let text ← p.write.mapError .text
    return ⟨String.ofList text ++ "\n", "", false⟩
  | .error (.rejected r) =>
    .ok ⟨"", s!"SyntaxError at {r.position}: {r.cause.message}\n", true⟩
  | .error (.oversized e) => .error (.exponent e)

/-- The transcript of the arguments in order, up to one that ends the run, with its error. -/
def run : List String → Transcript × Option Abort
  | [] => (.empty, none)
  | arg :: args =>
    match argument arg with
    | .error e => (.empty, some e)
    | .ok t =>
      let (rest, ended) := run args
      (t.append rest, ended)

end Multipoly.CommandLine
