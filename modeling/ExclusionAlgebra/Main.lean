import Std.Time.DateTime.Timestamp
import ExclusionAlgebra.Command.Run
import ExclusionAlgebra.Terminal.Instant

/-!
# The program

Runs the command line of the process and prints what the run leaves.  Everything is decided by
`Run.ofArguments`; here its surroundings are looked up and its texts are written out.
-/

namespace ExclusionAlgebra

/-- The surroundings of the process.  All trace lines of a run bear the time of its start. -/
def processWorld : IO World := do
  let trace ← IO.getEnv Settings.traceVariable
  let noCache ← IO.getEnv Settings.noCacheVariable
  let now ← Std.Time.Timestamp.now
  let coloured ← (← IO.getStdout).isTty
  let stamp := Instant.text now.toMillisecondsSinceUnixEpoch.val.toNat
  return {
    environment := fun name =>
      if name = Settings.traceVariable then trace
      else if name = Settings.noCacheVariable then noCache
      else none
    coloured
    clock := fun _ => stamp
    traceTarget := .standardError
    admits := fun _ => .ok ()
    depth := Simplify.ampleDepth }

/-- Runs the command line with the given arguments, and returns the status of the process. -/
def runProcess (arguments : List String) : IO UInt32 := do
  match Run.ofArguments (← processWorld) arguments with
  | .error text =>
    IO.eprintln text
    return 1
  | .ok run =>
    IO.print run.output
    IO.eprint run.errors
    return UInt32.ofNat run.ending.status

end ExclusionAlgebra

def main (arguments : List String) : IO UInt32 := ExclusionAlgebra.runProcess arguments
