import ExclusionAlgebra.Command.Arguments
import ExclusionAlgebra.Engine.Written
import ExclusionAlgebra.Terminal.Trace

/-!
# Running a command line

What a command line prints and how the program ends.

* `World`: what the program finds around it.
* `Run`: what it leaves: two output texts, the trace lines that went elsewhere, and how it ended.
* `Run.ofArguments`: the run of a command line.  Only a trace receiver that aborts leaves no run.
-/

namespace ExclusionAlgebra

/-- Where trace lines go: to the standard error, or to a receiver of their own. -/
inductive TraceTarget where
  | standardError
  | receiver
deriving DecidableEq, Repr

/-- What a run of the program depends on, besides its arguments. -/
structure World where
  environment : Environment
  coloured : Bool
  clock : Nat → String
  traceTarget : TraceTarget
  /-- The answer to a trace line that is about to be written. -/
  admits : String → Except SinkFault Unit
  depth : Nat

structure Ending where
  status : Nat
  code : Option String
deriving DecidableEq, Repr

structure Run where
  output : String
  errors : String
  trace : List String
  ending : Ending
deriving DecidableEq, Repr

def programVersion : String := "0.1.0"

def line (text : String) : String := text ++ "\n"

namespace Ending

def finished : Ending := ⟨0, none⟩

def version : Ending := ⟨0, some "commander.version"⟩

def malformed : Ending := ⟨2, some "exclusions.notation"⟩

def unexpected : Ending := ⟨1, some "exclusions.unexpected"⟩

def usage : UsageError → Ending
  | .unknownOption _ => ⟨1, some "commander.unknownOption"⟩
  | .missingArgument _ => ⟨1, some "commander.missingArgument"⟩
  | .unknownCommand _ => ⟨1, some "commander.unknownCommand"⟩
  | .noCommand => ⟨1, some "commander.help"⟩

end Ending

namespace Run

def wiring (world : World) : Engine.Wiring where
  base := .simplifying world.depth
  clock := world.clock
  sink := fun entry => world.admits (entry.trace world.coloured)

/-- What a command does with its engine. -/
def action (world : World) : Invocation → Engine.Action Rule
  | .combine operation _ rules => Engine.combineWritten (wiring world) operation rules
  | .format _ rule => Engine.readOrFail (wiring world) rule
  | .version => pure .nothing

def flags : Invocation → Flags
  | .combine _ flags _ => flags
  | .format flags _ => flags
  | .version => .none

/-- The two lines that show a rule: its written form and its digest. -/
def printed (coloured : Bool) (rule : Rule) : Except Fault String := do
  let text ← rule.format
  let digest ← rule.hash
  pure (line (Terminal.paint coloured (Terminal.resultInk text) text) ++
    line (Terminal.paint coloured .muted ("hash " ++ digest.hex)))

/-- What the machine says when the call stack is exhausted. -/
def overflowText : String := "Maximum call stack size exceeded"

/-- The report on a fault and the ending that goes with it; none for an abort. -/
def reported (coloured : Bool) : Fault → Except String (String × Ending)
  | .sink (.aborted text) => .error text
  | .malformed source error =>
    let message := malformedText source [(error.position, error.message)]
    .ok (line (Terminal.paint coloured .red message), .malformed)
  | fault =>
    let message := fault.message?.getD overflowText
    .ok (line (Terminal.paint coloured .red ("Unexpected error: " ++ message)), .unexpected)

/-- Trace lines go in front of the report, or elsewhere. -/
def close (target : TraceTarget) (trace : List String) (output report : String) (ending : Ending) :
    Run :=
  match target with
  | .standardError => ⟨output, String.join (trace.map line) ++ report, [], ending⟩
  | .receiver => ⟨output, report, trace, ending⟩

def command (world : World) (invocation : Invocation) : Except String Run := do
  let settings := Settings.resolve (flags invocation) world.environment
  let options : Engine.Options := { cache := settings.cache, journal := settings.trace }
  let (answer, state) := action world invocation (Engine.State.initial options.layers)
  let trace := state.journal.entries.map (LogEntry.trace world.coloured)
  match answer >>= printed world.coloured with
  | .ok output => pure (close world.traceTarget trace output "" .finished)
  | .error fault =>
    let (report, ending) ← reported world.coloured fault
    pure (close world.traceTarget trace "" report ending)

def ofArguments (world : World) (arguments : List String) : Except String Run :=
  match Invocation.ofArguments arguments with
  | .error error => .ok ⟨"", line error.message, [], .usage error⟩
  | .ok .version => .ok ⟨line programVersion, "", [], .version⟩
  | .ok invocation => command world invocation

end Run

end ExclusionAlgebra
