import ExclusionAlgebra.Rule.Basic
import ExclusionAlgebra.Notation.SyntaxError

/-!
# Faults

Everything that can end a request early, by its cause, with one function for the wording.

* `Fault.foreign`: an operation came upon a value that is no rule.
* `Fault.malformed`: a written rule could not be read.
* `Fault.sink`: the receiver of the journal refused an entry.
* `Fault.tooDeep`: a simplification went beyond the depth that was granted to it, which a caller sees
  as a call stack that is too large.  What is said of that is up to the machine.
-/

namespace ExclusionAlgebra

/-- Why a receiver did not take an entry: it failed and says why, or it aborted with a bare text that
nobody reports. -/
inductive SinkFault where
  | failed (message : String)
  | aborted (text : String)
deriving DecidableEq, Repr

inductive Fault where
  | foreign (value : Foreign)
  | malformed (source : String) (error : SyntaxError)
  | sink (fault : SinkFault)
  | tooDeep
deriving DecidableEq, Repr

def foreignText (description : String) : String := "Unexpected spec type: " ++ description

/-- The message of a fault that has one of its own. -/
def Fault.message? : Fault → Option String
  | .foreign value => foreignText value.description
  | .malformed source error => malformedText source [(error.position, error.message)]
  | .sink (.failed message) => message
  | .sink (.aborted text) => text
  | .tooDeep => none

/-- Fails on a rule that holds a foreign value, naming the first. -/
def Rule.check (rule : Rule) : Except Fault Unit :=
  match rule.firstForeign? with
  | none => .ok ()
  | some value => .error (.foreign value)

end ExclusionAlgebra
