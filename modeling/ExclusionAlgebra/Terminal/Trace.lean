import ExclusionAlgebra.Terminal.Style
import ExclusionAlgebra.Engine.Journal

/-!
# Trace lines

One line for each answered request, `<time> <operation>(<operands>) → <result>`.

* `Terminal.traceLine`: the line, from the parts of an entry.
* `LogEntry.trace`: the line of a journal entry.
-/

namespace ExclusionAlgebra

/-- A trace line.  The operation is given by its name, so that a line can be drawn for entries of
any origin. -/
def Terminal.traceLine (coloured : Bool) (timestamp operation : String) (operands : List String)
    (result : String) : String :=
  let dim := Terminal.paint coloured .dim
  Terminal.paint coloured .muted timestamp ++ " " ++
    Terminal.paint coloured (Terminal.operationInk operation) operation ++ dim "(" ++
    String.intercalate (dim ", ") operands ++ dim ")" ++ " " ++ dim "→" ++ " " ++
    Terminal.paint coloured (Terminal.resultInk result) result

/-- The trace line of a journal entry. -/
def LogEntry.trace (coloured : Bool) (entry : LogEntry) : String :=
  Terminal.traceLine coloured entry.timestamp entry.operation.name entry.operands entry.result

end ExclusionAlgebra
