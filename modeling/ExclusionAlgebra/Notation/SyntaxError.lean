import ExclusionAlgebra.Text.Quoted

/-!
# Syntax errors

What is wrong with a written rule, and where.

* `SyntaxError`: a cause and the position at which the text stops making sense, in 16-bit units.
* `malformedText`: the report on a text and all that is wrong with it.
-/

namespace ExclusionAlgebra

/-- What the reader did not find, or found in excess. -/
inductive SyntaxError.Cause where
  | unexpected (found : Char)
  | separator
  | group
  | module
  | artifact
  | extension
deriving DecidableEq, Repr

def SyntaxError.Cause.message : SyntaxError.Cause → String
  | .unexpected found => "Unexpected " ++ String.ofList (Text.quoteLead found)
  | .separator => "Expected ',' or ')'"
  | .group => "Expected group name or '*'"
  | .module => "Expected module name or '*'"
  | .artifact => "Expected artifact name or '*'"
  | .extension => "Expected artifact extension"

structure SyntaxError where
  position : Nat
  cause : SyntaxError.Cause
deriving DecidableEq, Repr

def SyntaxError.message (error : SyntaxError) : String := error.cause.message

/-- The report on a malformed text: the text in quotes, then each finding with its position. -/
def malformedText (source : String) (findings : List (Int × String)) : String :=
  "Invalid exclusion notation " ++ String.ofList (Text.quote source.toList) ++ ": " ++
    String.intercalate "; " (findings.map fun finding =>
      finding.2 ++ " at " ++ toString finding.1)

end ExclusionAlgebra
