import ExclusionAlgebra.Engine.Written

/-!
# Sessions

A session puts one step after another to an engine.  Steps may use the answers to earlier steps, and
a step that fails does not end the session.

* `Session.Term`: an operand: a rule, a written rule, the answer to an earlier step, or a composite
  of operands.
* `Session.Step`, `Session.Answer`: what is asked and what comes back.
* `Session.Report`: an answer with what can be seen of the engine after the step.
* `Session.run`: the reports on a list of steps.
-/

namespace ExclusionAlgebra

namespace Session

inductive Term where
  | given (rule : Rule)
  | written (source : String)
  | answer (step : Nat)
  | composite (operation : Operation) (components : List Term)
deriving Repr, Inhabited

mutual

/-- The rule that an operand stands for.  `answers` holds, for each earlier step, the rule it gave if
it gave one; a step that gave none leaves an object without a kind in its place.  Written rules are read
verbatim. -/
def Term.resolve (answers : List (Option Rule)) : Term → Except Fault Rule
  | .given rule => pure rule
  | .written source =>
    match Rule.read source with
    | .ok rule => pure rule
    | .error error => throw (.malformed source error)
  | .answer step => pure ((answers[step]?.getD none).getD (.foreign (.kindless 0)))
  | .composite operation components => do
    let rules ← Term.resolveList answers components
    pure (.composite operation rules)

def Term.resolveList (answers : List (Option Rule)) : List Term → Except Fault (List Rule)
  | [] => pure []
  | term :: rest => do
    let rule ← Term.resolve answers term
    let rules ← Term.resolveList answers rest
    pure (rule :: rules)

end

inductive Step where
  | combine (operation : Operation) (operands : List Term)
  | everything
  | nothing
  | pattern (pattern : Pattern)
  | parse (source : String)
  | clearCaches
  | clearJournal
  | journal
deriving Repr

inductive Answer where
  | result (rule : Rule)
  | malformed (error : SyntaxError)
  | failed (fault : Fault)
  | entries (entries : List LogEntry)
  | done
deriving DecidableEq, Repr

/-- The rule that an answer gives to later steps. -/
def Answer.rule? : Answer → Option Rule
  | .result rule => some rule
  | _ => none

structure Report where
  answer : Answer
  cacheSizes : List Nat
  logged : Nat
  readings : Nat
deriving DecidableEq, Repr

/-- One step: its answer, and the engine after it. -/
def Step.run (wiring : Engine.Wiring) (answers : List (Option Rule)) (state : Engine.State) :
    Step → Answer × Engine.State
  | .combine operation operands =>
    match Term.resolveList answers operands with
    | .error fault => (.failed fault, state)
    | .ok rules =>
      match Engine.request wiring operation rules state with
      | (.ok rule, state) => (.result rule, state)
      | (.error fault, state) => (.failed fault, state)
  | .everything => (.result .everything, state)
  | .nothing => (.result .nothing, state)
  | .pattern p => (.result (.pattern p), state)
  | .parse source =>
    match Engine.read wiring source state with
    | (.ok (.ok rule), state) => (.result rule, state)
    | (.ok (.error error), state) => (.malformed error, state)
    | (.error fault, state) => (.failed fault, state)
  | .clearCaches => (.done, state.clearCaches)
  | .clearJournal => (.done, state.clearJournal)
  | .journal => (.entries state.journal.entries, state)

def Report.of (answer : Answer) (state : Engine.State) : Report :=
  ⟨answer, state.cacheSizes, state.journal.entries.length, state.journal.readings⟩

/-- The reports on steps that follow earlier ones with the given answers, and the engine at the
end. -/
def runFrom (wiring : Engine.Wiring) (answers : List (Option Rule)) (state : Engine.State) :
    List Step → List Report × Engine.State
  | [] => ([], state)
  | step :: rest =>
    let (answer, state) := step.run wiring answers state
    let (reports, final) := runFrom wiring (answers ++ [answer.rule?]) state rest
    (Report.of answer state :: reports, final)

def run (wiring : Engine.Wiring) (layers : List Layer) (steps : List Step) : List Report :=
  (runFrom wiring [] (Engine.State.initial layers) steps).1

end Session

end ExclusionAlgebra
