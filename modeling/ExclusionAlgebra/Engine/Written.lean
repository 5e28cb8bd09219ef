import ExclusionAlgebra.Engine.Basic
import ExclusionAlgebra.Notation.Reader
import ExclusionAlgebra.Simplify.Combine

/-!
# Engines on written rules

The usual engine, and what it does with rules in their written form.

* `Base.simplifying`: the base that applies the laws of the algebra.
* `Engine.Options`: which layers stand around it.  The journal is outermost, so that answers from
  the memo are recorded too.
* `Engine.read`, `Engine.readOrFail`: a written rule, its composites built by requests.
* `Engine.combineWritten`: several written rules in one request.
-/

namespace ExclusionAlgebra

def Base.simplifying (depth : Nat) : Base := Simplify.combineAll depth

/-- A depth that is beyond what rules of a reasonable size need. -/
def Simplify.ampleDepth : Nat := 10000

namespace Engine

structure Options where
  cache : Bool := true
  journal : Bool := false
deriving DecidableEq, Repr

/-- The layers for the options, outermost first. -/
def Options.layers (options : Options) : List Layer :=
  (if options.journal then [.logging true] else []) ++
    (if options.cache then [.caching .empty] else [])

def State.initial (layers : List Layer) : State := ⟨layers, .empty⟩

/-- Reads a rule; each composite in it is one request. -/
def read (wiring : Wiring) (source : String) : Action (Except SyntaxError Rule) :=
  Rule.readWith (request wiring) source

/-- Reads a rule, and fails on what is none. -/
def readOrFail (wiring : Wiring) (source : String) : Action Rule := do
  match ← read wiring source with
  | .ok rule => pure rule
  | .error error => throw (.malformed source error)

/-- Reads rules from the left, then combines them in one request. -/
def combineWritten (wiring : Wiring) (operation : Operation) (sources : List String) :
    Action Rule := do
  let rules ← sources.mapM (readOrFail wiring)
  request wiring operation rules

end Engine

end ExclusionAlgebra
