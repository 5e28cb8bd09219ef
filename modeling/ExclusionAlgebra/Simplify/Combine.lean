import ExclusionAlgebra.Simplify.Pattern
import ExclusionAlgebra.Rule.Equality
import ExclusionAlgebra.Rule.Canonical

/-!
# Simplifying combination

Combines rules by an operation and applies the laws of the algebra on the way.  With `∪` for any of
and `∩` for all of:

* identity: `nothing ∪ X = X` and `everything ∩ X = X`,
* absorbing element: `everything ∪ X = everything` and `nothing ∩ X = nothing`,
* idempotence: `X ∪ X = X` and `X ∩ X = X`,
* patterns: see `Rule.ofPatterns`,
* association: a rule joins a composite of the same operation as a component,
* distribution: a rule combined with a composite of the other operation goes to each component, and
  the results are combined by that other operation,
* absorption: `A ∪ (A ∩ B) = A`.

The laws are dual in the two operations, except that absorption is looked for in unions only.
Distribution starts further combinations, and nothing bounds how deep they go, so a depth is granted
from outside: what is returned does not depend on it, only whether anything is.

* `Simplify.step`: one combination of two rules, given the combination for what arises inside.
* `Simplify.combine`, `Simplify.combineAll`: two rules, and a list of rules from the left.
-/

namespace ExclusionAlgebra

/-- Does the rule swallow every other under the operation? -/
def Operation.absorbedBy : Operation → Rule → Bool
  | .anyOf, .everything => true
  | .allOf, .nothing => true
  | _, _ => false

/-- Does the rule leave every other as it is under the operation? -/
def Operation.ignores : Operation → Rule → Bool
  | .anyOf, .nothing => true
  | .allOf, .everything => true
  | _, _ => false

namespace Simplify

/-- Two operands in a fixed order.  A composite goes to the right of what is none, and of two
composites the one with the smaller digest comes first, so that the order in which the operands were
given leaves no trace. -/
def arrange (left right : Rule) : Except Fault (Rule × Rule) :=
  if !left.isComposite then pure (left, right)
  else if !right.isComposite then pure (right, left)
  else do
    let first ← left.hash
    let second ← right.hash
    pure (if first.le second then (left, right) else (right, left))

/-- Combines the rules of a list from the left.  The empty list gives nothing, whatever the
operation. -/
def fold (pair : Rule → Rule → Except Fault Rule) : List Rule → Except Fault Rule
  | [] => pure .nothing
  | first :: rest => rest.foldlM pair first

/-- A rule and a composite, by `operation`; `inner` is the operation of the composite. -/
def merge (again : Operation → Rule → Rule → Except Fault Rule) (operation inner : Operation)
    (components : List Rule) (rule : Rule) : Except Fault Rule :=
  if operation = inner then Rule.adjoin inner components rule
  else do
    let absorbed ← if operation = .anyOf then Rule.contains components rule else pure false
    if absorbed then pure rule
    else
      let parts ← components.mapM fun component => again operation component rule
      fold (again inner) parts

/-- Two rules that are not equal, in their fixed order.  Whatever is neither neutral nor absorbing is
a pattern, a composite or a foreign value, and only the left one may be no composite. -/
def dispatch (again : Operation → Rule → Rule → Except Fault Rule) (operation : Operation)
    (left right : Rule) : Except Fault Rule :=
  if operation.absorbedBy left || operation.ignores right then pure left
  else if operation.absorbedBy right || operation.ignores left then pure right
  else
    match left, right with
    | .pattern p, .pattern q => pure (Rule.ofPatterns operation p q)
    | .pattern p, .composite inner components =>
      merge again operation inner components (.pattern p)
    | .composite inner components, other => merge again operation inner components other
    | .foreign value, _ => throw (.foreign value)
    | _, .foreign value => throw (.foreign value)
    | other, _ => pure other

/-- One combination.  Equal rules are one; others are put in order and dispatched. -/
def step (again : Operation → Rule → Rule → Except Fault Rule) (operation : Operation)
    (left right : Rule) : Except Fault Rule := do
  if ← left.equals right then pure left
  else
    let (first, second) ← arrange left right
    dispatch again operation first second

def combine : Nat → Operation → Rule → Rule → Except Fault Rule
  | 0, _, _, _ => throw .tooDeep
  | depth + 1, operation, left, right => step (combine depth) operation left right

def combineAll (depth : Nat) (operation : Operation) (rules : List Rule) : Except Fault Rule :=
  fold (combine depth operation) rules

end Simplify

end ExclusionAlgebra
