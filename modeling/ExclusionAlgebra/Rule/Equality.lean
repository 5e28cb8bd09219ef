import ExclusionAlgebra.Fault

/-!
# Equality of rules

Two rules are equal when they are built alike, up to the order of the components of composites.
Repeats count: each component of one composite is paired with a component of its own of the other.

The test looks at foreign values only as far as it goes.  A foreign value on the left equals itself
and faults against anything else; on the right only, it differs from every rule.

* `Rule.equals`: the test.  Components are paired greedily, each with the first equal one left over.
* `Rule.contains`, `Rule.adjoin`: membership in a list of components, and adding a component that is
  not yet there.
-/

namespace ExclusionAlgebra

/-- Takes the first member that passes a test out of a list. -/
def takeFirst? {α : Type} (test : α → Except Fault Bool) : List α → Except Fault (Option (List α))
  | [] => pure none
  | x :: rest => do
    if ← test x then pure (some rest)
    else
      let left ← takeFirst? test rest
      pure (left.map (x :: ·))

namespace Rule

mutual

/-- Are the two rules equal up to the order of components? -/
def equals : Rule → Rule → Except Fault Bool
  | .everything, .everything => pure true
  | .nothing, .nothing => pure true
  | .pattern p, .pattern q => pure (decide (p = q))
  | .composite f cs, .composite g ds =>
    if f = g ∧ cs.length = ds.length then pairOff cs ds else pure false
  | .foreign v, .foreign w => if v = w then pure true else throw (.foreign v)
  | .foreign v, _ => throw (.foreign v)
  | _, _ => pure false

/-- Does each rule of the first list find an equal one of its own in the second? -/
def pairOff : List Rule → List Rule → Except Fault Bool
  | [], _ => pure true
  | c :: cs, ds => do
    match ← takeFirst? (equals c) ds with
    | none => pure false
    | some rest => pairOff cs rest

end

/-- Is some component equal to the rule?  The first that is ends the search. -/
def contains (components : List Rule) (rule : Rule) : Except Fault Bool :=
  components.anyM fun component => component.equals rule

/-- The composite with the rule as its last component, unless it holds an equal one already. -/
def adjoin (operation : Operation) (components : List Rule) (rule : Rule) : Except Fault Rule := do
  if ← contains components rule then pure (.composite operation components)
  else pure (.composite operation (components ++ [rule]))

end Rule

end ExclusionAlgebra
