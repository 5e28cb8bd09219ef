import ExclusionAlgebra.Rule.Basic

/-!
# Two patterns

What the union and the intersection of two patterns come to.

* `Pattern.covers`: a whole group covers every pattern of that group that names more.
* `Pattern.meet?`: the pattern that admits what both admit, unless a field clashes.
* `Rule.ofPatterns`: the union or intersection of two patterns as a rule.
-/

namespace ExclusionAlgebra

namespace Pattern

/-- Does the first pattern name a group and nothing else, and the second more of the same group? -/
def covers (general specific : Pattern) : Bool :=
  general.group.isSome && general.group = specific.group && general.module.isNone &&
    general.artifact.isNone && (specific.module.isSome || specific.artifact.isSome)

/-- The field that both fields admit: an open field takes the other's value, two concrete values
must agree. -/
def meetField? {α : Type} [DecidableEq α] : Option α → Option α → Option (Option α)
  | some x, some y => if x = y then some (some x) else none
  | some x, none => some (some x)
  | none, y => some y

/-- The pattern of what both patterns admit; none if some field clashes, for then no coordinate
does. -/
def meet? (p q : Pattern) : Option Pattern := do
  let group ← meetField? p.group q.group
  let module ← meetField? p.module q.module
  let artifact ← meetField? p.artifact q.artifact
  pure ⟨group, module, artifact⟩

end Pattern

/-- Two patterns combined.  Where neither pattern covers the other their union stays a composite. -/
def Rule.ofPatterns : Operation → Pattern → Pattern → Rule
  | .anyOf, p, q =>
    if p.covers q then .pattern p
    else if q.covers p then .pattern q
    else .composite .anyOf [.pattern p, .pattern q]
  | .allOf, p, q =>
    match p.meet? q with
    | some r => .pattern r
    | none => .nothing

end ExclusionAlgebra
