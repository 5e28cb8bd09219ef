import ExclusionAlgebra.Rule.Basic

/-!
# Factories

A factory makes rules on request: the two constants, patterns, and combinations of rules that were
made before.  A request may have effects, and what comes back need not be the rule that was asked
for.

* `Factory`: the requests.
* `Factory.ofCombine`: a factory that does something of its own only for combinations.
* `Factory.verbatim`: every rule is made as it is asked for.
* `Factory.atom`: the request for a rule without components.
-/

namespace ExclusionAlgebra

structure Factory (m : Type → Type) where
  everything : m Rule
  nothing : m Rule
  pattern : Pattern → m Rule
  combine : Operation → List Rule → m Rule

namespace Factory

variable {m : Type → Type} [Monad m]

def ofCombine (combine : Operation → List Rule → m Rule) : Factory m where
  everything := pure .everything
  nothing := pure .nothing
  pattern p := pure (.pattern p)
  combine := combine

def verbatim : Factory Id := .ofCombine fun operation rules => pure (.composite operation rules)

/-- The request that makes the rule.  A composite takes the request for a combination, and there is
none for a foreign value: both stay as they are. -/
def atom (factory : Factory m) : Rule → m Rule
  | .everything => factory.everything
  | .nothing => factory.nothing
  | .pattern p => factory.pattern p
  | rule => pure rule

end Factory

end ExclusionAlgebra
