import ExclusionAlgebra.Proofs.Rule.Nodes
import ExclusionAlgebra.Rule.Factory

/-!
# Building a rule again

A builder answers requests to combine rules, perhaps with effects.  Building a rule again puts its
composites to the builder one after another, each when its own components have been built, from the
left; what is no composite is kept.  A factory is asked for what is no composite as well.

* `Rule.rebuild`: the rule that comes out.
* `Rule.traverse`: the rule that comes out of a factory.
* `Rule.traverse_ofCombine`: a factory with an action of its own only for combinations is a builder.
* `Rule.composites`: the composites inside a rule, as they are put to a builder.
* `Rule.rebuild_composite_eq_self`: a composite is given back if its components are and the builder
  gives it back from them.
-/

namespace ExclusionAlgebra

namespace Rule

section

variable {m : Type → Type} [Monad m] (build : Operation → List Rule → m Rule)

mutual

def rebuild : Rule → m Rule
  | .composite operation components => do
    let rebuilt ← rebuildEach components
    build operation rebuilt
  | rule => pure rule

def rebuildEach : List Rule → m (List Rule)
  | [] => pure []
  | rule :: rest => do
    let first ← rebuild rule
    let others ← rebuildEach rest
    pure (first :: others)

end

theorem rebuild_of_not_composite {rule : Rule} (h : rule.isComposite = false) :
    rebuild build rule = pure rule := by
  cases rule with
  | composite operation components => cases h
  | _ => simp only [rebuild]

end

section

variable {m : Type → Type} [Monad m] (factory : Factory m)

mutual

def traverse : Rule → m Rule
  | .composite operation components => do
    let made ← traverseEach components
    factory.combine operation made
  | rule => factory.atom rule

def traverseEach : List Rule → m (List Rule)
  | [] => pure []
  | rule :: rest => do
    let first ← traverse rule
    let others ← traverseEach rest
    pure (first :: others)

end

theorem traverse_of_not_composite {rule : Rule} (h : rule.isComposite = false) :
    traverse factory rule = factory.atom rule := by
  cases rule with
  | composite operation components => cases h
  | _ => simp only [traverse]

end

section

variable {m : Type → Type} [Monad m] (build : Operation → List Rule → m Rule)

theorem traverseEach_ofCombine_of {rules : List Rule}
    (h : ∀ rule ∈ rules, traverse (.ofCombine build) rule = rebuild build rule) :
    traverseEach (.ofCombine build) rules = rebuildEach build rules := by
  induction rules with
  | nil => rfl
  | cons rule rest ih =>
    have hrest := ih fun c hc => h c (List.mem_cons_of_mem _ hc)
    rw [traverseEach, rebuildEach, h rule List.mem_cons_self, hrest]

theorem traverse_ofCombine (rule : Rule) : traverse (.ofCombine build) rule = rebuild build rule := by
  induction rule with
  | composite operation components ih =>
    rw [traverse, rebuild, traverseEach_ofCombine_of build ih]
    rfl
  | _ => rw [traverse_of_not_composite _ rfl, rebuild_of_not_composite _ rfl]; rfl

theorem traverseEach_ofCombine (rules : List Rule) :
    traverseEach (.ofCombine build) rules = rebuildEach build rules :=
  traverseEach_ofCombine_of build fun rule _ => traverse_ofCombine build rule

end

/-! ## The composites of a rule -/

mutual

/-- The composites inside the rule, each behind those inside of it: the order in which they are
combined. -/
def composites : Rule → List Rule
  | .composite operation components => compositesIn components ++ [.composite operation components]
  | _ => []

def compositesIn : List Rule → List Rule
  | [] => []
  | rule :: rest => composites rule ++ compositesIn rest

end

theorem compositesIn_singleton (rule : Rule) : compositesIn [rule] = rule.composites := by
  rw [compositesIn, compositesIn, List.append_nil]

theorem mem_compositesIn {rules : List Rule} {node : Rule} :
    node ∈ compositesIn rules ↔ ∃ rule ∈ rules, node ∈ rule.composites := by
  induction rules with
  | nil => simp [compositesIn]
  | cons rule rest ih => simp [compositesIn, ih]

theorem known_of_mem_composites {rule node : Rule} (hrule : rule.Known)
    (h : node ∈ rule.composites) : node.Known := by
  induction rule with
  | composite operation components ih =>
    rw [composites, List.mem_append, mem_compositesIn, List.mem_singleton] at h
    rcases h with ⟨c, hc, hinside⟩ | rfl
    · exact ih c hc (known_composite.mp hrule c hc) hinside
    · exact hrule
  | _ => cases h

theorem composites_eq_nil {rule : Rule} (h : rule.isComposite = false) : rule.composites = [] := by
  cases rule with
  | composite operation components => cases h
  | _ => rfl

/-! ## Lists of rules -/

section

variable {m : Type → Type} [Monad m] [LawfulMonad m] {build : Operation → List Rule → m Rule}

theorem rebuildEach_append (rules others : List Rule) :
    rebuildEach build (rules ++ others) =
      rebuildEach build rules >>= fun first =>
        rebuildEach build others >>= fun second => pure (first ++ second) := by
  induction rules with
  | nil => simp [rebuildEach]
  | cons rule rest ih => simp [rebuildEach, ih]

/-- A list whose members are all given back is given back. -/
theorem rebuildEach_eq_self {rules : List Rule}
    (h : ∀ rule ∈ rules, rebuild build rule = pure rule) : rebuildEach build rules = pure rules := by
  induction rules with
  | nil => rfl
  | cons rule rest ih =>
    have hfirst := h rule List.mem_cons_self
    have hrest := ih fun c hc => h c (List.mem_cons_of_mem _ hc)
    rw [rebuildEach, hfirst, hrest, pure_bind, pure_bind]

/-- A composite is given back if its components are and the builder gives it back from them. -/
theorem rebuild_composite_eq_self {operation : Operation} {components : List Rule}
    (h : ∀ c ∈ components, rebuild build c = pure c)
    (hbuild : build operation components = pure (.composite operation components)) :
    rebuild build (.composite operation components) = pure (.composite operation components) := by
  rw [rebuild, rebuildEach_eq_self h, pure_bind]
  exact hbuild

end

/-- The factory that makes every rule as it is asked for makes a rule again as it was. -/
theorem traverse_verbatim (rule : Rule) : rule.traverse .verbatim = pure rule := by
  unfold Factory.verbatim
  rw [traverse_ofCombine]
  induction rule with
  | composite operation components ih => exact rebuild_composite_eq_self ih rfl
  | _ => rfl

end Rule

end ExclusionAlgebra
