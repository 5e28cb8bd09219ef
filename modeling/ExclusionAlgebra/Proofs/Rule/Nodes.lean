import ExclusionAlgebra.Rule.Canonical

/-!
# The nodes of a rule

A rule is a tree, and most conditions on rules speak of all its nodes.

* `Rule.induction`: what holds of a composite whenever it holds of its components holds of every
  rule.
* `Rule.nodes`, `Rule.Everywhere`: the rule with all rules inside it, and a condition on each of
  them.
* `Rule.Filled`: no node is a composite without components.
* `Rule.Known`: no node is a foreign value.
-/

namespace ExclusionAlgebra

namespace Rule

/-- Induction over the tree, with the hypothesis for each component. -/
@[elab_as_elim, induction_eliminator]
theorem induction {motive : Rule → Prop} (everything : motive .everything)
    (nothing : motive .nothing) (pattern : ∀ p, motive (.pattern p))
    (composite : ∀ operation components, (∀ c ∈ components, motive c) →
      motive (.composite operation components))
    (foreign : ∀ value, motive (.foreign value)) (rule : Rule) : motive rule := by
  refine @Rule.rec motive (fun components => ∀ c ∈ components, motive c)
    everything nothing pattern composite foreign ?_ ?_ rule
  · intro c hc
    cases hc
  · intro head tail hhead htail c hc
    rcases List.mem_cons.mp hc with rfl | hc
    · exact hhead
    · exact htail c hc

/-! ## Conditions on every node -/

mutual

/-- The rule and all rules inside it, each before its components. -/
def nodes : Rule → List Rule
  | .composite operation components => .composite operation components :: nodesIn components
  | rule => [rule]

def nodesIn : List Rule → List Rule
  | [] => []
  | rule :: rest => nodes rule ++ nodesIn rest

end

def Everywhere (P : Rule → Prop) (rule : Rule) : Prop := ∀ node ∈ rule.nodes, P node

theorem mem_nodesIn {components : List Rule} {node : Rule} :
    node ∈ nodesIn components ↔ ∃ c ∈ components, node ∈ nodes c := by
  induction components with
  | nil => simp [nodesIn]
  | cons c rest ih => simp [nodesIn, ih]

theorem mem_nodes_composite {operation : Operation} {components : List Rule} {node : Rule} :
    node ∈ nodes (.composite operation components) ↔
      node = .composite operation components ∨ ∃ c ∈ components, node ∈ nodes c := by
  rw [nodes, List.mem_cons, mem_nodesIn]

theorem self_mem_nodes (rule : Rule) : rule ∈ nodes rule := by
  cases rule <;> simp [nodes]

variable {P : Rule → Prop}

@[simp]
theorem everywhere_composite {operation : Operation} {components : List Rule} :
    Everywhere P (.composite operation components) ↔
      P (.composite operation components) ∧ ∀ c ∈ components, Everywhere P c := by
  simp only [Everywhere, mem_nodes_composite]
  constructor
  · intro h
    exact ⟨h _ (Or.inl rfl), fun c hc node hn => h node (Or.inr ⟨c, hc, hn⟩)⟩
  · rintro ⟨hself, hinside⟩ node (rfl | ⟨c, hc, hn⟩)
    · exact hself
    · exact hinside c hc node hn

@[simp]
theorem everywhere_everything : Everywhere P .everything ↔ P .everything := by
  simp [Everywhere, nodes]

@[simp]
theorem everywhere_nothing : Everywhere P .nothing ↔ P .nothing := by
  simp [Everywhere, nodes]

@[simp]
theorem everywhere_pattern {p : Pattern} : Everywhere P (.pattern p) ↔ P (.pattern p) := by
  simp [Everywhere, nodes]

@[simp]
theorem everywhere_foreign {value : Foreign} : Everywhere P (.foreign value) ↔ P (.foreign value) := by
  simp [Everywhere, nodes]

/-! ## Rules without empty composites -/

/-- No node is a composite without components. -/
def Filled (rule : Rule) : Prop :=
  rule.Everywhere fun node => ∀ operation, node ≠ .composite operation []

@[simp]
theorem filled_composite {operation : Operation} {components : List Rule} :
    Filled (.composite operation components) ↔ components ≠ [] ∧ ∀ c ∈ components, c.Filled := by
  unfold Filled
  rw [everywhere_composite]
  apply and_congr_left
  intro _
  simp

/-! ## Rules without foreign values -/

def Known (rule : Rule) : Prop := rule.firstForeign? = none

instance (rule : Rule) : Decidable rule.Known := inferInstanceAs (Decidable (_ = _))

theorem firstForeignIn?_eq_none {components : List Rule} :
    firstForeignIn? components = none ↔ ∀ c ∈ components, c.Known := by
  induction components with
  | nil => simp [firstForeignIn?]
  | cons c rest ih => simp [firstForeignIn?, Option.or_eq_none_iff, ih, Known]

@[simp]
theorem known_everything : Known .everything := rfl

@[simp]
theorem known_nothing : Known .nothing := rfl

@[simp]
theorem known_pattern (p : Pattern) : Known (.pattern p) := rfl

@[simp]
theorem not_known_foreign (value : Foreign) : ¬ Known (.foreign value) := nofun

@[simp]
theorem known_composite {operation : Operation} {components : List Rule} :
    Known (.composite operation components) ↔ ∀ c ∈ components, c.Known := by
  rw [Known, firstForeign?, firstForeignIn?_eq_none]

theorem check_eq_ok_iff {rule : Rule} : rule.check = .ok () ↔ rule.Known := by
  unfold check Known
  cases rule.firstForeign? <;> simp

theorem hash_eq_ok {rule : Rule} (h : rule.Known) : rule.hash = .ok rule.digest := by
  rw [hash, check_eq_ok_iff.mpr h]
  rfl

theorem known_of_hash {rule : Rule} {digest : Digest} (h : rule.hash = .ok digest) :
    rule.Known ∧ digest = rule.digest := by
  unfold hash at h
  cases hc : rule.check with
  | error fault => rw [hc] at h; cases h
  | ok u =>
    rw [hc] at h
    cases h
    exact ⟨check_eq_ok_iff.mp hc, rfl⟩

end Rule

end ExclusionAlgebra
