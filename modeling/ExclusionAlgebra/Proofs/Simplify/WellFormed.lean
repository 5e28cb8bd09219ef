import ExclusionAlgebra.Proofs.Simplify.Kinds

/-!
# Simplification keeps rules free of needless components

Distribution combines each component with a rule of its own, and what comes out may be a singleton, or
the same for two components.  None of this ends up inside a composite: a singleton is neutral or
absorbing as soon as it is folded, and a component is only added where no equal one is.

* `Rule.Tidy`, `Rule.WellFormed`: at least two components in each composite, no singleton among them
  and no two of them equal.
* `Rule.wellFormed_composite`: the condition, said of the components.
* `Simplify.kept_wellFormed`: one combination, given those inside it.
* `Simplify.combineAll_wellFormed`: lists of rules, with unions and intersections in them alike.
-/

namespace ExclusionAlgebra

namespace Rule

/-- If the node is a composite, it has at least two components, none of them is a singleton, and no
two of them are equal. -/
def Tidy (node : Rule) : Prop :=
  ∀ operation components, node = .composite operation components →
    2 ≤ components.length ∧ .everything ∉ components ∧ .nothing ∉ components ∧
      components.Pairwise fun c d => c.equals d ≠ .ok true

/-- The rule holds no foreign value, and nothing in any of its composites is needless. -/
def WellFormed (rule : Rule) : Prop := rule.Known ∧ rule.Everywhere Tidy

theorem wellFormed_nothing : WellFormed .nothing :=
  ⟨known_nothing, everywhere_nothing.mpr nofun⟩

theorem wellFormed_pattern (p : Pattern) : WellFormed (.pattern p) :=
  ⟨known_pattern p, everywhere_pattern.mpr nofun⟩

theorem pairwise_not_equals_iff {components : List Rule} (h : ∀ c ∈ components, c.Known) :
    (components.Pairwise fun c d => c.equals d ≠ .ok true) ↔
      components.Pairwise fun c d => ¬ Alike c d := by
  apply List.Pairwise.iff_of_mem
  intro c d hc _
  exact not_congr (equals_eq_true_iff (h c hc))

theorem wellFormed_composite {operation : Operation} {components : List Rule} :
    WellFormed (.composite operation components) ↔
      2 ≤ components.length ∧ (∀ c ∈ components, c ≠ .everything ∧ c ≠ .nothing) ∧
        (components.Pairwise fun c d => ¬ Alike c d) ∧ ∀ c ∈ components, c.WellFormed := by
  have hsingletons : (.everything ∉ components ∧ .nothing ∉ components) ↔
      ∀ c ∈ components, c ≠ .everything ∧ c ≠ .nothing := by
    constructor
    · rintro ⟨heverything, hnothing⟩ c hc
      exact ⟨fun h => heverything (h ▸ hc), fun h => hnothing (h ▸ hc)⟩
    · intro h
      exact ⟨fun hc => (h _ hc).1 rfl, fun hc => (h _ hc).2 rfl⟩
  unfold WellFormed
  rw [known_composite, everywhere_composite]
  constructor
  · rintro ⟨hknown, htidy, hinside⟩
    obtain ⟨hlength, heverything, hnothing, hpairwise⟩ := htidy operation components rfl
    exact ⟨hlength, hsingletons.mp ⟨heverything, hnothing⟩,
      (pairwise_not_equals_iff hknown).mp hpairwise, fun c hc => ⟨hknown c hc, hinside c hc⟩⟩
  · rintro ⟨hlength, hno, hpairwise, hall⟩
    have hknown : ∀ c ∈ components, c.Known := fun c hc => (hall c hc).1
    refine ⟨hknown, ?_, fun c hc => (hall c hc).2⟩
    rintro _ _ ⟨⟩
    obtain ⟨heverything, hnothing⟩ := hsingletons.mpr hno
    exact ⟨hlength, heverything, hnothing, (pairwise_not_equals_iff hknown).mpr hpairwise⟩

end Rule

namespace Simplify

open Rule

/-- What a composite that is taken apart faces is a pattern or a composite. -/
theorem Faces.not_singleton {a b x : Rule} {inner : Operation} {cs : List Rule}
    (h : Faces a b inner cs x) : x ≠ .everything ∧ x ≠ .nothing := by
  cases h <;> simp

theorem kept_wellFormed : Kept WellFormed where
  nothing := wellFormed_nothing
  patterns _ p q hne _ _ := by
    have hdiffer : ¬ Alike (.pattern p) (.pattern q) := by
      rintro ⟨⟩
      exact hne rfl
    refine of_ofPatterns (fun r _ => wellFormed_pattern r) wellFormed_nothing fun _ _ => ?_
    simp [wellFormed_composite, wellFormed_pattern, hdiffer]
  component _ _ h := (wellFormed_composite.mp h).2.2.2
  joined := by
    intro f a b cs x _ hf hnew hcs hx
    obtain ⟨hlength, hno, hpairwise, hall⟩ := wellFormed_composite.mp hcs
    refine wellFormed_composite.mpr ⟨?_, ?_, ?_, ?_⟩
    · rw [List.length_append]
      omega
    · rw [List.forall_mem_append, List.forall_mem_singleton]
      exact ⟨hno, hf.not_singleton⟩
    · refine List.pairwise_append.mpr ⟨hpairwise, List.pairwise_singleton _ _, fun c hc d hd => ?_⟩
      rw [List.mem_singleton.mp hd]
      exact hnew c hc
    · rw [List.forall_mem_append, List.forall_mem_singleton]
      exact ⟨hall, hx⟩

/-- **Simplification keeps rules well formed.** What well-formed rules are simplified to, under either
operation, is well formed. -/
theorem combineAll_wellFormed {depth : Nat} {operation : Operation} {rules : List Rule}
    {result : Rule} (hrules : ∀ rule ∈ rules, rule.WellFormed)
    (h : combineAll depth operation rules = .ok result) : result.WellFormed :=
  kept_wellFormed.of_combineAll h hrules

/-- An intersection of two modules is distributed over in a union with the group of one of them, and
the parts collapse to that group. -/
theorem wellFormed_group_and_other :
    ∃ result, combineAll 4 .anyOf [.composite .allOf [.pattern ⟨some "a", some "m", none⟩,
          .pattern ⟨some "b", some "n", none⟩], .pattern ⟨some "a", none, none⟩,
          .pattern ⟨some "c", none, none⟩] = .ok result ∧
      (∀ rule ∈ [Rule.composite .allOf [.pattern ⟨some "a", some "m", none⟩,
          .pattern ⟨some "b", some "n", none⟩], .pattern ⟨some "a", none, none⟩,
          .pattern ⟨some "c", none, none⟩], rule.WellFormed) ∧
      result = .composite .anyOf [.pattern ⟨some "a", none, none⟩,
        .pattern ⟨some "c", none, none⟩] ∧ result.WellFormed := by
  have hrules : ∀ rule ∈ [Rule.composite .allOf [.pattern ⟨some "a", some "m", none⟩,
      .pattern ⟨some "b", some "n", none⟩], .pattern ⟨some "a", none, none⟩,
      .pattern ⟨some "c", none, none⟩], rule.WellFormed := by
    have hdiffer : ¬ Alike (.pattern ⟨some "a", some "m", none⟩)
        (.pattern ⟨some "b", some "n", none⟩) := not_alike_of_equals rfl
    simp [wellFormed_composite, wellFormed_pattern, hdiffer]
  have hrun : combineAll 4 .anyOf [.composite .allOf [.pattern ⟨some "a", some "m", none⟩,
        .pattern ⟨some "b", some "n", none⟩], .pattern ⟨some "a", none, none⟩,
        .pattern ⟨some "c", none, none⟩] =
      .ok (.composite .anyOf [.pattern ⟨some "a", none, none⟩,
        .pattern ⟨some "c", none, none⟩]) := rfl
  exact ⟨_, hrun, hrules, rfl, combineAll_wellFormed hrules hrun⟩

end Simplify

end ExclusionAlgebra
