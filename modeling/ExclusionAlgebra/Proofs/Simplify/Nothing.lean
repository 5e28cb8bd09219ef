import ExclusionAlgebra.Proofs.Simplify.Meaning
import ExclusionAlgebra.Proofs.Simplify.Returning

/-!
# Rules that leave nothing out

A pattern always leaves some coordinate out, namely the one with its own fields, and so does a union
with a pattern among its components.  Simplification keeps no other composites, and it keeps the
meaning, so it gives `nothing` exactly where no coordinate is left out, however deep the unions that
were distributed.

* `Pattern.exists_admits`: a pattern admits some coordinate.
* `Simplify.Settled.eq_nothing_iff`: a settled rule that leaves nothing out is `nothing`.
* `Simplify.eq_nothing_iff_of_reachable`: what simplification builds, and lists of such rules.
-/

namespace ExclusionAlgebra

/-- The coordinate with the fields of the pattern, whatever stands where it is open. -/
theorem Pattern.exists_admits (p : Pattern) : ∃ k, p.admits k = true := by
  obtain ⟨group, module, artifact⟩ := p
  refine ⟨⟨group.getD "", module.getD "", artifact.getD ⟨"", none⟩⟩, ?_⟩
  cases group <;> cases module <;> cases artifact <;> simp [admits]

theorem Rule.IntersectionFree.grounded {rule : Rule} (h : rule.IntersectionFree) : rule.Grounded :=
  fun node hnode => h node hnode []

namespace Simplify

open Rule

/-- A union leaves out what its first pattern does. -/
theorem Settled.exists_excludes {rule : Rule} (h : Settled rule) (hne : rule ≠ .nothing) :
    ∃ k, rule.excludes k = true := by
  induction h with
  | everything => exact ⟨⟨"", "", ⟨"", none⟩⟩, rfl⟩
  | nothing => exact absurd rfl hne
  | pattern p => exact p.exists_admits
  | @pair p q _ _ _ =>
    obtain ⟨k, hk⟩ := p.exists_admits
    refine ⟨k, ?_⟩
    rw [excludes_composite]
    simp [Operation.verdict, excludes, hk]
  | @grown cs x _ _ _ _ ihcs _ =>
    obtain ⟨k, hk⟩ := ihcs (by simp)
    refine ⟨k, ?_⟩
    rw [excludes_composite] at hk ⊢
    rw [List.map_append, List.map_singleton, Operation.verdict_append_singleton, hk]
    simp [Operation.both, Operation.verdict]

theorem Settled.eq_nothing_iff {rule : Rule} (h : Settled rule) :
    rule = .nothing ↔ ∀ k, rule.excludes k = false := by
  constructor
  · rintro rfl k
    rfl
  · intro hall
    by_contra hne
    obtain ⟨k, hk⟩ := h.exists_excludes hne
    rw [hall k] at hk
    cases hk

/-- **Nothing is reported exactly when nothing is left out.** A rule that simplification has built is
`nothing` if and only if it leaves no coordinate out.  Such rules, at least one, have an intersection
from some depth on, and it is `nothing` if and only if no coordinate is left out by all of them; and
they have a union, which is `nothing` if and only if all of them are. -/
theorem eq_nothing_iff_of_reachable :
    (∀ rule, Reachable rule → (rule = .nothing ↔ ∀ k, rule.excludes k = false)) ∧
    ∀ rules : List Rule, rules ≠ [] → (∀ rule ∈ rules, Reachable rule) →
      ∃ bound met united,
        (∀ depth, bound ≤ depth → combineAll depth .allOf rules = .ok met ∧
          combineAll depth .anyOf rules = .ok united) ∧
        (met = .nothing ↔ ¬ ∃ k, ∀ rule ∈ rules, rule.excludes k = true) ∧
        (united = .nothing ↔ ∀ rule ∈ rules, rule = .nothing) := by
  refine ⟨fun rule hrule => (settled_of_reachable hrule).eq_nothing_iff, fun rules hne hrules => ?_⟩
  have hsettled : ∀ rule ∈ rules, Settled rule := fun rule hrule =>
    settled_of_reachable (hrules rule hrule)
  have hground : ∀ rule ∈ rules, rule.Grounded := fun rule hrule =>
    (hsettled rule hrule).intersectionFree.grounded
  obtain ⟨met, hmet, first, hmeets⟩ := exists_combineAll_of_settled .allOf hsettled
  obtain ⟨united, hunited, second, hunites⟩ := exists_combineAll_of_settled .anyOf hsettled
  obtain ⟨-, hall⟩ :=
    excludes_of_fold (excludes_of_combine first .allOf) (hmeets first le_rfl) hne hground
  obtain ⟨-, hany⟩ :=
    excludes_of_fold (excludes_of_combine second .anyOf) (hunites second le_rfl) hne hground
  refine ⟨max first second, met, united, fun depth hdepth => ⟨?_, ?_⟩, ?_, ?_⟩
  · exact hmeets depth (by omega)
  · exact hunites depth (by omega)
  · rw [hmet.eq_nothing_iff, not_exists]
    apply forall_congr'
    intro k
    rw [hall k]
    simp [Operation.verdict]
  · have hnone : ∀ k, united.excludes k = false ↔ ∀ rule ∈ rules, rule.excludes k = false := by
      intro k
      rw [hany k]
      simp [Operation.verdict]
    rw [hunited.eq_nothing_iff]
    constructor
    · intro h rule hrule
      exact (hsettled rule hrule).eq_nothing_iff.mpr fun k => (hnone k).mp (h k) rule hrule
    · intro h k
      refine (hnone k).mpr fun rule hrule => ?_
      exact (hsettled rule hrule).eq_nothing_iff.mp (h rule hrule) k

/-- Two modules of other groups met by a group: both parts of the distribution are `nothing`, and no
coordinate is left out by both rules. -/
theorem nothing_of_modules_and_other_group :
    ∃ modules group, modules = Rule.composite .anyOf [.pattern ⟨some "a", some "m", none⟩,
        .pattern ⟨some "b", some "n", none⟩] ∧ group = Rule.pattern ⟨some "c", none, none⟩ ∧
      [modules, group] ≠ [] ∧ (∀ rule ∈ [modules, group], Reachable rule) ∧
      ∃ bound met, (∀ depth, bound ≤ depth → combineAll depth .allOf [modules, group] = .ok met) ∧
        met = .nothing ∧ ¬ ∃ k, ∀ rule ∈ [modules, group], rule.excludes k = true := by
  have hmodules : Reachable (.composite .anyOf [.pattern ⟨some "a", some "m", none⟩,
      .pattern ⟨some "b", some "n", none⟩]) := by
    have hrun : combineAll 1 .anyOf [.pattern ⟨some "a", some "m", none⟩,
        .pattern ⟨some "b", some "n", none⟩] = .ok (.composite .anyOf
          [.pattern ⟨some "a", some "m", none⟩, .pattern ⟨some "b", some "n", none⟩]) := rfl
    exact .combined (by simp [Reachable.pattern]) hrun
  have hrules : ∀ rule ∈ [Rule.composite .anyOf [.pattern ⟨some "a", some "m", none⟩,
      .pattern ⟨some "b", some "n", none⟩], .pattern ⟨some "c", none, none⟩], Reachable rule := by
    simp [hmodules, Reachable.pattern]
  obtain ⟨bound, met, united, hreturns, hmet, -⟩ :=
    eq_nothing_iff_of_reachable.2 _ (List.cons_ne_nil _ _) hrules
  have hrun : combineAll 3 .allOf [.composite .anyOf [.pattern ⟨some "a", some "m", none⟩,
      .pattern ⟨some "b", some "n", none⟩], .pattern ⟨some "c", none, none⟩] = .ok .nothing := rfl
  have hnothing : met = .nothing := combineAll_unique (hreturns bound le_rfl).1 hrun
  exact ⟨_, _, rfl, rfl, List.cons_ne_nil _ _, hrules, bound, met,
    fun depth hdepth => (hreturns depth hdepth).1, hnothing, hmet.mp hnothing⟩

end Simplify

end ExclusionAlgebra
