import ExclusionAlgebra.Proofs.Ends
import ExclusionAlgebra.Proofs.Simplify.Endless
import ExclusionAlgebra.Proofs.Simplify.Names

/-!
# Known rules are combined without a fault

A combination of rules without foreign values returns by itself or is distributed, and then it asks for
combinations of such rules again: of components, which are parts of an operand, and of what others have
come to.  So the only thing that can end it early is the depth.

* `Simplify.outcome_combine`: two such rules come to such a rule, or go too deep.
* `Simplify.combineAll_unfailing`: a list of such rules, and what is inside the rule that it comes to.
-/

namespace ExclusionAlgebra

namespace Simplify

open Rule

variable {a b : Rule}

theorem outcome_fold {pair : Rule → Rule → Except Fault Rule} {rules : List Rule}
    (hpair : ∀ a b, a.Known → b.Known → Outcome Known (· = .tooDeep) (pair a b))
    (hrules : ∀ rule ∈ rules, rule.Known) : Outcome Known (· = .tooDeep) (fold pair rules) := by
  cases rules with
  | nil => exact known_nothing
  | cons first rest =>
    rw [List.forall_mem_cons] at hrules
    exact outcome_foldlM hrules.2 hpair hrules.1

/-- The induction is on the depth, for distribution asks for combinations of rules that it has made. -/
theorem outcome_combine (depth : Nat) (f : Operation) (ha : a.Known) (hb : b.Known) :
    Outcome Known (· = .tooDeep) (combine depth f a b) := by
  induction depth generalizing f a b with
  | zero => rfl
  | succ depth ih =>
    rcases returns_or_distributes (f := f) ha hb with hreturns | ⟨cs, x, hdistributes⟩
    · obtain ⟨r, hr⟩ := hreturns (combine depth)
      rw [combine, hr]
      exact known_of_combine (depth + 1) f a b r hr ha hb
    · obtain ⟨hcs, hx⟩ := hdistributes.faces.forall_operands ha hb
      have hparts : Outcome (fun parts => ∀ part ∈ parts, part.Known) (· = .tooDeep)
          (cs.mapM fun c => combine depth f c x) :=
        outcome_mapM fun c hc => ih f (known_composite.mp hcs c hc) hx
      rw [combine, step_of_distributes ha hb hdistributes]
      exact hparts.bind fun parts hknown => outcome_fold (fun _ _ => ih f.dual) hknown

/-- **Rules without foreign values are combined without a fault.** Take any such rules, of whatever
shape, and either operation.  Whatever depth is granted, the only fault is that it is not enough, so that
the combination has not come to its end.  Whenever it returns, there is no foreign value inside the rule;
in each pattern inside it, what stands as the group, the module or the artifact stands in the same place
of some pattern inside the operands; and the rule can be written down and has a digest. -/
theorem combineAll_unfailing (operation : Operation) {rules : List Rule}
    (hrules : ∀ rule ∈ rules, rule.Known) :
    (∀ depth fault, combineAll depth operation rules = .error fault → fault = .tooDeep) ∧
      ∀ depth r, combineAll depth operation rules = .ok r →
        r.Known ∧
        (∀ p, .pattern p ∈ r.nodes →
          p.DrawnFrom fun q => ∃ rule ∈ rules, .pattern q ∈ rule.nodes) ∧
        (∃ text, r.format = .ok text) ∧ ∃ digest, r.hash = .ok digest := by
  have houtcome (depth : Nat) : Outcome Known (· = .tooDeep) (combineAll depth operation rules) :=
    outcome_fold (fun _ _ => outcome_combine depth operation) hrules
  refine ⟨fun depth => (outcome_iff.mp (houtcome depth)).2, fun depth r hr => ?_⟩
  have hknown : r.Known := (outcome_iff.mp (houtcome depth)).1 r hr
  have hoperands : ∀ rule ∈ rules, rule.Everywhere fun node => ∀ p, node = .pattern p →
      p.DrawnFrom fun q => ∃ rule ∈ rules, .pattern q ∈ rule.nodes := by
    rintro rule hrule _ hnode p rfl
    exact .of_source ⟨rule, hrule, hnode⟩
  have hdrawn := (kept_drawnFrom _).of_combineAll hr hoperands
  exact ⟨hknown, fun p hp => hdrawn _ hp p rfl, ⟨_, format_eq_ok hknown⟩, _, hash_eq_ok hknown⟩

/-- A repeated component, fields that come from two operands, and an intersection of nothing. -/
theorem combineAll_repeated_group :
    let group : Rule := .pattern ⟨some "a", none, none⟩
    let module : Rule := .pattern ⟨none, some "m", none⟩
    let rules : List Rule := [.composite .anyOf [group, group], module, .composite .allOf []]
    let result : Rule := .composite .allOf [.pattern ⟨some "a", some "m", none⟩]
    (∀ rule ∈ rules, rule.Known) ∧ combineAll 2 .allOf rules = .ok result ∧
      (∀ depth fault, combineAll depth .allOf rules = .error fault → fault = .tooDeep) ∧
      result.Known ∧
      (∀ p, .pattern p ∈ result.nodes →
        p.DrawnFrom fun q => ∃ rule ∈ rules, .pattern q ∈ rule.nodes) ∧
      (∃ text, result.format = .ok text) ∧ ∃ digest, result.hash = .ok digest := by
  intro group module rules result
  have hrules : ∀ rule ∈ rules, rule.Known := by decide
  have hrun : combineAll 2 .allOf rules = .ok result := rfl
  obtain ⟨hfaults, hreturns⟩ := combineAll_unfailing .allOf hrules
  exact ⟨hrules, hrun, hfaults, hreturns 2 result hrun⟩

end Simplify

end ExclusionAlgebra
