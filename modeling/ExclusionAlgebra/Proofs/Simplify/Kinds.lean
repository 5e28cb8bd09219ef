import ExclusionAlgebra.Proofs.Simplify.Laws

/-!
# Simplification brings in no foreign values

On rules without foreign values every law gives such a rule (`Simplify.kept_known`), and so does
simplification (`Simplify.known_of_combine`, `Simplify.known_of_combineAll`).
-/

namespace ExclusionAlgebra

namespace Simplify

open Rule

variable {operation : Operation}

def KeepsKnown (again : Operation → Rule → Rule → Except Fault Rule) : Prop :=
  ∀ f a b r, again f a b = .ok r → a.Known → b.Known → r.Known

theorem kept_known : Kept Known where
  nothing := known_nothing
  patterns _ _ _ _ _ _ := of_ofPatterns (fun r _ => known_pattern r) known_nothing fun _ _ => by simp
  component _ _ h := known_composite.mp h
  joined := by
    rintro f a b cs x - - - hcs hx
    rw [known_composite] at hcs ⊢
    rw [List.forall_mem_append, List.forall_mem_singleton]
    exact ⟨hcs, hx⟩

theorem known_of_combine (depth : Nat) : KeepsKnown (combine depth) := kept_known.of_combine depth

theorem known_of_combineAll {depth : Nat} {rules : List Rule} {r : Rule}
    (h : combineAll depth operation rules = .ok r) (hrules : ∀ rule ∈ rules, rule.Known) :
    r.Known :=
  kept_known.of_combineAll h hrules

end Simplify

end ExclusionAlgebra
