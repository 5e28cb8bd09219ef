import ExclusionAlgebra.Proofs.Simplify.Laws

/-!
# Foreign operands

A combination faults on a foreign operand, on whichever side it stands, unless it is decided before
that operand is dispatched on.  Two things can decide it: the operands are one and the same value, or
the left one is a singleton, which under either operation is absorbing or neutral.  A singleton on the
right decides nothing, for the test of equality has then come upon the foreign operand already.

* `Rule.foreign?`: the foreign value that a rule is, if it is one.
* `Simplify.step_foreign_left`, `Simplify.step_foreign_right`: one combination with a foreign operand.
* `Simplify.combineAll_eq_foreign_iff`: when a foreign operand ends the request.
-/

namespace ExclusionAlgebra

namespace Rule

/-- The foreign value that the rule itself is.  Those inside a composite do not count. -/
def foreign? : Rule → Option Foreign
  | .foreign value => some value
  | _ => none

theorem foreign?_eq_some {rule : Rule} {value : Foreign} :
    rule.foreign? = some value ↔ rule = .foreign value := by
  cases rule <;> simp [foreign?]

/-- A foreign value equals itself, and nothing else can be compared with it. -/
theorem equals_foreign (value : Foreign) (rule : Rule) :
    (Rule.foreign value).equals rule =
      if rule = .foreign value then .ok true else .error (.foreign value) := by
  cases rule with
  | foreign other =>
    rw [equals]
    by_cases hsame : value = other
    · rw [if_pos hsame, if_pos (congrArg Rule.foreign hsame.symm)]
      rfl
    · have hdiffer : Rule.foreign other ≠ .foreign value := fun h => hsame (foreign.inj h).symm
      rw [if_neg hsame, if_neg hdiffer]
      rfl
  | _ => rfl

end Rule

namespace Simplify

open Rule

variable {again : Operation → Rule → Rule → Except Fault Rule} {operation : Operation}

theorem step_foreign_left (value : Foreign) (b : Rule) :
    step again operation (.foreign value) b =
      if b = .foreign value then .ok (.foreign value) else .error (.foreign value) := by
  unfold step
  rw [equals_foreign]
  split <;> rfl

/-- A foreign operand on the right differs from whatever is not foreign.  A singleton then answers by
itself; a pattern and a composite are dispatched together with the foreign operand. -/
theorem step_foreign_right {a : Rule} (ha : a.foreign? = none) (value : Foreign) :
    step again operation a (.foreign value) =
      if a = .everything ∨ a = .nothing then
        .ok (if operation.absorbedBy a then a else .foreign value)
      else .error (.foreign value) := by
  cases a with
  | everything => cases operation <;> rfl
  | nothing => cases operation <;> rfl
  | pattern p => cases operation <;> rfl
  | composite f cs => cases operation <;> rfl
  | foreign other => cases ha

/-! ## The request -/

/-- **Foreign operands.** Where at least one of two operands is a foreign value, the request ends in the
fault on it, on the left one if both are, exactly when the left operand is no singleton and not the
right one itself.  Otherwise it returns what the left operand decides on: itself where it is absorbing
or the same value, and else the right operand. -/
theorem combineAll_eq_foreign_iff {a b : Rule} {value : Foreign}
    (h : a.foreign?.or b.foreign? = some value) (operation : Operation) (depth : Nat) :
    (combineAll (depth + 1) operation [a, b] = .error (.foreign value) ↔
        a ≠ .everything ∧ a ≠ .nothing ∧ a ≠ b) ∧
      (a = .everything ∨ a = .nothing ∨ a = b →
        combineAll (depth + 1) operation [a, b] = .ok (if operation.absorbedBy a then a else b)) := by
  have hrun : combineAll (depth + 1) operation [a, b] = step (combine depth) operation a b :=
    combineAll_pair (depth + 1) operation a b
  rw [hrun]
  cases ha : a.foreign? with
  | some other =>
    rw [ha, Option.some_or, Option.some.injEq] at h
    cases foreign?_eq_some.mp ha
    subst h
    rw [step_foreign_left]
    by_cases hsame : b = .foreign other
    · subst hsame
      rw [if_pos rfl]
      simp
    · rw [if_neg hsame]
      simp [Ne.symm hsame]
  | none =>
    rw [ha, Option.none_or] at h
    cases foreign?_eq_some.mp h
    have hdiffer : a ≠ .foreign value := by
      rintro rfl
      cases ha
    rw [step_foreign_right ha]
    by_cases hsingleton : a = .everything ∨ a = .nothing
    · rw [if_pos hsingleton]
      refine ⟨⟨nofun, fun hno => ?_⟩, fun _ => rfl⟩
      exact absurd hsingleton (not_or.mpr ⟨hno.1, hno.2.1⟩)
    · rw [if_neg hsingleton]
      obtain ⟨heverything, hnothing⟩ := not_or.mp hsingleton
      simp [heverything, hnothing, hdiffer]

/-- An object of no known kind. -/
def bogus : Rule := .foreign ⟨.object (some (.text "bogus")), 0, rfl⟩

/-- A composite on the left that holds another foreign value gives way to the operand on the right. -/
theorem combineAll_composite_bogus :
    (Rule.composite .anyOf [.pattern ⟨some "g", none, none⟩,
        .foreign (.kindless 1)]).foreign?.or bogus.foreign? =
        some ⟨.object (some (.text "bogus")), 0, rfl⟩ ∧
      combineAll 1 .allOf [.composite .anyOf [.pattern ⟨some "g", none, none⟩,
        .foreign (.kindless 1)], bogus] =
        .error (.foreign ⟨.object (some (.text "bogus")), 0, rfl⟩) := by
  refine ⟨rfl, (combineAll_eq_foreign_iff rfl .allOf 0).1.mpr ⟨nofun, nofun, nofun⟩⟩

/-- A foreign operand does not always end the request: the union of everything and an object of no known
kind is everything. -/
theorem not_forall_exists_foreign : ¬ ∀ (operation : Operation) (a b : Rule),
    (a.foreign?.or b.foreign?).isSome → ∃ depth value,
      combineAll depth operation [a, b] = .error (.foreign value) := by
  intro hclaim
  obtain ⟨depth, value, hfault⟩ := hclaim .anyOf .everything bogus rfl
  cases depth with
  | zero => cases hfault
  | succ depth => cases hfault

end Simplify

end ExclusionAlgebra
