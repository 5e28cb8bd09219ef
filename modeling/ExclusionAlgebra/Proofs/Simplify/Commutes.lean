import ExclusionAlgebra.Proofs.Digest.Order
import ExclusionAlgebra.Proofs.Simplify.Kinds

/-!
# Combining in either order

The operands of a combination are put in a fixed order before they are looked at: what is no
composite goes first, and of two composites the one with the smaller digest.  So both orders of two
operands come to the same combination, unless both are patterns, which are combined as they stand, or
the operands are equal and the left one is kept.

* `Simplify.ofPatterns_comm`: the laws on two patterns are symmetric, up to the order of components.
* `Simplify.step_comm`: any other two rules that differ come to one combination in both orders.
* `Simplify.combineAll_comm`: either order returns if the other does, and the results are equal.
-/

namespace ExclusionAlgebra

namespace Simplify

open Rule

variable {again : Operation → Rule → Rule → Except Fault Rule} {operation : Operation}

/-! ## Two patterns -/

/-- A pattern that covers another is open where the other is not. -/
theorem covers_asymm {p q : Pattern} (h : p.covers q = true) : q.covers p = false := by
  simp only [Pattern.covers, Bool.and_eq_true, Option.isNone_iff_eq_none] at h
  obtain ⟨⟨⟨-, hmodule⟩, hartifact⟩, -⟩ := h
  simp [Pattern.covers, hmodule, hartifact]

theorem meetField?_comm {α : Type} [DecidableEq α] (x y : Option α) :
    Pattern.meetField? x y = Pattern.meetField? y x := by
  cases x with
  | none => cases y <;> rfl
  | some a =>
    cases y with
    | none => rfl
    | some b =>
      by_cases hab : a = b
      · rw [hab]
      · simp [Pattern.meetField?, hab, Ne.symm hab]

theorem meet?_comm (p q : Pattern) : p.meet? q = q.meet? p := by
  unfold Pattern.meet?
  rw [meetField?_comm p.group, meetField?_comm p.module, meetField?_comm p.artifact]

theorem ofPatterns_comm (p q : Pattern) :
    Alike (ofPatterns operation p q) (ofPatterns operation q p) := by
  cases operation with
  | allOf =>
    rw [ofPatterns_allOf, ofPatterns_allOf, meet?_comm]
    exact Alike.refl _
  | anyOf =>
    rw [ofPatterns_anyOf, ofPatterns_anyOf]
    cases hpq : p.covers q with
    | true =>
      have hqp : q.covers p = false := covers_asymm hpq
      rw [hqp]
      exact Alike.refl _
    | false =>
      cases hqp : q.covers p with
      | true => exact Alike.refl _
      | false =>
        have hswap : [Rule.pattern p, .pattern q].Perm [.pattern q, .pattern p] := .swap _ _ _
        exact alike_composite.mpr ⟨rfl, .of_perm (fun c _ => Alike.refl c) hswap⟩

/-! ## The operand that is taken apart -/

/-- Where the two digests differ, the order of the operands has no influence on which of them is
taken apart. -/
theorem Faces.comm {a b x : Rule} {inner : Operation} {cs : List Rule}
    (hdigest : a.digest ≠ b.digest) (h : Faces a b inner cs x) : Faces b a inner cs x := by
  cases h with
  | patternLeft => exact .patternRight _ _ _
  | patternRight => exact .patternLeft _ _ _
  | inOrder hle =>
    refine .swapped ?_
    by_contra hge
    rw [Bool.not_eq_false] at hge
    exact hdigest (Digest.le_antisymm hle hge)
  | swapped hle => exact .inOrder (Digest.le_of_le_eq_false hle)

theorem step_comm_of_faces {a b x : Rule} {inner : Operation} {cs : List Rule} (ha : a.Known)
    (hb : b.Known) (hne : ¬ Alike a b) (hdigest : a.digest ≠ b.digest) (h : Faces a b inner cs x) :
    step again operation a b = step again operation b a := by
  have hne' : ¬ Alike b a := fun halike => hne halike.symm
  rw [step_of_faces ha hb hne h, step_of_faces hb ha hne' (h.comm hdigest)]

/-- A singleton is neutral or absorbing: it or the other operand is the result, in both orders. -/
theorem step_singleton {a b : Rule} (ha : a = .everything ∨ a = .nothing) (hb : b.Known) :
    step again operation a b = step again operation b a := by
  have hsingleton : operation.ignores a = true ∨ operation.absorbedBy a = true := by
    rw [ignores_iff, absorbedBy_iff]
    cases operation <;> simp [ha, or_comm]
  rcases hsingleton with hneutral | habsorbing
  · rw [step_neutral_left hneutral, step_neutral_right hneutral hb]
  · rw [step_absorbing_left habsorbing, step_absorbing_right habsorbing hb]

/-- Rules that differ, and are not both patterns, come to one combination in both orders. -/
theorem step_comm {a b : Rule} (ha : a.Known) (hb : b.Known) (hne : ¬ Alike a b)
    (hdigest : a.digest ≠ b.digest) :
    step again operation a b = step again operation b a ∨
      ∃ p q, p ≠ q ∧ a = .pattern p ∧ b = .pattern q := by
  cases a with
  | everything => exact Or.inl (step_singleton (Or.inl rfl) hb)
  | nothing => exact Or.inl (step_singleton (Or.inr rfl) hb)
  | pattern p =>
    cases b with
    | everything => exact Or.inl (step_singleton (Or.inl rfl) ha).symm
    | nothing => exact Or.inl (step_singleton (Or.inr rfl) ha).symm
    | pattern q =>
      refine Or.inr ⟨p, q, ?_, rfl, rfl⟩
      rintro rfl
      exact hne (Alike.refl _)
    | composite g ds => exact Or.inl (step_comm_of_faces ha hb hne hdigest (.patternLeft p g ds))
    | foreign value => exact absurd hb (not_known_foreign value)
  | composite f cs =>
    cases b with
    | everything => exact Or.inl (step_singleton (Or.inl rfl) ha).symm
    | nothing => exact Or.inl (step_singleton (Or.inr rfl) ha).symm
    | pattern q => exact Or.inl (step_comm_of_faces ha hb hne hdigest (.patternRight q f cs))
    | composite g ds =>
      cases hle : (composite f cs).digest.le (composite g ds).digest with
      | true => exact Or.inl (step_comm_of_faces ha hb hne hdigest (.inOrder hle))
      | false => exact Or.inl (step_comm_of_faces ha hb hne hdigest (.swapped hle))
    | foreign value => exact absurd hb (not_known_foreign value)
  | foreign value => exact absurd ha (not_known_foreign value)

/-! ## Both orders -/

/-- At one depth, one order returns if the other does, and the results are alike. -/
theorem combine_comm {a b : Rule} (ha : a.Known) (hb : b.Known)
    (hdigest : a.digest = b.digest → Alike a b) {depth : Nat} {r : Rule}
    (h : combine depth operation a b = .ok r) :
    ∃ s, combine depth operation b a = .ok s ∧ Alike r s := by
  cases depth with
  | zero => cases h
  | succ depth =>
    have hstep : step (combine depth) operation a b = .ok r := h
    by_cases halike : Alike a b
    · rw [step_of_alike ha halike] at hstep
      cases hstep
      exact ⟨b, step_of_alike hb halike.symm, halike⟩
    · have hne : a.digest ≠ b.digest := fun heq => halike (hdigest heq)
      rcases @step_comm (combine depth) operation a b ha hb halike hne with hsame |
          ⟨p, q, hpq, rfl, rfl⟩
      · exact ⟨r, hsame.symm.trans hstep, Alike.refl r⟩
      · rw [step_of_patterns hpq] at hstep
        cases hstep
        exact ⟨_, step_of_patterns (Ne.symm hpq), ofPatterns_comm p q⟩

/-- **Combining is commutative.** Take two rules without foreign values that have one digest only if
they are equal.  Under either operation one order of the two returns, at any depth, if and only if
the other does, and the results are equal. -/
theorem combineAll_comm {a b : Rule} (ha : a.Known) (hb : b.Known)
    (hdigest : a.hash = b.hash → a.equals b = .ok true) (operation : Operation) :
    (∀ depth, (∃ r, combineAll depth operation [a, b] = .ok r) ↔
        ∃ s, combineAll depth operation [b, a] = .ok s) ∧
      ∀ depth more r s, combineAll depth operation [a, b] = .ok r →
        combineAll more operation [b, a] = .ok s → r.equals s = .ok true := by
  have hab : a.digest = b.digest → Alike a b := by
    intro heq
    rw [hash_eq_ok ha, hash_eq_ok hb, heq] at hdigest
    exact alike_of_equals (hdigest rfl)
  have hba : b.digest = a.digest → Alike b a := fun heq => (hab heq.symm).symm
  simp only [combineAll_pair]
  refine ⟨fun depth => ⟨?_, ?_⟩, ?_⟩
  · rintro ⟨r, hr⟩
    obtain ⟨s, hs, -⟩ := combine_comm ha hb hab hr
    exact ⟨s, hs⟩
  · rintro ⟨s, hs⟩
    obtain ⟨r, hr, -⟩ := combine_comm hb ha hba hs
    exact ⟨r, hr⟩
  · intro depth more r s hr hs
    obtain ⟨s', hs', halike⟩ := combine_comm ha hb hab hr
    cases combine_unique hs hs'
    exact (equals_eq_true_iff (known_of_combine depth _ _ _ _ hr ha hb)).mpr halike

def soleModule : Rule := .composite .anyOf [.pattern ⟨none, some "m", none⟩]

def soleGroup : Rule := .composite .anyOf [.pattern ⟨some "g", none, none⟩]

/-- A union of one module and a union of one group: their intersection is distributed twice. -/
theorem soleModule_comm_soleGroup :
    soleModule.Known ∧ soleGroup.Known ∧
      (soleModule.hash = soleGroup.hash → soleModule.equals soleGroup = .ok true) ∧
      ∃ r s, combineAll 3 .allOf [soleModule, soleGroup] = .ok r ∧
        combineAll 3 .allOf [soleGroup, soleModule] = .ok s ∧ r.equals s = .ok true := by
  have hmodule : soleModule.Known := by decide
  have hgroup : soleGroup.Known := by decide
  have horder : soleModule.digest.le soleGroup.digest = false := by decide +kernel
  have hdigest : soleModule.hash = soleGroup.hash → soleModule.equals soleGroup = .ok true := by
    intro heq
    rw [hash_eq_ok hmodule, hash_eq_ok hgroup] at heq
    rw [Except.ok.inj heq, Digest.le_refl] at horder
    cases horder
  have hdiffer : ¬ Alike soleModule soleGroup := by
    rw [← equals_eq_false_iff hmodule]
    rfl
  have hstep : step (combine 2) .allOf soleModule soleGroup = _ :=
    step_of_faces hmodule hgroup hdiffer (.swapped horder)
  have hrun : combineAll 3 .allOf [soleModule, soleGroup] =
      .ok (.pattern ⟨some "g", some "m", none⟩) := by
    rw [combineAll_pair]
    exact hstep.trans rfl
  obtain ⟨hreturns, hequals⟩ := combineAll_comm hmodule hgroup hdigest .allOf
  obtain ⟨s, hs⟩ := (hreturns 3).mp ⟨_, hrun⟩
  exact ⟨hmodule, hgroup, hdigest, _, s, hrun, hs, hequals 3 3 _ s hrun hs⟩

end Simplify

end ExclusionAlgebra
