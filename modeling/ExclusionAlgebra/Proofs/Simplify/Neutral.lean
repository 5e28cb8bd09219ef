import ExclusionAlgebra.Proofs.Simplify.Kinds

/-!
# Neutral and absorbing members of a list

Each operation leaves rules as they are beside its neutral singleton and gives its absorbing singleton
beside any rule.  On lists this holds wherever the singleton stands: a neutral one can be left out of
the list, and an absorbing one decides the result once what stands before it has been combined.  The
result is the same to the last component, not merely an equal one, since the order of components has
an influence on what is combined later.

* `Simplify.fold_filter_neutral`, `Simplify.fold_absorbing`: lists with such members.
* `Simplify.combineAll_singletons`: the same for `nothing` and `everything`.
-/

namespace ExclusionAlgebra

namespace Simplify

open Rule

variable {f : Operation} {a : Rule} {rules : List Rule} {depth : Nat}

/-! ## Members of a list -/

/-- What has been combined so far does not change at a neutral member. -/
theorem foldlM_filter_neutral (ha : a.Known) (hrules : ∀ rule ∈ rules, rule.Known) :
    rules.foldlM (combine (depth + 1) f) a =
      (rules.filter fun rule => !f.ignores rule).foldlM (combine (depth + 1) f) a := by
  induction rules generalizing a with
  | nil => rfl
  | cons next rest ih =>
    rw [List.forall_mem_cons] at hrules
    rw [List.foldlM_cons]
    cases hneutral : f.ignores next with
    | true =>
      have hstep : combine (depth + 1) f a next = .ok a := step_neutral_right hneutral ha
      rw [List.filter_cons_of_neg (by simp [hneutral]), hstep]
      exact ih ha hrules.2
    | false =>
      rw [List.filter_cons_of_pos (by simp [hneutral]), List.foldlM_cons]
      cases hstep : combine (depth + 1) f a next with
      | error fault => rfl
      | ok acc => exact ih (known_of_combine _ _ _ _ _ hstep ha hrules.1) hrules.2

/-- Neutral members can be left out.  If all members are, the empty list remains, and only for unions
does it come to the neutral singleton. -/
theorem fold_filter_neutral (hrules : ∀ rule ∈ rules, rule.Known)
    (hsome : f = .anyOf ∨ ∃ rule ∈ rules, f.ignores rule = false) :
    combineAll (depth + 1) f rules =
      combineAll (depth + 1) f (rules.filter fun rule => !f.ignores rule) := by
  induction rules with
  | nil => rfl
  | cons first rest ih =>
    rw [List.forall_mem_cons] at hrules
    cases hneutral : f.ignores first with
    | false =>
      rw [List.filter_cons_of_pos (by simp [hneutral])]
      exact foldlM_filter_neutral hrules.1 hrules.2
    | true =>
      rw [List.filter_cons_of_neg (by simp [hneutral])]
      have hlater : f = .anyOf ∨ ∃ rule ∈ rest, f.ignores rule = false := by
        refine hsome.imp_right ?_
        rintro ⟨rule, hrule, hkept⟩
        rcases List.mem_cons.mp hrule with rfl | hrule
        · rw [hneutral] at hkept
          cases hkept
        · exact ⟨rule, hrule, hkept⟩
      rw [← ih hrules.2 hlater]
      cases rest with
      | nil =>
        rcases hlater with rfl | ⟨_, hrule, _⟩
        · rcases ignores_iff.mp hneutral with ⟨-, rfl⟩ | ⟨hop, -⟩
          · rfl
          · cases hop
        · cases hrule
      | cons next rest =>
        have hstep : combine (depth + 1) f first next = .ok next := step_neutral_left hneutral next
        unfold combineAll
        rw [fold_cons, List.foldlM_cons, hstep]
        rfl

theorem foldlM_absorbing (ha : f.absorbedBy a = true) (rules : List Rule) :
    rules.foldlM (combine (depth + 1) f) a = .ok a := by
  induction rules with
  | nil => rfl
  | cons next rest ih =>
    have hstep : combine (depth + 1) f a next = .ok a := step_absorbing_left ha next
    rw [List.foldlM_cons, hstep]
    exact ih

/-- An absorbing member is the result, if what stands before it can be combined. -/
theorem fold_absorbing {before : List Rule} (ha : f.absorbedBy a = true)
    (hbefore : ∀ rule ∈ before, rule.Known)
    (hreturns : ∃ r, combineAll (depth + 1) f before = .ok r) (after : List Rule) :
    combineAll (depth + 1) f (before ++ a :: after) = .ok a := by
  cases before with
  | nil => exact foldlM_absorbing ha after
  | cons first rest =>
    obtain ⟨acc, hacc⟩ := hreturns
    have hknown : acc.Known := known_of_combineAll hacc hbefore
    have hstep : combine (depth + 1) f acc a = .ok a := step_absorbing_right ha hknown
    unfold combineAll at hacc ⊢
    rw [fold_append, hacc]
    refine bind_eq_ok.mpr ⟨acc, rfl, ?_⟩
    rw [List.foldlM_cons, hstep]
    exact foldlM_absorbing ha after

/-- **Neutral and absorbing members.** In a list of rules without foreign values, unions can do without
every `nothing`, and intersections without every `everything` unless there is no other member: the
shorter list returns at the same depths, and the same rule.  Where `everything` stands in a list, its
union is `everything` if the members before have one, and where `nothing` stands in a list, its
intersection is `nothing` if the members before have one. -/
theorem combineAll_singletons (hrules : ∀ rule ∈ rules, rule.Known) (depth : Nat) :
    combineAll (depth + 1) .anyOf rules =
        combineAll (depth + 1) .anyOf (rules.filter (· ≠ .nothing)) ∧
      ((∃ rule ∈ rules, rule ≠ .everything) →
        combineAll (depth + 1) .allOf rules =
          combineAll (depth + 1) .allOf (rules.filter (· ≠ .everything))) ∧
      (∀ before after, rules = before ++ .everything :: after →
        (∃ r, combineAll (depth + 1) .anyOf before = .ok r) →
          combineAll (depth + 1) .anyOf rules = .ok .everything) ∧
      ∀ before after, rules = before ++ .nothing :: after →
        (∃ r, combineAll (depth + 1) .allOf before = .ok r) →
          combineAll (depth + 1) .allOf rules = .ok .nothing := by
  have hunion : ∀ rule, decide (rule ≠ .nothing) = !Operation.anyOf.ignores rule := by
    intro rule
    cases rule <;> rfl
  have hintersection : ∀ rule, decide (rule ≠ .everything) = !Operation.allOf.ignores rule := by
    intro rule
    cases rule <;> rfl
  refine ⟨?_, ?_, ?_, ?_⟩
  · simp only [hunion]
    exact fold_filter_neutral hrules (Or.inl rfl)
  · rintro ⟨rule, hrule, hother⟩
    have hkept : Operation.allOf.ignores rule = false := by
      simpa [hother] using hintersection rule
    simp only [hintersection]
    exact fold_filter_neutral hrules (Or.inr ⟨rule, hrule, hkept⟩)
  · rintro before after rfl hreturns
    rw [List.forall_mem_append] at hrules
    exact fold_absorbing rfl hrules.1 hreturns after
  · rintro before after rfl hreturns
    rw [List.forall_mem_append] at hrules
    exact fold_absorbing rfl hrules.1 hreturns after

/-- Two modules and a group, with a singleton at the front and in the middle. -/
def modulesBeside (singleton : Rule) : List Rule :=
  [singleton, .composite .anyOf [.pattern ⟨none, some "m", none⟩, .pattern ⟨none, some "n", none⟩],
    singleton, .pattern ⟨some "g", none, none⟩]

/-- The neutral singletons leave no trace, an absorbing one at the end leaves nothing else. -/
theorem combineAll_modulesBeside :
    (∀ singleton ∈ [Rule.everything, .nothing], ∀ rule ∈ modulesBeside singleton, rule.Known) ∧
      combineAll 2 .anyOf (modulesBeside .nothing) =
        .ok (.composite .anyOf [.pattern ⟨none, some "m", none⟩, .pattern ⟨none, some "n", none⟩,
          .pattern ⟨some "g", none, none⟩]) ∧
      (∃ rule ∈ modulesBeside .everything, rule ≠ .everything) ∧
      combineAll 2 .allOf (modulesBeside .everything) =
        .ok (.composite .anyOf [.pattern ⟨some "g", some "m", none⟩,
          .pattern ⟨some "g", some "n", none⟩]) ∧
      (∃ r, combineAll 2 .allOf (modulesBeside .everything) = .ok r) ∧
      combineAll 2 .allOf (modulesBeside .everything ++ [.nothing]) = .ok .nothing := by
  have hknown : ∀ singleton ∈ [Rule.everything, .nothing],
      ∀ rule ∈ modulesBeside singleton, rule.Known := by decide
  have hnothing : ∀ rule ∈ modulesBeside .nothing, rule.Known := hknown _ (by simp)
  have heverything : ∀ rule ∈ modulesBeside .everything, rule.Known := hknown _ (by simp)
  have hother : ∃ rule ∈ modulesBeside .everything, rule ≠ .everything := by
    simp [modulesBeside]
  have hunion := (combineAll_singletons hnothing 1).1
  have hintersection := (combineAll_singletons heverything 1).2.1 hother
  have hends : ∀ rule ∈ modulesBeside .everything ++ [.nothing], rule.Known := by
    rw [List.forall_mem_append]
    exact ⟨heverything, by simp⟩
  have hreturns : ∃ r, combineAll 2 .allOf (modulesBeside .everything) = .ok r :=
    ⟨_, hintersection.trans rfl⟩
  exact ⟨hknown, hunion.trans rfl, hother, hintersection.trans rfl, hreturns,
    (combineAll_singletons hends 1).2.2.2 _ [] rfl hreturns⟩

end Simplify

end ExclusionAlgebra
