import ExclusionAlgebra.Simplify.Combine
import ExclusionAlgebra.Proofs.Rule.Equality

/-!
# What one combination can do

`Simplify.step` tests for equality, arranges the operands and dispatches on their shapes.  This file
says once what comes out of that, so that no later proof looks into the dispatch.

* `Simplify.Faces`: of the two operands, the composite that the dispatch takes apart and the operand
  that it faces.
* `Simplify.Law`: the result of one combination, by the law that gives it.
* `Simplify.law_of_step`, `Simplify.combine_induction`: every combination that returns follows a law,
  and so do the combinations inside it.
* `Simplify.step_neutral_left`, `Simplify.step_absorbing_left` and their counterparts on the right: one
  combination with a singleton.
* `Simplify.approximates_combine`, `Simplify.combine_mono`: a greater depth comes to the same as a
  smaller one, unless that was too small.
* `Simplify.fold_append`: folding a list goes on from the result for any first part of it.
* `Simplify.Kept`: a condition on rules that every law keeps, and therefore simplification;
  `Simplify.kept_everywhere`: conditions on every node.
-/

namespace ExclusionAlgebra

namespace Simplify

open Rule

variable {again : Operation → Rule → Rule → Except Fault Rule} {operation : Operation}

/-! ## The operand that is taken apart -/

/-- The operands `a` and `b`, in either order, are a composite and another rule `x`, and the composite
is the one that is taken apart.  Against a pattern it always is; of two composites it is the one with
the smaller digest, and the left one if the digests are equal. -/
inductive Faces : Rule → Rule → Operation → List Rule → Rule → Prop
  | patternLeft (p : Pattern) (inner : Operation) (cs : List Rule) :
    Faces (.pattern p) (.composite inner cs) inner cs (.pattern p)
  | patternRight (p : Pattern) (inner : Operation) (cs : List Rule) :
    Faces (.composite inner cs) (.pattern p) inner cs (.pattern p)
  | inOrder {inner f : Operation} {cs ds : List Rule}
    (hle : (composite inner cs).digest.le (composite f ds).digest = true) :
    Faces (.composite inner cs) (.composite f ds) inner cs (.composite f ds)
  | swapped {inner f : Operation} {cs ds : List Rule}
    (hle : (composite f ds).digest.le (composite inner cs).digest = false) :
    Faces (.composite f ds) (.composite inner cs) inner cs (.composite f ds)

namespace Faces

variable {a b x : Rule} {inner : Operation} {cs : List Rule}

theorem operands (h : Faces a b inner cs x) :
    (a = .composite inner cs ∧ b = x) ∨ (a = x ∧ b = .composite inner cs) := by
  cases h with
  | patternLeft => exact Or.inr ⟨rfl, rfl⟩
  | patternRight => exact Or.inl ⟨rfl, rfl⟩
  | inOrder => exact Or.inl ⟨rfl, rfl⟩
  | swapped => exact Or.inr ⟨rfl, rfl⟩

/-- What holds of both operands holds of the composite and of what it faces. -/
theorem forall_operands {P : Rule → Prop} (h : Faces a b inner cs x) (ha : P a) (hb : P b) :
    P (.composite inner cs) ∧ P x := by
  rcases h.operands with ⟨rfl, rfl⟩ | ⟨rfl, rfl⟩
  · exact ⟨ha, hb⟩
  · exact ⟨hb, ha⟩

end Faces

/-! ## The laws -/

theorem ofPatterns_anyOf (p q : Pattern) :
    ofPatterns .anyOf p q =
      if p.covers q then .pattern p
      else if q.covers p then .pattern q
      else .composite .anyOf [.pattern p, .pattern q] := rfl

theorem ofPatterns_allOf (p q : Pattern) :
    ofPatterns .allOf p q = (p.meet? q).elim .nothing .pattern := by
  simp only [ofPatterns]
  cases p.meet? q <;> rfl

/-- Two patterns meet field by field. -/
theorem fields_of_meet? {p q r : Pattern} (h : p.meet? q = some r) :
    Pattern.meetField? p.group q.group = some r.group ∧
      Pattern.meetField? p.module q.module = some r.module ∧
      Pattern.meetField? p.artifact q.artifact = some r.artifact := by
  obtain ⟨group, hgroup, h⟩ := Option.bind_eq_some_iff.mp h
  obtain ⟨module, hmodule, h⟩ := Option.bind_eq_some_iff.mp h
  obtain ⟨artifact, hartifact, h⟩ := Option.bind_eq_some_iff.mp h
  cases h
  exact ⟨hgroup, hmodule, hartifact⟩

/-- What holds of two patterns and of the one that they meet in, of `nothing`, and of the union of the
two if neither covers the other, holds of what they come to. -/
theorem of_ofPatterns {P : Rule → Prop} {p q : Pattern}
    (hpattern : ∀ r, r = p ∨ r = q ∨ p.meet? q = some r → P (.pattern r)) (hnothing : P .nothing)
    (hunion : p.covers q = false → q.covers p = false → P (.composite .anyOf [.pattern p, .pattern q])) :
    P (ofPatterns operation p q) := by
  cases operation with
  | anyOf =>
    rw [ofPatterns_anyOf]
    split
    · exact hpattern p (.inl rfl)
    · rename_i hpq
      split
      · exact hpattern q (.inr (.inl rfl))
      · rename_i hqp
        exact hunion (by simpa using hpq) (by simpa using hqp)
  | allOf =>
    rw [ofPatterns_allOf]
    cases hmeet : p.meet? q with
    | none => exact hnothing
    | some r => exact hpattern r (.inr (.inr hmeet))

/-- The result of combining two rules, by the law that gives it. -/
inductive Law (again : Operation → Rule → Rule → Except Fault Rule) (operation : Operation) :
    Rule → Rule → Rule → Prop
  | same {a b : Rule} (h : Alike a b) : Law again operation a b a
  | takeLeft {a b : Rule} (h : operation.absorbedBy a = true ∨ operation.ignores b = true) :
    Law again operation a b a
  | takeRight {a b : Rule} (h : operation.absorbedBy b = true ∨ operation.ignores a = true) :
    Law again operation a b b
  | patterns {p q : Pattern} (hne : p ≠ q) :
    Law again operation (.pattern p) (.pattern q) (ofPatterns operation p q)
  | join {a b x r : Rule} {cs : List Rule} (hne : ¬ Alike a b) (hf : Faces a b operation cs x)
    (h : adjoin operation cs x = .ok r) : Law again operation a b r
  | absorption {a b x : Rule} {cs : List Rule} (hop : operation = .anyOf)
    (hf : Faces a b .allOf cs x) (h : ∃ c ∈ cs, Alike c x) : Law again operation a b x
  | distribution {a b x r : Rule} {cs parts : List Rule} (hf : Faces a b operation.dual cs x)
    (hparts : (cs.mapM fun c => again operation c x) = .ok parts)
    (hfold : fold (again operation.dual) parts = .ok r) : Law again operation a b r

theorem eq_dual_of_ne {f g : Operation} (h : f ≠ g) : g = f.dual := by
  cases f <;> cases g <;> first | rfl | exact absurd rfl h

/-- A composite of the other operation: absorption is looked for in unions, then each component is
combined with the rule, and the results by the inner operation. -/
theorem merge_of_ne {inner : Operation} (hop : operation ≠ inner) (cs : List Rule) (x : Rule) :
    merge again operation inner cs x =
      (if operation = .anyOf then contains cs x else pure false) >>= fun absorbed =>
        if absorbed then pure x
        else (cs.mapM fun c => again operation c x) >>= fold (again inner) := by
  unfold merge
  rw [if_neg hop]
  split <;> rfl

theorem law_of_merge {a b x r : Rule} {inner : Operation} {cs : List Rule} (hne : ¬ Alike a b)
    (hf : Faces a b inner cs x) (h : merge again operation inner cs x = .ok r) :
    Law again operation a b r := by
  by_cases hop : operation = inner
  · subst hop
    rw [merge, if_pos rfl] at h
    exact .join hne hf h
  · rw [merge_of_ne hop] at h
    obtain ⟨absorbed, habsorbed, h⟩ := bind_eq_ok.mp h
    cases eq_dual_of_ne hop
    cases absorbed with
    | true =>
      cases pure_eq_ok.mp h
      split at habsorbed
      · rename_i hany
        subst hany
        exact .absorption rfl hf (alike_of_contains habsorbed)
      · cases habsorbed
    | false =>
      obtain ⟨parts, hparts, h⟩ := bind_eq_ok.mp h
      exact .distribution hf hparts h

/-- What dispatching two operands comes to, for any way to combine what arises inside: one of them
whole, two patterns combined, a composite taken apart, or a fault on a foreign value. -/
inductive Dispatched (operation : Operation) (l m : Rule) :
    ((Operation → Rule → Rule → Except Fault Rule) → Except Fault Rule) → Prop
  | left (h : operation.absorbedBy l = true ∨ operation.ignores m = true) :
    Dispatched operation l m fun _ => .ok l
  | right (h : operation.absorbedBy m = true ∨ operation.ignores l = true) :
    Dispatched operation l m fun _ => .ok m
  | patterns {p q : Pattern} (hl : l = .pattern p) (hm : m = .pattern q) :
    Dispatched operation l m fun _ => .ok (ofPatterns operation p q)
  | patternLeft {p : Pattern} {inner : Operation} {cs : List Rule} (hl : l = .pattern p)
    (hm : m = .composite inner cs) :
    Dispatched operation l m fun again => merge again operation inner cs l
  | compositeLeft {inner : Operation} {cs : List Rule} (hl : l = .composite inner cs) :
    Dispatched operation l m fun again => merge again operation inner cs m
  | foreign {value : Foreign} (h : l = .foreign value ∨ m = .foreign value) :
    Dispatched operation l m fun _ => .error (.foreign value)

theorem exists_dispatched (operation : Operation) (l m : Rule) :
    ∃ run, Dispatched operation l m run ∧ ∀ again, dispatch again operation l m = run again := by
  by_cases hleft : (operation.absorbedBy l || operation.ignores m) = true
  · exact ⟨_, .left (Bool.or_eq_true _ _ ▸ hleft), fun _ => if_pos hleft⟩
  · by_cases hright : (operation.absorbedBy m || operation.ignores l) = true
    · exact ⟨_, .right (Bool.or_eq_true _ _ ▸ hright), fun _ => (if_neg hleft).trans (if_pos hright)⟩
    · -- A singleton is absorbing or neutral under either operation, so only the other kinds are left.
      cases l with
      | everything => cases operation <;> simp [Operation.absorbedBy, Operation.ignores] at hleft hright
      | nothing => cases operation <;> simp [Operation.absorbedBy, Operation.ignores] at hleft hright
      | composite inner cs =>
        exact ⟨_, .compositeLeft rfl, fun _ => (if_neg hleft).trans (if_neg hright)⟩
      | foreign value =>
        exact ⟨_, .foreign (Or.inl rfl), fun _ => (if_neg hleft).trans (if_neg hright)⟩
      | pattern p =>
        cases m with
        | everything => cases operation <;> simp [Operation.absorbedBy, Operation.ignores] at hleft hright
        | nothing => cases operation <;> simp [Operation.absorbedBy, Operation.ignores] at hleft hright
        | pattern q =>
          exact ⟨_, .patterns rfl rfl, fun _ => (if_neg hleft).trans (if_neg hright)⟩
        | composite inner cs =>
          exact ⟨_, .patternLeft rfl rfl, fun _ => (if_neg hleft).trans (if_neg hright)⟩
        | foreign value =>
          exact ⟨_, .foreign (Or.inr rfl), fun _ => (if_neg hleft).trans (if_neg hright)⟩

/-- The operands are dispatched as they are if the left one is no composite, or if both are and the
left digest is not the greater; else they change places. -/
theorem arrange_cases {a b l m : Rule} (h : arrange a b = .ok (l, m)) :
    (a.isComposite = false ∧ l = a ∧ m = b) ∨
      (a.isComposite = true ∧ b.isComposite = false ∧ l = b ∧ m = a) ∨
      (a.isComposite = true ∧ b.isComposite = true ∧
        ((a.digest.le b.digest = true ∧ l = a ∧ m = b) ∨
          (a.digest.le b.digest = false ∧ l = b ∧ m = a))) := by
  unfold arrange at h
  split at h
  · rename_i ha
    cases pure_eq_ok.mp h
    exact Or.inl ⟨by simpa using ha, rfl, rfl⟩
  · rename_i ha
    have ha : a.isComposite = true := by simpa using ha
    split at h
    · rename_i hb
      cases pure_eq_ok.mp h
      exact Or.inr (Or.inl ⟨ha, by simpa using hb, rfl, rfl⟩)
    · rename_i hb
      have hb : b.isComposite = true := by simpa using hb
      obtain ⟨first, hfirst, h⟩ := bind_eq_ok.mp h
      obtain ⟨second, hsecond, h⟩ := bind_eq_ok.mp h
      cases (known_of_hash hfirst).2
      cases (known_of_hash hsecond).2
      refine Or.inr (Or.inr ⟨ha, hb, ?_⟩)
      rw [pure_eq_ok] at h
      split at h
      · rename_i hle
        cases h
        exact Or.inl ⟨hle, rfl, rfl⟩
      · rename_i hle
        cases h
        exact Or.inr ⟨by simpa using hle, rfl, rfl⟩

theorem exists_composite {a : Rule} (h : a.isComposite = true) : ∃ f cs, a = .composite f cs := by
  cases a with
  | composite f cs => exact ⟨f, cs, rfl⟩
  | _ => cases h

/-- Every combination that returns follows a law. -/
theorem law_of_step {a b r : Rule} (h : step again operation a b = .ok r) :
    Law again operation a b r := by
  obtain ⟨answer, hequals, h⟩ := bind_eq_ok.mp h
  cases answer with
  | true =>
    cases pure_eq_ok.mp h
    exact .same (alike_of_equals hequals)
  | false =>
    have hne := not_alike_of_equals hequals
    obtain ⟨⟨l, m⟩, harrange, hdispatch⟩ := bind_eq_ok.mp h
    have horder := arrange_cases harrange
    obtain ⟨run, hrun, hcomes⟩ := exists_dispatched operation l m
    replace hdispatch : run again = .ok r := (hcomes again).symm.trans hdispatch
    cases hrun with
    | left hl =>
      cases hdispatch
      rcases horder with ⟨_, rfl, rfl⟩ | ⟨_, _, rfl, rfl⟩ | ⟨_, _, ⟨_, rfl, rfl⟩ | ⟨_, rfl, rfl⟩⟩
      · exact .takeLeft hl
      · exact .takeRight hl
      · exact .takeLeft hl
      · exact .takeRight hl
    | right hm =>
      cases hdispatch
      rcases horder with ⟨_, rfl, rfl⟩ | ⟨_, _, rfl, rfl⟩ | ⟨_, _, ⟨_, rfl, rfl⟩ | ⟨_, rfl, rfl⟩⟩
      · exact .takeRight hm
      · exact .takeLeft hm
      · exact .takeRight hm
      · exact .takeLeft hm
    | patterns hp hq =>
      subst hp hq
      cases hdispatch
      rcases horder with ⟨_, rfl, rfl⟩ | ⟨ha, _, _, rfl⟩ | ⟨ha, hb, ⟨_, rfl, _⟩ | ⟨_, _, rfl⟩⟩
      · refine .patterns fun hpq => hne ?_
        exact hpq ▸ Alike.pattern _
      · cases ha
      · cases ha
      · cases ha
    | @patternLeft p inner cs hp hcs =>
      subst hp hcs
      rcases horder with ⟨_, rfl, rfl⟩ | ⟨_, _, rfl, rfl⟩ | ⟨ha, hb, ⟨_, rfl, _⟩ | ⟨_, rfl, _⟩⟩
      · exact law_of_merge hne (.patternLeft p inner cs) hdispatch
      · exact law_of_merge hne (.patternRight p inner cs) hdispatch
      · cases ha
      · cases hb
    | @compositeLeft inner cs hcs =>
      subst hcs
      rcases horder with ⟨ha, rfl, _⟩ | ⟨_, hb, rfl, _⟩ | ⟨ha, hb, ⟨hle, rfl, rfl⟩ | ⟨hle, rfl, rfl⟩⟩
      · cases ha
      · cases hb
      · obtain ⟨f, ds, rfl⟩ := exists_composite hb
        exact law_of_merge hne (.inOrder hle) hdispatch
      · obtain ⟨f, ds, rfl⟩ := exists_composite ha
        exact law_of_merge hne (.swapped hle) hdispatch
    | foreign => cases hdispatch

/-- What every law gives, if the combinations inside it do, every combination gives.  Distribution
builds rules that may be larger than the operands, so the induction is on the granted depth. -/
theorem combine_induction {P : Operation → Rule → Rule → Rule → Prop}
    (hlaw : ∀ again, (∀ f a b r, again f a b = .ok r → P f a b r) →
      ∀ f a b r, Law again f a b r → P f a b r)
    (depth : Nat) : ∀ f a b r, combine depth f a b = .ok r → P f a b r := by
  induction depth with
  | zero =>
    intro f a b r h
    cases h
  | succ depth ih =>
    intro f a b r h
    exact hlaw (combine depth) ih f a b r (law_of_step h)

/-! ## Combinations in the forward direction -/

theorem ignores_iff {a : Rule} : operation.ignores a = true ↔
    (operation = .anyOf ∧ a = .nothing) ∨ (operation = .allOf ∧ a = .everything) := by
  cases operation <;> cases a <;> simp [Operation.ignores]

theorem absorbedBy_iff {a : Rule} : operation.absorbedBy a = true ↔
    (operation = .anyOf ∧ a = .everything) ∨ (operation = .allOf ∧ a = .nothing) := by
  cases operation <;> cases a <;> simp [Operation.absorbedBy]

/-- On the left a singleton decides even against a foreign value. -/
theorem step_neutral_left {a : Rule} (ha : operation.ignores a = true) (b : Rule) :
    step again operation a b = .ok b := by
  rcases ignores_iff.mp ha with ⟨rfl, rfl⟩ | ⟨rfl, rfl⟩
  · cases b <;> rfl
  · cases b <;> rfl

theorem step_absorbing_left {a : Rule} (ha : operation.absorbedBy a = true) (b : Rule) :
    step again operation a b = .ok a := by
  rcases absorbedBy_iff.mp ha with ⟨rfl, rfl⟩ | ⟨rfl, rfl⟩
  · cases b <;> rfl
  · cases b <;> rfl

theorem step_neutral_right {a b : Rule} (hb : operation.ignores b = true) (ha : a.Known) :
    step again operation a b = .ok a := by
  rcases ignores_iff.mp hb with ⟨rfl, rfl⟩ | ⟨rfl, rfl⟩
  · cases a with
    | foreign value => exact absurd ha (not_known_foreign value)
    | _ => rfl
  · cases a with
    | foreign value => exact absurd ha (not_known_foreign value)
    | _ => rfl

theorem step_absorbing_right {a b : Rule} (hb : operation.absorbedBy b = true) (ha : a.Known) :
    step again operation a b = .ok b := by
  rcases absorbedBy_iff.mp hb with ⟨rfl, rfl⟩ | ⟨rfl, rfl⟩
  · cases a with
    | foreign value => exact absurd ha (not_known_foreign value)
    | _ => rfl
  · cases a with
    | foreign value => exact absurd ha (not_known_foreign value)
    | _ => rfl

theorem step_of_alike {a b : Rule} (ha : a.Known) (h : Alike a b) :
    step again operation a b = .ok a := by
  have hequals : a.equals b = .ok true := (equals_eq_true_iff ha).mpr h
  unfold step
  exact bind_eq_ok.mpr ⟨true, hequals, rfl⟩

theorem step_of_patterns {p q : Pattern} (hne : p ≠ q) :
    step again operation (.pattern p) (.pattern q) = .ok (ofPatterns operation p q) := by
  have hequals : (Rule.pattern p).equals (.pattern q) = .ok false := by
    rw [equals_eq_false_iff (known_pattern p)]
    rintro ⟨⟩
    exact hne rfl
  unfold step
  refine bind_eq_ok.mpr ⟨false, hequals, ?_⟩
  cases operation <;> rfl

theorem arrange_composites {f g : Operation} {cs ds : List Rule}
    (hcs : (composite f cs).Known) (hds : (composite g ds).Known) :
    arrange (.composite f cs) (.composite g ds) =
      .ok (if (composite f cs).digest.le (composite g ds).digest
        then (.composite f cs, .composite g ds) else (.composite g ds, .composite f cs)) := by
  unfold arrange
  rw [hash_eq_ok hcs, hash_eq_ok hds]
  rfl

/-- A composite that is taken apart is merged with the operand that it faces. -/
theorem step_of_faces {a b x : Rule} {inner : Operation} {cs : List Rule} (ha : a.Known)
    (hb : b.Known) (hne : ¬ Alike a b) (hf : Faces a b inner cs x) :
    step again operation a b = merge again operation inner cs x := by
  have hequals : a.equals b = .ok false := (equals_eq_false_iff ha).mpr hne
  have hstep : step again operation a b =
      arrange a b >>= fun placed => dispatch again operation placed.1 placed.2 := by
    unfold step
    rw [hequals]
    rfl
  rw [hstep]
  cases hf with
  | patternLeft p inner cs => cases operation <;> rfl
  | patternRight p inner cs => cases operation <;> rfl
  | inOrder hle =>
    rw [arrange_composites ha hb, if_pos hle]
    cases operation <;> rfl
  | swapped hle =>
    rw [arrange_composites ha hb, hle]
    cases operation <;> rfl

/-! ## Depth -/

section

variable {more : Operation → Rule → Rule → Except Fault Rule}
  (hmore : ∀ f a b, Approximates .tooDeep (again f a b) (more f a b))
include hmore

theorem approximates_fold (f : Operation) (rules : List Rule) :
    Approximates .tooDeep (fold (again f) rules) (fold (more f) rules) := by
  cases rules with
  | nil => exact .refl _
  | cons first rest => exact .foldlM (hmore f) rest first

theorem approximates_merge (inner : Operation) (cs : List Rule) (x : Rule) :
    Approximates .tooDeep (merge again operation inner cs x) (merge more operation inner cs x) := by
  by_cases hop : operation = inner
  · rw [merge, merge, if_pos hop, if_pos hop]
    exact .refl _
  · rw [merge_of_ne hop, merge_of_ne hop]
    refine .bind (.refl _) fun absorbed => ?_
    cases absorbed with
    | true => exact .refl _
    | false => exact .bind (.mapM (fun c => hmore operation c x) cs) (approximates_fold hmore inner)

theorem approximates_dispatch (l m : Rule) :
    Approximates .tooDeep (dispatch again operation l m) (dispatch more operation l m) := by
  obtain ⟨run, hrun, hcomes⟩ := exists_dispatched operation l m
  rw [hcomes, hcomes]
  cases hrun with
  | left | right | patterns | foreign => exact .refl _
  | patternLeft | compositeLeft => exact approximates_merge hmore _ _ _

theorem approximates_step (a b : Rule) :
    Approximates .tooDeep (step again operation a b) (step more operation a b) := by
  refine .bind (.refl _) fun same => ?_
  cases same with
  | true => exact .refl _
  | false => exact .bind (.refl _) fun placed => approximates_dispatch hmore placed.1 placed.2

end

/-- A greater depth comes to the same, unless the smaller one was too small. -/
theorem approximates_combine {depth more : Nat} (hle : depth ≤ more) (f : Operation) (a b : Rule) :
    Approximates .tooDeep (combine depth f a b) (combine more f a b) := by
  induction depth generalizing more f a b with
  | zero => exact .inl rfl
  | succ depth ih =>
    obtain ⟨more, rfl⟩ := Nat.exists_eq_add_one.mpr (Nat.zero_lt_of_lt hle)
    exact approximates_step (fun f a b => ih (Nat.le_of_succ_le_succ hle) f a b) a b

theorem approximates_combineAll {depth more : Nat} (hle : depth ≤ more) (f : Operation)
    (rules : List Rule) : Approximates .tooDeep (combineAll depth f rules) (combineAll more f rules) :=
  approximates_fold (approximates_combine hle) f rules

/-- A greater depth returns whatever a smaller one returned. -/
theorem combine_mono {depth more : Nat} (hle : depth ≤ more) {f : Operation} {a b r : Rule}
    (h : combine depth f a b = .ok r) : combine more f a b = .ok r :=
  (approximates_combine hle f a b).ok h

/-- What a combination returns does not depend on the depth. -/
theorem combine_unique {depth more : Nat} {f : Operation} {a b r s : Rule}
    (hr : combine depth f a b = .ok r) (hs : combine more f a b = .ok s) : r = s := by
  have hmono : ∀ m n, m ≤ n → ∀ r, combine m f a b = .ok r → combine n f a b = .ok r :=
    fun _ _ hle _ => combine_mono hle
  exact eq_of_mono hmono hr hs

theorem combineAll_mono {depth more : Nat} (hle : depth ≤ more) {f : Operation} {rules : List Rule}
    {r : Rule} (h : combineAll depth f rules = .ok r) : combineAll more f rules = .ok r :=
  (approximates_combineAll hle f rules).ok h

theorem combineAll_unique {depth more : Nat} {f : Operation} {rules : List Rule} {r s : Rule}
    (hr : combineAll depth f rules = .ok r) (hs : combineAll more f rules = .ok s) : r = s := by
  have hmono : ∀ m n, m ≤ n → ∀ r, combineAll m f rules = .ok r → combineAll n f rules = .ok r :=
    fun _ _ hle _ => combineAll_mono hle
  exact eq_of_mono hmono hr hs

/-! ## Folding -/

theorem fold_cons {pair : Rule → Rule → Except Fault Rule} {first : Rule} {rest : List Rule} :
    fold pair (first :: rest) = rest.foldlM pair first := rfl

theorem combineAll_pair (depth : Nat) (f : Operation) (a b : Rule) :
    combineAll depth f [a, b] = combine depth f a b := by
  unfold combineAll
  rw [fold_cons, List.foldlM_cons]
  exact bind_pure _

/-- What `nothing` has and every combination keeps, a fold keeps. -/
theorem fold_invariant {pair : Rule → Rule → Except Fault Rule} {P : Rule → Prop}
    {rules : List Rule} {r : Rule} (hnothing : P .nothing)
    (hpair : ∀ a b r, pair a b = .ok r → P a → P b → P r) (h : fold pair rules = .ok r)
    (hrules : ∀ rule ∈ rules, P rule) : P r := by
  cases rules with
  | nil =>
    cases h
    exact hnothing
  | cons first rest =>
    rw [List.forall_mem_cons] at hrules
    refine foldlM_invariant h hrules.1 ?_
    intro x hx acc acc' hacc hstep
    exact hpair _ _ _ hstep hacc (hrules.2 x hx)

theorem fold_concat {pair : Rule → Rule → Except Fault Rule} {rules : List Rule} {last : Rule}
    (hne : rules ≠ []) : fold pair (rules ++ [last]) = fold pair rules >>= fun acc => pair acc last := by
  obtain ⟨first, rest, rfl⟩ := List.exists_cons_of_ne_nil hne
  simp only [fold, List.cons_append, List.foldlM_append, List.foldlM_cons, List.foldlM_nil,
    bind_pure]

theorem fold_append {pair : Rule → Rule → Except Fault Rule} {first : Rule} {cs ds : List Rule} :
    fold pair (first :: cs ++ ds) = fold pair (first :: cs) >>= fun acc => ds.foldlM pair acc := by
  simp only [fold, List.cons_append, List.foldlM_append]

/-! ## Conditions that simplification keeps -/

/-- The condition holds of `nothing`, of what two patterns come to of which it holds, goes over to
components, and holds of a composite with a new component if it holds of the composite and of the
component. -/
structure Kept (P : Rule → Prop) : Prop where
  nothing : P .nothing
  patterns : ∀ operation p q, p ≠ q → P (.pattern p) → P (.pattern q) → P (ofPatterns operation p q)
  component : ∀ operation cs, P (.composite operation cs) → ∀ c ∈ cs, P c
  joined : ∀ operation a b cs x, ¬ Alike a b → Faces a b operation cs x → (∀ c ∈ cs, ¬ Alike c x) →
    P (.composite operation cs) → P x → P (.composite operation (cs ++ [x]))

namespace Kept

variable {P : Rule → Prop} (h : Kept P)
include h

theorem of_law (hagain : ∀ f a b r, again f a b = .ok r → P a → P b → P r) {a b r : Rule}
    (hlaw : Law again operation a b r) (ha : P a) (hb : P b) : P r := by
  cases hlaw with
  | same => exact ha
  | takeLeft => exact ha
  | takeRight => exact hb
  | patterns hne => exact h.patterns _ _ _ hne ha hb
  | join hne hf hadjoin =>
    obtain ⟨hcs, hx⟩ := hf.forall_operands ha hb
    rcases adjoin_cases hadjoin with ⟨rfl, _⟩ | ⟨rfl, hnew⟩
    · exact hcs
    · exact h.joined _ a b _ _ hne hf hnew hcs hx
  | absorption _ hf _ => exact (hf.forall_operands ha hb).2
  | distribution hf hparts hfold =>
    obtain ⟨hcs, hx⟩ := hf.forall_operands ha hb
    have hall := forall_of_mapM hparts fun c hc part hpart =>
      hagain _ _ _ _ hpart (h.component _ _ hcs c hc) hx
    exact fold_invariant h.nothing (hagain _) hfold hall

theorem of_combine (depth : Nat) : ∀ f a b r, combine depth f a b = .ok r → P a → P b → P r :=
  combine_induction (fun _ hagain _ _ _ _ hlaw => h.of_law hagain hlaw) depth

theorem of_combineAll {depth : Nat} {rules : List Rule} {r : Rule}
    (hrun : combineAll depth operation rules = .ok r) (hrules : ∀ rule ∈ rules, P rule) : P r :=
  fold_invariant h.nothing (h.of_combine depth operation) hrun hrules

/-- Two conditions that simplification keeps, together. -/
theorem and {Q : Rule → Prop} (h' : Kept Q) : Kept fun rule => P rule ∧ Q rule where
  nothing := ⟨h.nothing, h'.nothing⟩
  patterns f p q hne hp hq :=
    ⟨h.patterns f p q hne hp.1 hq.1, h'.patterns f p q hne hp.2 hq.2⟩
  component f cs hcs c hc := ⟨h.component f cs hcs.1 c hc, h'.component f cs hcs.2 c hc⟩
  joined f a b cs x hne hf hnew hcs hx :=
    ⟨h.joined f a b cs x hne hf hnew hcs.1 hx.1, h'.joined f a b cs x hne hf hnew hcs.2 hx.2⟩

end Kept

/-- A condition on every node is kept if it goes over to what two patterns meet in, holds of two patterns
united, and goes on to hold of a composite that has grown by a component. -/
theorem kept_everywhere {P : Rule → Prop} (hnothing : P .nothing)
    (hmeet : ∀ p q r, p.meet? q = some r → P (.pattern p) → P (.pattern q) → P (.pattern r))
    (hpair : ∀ p q, P (.composite .anyOf [.pattern p, .pattern q]))
    (hgrown : ∀ f cs x, P (.composite f cs) → P (.composite f (cs ++ [x]))) :
    Kept (Everywhere P) where
  nothing := everywhere_nothing.mpr hnothing
  patterns := by
    intro f p q _ hp hq
    refine of_ofPatterns ?_ (everywhere_nothing.mpr hnothing) fun _ _ => ?_
    · rintro r (rfl | rfl | hr)
      · exact hp
      · exact hq
      · exact everywhere_pattern.mpr
          (hmeet p q r hr (everywhere_pattern.mp hp) (everywhere_pattern.mp hq))
    · refine everywhere_composite.mpr ⟨hpair p q, ?_⟩
      rw [List.forall_mem_cons, List.forall_mem_singleton]
      exact ⟨hp, hq⟩
  component _ _ h := (everywhere_composite.mp h).2
  joined := by
    rintro f a b cs x - - - hcs hx
    obtain ⟨hself, hall⟩ := everywhere_composite.mp hcs
    refine everywhere_composite.mpr ⟨hgrown f cs x hself, ?_⟩
    rw [List.forall_mem_append, List.forall_mem_singleton]
    exact ⟨hall, hx⟩

theorem kept_filled : Kept Filled := by
  refine kept_everywhere nofun (fun _ _ _ _ _ _ => nofun) (fun _ _ => nofun) ?_
  intro _ cs x _ _ heq
  exact List.append_ne_nil_of_right_ne_nil cs (List.cons_ne_nil x []) (composite.inj heq).2

end Simplify

end ExclusionAlgebra
