import Mathlib.Data.List.Induction
import ExclusionAlgebra.Proofs.Simplify.Laws

/-!
# The intersection of patterns

Patterns are intersected from the left, and what has been folded so far is one pattern, or `nothing`
from the first clash on.  That pattern has in each field the value that some pattern before it names
there, so a new one clashes with it exactly if it clashes with one of those, however far back and
whatever open fields lie between.

* `Pattern.Clashes`: two patterns name different values in one field.
* `Pattern.Gathers`: a pattern has in each field what the patterns of a list name there.
* `Simplify.meets_of_patterns`: what a list of patterns comes to.
* `Simplify.combineAll_patterns`: it comes to `nothing` exactly if two of the patterns clash, and neither
  order nor repeats matter.
-/

namespace ExclusionAlgebra

/-! ## Fields -/

section

variable {α : Type} {x y z : Option α} {xs : List (Option α)}

/-- Two fields are concrete and their values are different. -/
def Differ (x y : Option α) : Prop := ∃ a b, x = some a ∧ y = some b ∧ a ≠ b

/-- The field has the value that some fields of the list have, and is open if they are all open. -/
def Gathered (x : Option α) (xs : List (Option α)) : Prop := ∀ v, x = some v ↔ some v ∈ xs

theorem Differ.symm (h : Differ x y) : Differ y x := by
  obtain ⟨a, b, hx, hy, hab⟩ := h
  exact ⟨b, a, hy, hx, hab.symm⟩

theorem not_differ_self (x : Option α) : ¬ Differ x x := by
  rintro ⟨a, b, hx, hy, hab⟩
  exact hab (Option.some.inj (hx.symm.trans hy))

theorem gathered_singleton (x : Option α) : Gathered x [x] := by
  intro v
  rw [List.mem_singleton, eq_comm]

theorem Gathered.unique (hx : Gathered x xs) {ys : List (Option α)} (hy : Gathered y ys)
    (hxys : ∀ v, some v ∈ xs ↔ some v ∈ ys) : x = y := by
  apply Option.ext
  intro v
  exact (hx v).trans ((hxys v).trans (hy v).symm)

/-- A field differs from the gathered one if it differs from one of those that were gathered. -/
theorem Gathered.differ_iff (h : Gathered x xs) : Differ x y ↔ ∃ w ∈ xs, Differ w y := by
  constructor
  · rintro ⟨a, b, hx, hy, hab⟩
    exact ⟨some a, (h a).mp hx, a, b, rfl, hy, hab⟩
  · rintro ⟨w, hw, a, b, rfl, hy, hab⟩
    exact ⟨a, b, (h a).mpr hw, hy, hab⟩

variable [DecidableEq α]

theorem meetField?_self (x : Option α) : Pattern.meetField? x x = some x := by
  cases x <;> simp [Pattern.meetField?]

theorem meetField?_eq_none_iff : Pattern.meetField? x y = none ↔ Differ x y := by
  cases x with
  | none => simp [Pattern.meetField?, Differ]
  | some a =>
    cases y with
    | none => simp [Pattern.meetField?, Differ]
    | some b =>
      by_cases hab : a = b
      · simp [Pattern.meetField?, Differ, hab]
      · simp [Pattern.meetField?, Differ, hab]

theorem Gathered.meet (h : Gathered x xs) (hz : Pattern.meetField? x y = some z) :
    Gathered z (xs ++ [y]) := by
  intro v
  rw [List.mem_append, List.mem_singleton, ← h v]
  cases x with
  | none =>
    cases hz
    rw [eq_comm (a := y)]
    simp
  | some a =>
    cases y with
    | none =>
      cases hz
      simp
    | some b =>
      simp only [Pattern.meetField?] at hz
      split at hz
      · rename_i hab
        cases hz
        subst hab
        simp [eq_comm]
      · cases hz

end

/-! ## Patterns -/

namespace Pattern

/-- Both patterns name the group, the module or the artifact, and not the same one.  Artifacts are the
same if name and extension are. -/
def Clashes (p q : Pattern) : Prop :=
  Differ p.group q.group ∨ Differ p.module q.module ∨ Differ p.artifact q.artifact

/-- In each field the pattern has the value that those patterns of the list have that name one, and it is
open where none of them does. -/
structure Gathers (r : Pattern) (ps : List Pattern) : Prop where
  group : Gathered r.group (ps.map group)
  module : Gathered r.module (ps.map module)
  artifact : Gathered r.artifact (ps.map artifact)

theorem Clashes.symm {p q : Pattern} (h : p.Clashes q) : q.Clashes p :=
  h.imp Differ.symm (Or.imp Differ.symm Differ.symm)

theorem not_clashes_self (p : Pattern) : ¬ p.Clashes p := by
  rintro (h | h | h)
  · exact not_differ_self _ h
  · exact not_differ_self _ h
  · exact not_differ_self _ h

theorem meet?_self (p : Pattern) : p.meet? p = some p := by
  simp [meet?, meetField?_self]

theorem meet?_eq_none_iff {p q : Pattern} : p.meet? q = none ↔ p.Clashes q := by
  unfold Clashes
  rw [← meetField?_eq_none_iff, ← meetField?_eq_none_iff, ← meetField?_eq_none_iff]
  unfold meet?
  cases meetField? p.group q.group with
  | none => simp
  | some g =>
    cases meetField? p.module q.module with
    | none => simp
    | some m => cases meetField? p.artifact q.artifact <;> simp

namespace Gathers

variable {r s q : Pattern} {ps qs : List Pattern}

theorem singleton (p : Pattern) : Gathers p [p] :=
  ⟨gathered_singleton p.group, gathered_singleton p.module, gathered_singleton p.artifact⟩

theorem meet (h : Gathers r ps) (hs : r.meet? q = some s) : Gathers s (ps ++ [q]) := by
  obtain ⟨hgroup, hmodule, hartifact⟩ := Simplify.fields_of_meet? hs
  refine ⟨?_, ?_, ?_⟩
  · rw [List.map_append]
    exact h.group.meet hgroup
  · rw [List.map_append]
    exact h.module.meet hmodule
  · rw [List.map_append]
    exact h.artifact.meet hartifact

theorem clashes_iff (h : Gathers r ps) : r.Clashes q ↔ ∃ p ∈ ps, p.Clashes q := by
  unfold Clashes
  rw [h.group.differ_iff, h.module.differ_iff, h.artifact.differ_iff]
  simp only [List.mem_map, exists_exists_and_eq_and, ← exists_or, ← and_or_left]

/-- The members of the list decide what it gathers to. -/
theorem unique (hr : Gathers r ps) (hs : Gathers s qs) (hmem : ∀ p, p ∈ ps ↔ p ∈ qs) : r = s := by
  have hfield : ∀ {β : Type} (field : Pattern → Option β) v,
      some v ∈ ps.map field ↔ some v ∈ qs.map field := by
    intro β field v
    simp only [List.mem_map, hmem]
  have hgroup : r.group = s.group := hr.group.unique hs.group (hfield Pattern.group)
  have hmodule : r.module = s.module := hr.module.unique hs.module (hfield Pattern.module)
  have hartifact : r.artifact = s.artifact := hr.artifact.unique hs.artifact (hfield Pattern.artifact)
  cases r
  cases s
  congr

end Gathers

end Pattern

namespace Simplify

open Rule

variable {again : Operation → Rule → Rule → Except Fault Rule} {ps : List Pattern} {r : Rule}

/-! ## Folding patterns -/

/-- What the patterns come to: `nothing` if two of them clash, and else the pattern of what they name. -/
inductive Meets (ps : List Pattern) : Rule → Prop
  | clash (h : ∃ p ∈ ps, ∃ q ∈ ps, p.Clashes q) : Meets ps .nothing
  | agree {r : Pattern} (h : ¬ ∃ p ∈ ps, ∃ q ∈ ps, p.Clashes q) (hr : r.Gathers ps) :
    Meets ps (.pattern r)

theorem step_allOf_patterns (p q : Pattern) :
    step again .allOf (.pattern p) (.pattern q) = .ok ((p.meet? q).elim .nothing .pattern) := by
  by_cases hpq : p = q
  · subst hpq
    rw [step_of_alike (known_pattern p) (Alike.refl _), Pattern.meet?_self]
    rfl
  · rw [step_of_patterns hpq, ofPatterns_allOf]

/-- One more pattern clashes with the pattern gathered so far, or is gathered into it. -/
theorem Meets.step (h : Meets ps r) (q : Pattern) :
    ∃ s, Simplify.step again .allOf r (.pattern q) = .ok s ∧ Meets (ps ++ [q]) s := by
  cases h with
  | clash h =>
    obtain ⟨p, hp, p', hp', hclash⟩ := h
    have hmore : ∃ p ∈ ps ++ [q], ∃ p' ∈ ps ++ [q], p.Clashes p' :=
      ⟨p, List.mem_append_left _ hp, p', List.mem_append_left _ hp', hclash⟩
    exact ⟨.nothing, rfl, .clash hmore⟩
  | @agree r hno hr =>
    rw [step_allOf_patterns]
    refine ⟨_, rfl, ?_⟩
    cases hmeet : r.meet? q with
    | none =>
      obtain ⟨p, hp, hclash⟩ := hr.clashes_iff.mp (Pattern.meet?_eq_none_iff.mp hmeet)
      exact .clash ⟨p, List.mem_append_left _ hp, q, List.mem_concat_self, hclash⟩
    | some s =>
      have hq : ∀ p ∈ ps, ¬ p.Clashes q := by
        intro p hp hclash
        have hnone := Pattern.meet?_eq_none_iff.mpr (hr.clashes_iff.mpr ⟨p, hp, hclash⟩)
        rw [hmeet] at hnone
        cases hnone
      refine .agree ?_ (hr.meet hmeet)
      rintro ⟨p, hp, p', hp', hclash⟩
      rcases List.mem_append.mp hp with hp | hp <;> rcases List.mem_append.mp hp' with hp' | hp'
      · exact hno ⟨p, hp, p', hp', hclash⟩
      · rw [List.mem_singleton.mp hp'] at hclash
        exact hq p hp hclash
      · rw [List.mem_singleton.mp hp] at hclash
        exact hq p' hp' hclash.symm
      · rw [List.mem_singleton.mp hp, List.mem_singleton.mp hp'] at hclash
        exact Pattern.not_clashes_self q hclash

theorem meets_of_patterns (depth : Nat) (hne : ps ≠ []) :
    ∃ r, combineAll (depth + 1) .allOf (ps.map .pattern) = .ok r ∧ Meets ps r := by
  induction ps using List.reverseRecOn with
  | nil => exact absurd rfl hne
  | append_singleton init q ih =>
    by_cases hinit : init = []
    · subst hinit
      refine ⟨.pattern q, rfl, .agree ?_ (.singleton q)⟩
      rintro ⟨p, hp, p', hp', hclash⟩
      rw [List.mem_singleton.mp hp, List.mem_singleton.mp hp'] at hclash
      exact Pattern.not_clashes_self q hclash
    · obtain ⟨acc, hacc, hmeets⟩ := ih hinit
      obtain ⟨r, hr, hnext⟩ := @Meets.step (combine depth) _ _ hmeets q
      refine ⟨r, ?_, hnext⟩
      unfold combineAll at hacc ⊢
      rw [List.map_append, List.map_singleton, fold_concat (by simpa using hinit), hacc]
      exact hr

theorem Meets.unique {qs : List Pattern} {s : Rule} (hr : Meets ps r) (hs : Meets qs s)
    (hmem : ∀ p, p ∈ ps ↔ p ∈ qs) : r = s := by
  have hclash : (∃ p ∈ ps, ∃ q ∈ ps, p.Clashes q) ↔ ∃ p ∈ qs, ∃ q ∈ qs, p.Clashes q := by
    simp only [hmem]
  cases hr with
  | clash h =>
    cases hs with
    | clash => rfl
    | agree hno _ => exact absurd (hclash.mp h) hno
  | agree hno hr =>
    cases hs with
    | clash h => exact absurd (hclash.mpr h) hno
    | agree _ hs => rw [hr.unique hs hmem]

/-- **The intersection of patterns.** At least one pattern, intersected, comes to `nothing` exactly if
two of them name different values in one field, and otherwise to the pattern that has in each field
what they name there.  Every list of the same patterns, in any order and with any repeats, comes to the
same rule. -/
theorem combineAll_patterns (hne : ps ≠ []) (depth : Nat) :
    ∃ r, combineAll (depth + 1) .allOf (ps.map .pattern) = .ok r ∧
      (r = .nothing ↔ ∃ p ∈ ps, ∃ q ∈ ps, p.Clashes q) ∧
      ((¬ ∃ p ∈ ps, ∃ q ∈ ps, p.Clashes q) → ∃ s : Pattern, r = .pattern s ∧ s.Gathers ps) ∧
      ∀ qs : List Pattern, (∀ q, q ∈ qs ↔ q ∈ ps) →
        combineAll (depth + 1) .allOf (qs.map .pattern) = .ok r := by
  obtain ⟨r, hrun, hmeets⟩ := meets_of_patterns depth hne
  refine ⟨r, hrun, ?_, ?_, ?_⟩
  · cases hmeets with
    | clash h => exact iff_of_true rfl h
    | agree hno _ => exact iff_of_false (by simp) hno
  · intro hno
    cases hmeets with
    | clash h => exact absurd h hno
    | agree _ hr => exact ⟨_, rfl, hr⟩
  · intro qs hmem
    obtain ⟨p, hp⟩ := List.exists_mem_of_ne_nil ps hne
    have hqs : qs ≠ [] := List.ne_nil_of_mem ((hmem p).mpr hp)
    obtain ⟨s, hs, hsmeets⟩ := meets_of_patterns depth hqs
    rw [hs, hsmeets.unique hmeets hmem]

/-- Two groups with open fields between them. -/
def distantGroups : List Pattern :=
  [⟨some "g", none, none⟩, ⟨none, none, none⟩, ⟨none, some "m", none⟩, ⟨some "h", none, none⟩]

/-- A pattern for each field. -/
def fieldByField : List Pattern :=
  [⟨some "g", none, none⟩, ⟨none, some "m", none⟩, ⟨none, none, some ⟨"a", some "jar"⟩⟩]

/-- The groups clash across the open fields between them; patterns that agree are gathered, here from
the last to the first and with a repeat. -/
theorem combineAll_distantGroups :
    distantGroups ≠ [] ∧ combineAll 1 .allOf (distantGroups.map .pattern) = .ok .nothing ∧
      fieldByField ≠ [] ∧
      combineAll 1 .allOf ((fieldByField.reverse ++ fieldByField).map .pattern) =
        .ok (.pattern ⟨some "g", some "m", some ⟨"a", some "jar"⟩⟩) := by
  have hclash : ∃ p ∈ distantGroups, ∃ q ∈ distantGroups, p.Clashes q := by
    exact ⟨⟨some "g", none, none⟩, by simp [distantGroups], ⟨some "h", none, none⟩,
      by simp [distantGroups], Or.inl ⟨"g", "h", rfl, rfl, by decide⟩⟩
  have hdistant : distantGroups ≠ [] := List.cons_ne_nil _ _
  have hfields : fieldByField ≠ [] := List.cons_ne_nil _ _
  obtain ⟨r, hrun, hnothing, -⟩ := combineAll_patterns hdistant 0
  cases hnothing.mpr hclash
  obtain ⟨s, hrunFields, -, -, hall⟩ := combineAll_patterns hfields 0
  have hgathered : combineAll 1 .allOf (fieldByField.map .pattern) =
      .ok (.pattern ⟨some "g", some "m", some ⟨"a", some "jar"⟩⟩) := rfl
  cases hrunFields.symm.trans hgathered
  refine ⟨hdistant, hrun, hfields, hall _ fun q => ?_⟩
  simp

end Simplify

end ExclusionAlgebra
