import Mathlib.Data.List.NodupEquivFin
import ExclusionAlgebra.Proofs.Rule.Coordinate
import ExclusionAlgebra.Proofs.Rule.Equality

/-!
# The test for equality finds a bijection

Two composites are the same up to the order of components when their components correspond one to one,
each to one that is the same up to order in its turn.  The test pairs greedily and takes no choice
back, and yet it finds such a correspondence wherever there is one.

* `paired_iff_exists_equiv`: two lists can be paired off exactly along a bijection of their positions.
* `Rule.Corresponds`: rules that are the same up to the order of components, by bijections.
* `Rule.corresponds_iff_alike`: this is being alike, for rules without foreign values.
* `Rule.equals_decides_correspondence`: the test decides it, it is an equivalence, and rules that the
  test calls equal leave out the same coordinates.
-/

namespace ExclusionAlgebra

/-! ## Pairing off along a bijection -/

section

variable {α : Type} {R : α → α → Prop} {cs ds : List α}

/-- A list in another order is the list read at its positions in another order. -/
theorem exists_positions_of_perm {es : List α} (h : es.Perm ds) :
    ∃ positions : List (Fin ds.length), es = positions.map ds.get ∧
      positions.Perm (List.finRange ds.length) := by
  rw [← List.map_get_finRange ds] at h
  have hcomp := congrFun (congrFun (List.eq_map_comp_perm ds.get) es) (List.finRange ds.length)
  exact hcomp.mpr h

theorem paired_iff_exists_equiv :
    Paired R cs ds ↔ ∃ partner : Fin cs.length ≃ Fin ds.length, ∀ i, R cs[i] ds[partner i] := by
  constructor
  · rintro ⟨es, hes, hperm⟩
    obtain ⟨positions, rfl, hpositions⟩ := exists_positions_of_perm hperm
    have hnodup : positions.Nodup := hpositions.nodup_iff.mpr (List.nodup_finRange _)
    have hall : ∀ j, j ∈ positions := fun j => hpositions.mem_iff.mpr (List.mem_finRange j)
    rw [List.forall₂_map_right_iff] at hes
    refine ⟨(finCongr hes.length_eq).trans (hnodup.getEquivOfForallMemList positions hall), ?_⟩
    intro i
    exact hes.get i.isLt (hes.length_eq ▸ i.isLt)
  · rintro ⟨partner, h⟩
    have hperm : ((List.finRange cs.length).map partner).Perm (List.finRange ds.length) := by
      rw [List.perm_ext_iff_of_nodup ((List.nodup_finRange _).map partner.injective)
        (List.nodup_finRange _)]
      intro j
      simpa using partner.surjective j
    refine ⟨((List.finRange cs.length).map partner).map ds.get, ?_, ?_⟩
    · rw [List.map_map]
      nth_rewrite 1 [← List.map_get_finRange cs]
      rw [List.forall₂_map_left_iff, List.forall₂_map_right_iff, List.forall₂_same]
      exact fun i _ => h i
    · have hmap := hperm.map ds.get
      rwa [List.map_get_finRange] at hmap

end

namespace Rule

/-! ## Rules that correspond -/

/-- The same singleton, patterns with the same fields, or composites of one operation with a bijection
from the components of the first to those of the second that takes each to a corresponding one. -/
inductive Corresponds : Rule → Rule → Prop
  | everything : Corresponds .everything .everything
  | nothing : Corresponds .nothing .nothing
  | pattern {p q : Pattern} (hgroup : p.group = q.group) (hmodule : p.module = q.module)
    (hartifact : p.artifact = q.artifact) : Corresponds (.pattern p) (.pattern q)
  | composite (operation : Operation) {cs ds : List Rule} (partner : Fin cs.length ≃ Fin ds.length)
    (h : ∀ i, Corresponds cs[i] ds[partner i]) :
    Corresponds (.composite operation cs) (.composite operation ds)

theorem Corresponds.alike {a b : Rule} (h : Corresponds a b) : Alike a b := by
  induction h with
  | everything => exact .everything
  | nothing => exact .nothing
  | @pattern p q hgroup hmodule hartifact =>
    cases p
    cases q
    cases hgroup
    cases hmodule
    cases hartifact
    exact .pattern _
  | composite f partner _ ih =>
    exact alike_composite.mpr ⟨rfl, paired_iff_exists_equiv.mpr ⟨partner, ih⟩⟩

theorem corresponds_of_alike {a b : Rule} (ha : a.Known) (h : Alike a b) : Corresponds a b := by
  induction a generalizing b with
  | everything => cases h; exact .everything
  | nothing => cases h; exact .nothing
  | pattern p => cases h; exact .pattern rfl rfl rfl
  | composite f cs ih =>
    rw [known_composite] at ha
    cases h with
    | composite _ hes hperm =>
      obtain ⟨partner, hpartner⟩ := paired_iff_exists_equiv.mp ⟨_, hes, hperm⟩
      refine .composite f partner fun i => ?_
      exact ih _ (List.getElem_mem _) (ha _ (List.getElem_mem _)) (hpartner i)
  | foreign value => exact absurd ha (not_known_foreign value)

theorem corresponds_iff_alike {a b : Rule} (ha : a.Known) : Corresponds a b ↔ Alike a b :=
  ⟨Corresponds.alike, corresponds_of_alike ha⟩

/-! ## The test -/

/-- **The test for equality decides correspondence.** On rules without foreign values it always
answers, and the answer is yes exactly if the rules correspond.  It is therefore reflexive, symmetric
and transitive, and rules that it calls equal leave out the same coordinates. -/
theorem equals_decides_correspondence {a b c : Rule} (ha : a.Known) (hb : b.Known) :
    (∃ answer, a.equals b = .ok answer ∧ (answer = true ↔ Corresponds a b)) ∧
      a.equals a = .ok true ∧
      (a.equals b = .ok true → b.equals a = .ok true) ∧
      (a.equals b = .ok true → b.equals c = .ok true → a.equals c = .ok true) ∧
      (a.equals b = .ok true → ∀ k, a.excludes k = b.excludes k) := by
  refine ⟨?_, ?_, ?_, ?_, ?_⟩
  · obtain ⟨answer, hanswer⟩ := exists_equals ha b
    refine ⟨answer, hanswer, ?_⟩
    rw [corresponds_iff_alike ha, ← equals_eq_true_iff ha, hanswer, Except.ok.injEq]
  · exact (equals_eq_true_iff ha).mpr (Alike.refl a)
  · intro hab
    exact (equals_eq_true_iff hb).mpr (alike_of_equals hab).symm
  · intro hab hbc
    exact (equals_eq_true_iff ha).mpr ((alike_of_equals hab).trans (alike_of_equals hbc))
  · intro hab k
    exact (alike_of_equals hab).excludes_eq

/-- A group twice, and then what the group and a module have in common. -/
def twiceThenShared : Rule :=
  .composite .anyOf [.pattern ⟨some "g", none, none⟩, .pattern ⟨some "g", none, none⟩,
    .composite .allOf [.pattern ⟨some "g", none, none⟩, .pattern ⟨none, some "m", none⟩]]

def sharedBetween : Rule :=
  .composite .anyOf [.pattern ⟨some "g", none, none⟩,
    .composite .allOf [.pattern ⟨none, some "m", none⟩, .pattern ⟨some "g", none, none⟩],
    .pattern ⟨some "g", none, none⟩]

/-- Reordered on two levels, with a repeat on the outer one. -/
theorem twiceThenShared_corresponds :
    twiceThenShared.Known ∧ sharedBetween.Known ∧ twiceThenShared ≠ sharedBetween ∧
      Corresponds twiceThenShared sharedBetween ∧
      sharedBetween.equals twiceThenShared = .ok true ∧
      ∀ k, twiceThenShared.excludes k = sharedBetween.excludes k := by
  have hleft : twiceThenShared.Known := by decide
  have hright : sharedBetween.Known := by decide
  have htest : twiceThenShared.equals sharedBetween = .ok true := rfl
  obtain ⟨⟨answer, hanswer, hiff⟩, -, hsymm, -, hexcludes⟩ :=
    @equals_decides_correspondence twiceThenShared sharedBetween twiceThenShared hleft hright
  cases htest.symm.trans hanswer
  exact ⟨hleft, hright, by decide, hiff.mp rfl, hsymm htest, hexcludes htest⟩

/-- Repeats count: two equal components have only one partner among two different ones. -/
example : (Rule.composite .anyOf [.nothing, .nothing]).equals
    (.composite .anyOf [.nothing, .everything]) = .ok false := rfl

end Rule

end ExclusionAlgebra
