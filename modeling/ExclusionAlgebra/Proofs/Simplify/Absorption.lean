import ExclusionAlgebra.Proofs.Simplify.Meaning
import ExclusionAlgebra.Proofs.Simplify.Shallow

/-!
# Absorption

`A ∪ (A ∩ B) = A` is looked for at one place only: where the intersection is the operand that is taken
apart, its components are searched for the other operand.  Against a pattern the intersection always
is; against a composite `A` the digests of the two decide, and where `A` is taken apart nobody looks.  A
union `A` then takes the intersection in as one more component, and an intersection `A` is distributed.
What the result leaves out is the same in all cases.

* `Simplify.exists_faces_of_concrete`: which of the two operands is taken apart.
* `Simplify.cases_of_union`: what the union comes to, by the operand that is.
* `Simplify.combineAll_absorbs_iff`: when the result is `A` again.
-/

namespace ExclusionAlgebra

namespace Simplify

open Rule

variable {again : Operation → Rule → Rule → Except Fault Rule} {a b l m : Rule} {cs ds : List Rule}

/-! ## The operands differ -/

/-- A rule has fewer nodes than a composite that holds an alike one. -/
theorem length_nodes_lt_of_alike {inner : Operation} (h : ∃ c ∈ cs, Alike c a) :
    a.nodes.length < (composite inner cs).nodes.length := by
  obtain ⟨c, hc, hca⟩ := h
  rw [← hca.length_nodes_eq]
  exact length_nodes_lt_of_mem hc

/-- Then the composite is alike neither the rule nor a component of it. -/
theorem not_alike_of_length_lt (h : a.nodes.length < b.nodes.length) : ¬ Alike a b := by
  intro halike
  have hlength := halike.length_nodes_eq
  omega

theorem not_alike_components_of_length_lt {f : Operation}
    (h : (composite f ds).nodes.length < b.nodes.length) : ∀ d ∈ ds, ¬ Alike d b := by
  intro d hd
  have hcomponent : d.nodes.length < (composite f ds).nodes.length := length_nodes_lt_of_mem hd
  exact not_alike_of_length_lt (Nat.lt_trans hcomponent h)

/-! ## The operand that is taken apart -/

/-- Of a composite and a pattern or another composite, one is taken apart and faces the other. -/
theorem exists_faces_of_concrete {inner : Operation} (ha : a.Known)
    (hconcrete : a ≠ .everything ∧ a ≠ .nothing)
    (hlm : (l = a ∧ m = composite inner cs) ∨ (l = composite inner cs ∧ m = a)) :
    Faces l m inner cs a ∨ ∃ f ds, a = composite f ds ∧ Faces l m f ds (composite inner cs) := by
  cases a with
  | everything => exact absurd rfl hconcrete.1
  | nothing => exact absurd rfl hconcrete.2
  | foreign value => exact absurd ha (not_known_foreign value)
  | pattern p =>
    rcases hlm with ⟨rfl, rfl⟩ | ⟨rfl, rfl⟩
    · exact Or.inl (.patternLeft p inner cs)
    · exact Or.inl (.patternRight p inner cs)
  | composite f ds =>
    rcases hlm with ⟨rfl, rfl⟩ | ⟨rfl, rfl⟩
    · cases hle : (composite f ds).digest.le (composite inner cs).digest with
      | true => exact Or.inr ⟨f, ds, rfl, .inOrder hle⟩
      | false => exact Or.inl (.swapped hle)
    · cases hle : (composite inner cs).digest.le (composite f ds).digest with
      | true => exact Or.inl (.inOrder hle)
      | false => exact Or.inr ⟨f, ds, rfl, .swapped hle⟩

/-! ## What each case comes to -/

section

variable (hl : l.Known) (hm : m.Known) (hne : ¬ Alike l m)
include hl hm hne

theorem step_of_joined (hf : Faces l m .anyOf ds b) (hnew : ∀ d ∈ ds, ¬ Alike d b) :
    step again .anyOf l m = .ok (composite .anyOf (ds ++ [b])) := by
  have hds : ∀ d ∈ ds, d.Known := known_composite.mp (hf.forall_operands hl hm).1
  rw [step_of_faces hl hm hne hf, merge, if_pos rfl, adjoin, (contains_eq_false_iff hds).mpr hnew]
  rfl

/-- Where the rule is taken apart that the intersection holds, a union has one component more, and an
intersection is distributed. -/
theorem cases_of_taken_apart {f : Operation} (hf : Faces l m f ds b) (hnew : ∀ d ∈ ds, ¬ Alike d b)
    {depth : Nat} {r : Rule} (h : combine (depth + 1) .anyOf l m = .ok r) :
    (f = .anyOf ∧ r = composite .anyOf (ds ++ [b])) ∨
      (f = .allOf ∧ ∃ parts, (ds.mapM fun d => combine depth .anyOf d b) = .ok parts ∧
        combineAll depth .allOf parts = .ok r) := by
  have hstep : step (combine depth) .anyOf l m = .ok r := h
  cases f with
  | anyOf =>
    rw [step_of_joined hl hm hne hf hnew] at hstep
    exact Or.inl ⟨rfl, (Except.ok.inj hstep).symm⟩
  | allOf =>
    have hdist : Distributes .anyOf l m ds b := ⟨hne, hf, fun _ => hnew⟩
    rw [step_of_distributes hl hm hdist] at hstep
    exact Or.inr ⟨rfl, bind_eq_ok.mp hstep⟩

/-- The rule is absorbed, or it is taken apart in one of these two ways. -/
theorem cases_of_union (hmem : ∃ c ∈ cs, Alike c a) (ha : a.Known)
    (hconcrete : a ≠ .everything ∧ a ≠ .nothing)
    (hlm : (l = a ∧ m = composite .allOf cs) ∨ (l = composite .allOf cs ∧ m = a)) {depth : Nat} {r : Rule}
    (h : combine (depth + 1) .anyOf l m = .ok r) :
    (Faces l m .allOf cs a ∧ r = a) ∨
      (∃ ds, a = composite .anyOf ds ∧ r = composite .anyOf (ds ++ [composite .allOf cs])) ∨
      ∃ ds parts, a = composite .allOf ds ∧
        (ds.mapM fun d => combine depth .anyOf d (composite .allOf cs)) = .ok parts ∧
        combineAll depth .allOf parts = .ok r := by
  rcases exists_faces_of_concrete ha hconcrete hlm with hf | ⟨f, ds, rfl, hf⟩
  · have hstep : step (combine depth) .anyOf l m = .ok r := h
    rw [step_of_absorbed hl hm hne hf hmem] at hstep
    exact Or.inl ⟨hf, (Except.ok.inj hstep).symm⟩
  · have hnew : ∀ d ∈ ds, ¬ Alike d (composite .allOf cs) :=
      not_alike_components_of_length_lt (length_nodes_lt_of_alike hmem)
    rcases cases_of_taken_apart hl hm hne hf hnew h with ⟨rfl, hr⟩ | ⟨rfl, parts, hparts, hfold⟩
    · exact Or.inr (Or.inl ⟨ds, rfl, hr⟩)
    · exact Or.inr (Or.inr ⟨ds, parts, rfl, hparts, hfold⟩)

end

/-- Where an intersection of patterns is taken apart and faces a rule whose intersections stand outside of
its unions, the parts have no intersections, and neither has what they are folded to. -/
theorem free_of_taken_apart (hflat : Flat (composite .allOf ds)) (hds : (composite .allOf ds).Known)
    (hb : b.Known) (hout : b.IntersectionsOutside) {depth : Nat} {parts : List Rule} {r : Rule}
    (hparts : (ds.mapM fun d => combine depth .anyOf d b) = .ok parts)
    (hfold : combineAll depth .allOf parts = .ok r) : Free r := by
  obtain ⟨_, heq, hatoms⟩ := hflat
  cases heq
  refine free_of_combineAll (forall_of_mapM hparts fun d hd part hpart => ?_) hfold
  obtain ⟨hunionFree, hatom⟩ := hatoms d hd
  cases d with
  | everything =>
    have hcomes : Comes Free .anyOf .everything b :=
      comes_of_step (step_absorbing_left rfl b) .everything
    exact hcomes.holds hpart
  | nothing => exact absurd rfl (hunionFree _ (self_mem_nodes _)).1
  | pattern p => exact (comes_anyOf_pattern hb hout (.inr ⟨rfl, rfl⟩)).holds hpart
  | composite f es => cases hatom
  | foreign value => exact absurd (known_composite.mp hds _ hd) (not_known_foreign value)

/-! ## The law -/

/-- **Absorption.** Take a rule `a` that is no singleton and an intersection with a component equal to
`a`, both without foreign values and without empty intersections, and unite them in either order.
If the intersection is the one that is taken apart, the union returns `a` at every depth.  Whatever a
union returns equals `a` in this case only, and where `a` is an intersection, is taken apart, and
distributing it happens to come to `a`; which it never does if `a` is an intersection of patterns and the
intersections of the other one stand outside of its unions.  In every case it leaves out just what `a`
leaves out. -/
theorem combineAll_absorbs_iff (ha : a.Known) (hb : (composite .allOf cs).Known) (hground : a.Grounded)
    (hbground : (composite .allOf cs).Grounded) (hconcrete : a ≠ .everything ∧ a ≠ .nothing)
    (hmem : ∃ c ∈ cs, c.equals a = .ok true)
    (hlm : (l = a ∧ m = composite .allOf cs) ∨ (l = composite .allOf cs ∧ m = a)) :
    (Faces l m .allOf cs a → ∀ depth, combineAll (depth + 1) .anyOf [l, m] = .ok a) ∧
      ∀ depth r, combineAll (depth + 1) .anyOf [l, m] = .ok r →
        (r.equals a = .ok true ↔ Faces l m .allOf cs a ∨
          ∃ ds parts s, a = composite .allOf ds ∧
            (ds.mapM fun d => combine depth .anyOf d (composite .allOf cs)) = .ok parts ∧
            combineAll depth .allOf parts = .ok s ∧ s.equals a = .ok true) ∧
        (a.Flat → (composite .allOf cs).IntersectionsOutside →
          (r.equals a = .ok true ↔ Faces l m .allOf cs a)) ∧
        ∀ k, r.excludes k = a.excludes k := by
  replace hmem : ∃ c ∈ cs, Alike c a := by
    obtain ⟨c, hc, hca⟩ := hmem
    exact ⟨c, hc, alike_of_equals hca⟩
  have hsmaller : a.nodes.length < (composite .allOf cs).nodes.length := length_nodes_lt_of_alike hmem
  have hdiffer : ¬ Alike a (composite .allOf cs) := not_alike_of_length_lt hsmaller
  obtain ⟨hl, hm, hne⟩ : l.Known ∧ m.Known ∧ ¬ Alike l m := by
    rcases hlm with ⟨rfl, rfl⟩ | ⟨rfl, rfl⟩
    · exact ⟨ha, hb, hdiffer⟩
    · exact ⟨hb, ha, fun h => hdiffer h.symm⟩
  simp only [combineAll_pair]
  have habsorbed : Faces l m .allOf cs a → ∀ depth, combine (depth + 1) .anyOf l m = .ok a :=
    fun hf depth => step_of_absorbed hl hm hne hf hmem
  refine ⟨habsorbed, fun depth r hr => ?_⟩
  have hknown : r.Known := known_of_combine (depth + 1) _ _ _ _ hr hl hm
  have hreturned : Faces l m .allOf cs a → Alike r a := by
    intro hf
    cases combine_unique hr (habsorbed hf depth)
    exact Alike.refl _
  have hcases := cases_of_union hl hm hne hmem ha hconcrete hlm hr
  rw [equals_eq_true_iff hknown]
  refine ⟨⟨fun halike => ?_, ?_⟩, fun hflat hout => ⟨fun halike => ?_, hreturned⟩, fun k => ?_⟩
  · rcases hcases with ⟨hf, -⟩ | ⟨ds, rfl, rfl⟩ | ⟨ds, parts, rfl, hparts, hfold⟩
    · exact Or.inl hf
    · -- The union has one component more than `a`.
      have hlength := (alike_composite.mp halike).2.length_eq
      rw [List.length_append, List.length_singleton] at hlength
      omega
    · exact Or.inr ⟨ds, parts, r, rfl, hparts, hfold, (equals_eq_true_iff hknown).mpr halike⟩
  · rintro (hf | ⟨ds, parts, s, rfl, hparts, hfold, hequals⟩)
    · exact hreturned hf
    · rcases hcases with ⟨hf, -⟩ | ⟨_, heq, -⟩ | ⟨_, others, heq, hothers, hr⟩
      · exact hreturned hf
      · cases heq
      · cases heq
        cases hparts.symm.trans hothers
        cases hfold.symm.trans hr
        exact alike_of_equals hequals
  · rcases hcases with ⟨hf, -⟩ | ⟨ds, rfl, -⟩ | ⟨ds, parts, rfl, hparts, hfold⟩
    · exact hf
    · obtain ⟨_, heq, -⟩ := hflat
      cases heq
    · have hfree := free_of_taken_apart hflat ha hb hout hparts hfold
      cases halike
      exact absurd rfl (hfree.ne_intersection _)
  · rcases hlm with ⟨rfl, rfl⟩ | ⟨rfl, rfl⟩
    · rw [(excludes_of_combine (depth + 1) _ _ _ _ hr hground hbground).2 k, Operation.both_comm]
      exact excludes_of_component hmem k
    · rw [(excludes_of_combine (depth + 1) _ _ _ _ hr hbground hground).2 k]
      exact excludes_of_component hmem k

/-! ## A union that is absorbed, and one that is not

Only the module beside the union tells the two intersections apart. -/

def groups : Rule :=
  .composite .anyOf [.pattern ⟨some "a", none, none⟩, .pattern ⟨some "b", none, none⟩]

def groupsBeside (module : String) : Rule :=
  .composite .allOf [groups, .pattern ⟨none, some module, none⟩]

theorem digest_le_groupsBeside : groups.digest.le (groupsBeside "m").digest = true ∧
    groups.digest.le (groupsBeside "n").digest = false := by
  have hgroups : groups.digest =
      ⟨"ddc72ae23f85fb5234ed73f9ab66618f3f22567ae3e0f7e69e69d79e1677d1bb"⟩ := by
    decide +kernel
  simp only [groupsBeside, digest_composite, List.map_cons, List.map_nil, hgroups]
  decide +kernel

theorem known_groupsBeside (module : String) : (groupsBeside module).Known := by
  simp [groupsBeside, groups]

/-- The digest of the intersection with `n` is the smaller one, so it is taken apart. -/
theorem absorbs_groups : groups.Known ∧ (groupsBeside "n").Known ∧ groups.Grounded ∧
    (groupsBeside "n").Grounded ∧ groups.equals groups = .ok true ∧
    combineAll 1 .anyOf [groups, groupsBeside "n"] = .ok groups ∧
    combineAll 1 .anyOf [groupsBeside "n", groups] = .ok groups := by
  have hknown : groups.Known := by simp [groups]
  have hground : groups.Grounded := by simp [groups, grounded_composite, grounded_pattern]
  have hbground : (groupsBeside "n").Grounded := by
    simp [groupsBeside, groups, grounded_composite, grounded_pattern]
  have hself : groups.equals groups = .ok true := (equals_eq_true_iff hknown).mpr (Alike.refl _)
  have hmem : ∃ c ∈ [groups, .pattern ⟨none, some "n", none⟩], c.equals groups = .ok true :=
    ⟨groups, List.mem_cons_self, hself⟩
  have hle := digest_le_groupsBeside.2
  refine ⟨hknown, known_groupsBeside "n", hground, hbground, hself, ?_, ?_⟩
  · exact (combineAll_absorbs_iff hknown (known_groupsBeside "n") hground hbground ⟨nofun, nofun⟩ hmem
      (Or.inl ⟨rfl, rfl⟩)).1 (.swapped hle) 0
  · exact (combineAll_absorbs_iff hknown (known_groupsBeside "n") hground hbground ⟨nofun, nofun⟩ hmem
      (Or.inr ⟨rfl, rfl⟩)).1 (.inOrder (Digest.le_of_le_eq_false hle)) 0

/-- Absorption does not hold for every rule: `any(a:*, b:*)` united with `all(any(a:*, b:*), *:m)` takes
it in as a component. -/
theorem not_forall_absorbs : ¬ ∀ (a : Rule) (cs : List Rule) (depth : Nat) (r : Rule), a.Known →
    (composite .allOf cs).Known → a ≠ .everything ∧ a ≠ .nothing →
    (composite .allOf cs).Everywhere (fun node => ∀ f, node ≠ composite f []) →
    (∃ c ∈ cs, c.equals a = .ok true) →
    combineAll depth .anyOf [a, composite .allOf cs] = .ok r → r.equals a = .ok true := by
  intro hclaim
  have hknown : groups.Known := by simp [groups]
  have hself : groups.equals groups = .ok true := (equals_eq_true_iff hknown).mpr (Alike.refl _)
  have hsmaller : groups.nodes.length < (groupsBeside "m").nodes.length :=
    length_nodes_lt_of_alike ⟨groups, List.mem_cons_self, Alike.refl _⟩
  have hdiffer : ¬ Alike groups (groupsBeside "m") := not_alike_of_length_lt hsmaller
  have hrun : combineAll 1 .anyOf [groups, groupsBeside "m"] =
      .ok (composite .anyOf [.pattern ⟨some "a", none, none⟩, .pattern ⟨some "b", none, none⟩,
        groupsBeside "m"]) := by
    rw [combineAll_pair]
    exact step_of_joined hknown (known_groupsBeside "m") hdiffer (.inOrder digest_le_groupsBeside.1)
      (not_alike_components_of_length_lt hsmaller)
  have hequals := hclaim groups _ 1 _ hknown (known_groupsBeside "m") ⟨nofun, nofun⟩
    (by simp [groups]) ⟨groups, List.mem_cons_self, hself⟩ hrun
  cases hequals

end Simplify

end ExclusionAlgebra
