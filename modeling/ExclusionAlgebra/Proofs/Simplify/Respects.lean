import ExclusionAlgebra.Proofs.Simplify.Endless
import ExclusionAlgebra.Proofs.Simplify.Returning

/-!
# Unions respect equality

A union is folded in the order of its operands, and what becomes of an operand depends on the digests
and on the order in which components stand.  For rules without intersections this cannot be seen up to
equality: rules that are equal have one digest, so two runs on equal operands take the same way at every
step, although what they have built so far may differ in the order of components.

* `Rule.exists_adjoin_alike`: a component that joins two alike composites.
* `Simplify.Faces.exists_alike`: alike operands are taken apart alike.
* `Simplify.step_anyOf_alike`, `Simplify.fold_alike`: one union, and a fold.
* `Simplify.combineAll_anyOf_respects`: equal lists have equal unions, whether digests collide or not.
-/

namespace ExclusionAlgebra

namespace Rule

variable {x y : Rule} {cs ds : List Rule} {f : Operation}

theorem exists_alike_mem_of_paired (h : Paired Alike cs ds) (hxy : Alike x y)
    (hmem : ∃ c ∈ cs, Alike c x) : ∃ d ∈ ds, Alike d y := by
  obtain ⟨c, hc, hcx⟩ := hmem
  obtain ⟨d, hd, hdc⟩ := (h.symm fun _ _ _ => Alike.symm).exists_of_mem_right hc
  exact ⟨d, hd, (hdc.trans hcx).trans hxy⟩

theorem alike_append_singleton (h : Paired Alike cs ds) (hxy : Alike x y) :
    Alike (.composite f (cs ++ [x])) (.composite f (ds ++ [y])) := by
  obtain ⟨es, hes, hperm⟩ := h
  exact .composite f (List.rel_append hes (.cons hxy .nil)) (hperm.append_right [y])

/-- The component is found among the components of both composites, or is new to both. -/
theorem exists_adjoin_alike (hcs : ∀ c ∈ cs, c.Known) (h : Paired Alike cs ds) (hxy : Alike x y) :
    ∃ r s, adjoin f cs x = .ok r ∧ adjoin f ds y = .ok s ∧ Alike r s := by
  have hds : ∀ d ∈ ds, d.Known := by
    intro d hd
    obtain ⟨c, hc, hcd⟩ := h.exists_of_mem_right hd
    exact hcd.known (hcs c hc)
  by_cases hmem : ∃ c ∈ cs, Alike c x
  · have hleft := (contains_eq_true_iff hcs).mpr hmem
    have hright := (contains_eq_true_iff hds).mpr (exists_alike_mem_of_paired h hxy hmem)
    refine ⟨.composite f cs, .composite f ds, ?_, ?_, alike_composite.mpr ⟨rfl, h⟩⟩
    · rw [adjoin, hleft]
      rfl
    · rw [adjoin, hright]
      rfl
  · have hback : Paired Alike ds cs := h.symm fun _ _ _ => Alike.symm
    have hnew : ¬ ∃ d ∈ ds, Alike d y := fun hd =>
      hmem (exists_alike_mem_of_paired hback hxy.symm hd)
    have hleft := (contains_eq_false_iff hcs).mpr fun c hc hcx => hmem ⟨c, hc, hcx⟩
    have hright := (contains_eq_false_iff hds).mpr fun d hd hdy => hnew ⟨d, hd, hdy⟩
    refine ⟨.composite f (cs ++ [x]), .composite f (ds ++ [y]), ?_, ?_, alike_append_singleton h hxy⟩
    · rw [adjoin, hleft]
      rfl
    · rw [adjoin, hright]
      rfl

end Rule

namespace Simplify

open Rule

variable {again more : Operation → Rule → Rule → Except Fault Rule} {a b a' b' x : Rule}
  {cs : List Rule} {f inner : Operation}

/-- Of alike operands the same one is taken apart, since alike composites have one digest. -/
theorem Faces.exists_alike (h : Faces a b inner cs x) (ha : Alike a a') (hb : Alike b b') :
    ∃ ds y, Faces a' b' inner ds y ∧ Alike (composite inner cs) (composite inner ds) ∧ Alike x y := by
  cases h with
  | patternLeft p =>
    cases ha
    cases hb with
    | composite _ hes hperm => exact ⟨_, _, .patternLeft p _ _, .composite _ hes hperm, .pattern p⟩
  | patternRight p =>
    cases hb
    cases ha with
    | composite _ hes hperm => exact ⟨_, _, .patternRight p _ _, .composite _ hes hperm, .pattern p⟩
  | inOrder hle =>
    rw [ha.digest_eq, hb.digest_eq] at hle
    cases ha with
    | composite _ hes hperm =>
      cases hb with
      | composite _ hes' hperm' =>
        exact ⟨_, _, .inOrder hle, .composite _ hes hperm, .composite _ hes' hperm'⟩
  | swapped hle =>
    rw [ha.digest_eq, hb.digest_eq] at hle
    cases ha with
    | composite _ hes hperm =>
      cases hb with
      | composite _ hes' hperm' =>
        exact ⟨_, _, .swapped hle, .composite _ hes' hperm', .composite _ hes hperm⟩

/-- The rule holds neither foreign values nor intersections. -/
def Unitable (rule : Rule) : Prop := rule.Known ∧ rule.IntersectionFree

theorem kept_unitable : Kept Unitable := kept_known.and kept_intersectionFree

/-- A singleton is alike to nothing but itself. -/
theorem absorbedBy_eq_of_alike (h : Alike a a') : f.absorbedBy a = f.absorbedBy a' := by
  cases h with
  | composite => cases f <;> rfl
  | _ => rfl

theorem ignores_eq_of_alike (h : Alike a a') : f.ignores a = f.ignores a' := by
  cases h with
  | composite => cases f <;> rfl
  | _ => rfl

theorem step_of_takeLeft (h : f.absorbedBy a = true ∨ f.ignores b = true) (ha : a.Known) :
    step again f a b = .ok a :=
  h.elim (fun h => step_absorbing_left h b) fun h => step_neutral_right h ha

theorem step_of_takeRight (h : f.absorbedBy b = true ∨ f.ignores a = true) (ha : a.Known) :
    step again f a b = .ok b :=
  h.elim (fun h => step_absorbing_right h ha) fun h => step_neutral_left h b

/-- A union of two rules returns at once, for nothing is distributed. -/
theorem exists_step_anyOf (ha : Unitable a) (hb : Unitable b) :
    ∃ r, step again .anyOf a b = .ok r := by
  rcases returns_or_distributes (f := .anyOf) ha.1 hb.1 with hreturns | ⟨cs, x, hdist⟩
  · exact hreturns again
  · cases hdist.faces.eq_anyOf ha.2 hb.2

/-- Two runs on alike operands follow the same law. -/
theorem step_anyOf_alike (ha : Unitable a) (hb : Unitable b) (haa : Alike a a') (hbb : Alike b b') :
    ∃ r s, step again .anyOf a b = .ok r ∧ step more .anyOf a' b' = .ok s ∧ Alike r s := by
  have ha' : a'.Known := haa.known ha.1
  have hb' : b'.Known := hbb.known hb.1
  obtain ⟨r, hr⟩ : ∃ r, step again .anyOf a b = .ok r := exists_step_anyOf ha hb
  refine ⟨r, ?_⟩
  cases law_of_step hr with
  | same hab =>
    have hab' : Alike a' b' := (haa.symm.trans hab).trans hbb
    exact ⟨a', hr, step_of_alike ha' hab', haa⟩
  | takeLeft h =>
    rw [absorbedBy_eq_of_alike haa, ignores_eq_of_alike hbb] at h
    exact ⟨a', hr, step_of_takeLeft h ha', haa⟩
  | takeRight h =>
    rw [absorbedBy_eq_of_alike hbb, ignores_eq_of_alike haa] at h
    exact ⟨b', hr, step_of_takeRight h ha', hbb⟩
  | patterns hne =>
    cases haa
    cases hbb
    exact ⟨_, hr, step_of_patterns hne, Alike.refl _⟩
  | @join _ _ x _ cs hne hf hadjoin =>
    obtain ⟨ds, y, hf', hcomposites, hxy⟩ := hf.exists_alike haa hbb
    have hne' : ¬ Alike a' b' := fun h => hne ((haa.trans h).trans hbb.symm)
    have hcs : ∀ c ∈ cs, c.Known := known_composite.mp (hf.forall_operands ha.1 hb.1).1
    obtain ⟨r', s, hr', hs, halike⟩ :=
      exists_adjoin_alike (f := .anyOf) hcs (alike_composite.mp hcomposites).2 hxy
    cases hadjoin.symm.trans hr'
    refine ⟨s, hr, ?_, halike⟩
    rw [step_of_faces ha' hb' hne' hf', merge, if_pos rfl]
    exact hs
  | absorption _ hf => cases hf.eq_anyOf ha.2 hb.2
  | distribution hf => cases hf.eq_anyOf ha.2 hb.2

/-! ## Folds -/

/-- Two folds over alike lists go together if each combination in them does.  The invariant is that what
has been folded so far is alike. -/
theorem foldlM_alike {P : Rule → Prop} {pair other : Rule → Rule → Except Fault Rule}
    (hpair : ∀ a b a' b', P a → P b → Alike a a' → Alike b b' →
      ∃ r s, pair a b = .ok r ∧ other a' b' = .ok s ∧ P r ∧ Alike r s)
    {xs ys : List Rule} (h : List.Forall₂ Alike xs ys) (hxs : ∀ x ∈ xs, P x) (ha : P a)
    (haa : Alike a a') :
    ∃ r s, xs.foldlM pair a = .ok r ∧ ys.foldlM other a' = .ok s ∧ Alike r s := by
  induction h generalizing a a' with
  | nil => exact ⟨a, a', rfl, rfl, haa⟩
  | @cons x y xs ys hxy _ ih =>
    rw [List.forall_mem_cons] at hxs
    obtain ⟨acc, acc', hacc, hacc', hP, halike⟩ := hpair a x a' y ha hxs.1 haa hxy
    obtain ⟨r, s, hr, hs, hrs⟩ := ih hxs.2 hP halike
    refine ⟨r, s, ?_, ?_, hrs⟩
    · exact List.foldlM_cons.trans (bind_eq_ok.mpr ⟨acc, hacc, hr⟩)
    · exact List.foldlM_cons.trans (bind_eq_ok.mpr ⟨acc', hacc', hs⟩)

theorem fold_alike {P : Rule → Prop} {pair other : Rule → Rule → Except Fault Rule}
    (hpair : ∀ a b a' b', P a → P b → Alike a a' → Alike b b' →
      ∃ r s, pair a b = .ok r ∧ other a' b' = .ok s ∧ P r ∧ Alike r s)
    {xs ys : List Rule} (h : List.Forall₂ Alike xs ys) (hxs : ∀ x ∈ xs, P x) :
    ∃ r s, fold pair xs = .ok r ∧ fold other ys = .ok s ∧ Alike r s := by
  cases h with
  | nil => exact ⟨.nothing, .nothing, rfl, rfl, .nothing⟩
  | cons hxy hrest =>
    rw [List.forall_mem_cons] at hxs
    exact foldlM_alike hpair hrest hxs.2 hxs.1 hxy

/-- **Unions respect equality.** Take two lists of rules that are equal one by one, though the components
of their unions may stand in any order at any depth, and let the rules hold neither foreign values nor
intersections.  Both lists have a union at every depth, and these unions are equal and have one digest. -/
theorem combineAll_anyOf_respects {xs ys : List Rule} (hknown : ∀ x ∈ xs, x.Known)
    (hfree : ∀ x ∈ xs, x.IntersectionFree)
    (h : List.Forall₂ (fun x y => x.equals y = .ok true) xs ys) (depth : Nat) :
    ∃ r s, combineAll (depth + 1) .anyOf xs = .ok r ∧ combineAll (depth + 1) .anyOf ys = .ok s ∧
      r.equals s = .ok true ∧ SameHash r s := by
  have hxs : ∀ x ∈ xs, Unitable x := fun x hx => ⟨hknown x hx, hfree x hx⟩
  have hpair : ∀ a b a' b', Unitable a → Unitable b → Alike a a' → Alike b b' →
      ∃ r s, combine (depth + 1) .anyOf a b = .ok r ∧ combine (depth + 1) .anyOf a' b' = .ok s ∧
        Unitable r ∧ Alike r s := by
    intro a b a' b' ha hb haa hbb
    obtain ⟨r, s, hr, hs, halike⟩ := step_anyOf_alike ha hb haa hbb
    exact ⟨r, s, hr, hs, kept_unitable.of_combine (depth + 1) .anyOf a b r hr ha hb, halike⟩
  obtain ⟨r, s, hr, hs, halike⟩ := fold_alike hpair (h.imp fun _ _ => alike_of_equals) hxs
  have hrKnown : r.Known := known_of_combineAll hr hknown
  exact ⟨r, s, hr, hs, (equals_eq_true_iff hrKnown).mpr halike, sameHash_of_alike hrKnown halike⟩

/-- A module beside a union of two groups, and a third group. -/
def moduleBesideGroups : List Rule :=
  [.composite .anyOf [.pattern ⟨none, some "m", none⟩, .composite .anyOf
    [.pattern ⟨some "a", none, none⟩, .pattern ⟨some "b", none, none⟩]],
    .pattern ⟨some "c", none, none⟩]

/-- The same in another order, on both levels of the first rule. -/
def groupsBesideModule : List Rule :=
  [.composite .anyOf [.composite .anyOf
    [.pattern ⟨some "b", none, none⟩, .pattern ⟨some "a", none, none⟩],
    .pattern ⟨none, some "m", none⟩], .pattern ⟨some "c", none, none⟩]

/-- The unions differ in the order that they were given, and in nothing else. -/
theorem respects_order_of_groups :
    (∀ x ∈ moduleBesideGroups, x.Known) ∧ (∀ x ∈ moduleBesideGroups, x.IntersectionFree) ∧
      List.Forall₂ (fun x y => x.equals y = .ok true) moduleBesideGroups groupsBesideModule ∧
      ∃ r s, combineAll 1 .anyOf moduleBesideGroups = .ok r ∧
        combineAll 1 .anyOf groupsBesideModule = .ok s ∧ r ≠ s ∧ r.equals s = .ok true ∧
          SameHash r s := by
  have hknown : ∀ x ∈ moduleBesideGroups, x.Known := by decide
  have hfree : ∀ x ∈ moduleBesideGroups, x.IntersectionFree := by
    simp [moduleBesideGroups, IntersectionFree]
  have hequals : List.Forall₂ (fun x y => x.equals y = .ok true) moduleBesideGroups
      groupsBesideModule := .cons rfl (.cons rfl .nil)
  obtain ⟨r, s, hr, hs, hrs, hhash⟩ := combineAll_anyOf_respects hknown hfree hequals 0
  have hdiffer : r ≠ s := by
    rintro rfl
    have hsame : combineAll 1 .anyOf moduleBesideGroups = combineAll 1 .anyOf groupsBesideModule :=
      hr.trans hs.symm
    cases hsame
  exact ⟨hknown, hfree, hequals, r, s, hr, hs, hdiffer, hrs, hhash⟩

end Simplify

end ExclusionAlgebra
