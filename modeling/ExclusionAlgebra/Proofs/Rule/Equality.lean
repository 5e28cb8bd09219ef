import ExclusionAlgebra.Rule.Equality
import ExclusionAlgebra.Proofs.Returns
import ExclusionAlgebra.Proofs.Rule.Alike

/-!
# The test for equality

`Rule.equals` pairs components greedily: each takes the first equal one that is left over, and no
choice is ever taken back.  It decides `Rule.Alike` nevertheless, because that relation is an
equivalence (`Paired.cancel`).

* `Rule.alike_of_equals`: what the test calls equal is alike, whatever the two rules hold.
* `Rule.exists_equals`: on a rule without foreign values the test answers.
* `Rule.equals_eq_true_iff`, `Rule.equals_eq_false_iff`: its answers there.
* `Rule.contains_eq_true_iff`, `Rule.contains_eq_false_iff`, `Rule.adjoin_cases`: membership and
  adding a component.
-/

namespace ExclusionAlgebra

/-! ## Taking the first match -/

section

variable {α : Type} {test : α → Except Fault Bool}

theorem takeFirst?_cons_eq_ok {x : α} {xs : List α} {found : Option (List α)} :
    takeFirst? test (x :: xs) = .ok found ↔
      (test x = .ok true ∧ found = some xs) ∨
        (test x = .ok false ∧ ∃ left, takeFirst? test xs = .ok left ∧ found = left.map (x :: ·)) := by
  rw [takeFirst?, bind_eq_ok]
  constructor
  · rintro ⟨hit, htest, h⟩
    cases hit with
    | true => exact Or.inl ⟨htest, (pure_eq_ok.mp h).symm⟩
    | false =>
      obtain ⟨left, hleft, h⟩ := bind_eq_ok.mp h
      exact Or.inr ⟨htest, left, hleft, (pure_eq_ok.mp h).symm⟩
  · rintro (⟨htest, rfl⟩ | ⟨htest, left, hleft, rfl⟩)
    · exact ⟨true, htest, rfl⟩
    · exact ⟨false, htest, bind_eq_ok.mpr ⟨left, hleft, rfl⟩⟩

theorem perm_of_takeFirst?_eq_some {xs rest : List α}
    (h : takeFirst? test xs = .ok (some rest)) :
    ∃ x, test x = .ok true ∧ xs.Perm (x :: rest) := by
  induction xs generalizing rest with
  | nil => cases h
  | cons y ys ih =>
    rcases takeFirst?_cons_eq_ok.mp h with ⟨htest, hfound⟩ | ⟨_, left, hleft, hfound⟩
    · cases hfound
      exact ⟨y, htest, .refl _⟩
    · cases left with
      | none => cases hfound
      | some left =>
        cases hfound
        obtain ⟨x, hx, hperm⟩ := ih hleft
        exact ⟨x, hx, (hperm.cons y).trans (List.Perm.swap x y left)⟩

theorem forall_of_takeFirst?_eq_none {xs : List α} (h : takeFirst? test xs = .ok none) :
    ∀ x ∈ xs, test x = .ok false := by
  induction xs with
  | nil => simp
  | cons y ys ih =>
    rcases takeFirst?_cons_eq_ok.mp h with ⟨_, hfound⟩ | ⟨htest, left, hleft, hfound⟩
    · cases hfound
    · cases left with
      | some left => cases hfound
      | none =>
        intro x hx
        rcases List.mem_cons.mp hx with rfl | hx
        · exact htest
        · exact ih hleft x hx

theorem exists_takeFirst?_eq_ok {xs : List α} (h : ∀ x ∈ xs, ∃ answer, test x = .ok answer) :
    ∃ found, takeFirst? test xs = .ok found := by
  induction xs with
  | nil => exact ⟨none, rfl⟩
  | cons y ys ih =>
    obtain ⟨answer, hy⟩ := h y List.mem_cons_self
    obtain ⟨left, hleft⟩ := ih fun x hx => h x (List.mem_cons_of_mem _ hx)
    cases answer with
    | true => exact ⟨_, takeFirst?_cons_eq_ok.mpr (Or.inl ⟨hy, rfl⟩)⟩
    | false => exact ⟨_, takeFirst?_cons_eq_ok.mpr (Or.inr ⟨hy, left, hleft, rfl⟩)⟩

end

namespace Rule

/-! ## Equal rules are alike -/

theorem pairOff_cons_eq_ok {c : Rule} {cs ds : List Rule} {answer : Bool} :
    pairOff (c :: cs) ds = .ok answer ↔
      (takeFirst? (equals c) ds = .ok none ∧ answer = false) ∨
        ∃ rest, takeFirst? (equals c) ds = .ok (some rest) ∧ pairOff cs rest = .ok answer := by
  rw [pairOff, bind_eq_ok]
  constructor
  · rintro ⟨found, hfound, h⟩
    cases found with
    | none => exact Or.inl ⟨hfound, (pure_eq_ok.mp h).symm⟩
    | some rest => exact Or.inr ⟨rest, hfound, h⟩
  · rintro (⟨hfound, rfl⟩ | ⟨rest, hfound, h⟩)
    · exact ⟨none, hfound, rfl⟩
    · exact ⟨some rest, hfound, h⟩

theorem paired_of_pairOff {cs ds : List Rule} (ih : ∀ c ∈ cs, ∀ d, equals c d = .ok true → Alike c d)
    (hlength : cs.length = ds.length) (h : pairOff cs ds = .ok true) : Paired Alike cs ds := by
  induction cs generalizing ds with
  | nil =>
    rw [List.length_nil, eq_comm, List.length_eq_zero_iff] at hlength
    subst hlength
    exact ⟨[], .nil, .refl _⟩
  | cons c cs ihcs =>
    rcases pairOff_cons_eq_ok.mp h with ⟨_, hfalse⟩ | ⟨rest, hfound, h⟩
    · cases hfalse
    · obtain ⟨d, hcd, hperm⟩ := perm_of_takeFirst?_eq_some hfound
      have hrest : cs.length = rest.length := by
        have := hperm.length_eq
        simp only [List.length_cons] at this hlength
        omega
      have hpaired := ihcs (fun c' hc' => ih c' (List.mem_cons_of_mem _ hc')) hrest h
      exact (hpaired.cons (ih c List.mem_cons_self d hcd)).perm_right hperm.symm

theorem equals_composite {f g : Operation} {cs ds : List Rule} :
    equals (.composite f cs) (.composite g ds) =
      if f = g ∧ cs.length = ds.length then pairOff cs ds else .ok false := by
  rw [equals]
  rfl

theorem alike_of_equals {a b : Rule} (h : a.equals b = .ok true) : Alike a b := by
  induction a generalizing b with
  | everything => cases b <;> first | exact .everything | cases h
  | nothing => cases b <;> first | exact .nothing | cases h
  | pattern p =>
    cases b with
    | pattern q =>
      rw [equals, pure_eq_ok, decide_eq_true_eq] at h
      exact h ▸ .pattern p
    | _ => cases h
  | composite f cs ih =>
    cases b with
    | composite g ds =>
      rw [equals_composite] at h
      split at h
      · rename_i hsame
        exact alike_composite.mpr ⟨hsame.1, paired_of_pairOff (fun c hc d => ih c hc) hsame.2 h⟩
      · cases h
    | _ => cases h
  | foreign value =>
    cases b with
    | foreign other =>
      rw [equals] at h
      split at h
      · rename_i hsame
        exact hsame ▸ .foreign value
      · cases h
    | _ => cases h

/-! ## The answers on rules without foreign values -/

theorem exists_pairOff {cs : List Rule} (ih : ∀ c ∈ cs, ∀ d, ∃ answer, equals c d = .ok answer)
    (ds : List Rule) : ∃ answer, pairOff cs ds = .ok answer := by
  induction cs generalizing ds with
  | nil => exact ⟨true, rfl⟩
  | cons c cs ihcs =>
    have hall : ∀ d ∈ ds, ∃ answer, equals c d = .ok answer := fun d _ =>
      ih c List.mem_cons_self d
    obtain ⟨found, hfound⟩ := exists_takeFirst?_eq_ok hall
    cases found with
    | none => exact ⟨_, pairOff_cons_eq_ok.mpr (Or.inl ⟨hfound, rfl⟩)⟩
    | some rest =>
      obtain ⟨answer, hrest⟩ := ihcs (fun c' hc' => ih c' (List.mem_cons_of_mem _ hc')) rest
      exact ⟨answer, pairOff_cons_eq_ok.mpr (Or.inr ⟨rest, hfound, hrest⟩)⟩

theorem exists_equals {a : Rule} (ha : a.Known) (b : Rule) : ∃ answer, a.equals b = .ok answer := by
  induction a generalizing b with
  | everything => cases b <;> exact ⟨_, rfl⟩
  | nothing => cases b <;> exact ⟨_, rfl⟩
  | pattern p => cases b <;> exact ⟨_, rfl⟩
  | composite f cs ih =>
    rw [known_composite] at ha
    cases b with
    | composite g ds =>
      rw [equals_composite]
      split
      · exact exists_pairOff (fun c hc d => ih c hc (ha c hc) d) ds
      · exact ⟨false, rfl⟩
    | _ => exact ⟨false, rfl⟩
  | foreign value => exact absurd ha (not_known_foreign value)

theorem pairOff_of_paired {cs ds : List Rule}
    (ih : ∀ c ∈ cs, ∀ d, equals c d = .ok false → ¬ Alike c d)
    (h : Paired Alike cs ds) : pairOff cs ds ≠ .ok false := by
  induction cs generalizing ds with
  | nil => exact nofun
  | cons c cs ihcs =>
    intro hfalse
    rcases pairOff_cons_eq_ok.mp hfalse with ⟨hfound, _⟩ | ⟨rest, hfound, hrest⟩
    · obtain ⟨d, hd, hdc⟩ := (h.symm fun _ _ _ => Alike.symm).exists_of_mem_right List.mem_cons_self
      have hno := forall_of_takeFirst?_eq_none hfound d hd
      exact ih c List.mem_cons_self d hno hdc.symm
    · obtain ⟨d, hcd, hperm⟩ := perm_of_takeFirst?_eq_some hfound
      have hleft := h.cancel Alike.refl (fun _ _ => Alike.symm) (fun _ _ _ => Alike.trans)
        (alike_of_equals hcd) hperm
      exact ihcs (fun c' hc' => ih c' (List.mem_cons_of_mem _ hc')) hleft hrest

theorem not_alike_of_equals {a b : Rule} (h : a.equals b = .ok false) : ¬ Alike a b := by
  induction a generalizing b with
  | everything => rintro ⟨⟩; cases h
  | nothing => rintro ⟨⟩; cases h
  | pattern p =>
    rintro ⟨⟩
    rw [equals, pure_eq_ok, decide_eq_false_iff_not] at h
    exact h rfl
  | composite f cs ih =>
    intro halike
    cases b with
    | composite g ds =>
      obtain ⟨hfg, hpaired⟩ := alike_composite.mp halike
      rw [equals_composite, if_pos ⟨hfg, hpaired.length_eq⟩] at h
      exact pairOff_of_paired (fun c hc d => ih c hc) hpaired h
    | _ => cases halike
  | foreign value =>
    rintro ⟨⟩
    rw [equals, if_pos rfl] at h
    cases h

theorem equals_eq_true_iff {a b : Rule} (ha : a.Known) : a.equals b = .ok true ↔ Alike a b := by
  refine ⟨alike_of_equals, fun h => ?_⟩
  obtain ⟨answer, hanswer⟩ := exists_equals ha b
  cases answer with
  | true => exact hanswer
  | false => exact absurd h (not_alike_of_equals hanswer)

theorem equals_eq_false_iff {a b : Rule} (ha : a.Known) : a.equals b = .ok false ↔ ¬ Alike a b := by
  refine ⟨not_alike_of_equals, fun h => ?_⟩
  obtain ⟨answer, hanswer⟩ := exists_equals ha b
  cases answer with
  | true => exact absurd (alike_of_equals hanswer) h
  | false => exact hanswer

/-! ## Components -/

theorem contains_cons {c x : Rule} {cs : List Rule} {answer : Bool} :
    contains (c :: cs) x = .ok answer ↔
      (c.equals x = .ok true ∧ answer = true) ∨
        (c.equals x = .ok false ∧ contains cs x = .ok answer) := by
  unfold contains
  rw [List.anyM, bind_eq_ok]
  constructor
  · rintro ⟨hit, hc, h⟩
    cases hit with
    | true => exact Or.inl ⟨hc, (pure_eq_ok.mp h).symm⟩
    | false => exact Or.inr ⟨hc, h⟩
  · rintro (⟨hc, rfl⟩ | ⟨hc, h⟩)
    · exact ⟨true, hc, rfl⟩
    · exact ⟨false, hc, h⟩

theorem alike_of_contains {cs : List Rule} {x : Rule} (h : contains cs x = .ok true) :
    ∃ c ∈ cs, Alike c x := by
  induction cs with
  | nil => cases h
  | cons c cs ih =>
    rcases contains_cons.mp h with ⟨hc, _⟩ | ⟨_, h⟩
    · exact ⟨c, List.mem_cons_self, alike_of_equals hc⟩
    · obtain ⟨d, hd, hdx⟩ := ih h
      exact ⟨d, List.mem_cons_of_mem _ hd, hdx⟩

theorem not_alike_of_contains {cs : List Rule} {x : Rule} (h : contains cs x = .ok false) :
    ∀ c ∈ cs, ¬ Alike c x := by
  induction cs with
  | nil => simp
  | cons c cs ih =>
    rcases contains_cons.mp h with ⟨_, htrue⟩ | ⟨hc, h⟩
    · cases htrue
    · intro d hd
      rcases List.mem_cons.mp hd with rfl | hd
      · exact not_alike_of_equals hc
      · exact ih h d hd

theorem exists_contains {cs : List Rule} (hcs : ∀ c ∈ cs, c.Known) (x : Rule) :
    ∃ answer, contains cs x = .ok answer := by
  induction cs with
  | nil => exact ⟨false, rfl⟩
  | cons c cs ih =>
    obtain ⟨hit, hc⟩ := exists_equals (hcs c List.mem_cons_self) x
    obtain ⟨answer, hanswer⟩ := ih fun d hd => hcs d (List.mem_cons_of_mem _ hd)
    cases hit with
    | true => exact ⟨true, contains_cons.mpr (Or.inl ⟨hc, rfl⟩)⟩
    | false => exact ⟨answer, contains_cons.mpr (Or.inr ⟨hc, hanswer⟩)⟩

theorem contains_eq_true_iff {cs : List Rule} {x : Rule} (hcs : ∀ c ∈ cs, c.Known) :
    contains cs x = .ok true ↔ ∃ c ∈ cs, Alike c x := by
  refine ⟨alike_of_contains, fun ⟨c, hc, hcx⟩ => ?_⟩
  obtain ⟨answer, hanswer⟩ := exists_contains hcs x
  cases answer with
  | true => exact hanswer
  | false => exact absurd hcx (not_alike_of_contains hanswer c hc)

theorem contains_eq_false_iff {cs : List Rule} {x : Rule} (hcs : ∀ c ∈ cs, c.Known) :
    contains cs x = .ok false ↔ ∀ c ∈ cs, ¬ Alike c x := by
  refine ⟨not_alike_of_contains, fun h => ?_⟩
  obtain ⟨answer, hanswer⟩ := exists_contains hcs x
  cases answer with
  | true =>
    obtain ⟨c, hc, hcx⟩ := alike_of_contains hanswer
    exact absurd hcx (h c hc)
  | false => exact hanswer

/-- Adding a component changes nothing if an alike one is there, and appends it if none is. -/
theorem adjoin_cases {operation : Operation} {cs : List Rule} {x r : Rule}
    (h : adjoin operation cs x = .ok r) :
    (r = .composite operation cs ∧ ∃ c ∈ cs, Alike c x) ∨
      (r = .composite operation (cs ++ [x]) ∧ ∀ c ∈ cs, ¬ Alike c x) := by
  rw [adjoin, bind_eq_ok] at h
  obtain ⟨answer, hanswer, h⟩ := h
  cases answer with
  | true => exact Or.inl ⟨(pure_eq_ok.mp h).symm, alike_of_contains hanswer⟩
  | false => exact Or.inr ⟨(pure_eq_ok.mp h).symm, not_alike_of_contains hanswer⟩

end Rule

end ExclusionAlgebra
