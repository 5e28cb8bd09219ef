import Mathlib.Data.List.Induction
import Mathlib.Logic.Relation
import ExclusionAlgebra.Proofs.Simplify.Absorption

/-!
# Which unions lose nothing

The empty list comes to `nothing` under either operation, so an intersection of nothing should leave
nothing out and a union with it should leave out what the other operand does.  It does not where that
intersection is taken apart: the union is distributed over no components, and no parts come to
`nothing` whatever the other operand is.  A combination on the way to the result can run into this as
well.  Nothing else is ever lost.

* `Simplify.Combination.Lossless`: what is left out by the operands together, what the combination
  returns leaves out.
* `Simplify.Combination.Empties`: a union that takes an intersection of nothing apart, against a rule
  that leaves something out.
* `Simplify.lossless_of_forall_not_empties`: a combination loses nothing if none that it asks for,
  directly or not, is such a union.
* `Simplify.lossless_iff_forall_not_empties`: for unions this is exact.
-/

namespace ExclusionAlgebra

namespace Simplify

open Rule

variable {f : Operation} {a b x r : Rule} {cs : List Rule} {k : Coordinate}

/-- What both operands leave out, or one of them, as the operation has it, the rule leaves out. -/
def Covers (f : Operation) (a b r : Rule) (k : Coordinate) : Prop :=
  f.both (a.leavesOut k) (b.leavesOut k) = true → r.leavesOut k = true

theorem Covers.comm (h : Covers f a b r k) : Covers f b a r k := by
  unfold Covers at h ⊢
  rwa [Operation.both_comm]

theorem Covers.of_faces {inner : Operation} (hf : Faces a b inner cs x)
    (h : Covers f (.composite inner cs) x r k) : Covers f a b r k := by
  rcases hf.operands with ⟨rfl, rfl⟩ | ⟨rfl, rfl⟩
  · exact h
  · exact h.comm

/-! ## One combination -/

theorem covers_of_alike (h : Alike a b) : Covers f a b a k := by
  intro hboth
  rwa [← h.leavesOut_eq, Operation.both_self] at hboth

theorem covers_of_takeLeft (h : f.absorbedBy a = true ∨ f.ignores b = true) : Covers f a b a k := by
  intro hboth
  rwa [both_of_takeLeft rfl rfl h] at hboth

theorem covers_ofPatterns (p q : Pattern) : Covers f (.pattern p) (.pattern q) (ofPatterns f p q) k := by
  intro hboth
  rw [leavesOut_eq_excludes (grounded_ofPatterns p q), excludes_ofPatterns]
  exact hboth

theorem covers_of_adjoin (h : adjoin f cs x = .ok r) : Covers f (.composite f cs) x r k := by
  intro hboth
  rcases adjoin_cases h with ⟨rfl, c, hc, hcx⟩ | ⟨rfl, -⟩
  · have hmem : x.leavesOut k ∈ cs.map (leavesOut k) := List.mem_map.mpr ⟨c, hc, hcx.leavesOut_eq⟩
    have hne : cs ≠ [] := List.ne_nil_of_mem hc
    rw [leavesOut_composite_of_ne_nil f hne] at hboth ⊢
    rwa [Operation.both_verdict_of_mem hmem] at hboth
  · rw [leavesOut_composite_of_ne_nil f (List.append_ne_nil_of_right_ne_nil cs (List.cons_ne_nil x [])),
      List.map_append, List.map_singleton, Operation.verdict_append_singleton]
    refine Operation.both_mono ?_ id hboth
    intro hcs
    by_cases hnil : cs = []
    · subst hnil
      rw [leavesOut_nil] at hcs
      cases hcs
    · rwa [leavesOut_composite_of_ne_nil f hnil] at hcs

theorem covers_of_component (h : ∃ c ∈ cs, Alike c x) :
    Covers .anyOf (.composite .allOf cs) x x k := by
  obtain ⟨c, hc, hcx⟩ := h
  intro hboth
  have hne : cs ≠ [] := List.ne_nil_of_mem hc
  simp only [Operation.both, Operation.verdict, List.any_cons, List.any_nil, Bool.or_false, id,
    Bool.or_eq_true, leavesOut_composite_of_ne_nil .allOf hne] at hboth
  rcases hboth with hall | hx
  · rw [← hcx.leavesOut_eq]
    exact List.all_eq_true.mp hall _ (List.mem_map_of_mem hc)
  · exact hx

/-! ## Distribution -/

/-- A fold covers what its list leaves out together, if each combination in it covers its operands. -/
theorem leavesOut_of_fold {pair : Rule → Rule → Except Fault Rule} {parts : List Rule}
    (hpair : ∀ before next after, parts = before ++ next :: after → before ≠ [] → ∀ acc s,
      fold pair before = .ok acc → pair acc next = .ok s → Covers f acc next s k)
    (hne : parts ≠ []) (h : fold pair parts = .ok r)
    (hall : f.verdict (parts.map (leavesOut k)) = true) : r.leavesOut k = true := by
  induction parts using List.reverseRecOn generalizing r with
  | nil => exact absurd rfl hne
  | append_singleton init last ih =>
    by_cases hinit : init = []
    · subst hinit
      cases pure_eq_ok.mp h
      simpa using hall
    · rw [fold_concat hinit] at h
      obtain ⟨acc, hacc, h⟩ := bind_eq_ok.mp h
      rw [List.map_append, List.map_singleton, Operation.verdict_append_singleton] at hall
      refine hpair init last [] rfl hinit acc r hacc h (Operation.both_mono ?_ id hall)
      refine ih ?_ hinit hacc
      rintro before next after rfl
      exact hpair before next (after ++ [last]) (by simp)

/-- A distribution covers the composite and the rule, if its parts and the fold of them do, and unless a
union has an intersection of nothing to distribute over a rule that leaves the coordinate out. -/
theorem covers_of_distribution {parts : List Rule}
    (hparts : List.Forall₂ (fun c part => Covers f c x part k) cs parts)
    (hfold : parts ≠ [] → f.dual.verdict (parts.map (leavesOut k)) = true → r.leavesOut k = true)
    (hempty : f = .anyOf → cs = [] → x.leavesOut k = false) :
    Covers f (.composite f.dual cs) x r k := by
  intro hboth
  by_cases hnil : cs = []
  · subst hnil
    rw [leavesOut_nil] at hboth
    cases f with
    | anyOf =>
      rw [hempty rfl rfl] at hboth
      cases hboth
    | allOf => simp [Operation.both, Operation.verdict] at hboth
  · have hne : parts ≠ [] := by
      rintro rfl
      cases hparts
      exact hnil rfl
    rw [leavesOut_composite_of_ne_nil f.dual hnil, Operation.both_verdict_dual, List.map_map] at hboth
    refine hfold hne (Operation.verdict_mono ?_ hboth)
    rw [List.forall₂_map_left_iff, List.forall₂_map_right_iff]
    exact hparts

/-! ## What is asked for -/

namespace Combination

/-- Whatever the combination returns covers its operands. -/
def Lossless (c : Combination) : Prop :=
  ∀ depth r, c.run depth = .ok r → ∀ k, Covers c.operation c.left c.right r k

/-- A union that takes an intersection of nothing apart, against a rule that leaves something out. -/
def Empties (c : Combination) : Prop :=
  c.operation = .anyOf ∧ ∃ x, Distributes .anyOf c.left c.right [] x ∧ ∃ k, x.leavesOut k = true

/-- The combination itself, and all that are asked for until it returns. -/
def Within (c d : Combination) : Prop := Relation.ReflTransGen Asks c d

/-- No operand holds an intersection of nothing. -/
def Grounded (c : Combination) : Prop := c.left.Grounded ∧ c.right.Grounded

end Combination

theorem run_of_distributes (ha : a.Known) (hb : b.Known) (h : Distributes f a b cs x) (depth : Nat) :
    Combination.run (depth + 1) ⟨f, a, b⟩ =
      (cs.mapM fun c => combine depth f c x) >>= fold (combine depth f.dual) :=
  step_of_distributes ha hb h

/-- A union that takes an intersection of nothing apart returns `nothing`. -/
theorem not_lossless_of_empties {c : Combination} (hc : c.Known) (h : c.Empties) : ¬ c.Lossless := by
  obtain ⟨f, a, b⟩ := c
  obtain ⟨rfl, x, hdist, k, hk⟩ := h
  intro hlossless
  have hrun : Combination.run 1 ⟨.anyOf, a, b⟩ = .ok .nothing :=
    run_of_distributes hc.1 hc.2 hdist 0
  have hcovers : Covers .anyOf (.composite .allOf []) x .nothing k := by
    rcases hdist.faces.operands with ⟨rfl, rfl⟩ | ⟨rfl, rfl⟩
    · exact hlossless 1 .nothing hrun k
    · exact (hlossless 1 .nothing hrun k).comm
  have hlost := hcovers (by simp [Operation.both, Operation.verdict, hk])
  cases hlost

/-- A combination that is not distributed covers its operands, and one that is does if its parts and
the fold of them do.  The laws do not say that the search for the rule among the components has
failed, so that case is decided here. -/
theorem covers_of_run (ha : a.Known) (hb : b.Known) {depth : Nat}
    (h : Combination.run (depth + 1) ⟨f, a, b⟩ = .ok r)
    (hdist : ∀ cs x, Distributes f a b cs x → Covers f (.composite f.dual cs) x r k) :
    Covers f a b r k := by
  have hstep : step (combine depth) f a b = .ok r := h
  by_cases halike : Alike a b
  · rw [step_of_alike ha halike] at hstep
    cases hstep
    exact covers_of_alike halike
  · cases law_of_step hstep with
    | same hsame => exact absurd hsame halike
    | takeLeft htake => exact covers_of_takeLeft htake
    | takeRight htake => exact (covers_of_takeLeft htake).comm
    | patterns => exact covers_ofPatterns _ _
    | join _ hf hadjoin => exact .of_faces hf (covers_of_adjoin hadjoin)
    | absorption hop hf hmem =>
      subst hop
      exact .of_faces hf (covers_of_component hmem)
    | @distribution _ _ x _ cs _ hf _ _ =>
      by_cases habsorbed : f = .anyOf ∧ ∃ c ∈ cs, Alike c x
      · obtain ⟨rfl, hmem⟩ := habsorbed
        rw [step_of_absorbed ha hb halike hf hmem] at hstep
        cases hstep
        exact .of_faces hf (covers_of_component hmem)
      · refine .of_faces hf (hdist cs x ⟨halike, hf, fun hop c hc hcx => ?_⟩)
        exact habsorbed ⟨hop, c, hc, hcx⟩

/-- A combination loses nothing if no union that it asks for, directly or not, takes an intersection of
nothing apart.  Induction on the depth: what a distribution asks for has run at a smaller one. -/
theorem lossless_of_forall_not_empties {c : Combination} (hc : c.Known)
    (hsafe : ∀ d, c.Within d → ¬ d.Empties) : c.Lossless := by
  intro depth
  induction depth generalizing c with
  | zero =>
    intro r h
    cases h
  | succ depth ih =>
    obtain ⟨f, a, b⟩ := c
    intro r h k
    have hasked : ∀ d, Asks ⟨f, a, b⟩ d → ∀ s, d.run depth = .ok s →
        Covers d.operation d.left d.right s k := fun d hd s hs =>
      ih (known_of_asks hd hc) (fun e he => hsafe e (.head hd he)) s hs k
    refine covers_of_run hc.1 hc.2 h fun cs x hdist => ?_
    rw [run_of_distributes hc.1 hc.2 hdist] at h
    obtain ⟨parts, hparts, hfold⟩ := bind_eq_ok.mp h
    have hmem : ∀ c ∈ cs, c ∈ cs := fun _ hc => hc
    have hpairs := (List.forall₂_and_left _ _).mpr ⟨hmem, mapM_eq_ok.mp hparts⟩
    have hcovers : List.Forall₂ (fun c part => Covers f c x part k) cs parts :=
      hpairs.imp fun c part hpart => hasked _ (.component hdist hpart.1) part hpart.2
    refine covers_of_distribution hcovers ?_ ?_
    · intro hne hall
      refine leavesOut_of_fold ?_ hne hfold hall
      rintro before next after rfl hbefore acc s hacc hs
      exact hasked _ (.fold hdist hparts hbefore hacc) s hs
    · rintro rfl rfl
      by_contra hk
      rw [Bool.not_eq_false] at hk
      exact hsafe _ .refl ⟨rfl, x, hdist, k, hk⟩

/-! ## Rules without intersections of nothing -/

theorem grounded_of_asks {c d : Combination} (h : Asks c d) (hc : c.Grounded) : d.Grounded := by
  obtain ⟨ha, hb⟩ := hc
  cases h with
  | component h hmem =>
    obtain ⟨hcs, hx⟩ := h.faces.forall_operands ha hb
    exact ⟨(grounded_composite.mp hcs).2 _ hmem, hx⟩
  | fold h hparts hne hacc =>
    obtain ⟨hcs, hx⟩ := h.faces.forall_operands ha hb
    have hall := forall_of_mapM hparts fun c hc part hpart =>
      (excludes_of_combine _ _ _ _ _ hpart ((grounded_composite.mp hcs).2 c hc) hx).1
    rw [List.forall_mem_append, List.forall_mem_cons] at hall
    exact ⟨(excludes_of_fold (excludes_of_combine _ _) hacc hne hall.1).1, hall.2.1⟩

theorem not_empties_of_grounded {c d : Combination} (hc : c.Grounded) (h : c.Within d) :
    ¬ d.Empties := by
  have hd : d.Grounded := by
    induction h with
    | refl => exact hc
    | tail _ hasks ih => exact grounded_of_asks hasks ih
  rintro ⟨-, x, hdist, -⟩
  have hempty := (hdist.faces.forall_operands hd.1 hd.2).1
  exact (grounded_composite.mp hempty).1 rfl rfl

theorem known_of_within {c d : Combination} (hc : c.Known) (h : c.Within d) : d.Known := by
  induction h with
  | refl => exact hc
  | tail _ hasks ih => exact known_of_asks hasks ih

/-! ## The criterion -/

/-- **Which unions lose nothing.** The union of two rules without foreign values and all unions that it
asks for lose no coordinate if and only if none of them takes an intersection of nothing apart against
a rule that leaves something out.  Then whatever the union of the two rules returns leaves out all
that either of them does.  This is always so if neither of them holds an intersection of nothing. -/
theorem lossless_iff_forall_not_empties (ha : a.Known) (hb : b.Known) :
    ((∀ d, Combination.Within ⟨.anyOf, a, b⟩ d → d.operation = .anyOf → d.Lossless) ↔
        ∀ d, Combination.Within ⟨.anyOf, a, b⟩ d → ¬ d.Empties) ∧
      ((∀ d, Combination.Within ⟨.anyOf, a, b⟩ d → ¬ d.Empties) →
        ∀ depth r, combineAll depth .anyOf [a, b] = .ok r →
          ∀ k, a.leavesOut k = true ∨ b.leavesOut k = true → r.leavesOut k = true) ∧
      (a.Grounded → b.Grounded → ∀ d, Combination.Within ⟨.anyOf, a, b⟩ d → ¬ d.Empties) := by
  have hknown : (Combination.mk .anyOf a b).Known := ⟨ha, hb⟩
  refine ⟨⟨?_, ?_⟩, ?_, ?_⟩
  · intro hall d hd hempties
    exact not_lossless_of_empties (known_of_within hknown hd) hempties (hall d hd hempties.1)
  · intro hsafe d hd _
    exact lossless_of_forall_not_empties (known_of_within hknown hd) fun e he => hsafe e (hd.trans he)
  · intro hsafe depth r hrun k hk
    rw [combineAll_pair] at hrun
    refine lossless_of_forall_not_empties hknown hsafe depth r hrun k ?_
    simpa [Operation.both, Operation.verdict] using hk
  · intro hga hgb d hd
    exact not_empties_of_grounded ⟨hga, hgb⟩ hd

/-! ## An intersection of nothing that does no harm, and one that does -/

def wholeGroup : Rule := .pattern ⟨some "g", none, none⟩

/-- A module, beside an intersection of nothing. -/
def moduleBesideEmpty : Rule :=
  .composite .anyOf [.composite .allOf [], .pattern ⟨none, some "m", none⟩]

def boxedModule : Rule := .composite .allOf [moduleBesideEmpty]

/-- The union of the two is distributed, and the group joins the union inside. -/
theorem within_boxedModule {d : Combination}
    (h : Combination.Within ⟨.anyOf, boxedModule, wholeGroup⟩ d) :
    d = ⟨.anyOf, boxedModule, wholeGroup⟩ ∨ d = ⟨.anyOf, moduleBesideEmpty, wholeGroup⟩ := by
  induction h with
  | refl => exact Or.inl rfl
  | tail _ hasks ih =>
    rcases ih with rfl | rfl
    · cases hasks with
      | component hdist hc =>
        cases hdist.faces
        rw [List.mem_singleton.mp hc]
        exact Or.inr rfl
      | fold hdist hparts hne _ =>
        -- One part is not folded with another.
        cases hdist.faces
        have hlength := (mapM_eq_ok.mp hparts).length_eq
        have hbefore := List.length_pos_iff.mpr hne
        simp only [List.length_append, List.length_cons, List.length_nil] at hlength
        omega
    · cases hasks with
      | component hdist => cases hdist.faces
      | fold hdist => cases hdist.faces

theorem not_empties_boxedModule {d : Combination}
    (h : Combination.Within ⟨.anyOf, boxedModule, wholeGroup⟩ d) : ¬ d.Empties := by
  rintro ⟨-, x, hdist, -⟩
  rcases within_boxedModule h with rfl | rfl
  · cases hdist.faces
  · cases hdist.faces

/-- An intersection of nothing that is not taken apart does no harm. -/
theorem boxedModule_lossless :
    boxedModule.Known ∧ wholeGroup.Known ∧
      (∀ d, Combination.Within ⟨.anyOf, boxedModule, wholeGroup⟩ d → ¬ d.Empties) ∧
      ∃ r, combineAll 2 .anyOf [boxedModule, wholeGroup] = .ok r ∧
        ∀ k, boxedModule.leavesOut k = true ∨ wholeGroup.leavesOut k = true → r.leavesOut k = true := by
  have hmodule : boxedModule.Known := by decide
  have hgroup : wholeGroup.Known := by decide
  have hsafe : ∀ d, Combination.Within ⟨.anyOf, boxedModule, wholeGroup⟩ d → ¬ d.Empties :=
    fun _ => not_empties_boxedModule
  have hrun : combineAll 2 .anyOf [boxedModule, wholeGroup] =
      .ok (.composite .anyOf [.composite .allOf [], .pattern ⟨none, some "m", none⟩, wholeGroup]) := rfl
  refine ⟨hmodule, hgroup, hsafe, _, hrun, ?_⟩
  exact (lossless_iff_forall_not_empties hmodule hgroup).2.1 hsafe 2 _ hrun

/-- Not every union leaves out what its operands do: united with an intersection of nothing, a group
comes to `nothing`. -/
theorem not_forall_union_leavesOut : ¬ ∀ (a b : Rule) (depth : Nat) (r : Rule), a.Known → b.Known →
    combineAll depth .anyOf [a, b] = .ok r →
      ∀ k, a.leavesOut k = true ∨ b.leavesOut k = true → r.leavesOut k = true := by
  intro hclaim
  have hrun : combineAll 1 .anyOf [.composite .allOf [], wholeGroup] = .ok .nothing := rfl
  have hlost := hclaim _ _ 1 _ (by decide) (by decide) hrun ⟨"g", "", ⟨"", none⟩⟩ (Or.inr rfl)
  cases hlost

end Simplify

end ExclusionAlgebra
