import ExclusionAlgebra.Proofs.Simplify.Endless
import ExclusionAlgebra.Proofs.Simplify.Returning

/-!
# Operands on which simplification ends

What makes simplification go on without end is an intersection that gets inside of a union, and there
meets another union.  Where the operands keep the two apart, distribution comes to rules without
intersections, and these are combined in the end.

* `Rule.IntersectionsOutside`, `Rule.UnionFree`, `Rule.Flat`: where the intersections of a rule stand.
* `Simplify.Shallow`: pairs of operands that keep unions and intersections apart.
* `Simplify.comes_of_distributes`: a distribution ends if its parts do, and then the fold of these.
* `Simplify.exists_combineAll_of_shallow`: such operands are combined in the end.
-/

namespace ExclusionAlgebra

open Rule

/-! ## Where the intersections of a rule stand -/

namespace Rule

/-- No union inside the rule holds an intersection. -/
def IntersectionsOutside (rule : Rule) : Prop :=
  rule.Everywhere fun node => ∀ components, node = .composite .anyOf components →
    ∀ c ∈ components, c.IntersectionFree

theorem intersectionsOutside_anyOf {components : List Rule}
    (h : IntersectionsOutside (.composite .anyOf components)) :
    IntersectionFree (.composite .anyOf components) :=
  intersectionFree_composite.mpr ⟨rfl, (everywhere_composite.mp h).1 components rfl⟩

/-- The rule is made of intersections, patterns and everything. -/
def UnionFree (rule : Rule) : Prop :=
  rule.Everywhere fun node => node ≠ .nothing ∧ ∀ components, node ≠ .composite .anyOf components

theorem unionFree_composite {operation : Operation} {components : List Rule} :
    UnionFree (.composite operation components) ↔
      operation = .allOf ∧ ∀ c ∈ components, c.UnionFree := by
  unfold UnionFree
  rw [everywhere_composite]
  apply and_congr_left
  intro _
  cases operation <;> simp

theorem UnionFree.intersectionsOutside {rule : Rule} (h : rule.UnionFree) :
    rule.IntersectionsOutside := by
  intro node hnode components heq
  exact absurd heq ((h node hnode).2 components)

/-- An intersection of patterns, and of everything. -/
def Flat (rule : Rule) : Prop :=
  ∃ components, rule = .composite .allOf components ∧
    ∀ c ∈ components, c.UnionFree ∧ c.isComposite = false

theorem Flat.unionFree {rule : Rule} (h : rule.Flat) : rule.UnionFree := by
  obtain ⟨components, rfl, hcomponents⟩ := h
  exact unionFree_composite.mpr ⟨rfl, fun c hc => (hcomponents c hc).1⟩

/-- The only composite in it is the rule itself. -/
theorem Flat.eq_of_mem_nodes {rule node : Rule} (h : rule.Flat) (hnode : node ∈ rule.nodes)
    (hcomposite : node.isComposite = true) : node = rule := by
  obtain ⟨components, rfl, hcomponents⟩ := h
  rcases mem_nodes_composite.mp hnode with heq | ⟨c, hc, hnode⟩
  · exact heq
  · have hatom := (hcomponents c hc).2
    cases c with
    | composite f cs => cases hatom
    | _ =>
      cases List.mem_singleton.mp hnode
      cases hcomposite

theorem Flat.append {components : List Rule} (h : Flat (.composite .allOf components)) (p : Pattern) :
    Flat (.composite .allOf (components ++ [.pattern p])) := by
  obtain ⟨cs, heq, hcs⟩ := h
  obtain ⟨-, rfl⟩ := composite.inj heq
  have hpattern : UnionFree (.pattern p) := everywhere_pattern.mpr (by simp)
  have hlast : ∀ c ∈ [Rule.pattern p], c.UnionFree ∧ c.isComposite = false :=
    List.forall_mem_singleton.mpr ⟨hpattern, rfl⟩
  exact ⟨_, rfl, List.forall_mem_append.mpr ⟨hcs, hlast⟩⟩

end Rule

namespace Simplify

variable {f : Operation} {a b l m x : Rule} {cs : List Rule} {P Q : Rule → Prop}

/-- A rule without intersections and without foreign values. -/
abbrev Free (rule : Rule) : Prop := Unions (fun _ => False) rule

theorem Unions.known (h : Free a) : a.Known := by
  cases hfirst : a.firstForeign? with
  | none => exact hfirst
  | some value =>
    have hmem := foreign_mem_nodes_of_firstForeign? hfirst
    exact (h.faults _ ⟨value, rfl, a, List.mem_singleton_self a, hmem⟩).elim

theorem Unions.ne_intersection (h : Free a) (cs : List Rule) : a ≠ .composite .allOf cs := by
  rintro rfl
  cases h.operation_eq

/-! ## What two rules come to -/

/-- From some depth on, the two rules are combined to one rule, of which the condition holds. -/
def Comes (P : Rule → Prop) (f : Operation) (a b : Rule) : Prop :=
  Ends (Outcome P fun _ => False) fun depth => combine depth f a b

theorem Comes.imp (h : Comes P f a b) (hPQ : ∀ rule, P rule → Q rule) : Comes Q f a b :=
  Ends.imp h fun _ houtcome => houtcome.imp hPQ

/-- The condition holds of whatever they are combined to. -/
theorem Comes.holds (h : Comes P f a b) {depth : Nat} {r : Rule} (hr : combine depth f a b = .ok r) :
    P r :=
  Ends.holds h (fun _ _ hle _ => combine_mono hle) hr

/-- Rules without intersections are combined to such a rule. -/
theorem free_of_combineAll {rules : List Rule} (h : ∀ x ∈ rules, Free x) {depth : Nat} {r : Rule}
    (hr : combineAll depth f rules = .ok r) : Free r :=
  (ends_combineAll f h).holds (fun _ _ hle _ => combineAll_mono hle) hr

/-- One combination may be all that there is to do. -/
theorem comes_of_step {r : Rule} (h : step (combine 0) f a b = .ok r) (hr : P r) : Comes P f a b := by
  have hrun : combine 1 f a b = .ok r := h
  exact ⟨.ok r, hr, 1, fun _ hle => combine_mono hle hrun⟩

theorem comes_of_free (f : Operation) (ha : Free a) (hb : Free b) : Comes Free f a b :=
  ends_combine f ha hb

/-- A distribution ends if each component ends with the other operand, and what these come to is folded
in the end. -/
theorem comes_of_distributes (ha : a.Known) (hb : b.Known) (h : Distributes f a b cs x)
    (hparts : ∀ c ∈ cs, Comes P f c x)
    (hfold : ∀ parts, parts.length = cs.length → (∀ part ∈ parts, P part) →
      Ends (Outcome Q fun _ => False) fun depth => combineAll depth f.dual parts) :
    Comes Q f a b := by
  apply Ends.of_succ
  have hstep : ∀ depth, combine (depth + 1) f a b =
      (cs.mapM fun c => combine depth f c x) >>= combineAll depth f.dual :=
    fun depth => step_of_distributes ha hb h
  simp only [hstep]
  exact (ends_mapM hparts).bind fun parts h => hfold parts h.1 h.2

/-- What holds of two rules holds of them in either order. -/
theorem both_of_order (hlm : (l = a ∧ m = b) ∨ (l = b ∧ m = a)) (ha : P a) (hb : P b) : P l ∧ P m := by
  rcases hlm with ⟨rfl, rfl⟩ | ⟨rfl, rfl⟩
  · exact ⟨ha, hb⟩
  · exact ⟨hb, ha⟩

/-! ## Unions -/

/-- An intersection that is distributed comes to a rule without intersections if its components do. -/
theorem comes_anyOf_of_faces (hl : l.Known) (hm : m.Known) (hne : ¬ Alike l m)
    (hf : Faces l m .allOf cs x) (hnew : ∀ c ∈ cs, ¬ Alike c x)
    (hparts : ∀ c ∈ cs, Comes Free .anyOf c x) : Comes Free .anyOf l m :=
  comes_of_distributes hl hm ⟨hne, hf, fun _ => hnew⟩ hparts fun _ _ hfree =>
    ends_combineAll .allOf hfree

/-- The composite is taken apart, if the other operand is no composite of its operation. -/
theorem Faces.eq_of_ne {inner : Operation} {ds : List Rule} {y : Rule} (h : Faces l m inner ds y)
    (hlm : (l = .composite inner cs ∧ m = x) ∨ (l = x ∧ m = .composite inner cs))
    (hx : ∀ es, x ≠ .composite inner es) : ds = cs ∧ y = x := by
  rcases hlm with ⟨rfl, rfl⟩ | ⟨rfl, rfl⟩
  · rcases h.operands with ⟨heq, rfl⟩ | ⟨-, rfl⟩
    · exact ⟨(composite.inj heq).2.symm, rfl⟩
    · exact absurd rfl (hx ds)
  · rcases h.operands with ⟨rfl, -⟩ | ⟨rfl, heq⟩
    · exact absurd rfl (hx ds)
    · exact ⟨(composite.inj heq).2.symm, rfl⟩

/-- Only what is distributed needs a look at the operands. -/
theorem comes_of_forall_distributes (hl : l.Known) (hm : m.Known)
    (h : ∀ ds y, Distributes f l m ds y → Comes Known f l m) : Comes Known f l m := by
  rcases returns_or_distributes hl hm with hreturns | ⟨ds, y, hdist⟩
  · obtain ⟨r, hr⟩ := hreturns (combine 0)
    exact comes_of_step hr (known_of_combine 1 _ _ _ _ hr hl hm)
  · exact h ds y hdist

/-- An intersection outside of everything else, united with a pattern.  The induction is on the rule:
its intersections are distributed one inside of the other, and what is absorbed is the pattern. -/
theorem comes_anyOf_pattern {p : Pattern} (hx : x.Known) (hout : x.IntersectionsOutside)
    (hlm : (l = x ∧ m = .pattern p) ∨ (l = .pattern p ∧ m = x)) : Comes Free .anyOf l m := by
  have hfree : x.IntersectionFree → Comes Free .anyOf l m := by
    intro h
    have hboth : Free l ∧ Free m := both_of_order hlm (.of_known h hx) (.pattern p)
    exact comes_of_free .anyOf hboth.1 hboth.2
  induction x generalizing l m with
  | everything => exact hfree (everywhere_everything.mpr nofun)
  | nothing => exact hfree (everywhere_nothing.mpr nofun)
  | pattern q => exact hfree (everywhere_pattern.mpr nofun)
  | foreign value => exact absurd hx (not_known_foreign value)
  | composite g cs ih =>
    cases g with
    | anyOf => exact hfree (intersectionsOutside_anyOf hout)
    | allOf =>
      obtain ⟨hl, hm, hne, hf⟩ : l.Known ∧ m.Known ∧ ¬ Alike l m ∧ Faces l m .allOf cs (.pattern p) := by
        rcases hlm with ⟨rfl, rfl⟩ | ⟨rfl, rfl⟩
        · exact ⟨hx, rfl, nofun, .patternRight p .allOf cs⟩
        · exact ⟨rfl, hx, nofun, .patternLeft p .allOf cs⟩
      by_cases hmem : ∃ c ∈ cs, Alike c (.pattern p)
      · exact comes_of_step (step_of_absorbed hl hm hne hf hmem) (.pattern p)
      · refine comes_anyOf_of_faces hl hm hne hf (fun c hc halike => hmem ⟨c, hc, halike⟩) ?_
        intro c hc
        have hcknown := known_composite.mp hx c hc
        have hcout := (everywhere_composite.mp hout).2 c hc
        exact ih c hc hcknown hcout (.inl ⟨rfl, rfl⟩) fun h =>
          comes_of_free .anyOf (.of_known h hcknown) (.pattern p)

/-- An intersection of rules without intersections, united with such a rule. -/
theorem comes_anyOf_free (hcs : ∀ c ∈ cs, Free c) (hx : Free x)
    (hlm : (l = .composite .allOf cs ∧ m = x) ∨ (l = x ∧ m = .composite .allOf cs)) :
    Comes Known .anyOf l m := by
  have hintersection : (composite .allOf cs).Known := known_composite.mpr fun c hc => (hcs c hc).known
  obtain ⟨hl, hm⟩ := both_of_order hlm hintersection hx.known
  refine comes_of_forall_distributes hl hm fun ds y hdist => ?_
  obtain ⟨rfl, rfl⟩ := hdist.faces.eq_of_ne hlm hx.ne_intersection
  refine comes_of_distributes hl hm hdist (P := Free) (fun c hc => ?_) fun parts _ hparts => ?_
  · exact comes_of_free .anyOf (hcs c hc) hx
  · exact (ends_combineAll .allOf hparts).imp fun _ houtcome => houtcome.imp fun _ => Unions.known

/-- Two rules have no composite in common. -/
def Apart (a b : Rule) : Prop :=
  ∀ c ∈ a.nodes, ∀ d ∈ b.nodes, c.isComposite = true → ¬ Alike c d

theorem Apart.symm (h : Apart a b) : Apart b a := by
  intro d hd c hc hcomposite halike
  refine h c hc d hd ?_ halike.symm
  cases halike <;> first | rfl | exact hcomposite

theorem Apart.component {g : Operation} (h : Apart (.composite g cs) x) {c : Rule} (hc : c ∈ cs) :
    Apart c x :=
  fun node hnode => h node (mem_nodes_composite.mpr (.inr ⟨c, hc, hnode⟩))

/-- A component is not the other operand either. -/
theorem Apart.not_alike_component {g k : Operation} {ds : List Rule}
    (h : Apart (.composite g cs) (.composite k ds)) {c : Rule} (hc : c ∈ cs) :
    ¬ Alike c (.composite k ds) := by
  intro halike
  refine h.component hc c (self_mem_nodes c) _ (self_mem_nodes _) ?_ halike
  cases halike
  rfl

/-- Intersections of patterns that have no intersection in common.  The induction is on the size of the
operands: a component of the one is united with the other one as a whole. -/
theorem comes_anyOf_unionFree (ha : a.Known) (hb : b.Known) (hafree : a.UnionFree) (hbfree : b.UnionFree)
    (hapart : Apart a b) : Comes Free .anyOf a b := by
  generalize hsize : sizeOf a + sizeOf b = size
  induction size using Nat.strong_induction_on generalizing a b with
  | h size ih =>
    subst hsize
    cases a with
    | everything =>
      exact comes_of_step (step_absorbing_left rfl b) .everything
    | nothing => exact absurd rfl (hafree _ (self_mem_nodes _)).1
    | pattern p => exact comes_anyOf_pattern hb hbfree.intersectionsOutside (.inr ⟨rfl, rfl⟩)
    | foreign value => exact absurd ha (not_known_foreign value)
    | composite g cs =>
      cases b with
      | everything =>
        exact comes_of_step (step_absorbing_right rfl ha) .everything
      | nothing => exact absurd rfl (hbfree _ (self_mem_nodes _)).1
      | pattern p => exact comes_anyOf_pattern ha hafree.intersectionsOutside (.inl ⟨rfl, rfl⟩)
      | foreign value => exact absurd hb (not_known_foreign value)
      | composite k ds =>
        obtain ⟨rfl, hcs⟩ := unionFree_composite.mp hafree
        obtain ⟨rfl, hds⟩ := unionFree_composite.mp hbfree
        have hne := hapart _ (self_mem_nodes _) _ (self_mem_nodes _) rfl
        cases hle : (composite .allOf cs).digest.le (composite .allOf ds).digest with
        | true =>
          refine comes_anyOf_of_faces ha hb hne (.inOrder hle) (fun _ => hapart.not_alike_component) ?_
          intro c hc
          have hlt := @sizeOf_lt_of_mem cs .allOf c hc
          exact ih _ (by omega) (known_composite.mp ha c hc) hb (hcs c hc) hbfree (hapart.component hc)
            rfl
        | false =>
          refine comes_anyOf_of_faces ha hb hne (.swapped hle)
            (fun _ => hapart.symm.not_alike_component) ?_
          intro d hd
          have hlt := @sizeOf_lt_of_mem ds .allOf d hd
          exact ih _ (by omega) (known_composite.mp hb d hd) ha (hds d hd) hafree
            (hapart.symm.component hd) rfl

/-! ## Intersections -/

/-- No composite, or an intersection of patterns. -/
def Simple (rule : Rule) : Prop := rule.Known ∧ (rule.isComposite = false ∨ rule.Flat)

theorem Simple.ne_union (h : Simple a) (cs : List Rule) : a ≠ .composite .anyOf cs := by
  rintro rfl
  obtain ⟨-, hatom | ⟨ds, heq, -⟩⟩ := h
  · cases hatom
  · cases heq

theorem Simple.flat (h : Simple (.composite f cs)) : (Rule.composite f cs).Flat :=
  h.2.resolve_left nofun

/-- Of a composite and a rule that faces it, if not both are composites, the rule is a pattern. -/
theorem Faces.eq_pattern {inner : Operation} (h : Faces l m inner cs x)
    (hatom : l.isComposite = false ∨ m.isComposite = false) : ∃ p, x = .pattern p := by
  cases h with
  | patternLeft p => exact ⟨p, rfl⟩
  | patternRight p => exact ⟨p, rfl⟩
  | inOrder => rcases hatom with hatom | hatom <;> cases hatom
  | swapped => rcases hatom with hatom | hatom <;> cases hatom

/-- A pattern or a singleton meets an intersection of patterns: it joins it, or decides alone. -/
theorem comes_allOf_simple (ha : Simple a) (hb : Simple b)
    (hatom : a.isComposite = false ∨ b.isComposite = false) : Comes Simple .allOf a b := by
  have hnot : ∀ {cs x}, ¬ Faces a b .anyOf cs x := by
    intro cs x hf
    exact (hf.forall_operands ha hb).1.ne_union cs rfl
  rcases returns_or_distributes (f := .allOf) ha.1 hb.1 with hreturns | ⟨cs, x, hdist⟩
  · obtain ⟨r, hr⟩ := hreturns (combine 0)
    have hknown : r.Known := known_of_combine 1 _ _ _ _ hr ha.1 hb.1
    refine comes_of_step hr ?_
    cases law_of_step hr with
    | same | takeLeft => exact ha
    | takeRight => exact hb
    | @patterns p q =>
      rw [ofPatterns_allOf]
      cases p.meet? q <;> exact ⟨rfl, .inl rfl⟩
    | @join _ _ x _ cs _ hf hadjoin =>
      have hcs : Simple (composite .allOf cs) := (hf.forall_operands ha hb).1
      obtain ⟨p, rfl⟩ := hf.eq_pattern hatom
      rcases adjoin_cases hadjoin with ⟨rfl, -⟩ | ⟨rfl, -⟩
      · exact hcs
      · exact ⟨hknown, .inr (hcs.flat.append p)⟩
    | absorption hop => cases hop
    | distribution hf => exact absurd hf hnot
  · exact absurd hdist.faces hnot

/-- Two flat intersections are equal or have no composite in common. -/
theorem apart_of_flat (ha : a.Flat) (hb : b.Flat) (hne : ¬ Alike a b) : Apart a b := by
  intro c hc d hd hcomposite halike
  cases ha.eq_of_mem_nodes hc hcomposite
  refine hne ?_
  have hboth : d.isComposite = true := by
    cases halike <;> first | rfl | exact hcomposite
  cases hb.eq_of_mem_nodes hd hboth
  exact halike

theorem Simple.free (h : Simple a) (hatom : a.isComposite = false) : Free a := by
  refine .of_known ?_ h.1
  cases a with
  | composite f cs => cases hatom
  | everything => exact everywhere_everything.mpr nofun
  | nothing => exact everywhere_nothing.mpr nofun
  | pattern p => exact everywhere_pattern.mpr nofun
  | foreign value => exact everywhere_foreign.mpr nofun

/-- Two simple rules are united: they come to one of them, or to a rule without intersections. -/
theorem comes_anyOf_simple (ha : Simple a) (hb : Simple b) :
    Comes (fun r => Free r ∨ Simple r) .anyOf a b := by
  have houtside : ∀ {rule : Rule}, rule.Flat → rule.IntersectionsOutside :=
    fun h => h.unionFree.intersectionsOutside
  rcases ha.2 with hatom | haflat <;> rcases hb.2 with hbatom | hbflat
  · exact (comes_of_free .anyOf (ha.free hatom) (hb.free hbatom)).imp fun _ => .inl
  · cases a with
    | everything => exact comes_of_step (step_absorbing_left rfl b) (.inl .everything)
    | nothing => exact comes_of_step (step_neutral_left rfl b) (.inr hb)
    | pattern p => exact (comes_anyOf_pattern hb.1 (houtside hbflat) (.inr ⟨rfl, rfl⟩)).imp fun _ => .inl
    | composite f cs => cases hatom
    | foreign value => exact absurd ha.1 (not_known_foreign value)
  · cases b with
    | everything => exact comes_of_step (step_absorbing_right rfl ha.1) (.inl .everything)
    | nothing => exact comes_of_step (step_neutral_right rfl ha.1) (.inr ha)
    | pattern p => exact (comes_anyOf_pattern ha.1 (houtside haflat) (.inl ⟨rfl, rfl⟩)).imp fun _ => .inl
    | composite f cs => cases hbatom
    | foreign value => exact absurd hb.1 (not_known_foreign value)
  · by_cases halike : Alike a b
    · exact comes_of_step (step_of_alike ha.1 halike) (.inr ha)
    · have hapart := apart_of_flat haflat hbflat halike
      exact (comes_anyOf_unionFree ha.1 hb.1 haflat.unionFree hbflat.unionFree hapart).imp fun _ => .inl

/-- What two simple rules have come to is united with a third. -/
theorem comes_anyOf_third (ha : Free a ∨ Simple a) (hb : Simple b) : Comes Known .anyOf a b := by
  rcases ha with hfree | hsimple
  · rcases hb.2 with hatom | ⟨cs, rfl, hcs⟩
    · exact (comes_of_free .anyOf hfree (hb.free hatom)).imp fun _ => Unions.known
    · have hparts : ∀ c ∈ cs, Free c := fun c hc =>
        Simple.free ⟨known_composite.mp hb.1 c hc, .inl (hcs c hc).2⟩ (hcs c hc).2
      exact comes_anyOf_free hparts hfree (.inr ⟨rfl, rfl⟩)
  · exact (comes_anyOf_simple hsimple hb).imp fun _ h => h.elim Unions.known And.left

theorem ends_union_of_three {parts : List Rule} (hlength : parts.length ≤ 3)
    (hparts : ∀ part ∈ parts, Simple part) :
    Ends (Outcome Known fun _ => False) fun depth => combineAll depth .anyOf parts := by
  obtain _ | ⟨first, _ | ⟨second, _ | ⟨third, _ | ⟨fourth, rest⟩⟩⟩⟩ := parts
  · exact ends_const known_nothing
  · exact ends_const (hparts first List.mem_cons_self).1
  · simp only [combineAll_pair]
    exact comes_anyOf_third (.inr (hparts first (by simp))) (hparts second (by simp))
  · have hfold : ∀ depth, combineAll depth .anyOf [first, second, third] =
        combine depth .anyOf first second >>= fun acc => combine depth .anyOf acc third := by
      intro depth
      simp only [combineAll, fold_cons, List.foldlM_cons, List.foldlM_nil, bind_pure]
    simp only [hfold]
    refine Ends.bind (comes_anyOf_simple (hparts first (by simp)) (hparts second (by simp))) ?_
    exact fun acc hacc => comes_anyOf_third hacc (hparts third (by simp))
  · simp only [List.length_cons] at hlength
    omega

/-- A union of at most three simple rules meets a simple rule. -/
theorem comes_allOf_few (hlength : cs.length ≤ 3) (hcs : ∀ c ∈ cs, Simple c) (hx : Simple x)
    (hatom : x.isComposite = false ∨ ∀ c ∈ cs, c.isComposite = false)
    (hlm : (l = .composite .anyOf cs ∧ m = x) ∨ (l = x ∧ m = .composite .anyOf cs)) :
    Comes Known .allOf l m := by
  have hunion : (composite .anyOf cs).Known := known_composite.mpr fun c hc => (hcs c hc).1
  obtain ⟨hl, hm⟩ := both_of_order hlm hunion hx.1
  refine comes_of_forall_distributes hl hm fun ds y hdist => ?_
  obtain ⟨rfl, rfl⟩ := hdist.faces.eq_of_ne hlm hx.ne_union
  refine comes_of_distributes hl hm hdist (P := Simple) (fun c hc => ?_) fun parts hparts hsimple => ?_
  · exact comes_allOf_simple (hcs c hc) hx (hatom.symm.imp_left fun h => h c hc)
  · exact ends_union_of_three (hparts ▸ hlength) hsimple

/-! ## The operands -/

/-- Pairs of operands that keep unions and intersections apart, for the operation that combines
them. -/
inductive Shallow : Operation → Rule → Rule → Prop
  /-- There are no intersections. -/
  | free {f : Operation} {a b : Rule} (ha : a.IntersectionFree) (hb : b.IntersectionFree) :
    Shallow f a b
  /-- The only intersection is one of the rules that are united. -/
  | outermost {cs : List Rule} {x : Rule} (hcs : ∀ c ∈ cs, c.IntersectionFree)
    (hx : x.IntersectionFree) : Shallow .anyOf (.composite .allOf cs) x
  /-- A pattern is united with a rule whose intersections stand outside of its unions. -/
  | pattern {a : Rule} {p : Pattern} (ha : a.IntersectionsOutside) : Shallow .anyOf a (.pattern p)
  /-- Two intersections of patterns, however nested, are united; they have no composite in common. -/
  | nested {a b : Rule} (ha : a.UnionFree) (hb : b.UnionFree) (hapart : Apart a b) :
    Shallow .anyOf a b
  /-- A union of at most three patterns meets an intersection of patterns, or one of at most three
  such intersections meets a pattern. -/
  | few {cs : List Rule} {x : Rule} (hlength : cs.length ≤ 3) (hcs : ∀ c ∈ cs, Simple c)
    (hx : Simple x) (hatom : x.isComposite = false ∨ ∀ c ∈ cs, c.isComposite = false) :
    Shallow .allOf (.composite .anyOf cs) x

theorem comes_of_shallow (h : Shallow f a b) (ha : a.Known) (hb : b.Known)
    (hlm : (l = a ∧ m = b) ∨ (l = b ∧ m = a)) : Comes Known f l m := by
  obtain ⟨hl, hm⟩ := both_of_order hlm ha hb
  cases h with
  | free hafree hbfree =>
    have hfree : Free l ∧ Free m := both_of_order hlm (.of_known hafree ha) (.of_known hbfree hb)
    exact (comes_of_free f hfree.1 hfree.2).imp fun _ => Unions.known
  | outermost hcs hx =>
    exact comes_anyOf_free (fun c hc => .of_known (hcs c hc) (known_composite.mp ha c hc))
      (.of_known hx hb) hlm
  | pattern hout => exact (comes_anyOf_pattern ha hout hlm).imp fun _ => Unions.known
  | nested hafree hbfree hapart =>
    rcases hlm with ⟨rfl, rfl⟩ | ⟨rfl, rfl⟩
    · exact (comes_anyOf_unionFree ha hb hafree hbfree hapart).imp fun _ => Unions.known
    · exact (comes_anyOf_unionFree hb ha hbfree hafree hapart.symm).imp fun _ => Unions.known
  | few hlength hcs hx hatom => exact comes_allOf_few hlength hcs hx hatom hlm

/-- **When simplification ends.** Two rules without foreign values are combined to one and the same rule
from some depth on, if there is nothing to distribute: they are equal, or the one is absorbed by the
other, or the one that is taken apart is no composite of the other operation.  So they are if, in this
order or the other, they keep unions and intersections apart. -/
theorem exists_combineAll_of_shallow (operation : Operation) {a b : Rule} (ha : a.Known) (hb : b.Known)
    (h : (∀ cs x, ¬ Distributes operation a b cs x) ∨ Shallow operation a b ∨ Shallow operation b a) :
    ∃ bound result, ∀ depth, bound ≤ depth → combineAll depth operation [a, b] = .ok result := by
  have hcomes : Comes Known operation a b := by
    rcases h with h | h | h
    · exact comes_of_forall_distributes ha hb fun cs x hdist => absurd hdist (h cs x)
    · exact comes_of_shallow h ha hb (.inl ⟨rfl, rfl⟩)
    · exact comes_of_shallow h hb ha (.inr ⟨rfl, rfl⟩)
  obtain ⟨outcome, houtcome, bound, hrun⟩ := hcomes
  obtain ⟨result, rfl, -⟩ := houtcome.exists_ok
  refine ⟨bound, result, fun depth hdepth => ?_⟩
  rw [combineAll_pair]
  exact hrun depth hdepth

/-- The two rules that are intersected without end are united in the end. -/
theorem exists_combineAll_endless_operands :
    Endless.wrapped.Known ∧ Endless.pair.Known ∧ Shallow .anyOf Endless.wrapped Endless.pair ∧
      ∃ bound result, ∀ depth, bound ≤ depth →
        combineAll depth .anyOf [Endless.wrapped, Endless.pair] = .ok result := by
  have hshallow : Shallow .anyOf Endless.wrapped Endless.pair :=
    .outermost (by simp [Endless.inner, IntersectionFree])
      (by simp [Endless.pair, Endless.plain, IntersectionFree])
  exact ⟨Endless.known_wrapped, Endless.known_pair, hshallow, exists_combineAll_of_shallow .anyOf
    Endless.known_wrapped Endless.known_pair (.inr (.inl hshallow))⟩

end Simplify

end ExclusionAlgebra
