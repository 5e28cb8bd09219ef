import ExclusionAlgebra.Proofs.Ends
import ExclusionAlgebra.Proofs.Rule.Faults
import ExclusionAlgebra.Proofs.Simplify.Settled

/-!
# Unions are combined in the end

In general a combination may ask for others without end.  In rules without intersections it does not:
a union of two such rules is never distributed, and an intersection is distributed over the components
of one of them, which are smaller; what it asks for besides are unions of the parts.  Nothing comes
out of this that is no union either.

* `Rule.IntersectionFree`: no node is an intersection.
* `Simplify.Unions`: such rules, with a condition on the faults that their foreign values give.
* `Simplify.ends_combine`, `Simplify.ends_combineAll`: they are combined to such a rule, or end in
  such a fault.
* `Simplify.exists_combineAll_of_settled`: settled rules are combined to a settled rule.
-/

namespace ExclusionAlgebra

open Rule

namespace Rule

/-- No node is an intersection. -/
def IntersectionFree (rule : Rule) : Prop :=
  rule.Everywhere fun node => ∀ components, node ≠ .composite .allOf components

theorem intersectionFree_composite {operation : Operation} {components : List Rule} :
    IntersectionFree (.composite operation components) ↔
      operation = .anyOf ∧ ∀ c ∈ components, c.IntersectionFree := by
  unfold IntersectionFree
  rw [everywhere_composite]
  apply and_congr_left
  intro _
  cases operation <;> simp

end Rule

namespace Simplify

variable {E : Fault → Prop} {f : Operation} {a b x : Rule} {cs : List Rule}

theorem kept_intersectionFree : Kept IntersectionFree := by
  refine kept_everywhere nofun (fun _ _ _ _ _ _ => nofun) (fun _ _ => nofun) ?_
  rintro _ cs x h _ ⟨⟩
  exact h cs rfl

/-- No intersection is taken apart where there is none. -/
theorem Faces.eq_anyOf {inner : Operation} (h : Faces a b inner cs x) (ha : a.IntersectionFree)
    (hb : b.IntersectionFree) : inner = .anyOf :=
  (intersectionFree_composite.mp (h.forall_operands ha hb).1).1

/-- The rule holds unions only, and a fault on a foreign value inside it satisfies the condition. -/
structure Unions (E : Fault → Prop) (rule : Rule) : Prop where
  free : rule.IntersectionFree
  faults : ∀ fault, Fault.Inside [rule] fault → E fault

namespace Unions

theorem of_known {rule : Rule} (hfree : rule.IntersectionFree) (hknown : rule.Known) :
    Unions E rule := by
  refine ⟨hfree, fun fault h => absurd ?_ h.not_known⟩
  exact List.forall_mem_singleton.mpr hknown

theorem everything : Unions E .everything :=
  of_known (everywhere_everything.mpr nofun) known_everything

theorem nothing : Unions E .nothing :=
  of_known (everywhere_nothing.mpr nofun) known_nothing

theorem pattern (p : Pattern) : Unions E (.pattern p) :=
  of_known (everywhere_pattern.mpr nofun) (known_pattern p)

theorem operation_eq (h : Unions E (.composite f cs)) : f = .anyOf :=
  (intersectionFree_composite.mp h.free).1

theorem of_mem (h : Unions E (.composite f cs)) {c : Rule} (hc : c ∈ cs) : Unions E c := by
  refine ⟨(intersectionFree_composite.mp h.free).2 c hc, fun fault hfault => ?_⟩
  exact h.faults fault (Fault.Inside.of_mem hc hfault).of_component

theorem composite (h : ∀ c ∈ cs, Unions E c) : Unions E (.composite .anyOf cs) := by
  refine ⟨intersectionFree_composite.mpr ⟨rfl, fun c hc => (h c hc).free⟩, ?_⟩
  rintro _ ⟨value, rfl, rule, hrule, hvalue⟩
  rw [List.mem_singleton.mp hrule] at hvalue
  rcases mem_nodes_composite.mp hvalue with hvalue | ⟨c, hc, hvalue⟩
  · cases hvalue
  · exact (h c hc).faults _ ⟨value, rfl, c, List.mem_singleton_self c, hvalue⟩

theorem ofPatterns (p q : Pattern) : Unions E (ofPatterns f p q) :=
  of_ofPatterns (fun r _ => pattern r) nothing fun _ _ => composite (by simp [pattern])

end Unions

/-! ## What does not depend on the depth -/

theorem outcome_arrange (ha : Unions E a) (hb : Unions E b) :
    Outcome (fun placed => placed = (a, b) ∨ placed = (b, a)) E (arrange a b) := by
  unfold arrange
  split
  · exact Or.inl rfl
  · split
    · exact Or.inr rfl
    · cases hfirst : a.hash with
      | error fault => exact ha.faults fault (inside_of_hash hfirst)
      | ok first =>
        cases hsecond : b.hash with
        | error fault => exact hb.faults fault (inside_of_hash hsecond)
        | ok second =>
          show _ = _ ∨ _ = _
          split
          · exact Or.inl rfl
          · exact Or.inr rfl

theorem outcome_adjoin (hcs : Unions E (.composite .anyOf cs)) (hx : Unions E x) :
    Outcome (Unions E) E (adjoin .anyOf cs x) := by
  unfold adjoin
  cases hcontains : contains cs x with
  | error fault => exact hcs.faults fault (inside_of_contains hcontains).of_component
  | ok answer =>
    cases answer with
    | true => exact hcs
    | false =>
      refine Unions.composite ?_
      rw [List.forall_mem_append, List.forall_mem_singleton]
      exact ⟨fun c hc => hcs.of_mem hc, hx⟩

/-! ## Combinations -/

/-- Of two operands the one is a union and the other is merged with it, or they come to something at
once. -/
theorem ends_combine_of_merge (ha : Unions E a) (hb : Unions E b)
    (hmerge : ∀ cs x, Unions E (.composite .anyOf cs) → Unions E x →
      (a = .composite .anyOf cs ∧ b = x) ∨ (a = x ∧ b = .composite .anyOf cs) →
        Ends (Outcome (Unions E) E) fun depth => merge (combine depth) f .anyOf cs x) :
    Ends (Outcome (Unions E) E) fun depth => combine depth f a b := by
  have hequals : Outcome (fun _ => True) E (a.equals b) :=
    outcome_iff.mpr ⟨fun _ _ => trivial, fun fault h => ha.faults fault (inside_of_equals h)⟩
  have hsides : ∀ l m inner cs x, ((l, m) = (a, b) ∨ (l, m) = (b, a)) →
      (l = .composite inner cs ∧ m = x) ∨ (l = x ∧ m = .composite inner cs) →
        Ends (Outcome (Unions E) E) fun depth => merge (combine depth) f inner cs x := by
    rintro l m inner cs x (⟨⟨⟩⟩ | ⟨⟨⟩⟩) (⟨rfl, rfl⟩ | ⟨rfl, rfl⟩)
    · cases ha.operation_eq
      exact hmerge cs b ha hb (Or.inl ⟨rfl, rfl⟩)
    · cases hb.operation_eq
      exact hmerge cs a hb ha (Or.inr ⟨rfl, rfl⟩)
    · cases hb.operation_eq
      exact hmerge cs a hb ha (Or.inr ⟨rfl, rfl⟩)
    · cases ha.operation_eq
      exact hmerge cs b ha hb (Or.inl ⟨rfl, rfl⟩)
  apply Ends.of_succ
  refine (ends_const hequals).bind fun same _ => ?_
  cases same with
  | true => exact ends_const ha
  | false =>
    refine (ends_const (outcome_arrange ha hb)).bind fun ⟨l, m⟩ hplaced => ?_
    obtain ⟨hl, hm⟩ : Unions E l ∧ Unions E m := by
      rcases hplaced with ⟨⟨⟩⟩ | ⟨⟨⟩⟩
      · exact ⟨ha, hb⟩
      · exact ⟨hb, ha⟩
    obtain ⟨run, hrun, hcomes⟩ := exists_dispatched f l m
    simp only [hcomes]
    cases hrun with
    | left => exact ends_const hl
    | right => exact ends_const hm
    | patterns => exact ends_const (Unions.ofPatterns _ _)
    | patternLeft hp hcs => exact hsides l m _ _ l hplaced (Or.inr ⟨rfl, hcs⟩)
    | compositeLeft hcs => exact hsides l m _ _ m hplaced (Or.inl ⟨hcs, rfl⟩)
    | @foreign value h =>
      rcases h with rfl | rfl
      · exact ends_const (hl.faults _ (.foreign value))
      · exact ends_const (hm.faults _ (.foreign value))

theorem ends_combine_anyOf (ha : Unions E a) (hb : Unions E b) :
    Ends (Outcome (Unions E) E) fun depth => combine depth .anyOf a b := by
  apply ends_combine_of_merge ha hb
  intro cs x hcs hx _
  exact ends_const (outcome_adjoin hcs hx)

theorem sizeOf_lt_of_mem {inner : Operation} {c : Rule} (hc : c ∈ cs) :
    sizeOf c < sizeOf (composite inner cs) := by
  have hlist := List.sizeOf_lt_of_mem hc
  rw [composite.sizeOf_spec]
  omega

theorem ends_fold {pair : Nat → Rule → Rule → Except Fault Rule} {rules : List Rule}
    (hpair : ∀ a b, Unions E a → Unions E b → Ends (Outcome (Unions E) E) fun depth => pair depth a b)
    (hrules : ∀ rule ∈ rules, Unions E rule) :
    Ends (Outcome (Unions E) E) fun depth => fold (pair depth) rules := by
  cases rules with
  | nil => exact ends_const .nothing
  | cons first rest =>
    rw [List.forall_mem_cons] at hrules
    exact ends_foldlM hrules.2 (fun acc next hacc hnext => hpair acc next hacc hnext) hrules.1

/-- The induction is on the size of the operands: an intersection asks for smaller intersections, and
for unions of what these have come to. -/
theorem ends_combine_allOf (ha : Unions E a) (hb : Unions E b) :
    Ends (Outcome (Unions E) E) fun depth => combine depth .allOf a b := by
  generalize hsize : sizeOf a + sizeOf b = size
  induction size using Nat.strong_induction_on generalizing a b with
  | h size ih =>
    subst hsize
    apply ends_combine_of_merge ha hb
    intro cs x hcs hx hsides
    have hsmaller : ∀ c ∈ cs, sizeOf c + sizeOf x < sizeOf a + sizeOf b := by
      intro c hc
      have hlt := @sizeOf_lt_of_mem cs .anyOf c hc
      rcases hsides with ⟨rfl, rfl⟩ | ⟨rfl, rfl⟩
      · omega
      · omega
    have hparts : ∀ c ∈ cs, Ends (Outcome (Unions E) E) fun depth => combine depth .allOf c x :=
      fun c hc => ih _ (hsmaller c hc) (hcs.of_mem hc) hx rfl
    refine (ends_mapM hparts).bind fun parts ⟨_, hunions⟩ => ?_
    exact ends_fold (fun _ _ => ends_combine_anyOf) hunions

/-- Rules without intersections are combined in the end, whatever the operation. -/
theorem ends_combine (f : Operation) (ha : Unions E a) (hb : Unions E b) :
    Ends (Outcome (Unions E) E) fun depth => combine depth f a b := by
  cases f with
  | anyOf => exact ends_combine_anyOf ha hb
  | allOf => exact ends_combine_allOf ha hb

theorem ends_combineAll (f : Operation) {rules : List Rule} (h : ∀ rule ∈ rules, Unions E rule) :
    Ends (Outcome (Unions E) E) fun depth => combineAll depth f rules :=
  ends_fold (fun _ _ => ends_combine f) h

/-! ## Settled rules -/

theorem Settled.intersectionFree {rule : Rule} (h : Settled rule) : rule.IntersectionFree := by
  induction rule with
  | everything => exact everywhere_everything.mpr nofun
  | nothing => exact everywhere_nothing.mpr nofun
  | pattern p => exact everywhere_pattern.mpr nofun
  | composite f cs ih =>
    exact intersectionFree_composite.mpr ⟨h.operation_eq, fun c hc => ih c hc (h.of_mem hc)⟩
  | foreign value => cases h

/-- Settled rules are combined to a settled rule, whatever depth is granted from some depth on. -/
theorem exists_combineAll_of_settled (f : Operation) {rules : List Rule}
    (h : ∀ rule ∈ rules, Settled rule) :
    ∃ r, Settled r ∧ ∃ bound, ∀ depth, bound ≤ depth → combineAll depth f rules = .ok r := by
  have hunions : ∀ rule ∈ rules, Unions (fun _ => False) rule := fun rule hrule =>
    .of_known (h rule hrule).intersectionFree (h rule hrule).known
  obtain ⟨outcome, hreturns, bound, hrun⟩ := ends_combineAll f hunions
  obtain ⟨r, rfl, -⟩ := hreturns.exists_ok
  exact ⟨r, settled_of_combineAll (hrun bound le_rfl) h, bound, hrun⟩

end Simplify

end ExclusionAlgebra
