import ExclusionAlgebra.Engine.Written
import ExclusionAlgebra.Proofs.Digest.Order
import ExclusionAlgebra.Proofs.Notation.RoundTrip
import ExclusionAlgebra.Proofs.Simplify.Laws

/-!
# What simplification gives is simplified

Rules that come from patterns and the two singletons by simplification have a shape that simplifying
again does not touch.  Their composites are unions whose components stand in the order in which they
were united: each prefix of the components is such a union itself, and combining it with the next
component appends that component.  This includes the order of digests between a prefix and a union
that follows it.

* `Simplify.Reachable`: what simplification can build.
* `Simplify.Settled`: the shape.
* `Simplify.settled_of_reachable`: simplification stays within the shape.
* `Simplify.combineAll_components`: the components of a settled union are combined to that union.
* `Simplify.rebuild_of_settled`, `Simplify.expressible_of_settled`: building a settled rule again
  gives it back, and the notation can express it.
-/

namespace ExclusionAlgebra

namespace Simplify

open Rule

/-- The rules that simplification builds from the singletons and the patterns. -/
inductive Reachable : Rule → Prop
  | everything : Reachable .everything
  | nothing : Reachable .nothing
  | pattern (p : Pattern) : Reachable (.pattern p)
  | combined {depth : Nat} {operation : Operation} {rules : List Rule} {result : Rule}
    (hrules : ∀ rule ∈ rules, Reachable rule)
    (hrun : combineAll depth operation rules = .ok result) : Reachable result

/-! ## The shape -/

/-- United with the rules, the rule goes to the end: it is a pattern, or a union that is not before
theirs in the order of digests. -/
inductive Follows (cs : List Rule) : Rule → Prop
  | pattern (p : Pattern) : Follows cs (.pattern p)
  | union {ds : List Rule} (hne : ¬ Alike (.composite .anyOf cs) (.composite .anyOf ds))
    (hle : (composite .anyOf cs).digest.le (composite .anyOf ds).digest = true) :
    Follows cs (.composite .anyOf ds)

/-- The shape of simplified rules.  A union starts with two patterns that neither equal nor cover
each other, and has grown by one component after another. -/
inductive Settled : Rule → Prop
  | everything : Settled .everything
  | nothing : Settled .nothing
  | pattern (p : Pattern) : Settled (.pattern p)
  | pair {p q : Pattern} (hne : p ≠ q) (hpq : p.covers q = false) (hqp : q.covers p = false) :
    Settled (.composite .anyOf [.pattern p, .pattern q])
  | grown {cs : List Rule} {x : Rule} (hcs : Settled (.composite .anyOf cs)) (hx : Settled x)
    (hnew : ∀ c ∈ cs, ¬ Alike c x) (hlast : Follows cs x) :
    Settled (.composite .anyOf (cs ++ [x]))

namespace Settled

theorem known {r : Rule} (h : Settled r) : r.Known := by
  induction h with
  | everything => exact known_everything
  | nothing => exact known_nothing
  | pattern p => exact known_pattern p
  | pair => simp
  | grown _ _ _ _ ihcs ihx =>
    rw [known_composite] at ihcs ⊢
    intro c hc
    rcases List.mem_append.mp hc with hc | hc
    · exact ihcs c hc
    · rw [List.mem_singleton.mp hc]
      exact ihx

theorem operation_eq {f : Operation} {cs : List Rule} (h : Settled (.composite f cs)) :
    f = .anyOf := by
  cases h <;> rfl

theorem components_ne_nil {f : Operation} {cs : List Rule} (h : Settled (.composite f cs)) :
    cs ≠ [] := by
  cases h <;> simp

theorem of_mem {f : Operation} {cs : List Rule} (h : Settled (.composite f cs)) {c : Rule}
    (hc : c ∈ cs) : Settled c := by
  generalize hr : Rule.composite f cs = r at h
  induction h generalizing cs with
  | everything | nothing | pattern p => cases hr
  | @pair p q =>
    cases hr
    simp only [List.mem_cons, List.not_mem_nil, or_false] at hc
    rcases hc with rfl | rfl
    · exact .pattern p
    · exact .pattern q
  | @grown ds x _ hx _ _ ihcs _ =>
    cases hr
    rcases List.mem_append.mp hc with hc | hc
    · exact ihcs hc rfl
    · rw [List.mem_singleton.mp hc]
      exact hx

end Settled

/-! ## Simplification stays within the shape -/

variable {again : Operation → Rule → Rule → Except Fault Rule} {operation : Operation}

theorem follows_of_faces {a b x : Rule} {cs : List Rule} (hne : ¬ Alike a b)
    (hf : Faces a b .anyOf cs x) (hx : Settled x) : Follows cs x := by
  cases hf with
  | patternLeft p => exact .pattern p
  | patternRight p => exact .pattern p
  | inOrder hle =>
    cases hx.operation_eq
    exact .union hne hle
  | swapped hle =>
    cases hx.operation_eq
    exact .union (fun h => hne h.symm) (Digest.le_of_le_eq_false hle)

theorem kept_settled : Kept Settled where
  nothing := .nothing
  patterns _ _ _ hne _ _ := of_ofPatterns (fun r _ => .pattern r) .nothing (.pair hne)
  component _ _ h _ hc := h.of_mem hc
  joined := by
    intro f a b cs x hne hf hnew hcs hx
    cases hcs.operation_eq
    exact .grown hcs hx hnew (follows_of_faces hne hf hx)

theorem settled_of_combineAll {depth : Nat} {rules : List Rule} {r : Rule}
    (h : combineAll depth operation rules = .ok r) (hrules : ∀ rule ∈ rules, Settled rule) :
    Settled r :=
  kept_settled.of_combineAll h hrules

theorem settled_of_reachable {r : Rule} (h : Reachable r) : Settled r := by
  induction h with
  | everything => exact .everything
  | nothing => exact .nothing
  | pattern p => exact .pattern p
  | combined _ hrun ih => exact settled_of_combineAll hrun ih

/-! ## The shape is left alone -/

theorem step_of_follows {cs : List Rule} {x : Rule} (hcs : (composite .anyOf cs).Known)
    (hx : x.Known) (hnew : ∀ c ∈ cs, ¬ Alike c x) (hlast : Follows cs x) :
    step again .anyOf (.composite .anyOf cs) x = .ok (.composite .anyOf (cs ++ [x])) := by
  have hadjoin : merge again .anyOf .anyOf cs x = .ok (.composite .anyOf (cs ++ [x])) := by
    have hcontains := (contains_eq_false_iff (x := x) (known_composite.mp hcs)).mpr hnew
    rw [merge, if_pos rfl, adjoin, hcontains]
    rfl
  rw [← hadjoin]
  cases hlast with
  | pattern p =>
    have hdiffer : ¬ Alike (.composite .anyOf cs) (.pattern p) := by
      intro h
      cases h
    exact step_of_faces hcs hx hdiffer (.patternRight p .anyOf cs)
  | union hne hle => exact step_of_faces hcs hx hne (.inOrder hle)

/-- The components of a settled union, combined in their order, are that union again. -/
theorem combineAll_components {cs : List Rule} (h : Settled (.composite .anyOf cs)) (depth : Nat) :
    combineAll (depth + 1) .anyOf cs = .ok (.composite .anyOf cs) := by
  generalize hr : Rule.composite .anyOf cs = r at h
  induction h generalizing cs with
  | everything | nothing | pattern p => cases hr
  | @pair p q hne hpq hqp =>
    cases hr
    have hstep : combine (depth + 1) .anyOf (.pattern p) (.pattern q) =
        .ok (ofPatterns .anyOf p q) := step_of_patterns hne
    rw [ofPatterns_anyOf, hpq, hqp] at hstep
    exact bind_eq_ok.mpr ⟨_, hstep, rfl⟩
  | @grown ds x hds hx hnew hlast ihds _ =>
    cases hr
    have hprefix : fold (combine (depth + 1) .anyOf) ds = .ok (.composite .anyOf ds) := ihds rfl
    unfold combineAll
    rw [fold_concat hds.components_ne_nil, hprefix]
    exact step_of_follows hds.known hx.known hnew hlast

theorem rebuild_of_settled {r : Rule} (h : Settled r) (depth : Nat) :
    r.rebuild (Base.simplifying (depth + 1)) = .ok r := by
  induction r with
  | everything | nothing | pattern p => exact rebuild_of_not_composite _ rfl
  | composite f cs ih =>
    cases h.operation_eq
    exact rebuild_composite_eq_self (fun c hc => ih c hc (h.of_mem hc)) (combineAll_components h depth)
  | foreign value => cases h

theorem expressible_of_settled {r : Rule} (h : Settled r) (hnamed : r.Named) : r.Expressible := by
  induction r with
  | everything | nothing | pattern p => exact ⟨rfl, hnamed, by simp⟩
  | composite f cs ih =>
    rw [named_composite] at hnamed
    exact expressible_composite.mpr
      ⟨h.components_ne_nil, fun c hc => ih c hc (h.of_mem hc) (hnamed c hc)⟩
  | foreign value => cases h

/-- **Simplified rules are fixed.** A rule that simplification has built is given back, order of
components included, when it is built again with simplification; and if the notation can spell its
names, it is given back when its written form is read with simplification. -/
theorem rebuild_eq_self_of_reachable {rule : Rule} (h : Reachable rule) (depth : Nat) :
    rule.rebuild (Base.simplifying (depth + 1)) = .ok rule ∧
      (rule.Named → ∃ text, rule.format = .ok text ∧
        Rule.readWith (Base.simplifying (depth + 1)) text = .ok (.ok rule)) := by
  have hsettled := settled_of_reachable h
  have hrebuild := rebuild_of_settled hsettled depth
  refine ⟨hrebuild, fun hnamed => ⟨String.ofList rule.written, ?_, ?_⟩⟩
  · rw [format, check_eq_ok_iff.mpr hsettled.known]
    rfl
  · have hread := read_written (expressible_of_settled hsettled hnamed)
    rw [readWith_of_read _ hread, hrebuild]
    rfl

/-- Three modules united: the union is read back from `any(a:m, b:n, c:*)`. -/
theorem rebuild_union_of_modules :
    ∃ rule, rule = Rule.composite .anyOf [.pattern ⟨some "a", some "m", none⟩,
        .pattern ⟨some "b", some "n", none⟩, .pattern ⟨some "c", none, none⟩] ∧
      Reachable rule ∧ rule.Named ∧ rule.rebuild (Base.simplifying 1) = .ok rule ∧
        ∃ text, rule.format = .ok text ∧
          Rule.readWith (Base.simplifying 1) text = .ok (.ok rule) := by
  have hrun : combineAll 1 .anyOf [.pattern ⟨some "a", some "m", none⟩,
        .pattern ⟨some "b", some "n", none⟩, .pattern ⟨some "c", none, none⟩] =
      .ok (.composite .anyOf [.pattern ⟨some "a", some "m", none⟩,
        .pattern ⟨some "b", some "n", none⟩, .pattern ⟨some "c", none, none⟩]) := rfl
  have hreachable := Reachable.combined (by simp [Reachable.pattern]) hrun
  have hnamed : (Rule.composite .anyOf [.pattern ⟨some "a", some "m", none⟩,
      .pattern ⟨some "b", some "n", none⟩, .pattern ⟨some "c", none, none⟩]).Named := by
    simp [Pattern.named_iff, Identifier, Reader.isNameChar]
  obtain ⟨hrebuild, hread⟩ := rebuild_eq_self_of_reachable hreachable 0
  exact ⟨_, rfl, hreachable, hnamed, hrebuild, hread hnamed⟩

end Simplify

end ExclusionAlgebra
