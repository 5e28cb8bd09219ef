import ExclusionAlgebra.Proofs.Notation.RoundTrip
import ExclusionAlgebra.Proofs.Simplify.Kinds

/-!
# Simplification brings in no names

What two patterns meet in has its fields from them, so no name is made up on the way and none gets into
another field.

* `Pattern.DrawnFrom`, `Simplify.kept_drawnFrom`: the fields of a pattern stand in the same places of
  given patterns, and those of the patterns inside a rule go on to do so.
* `Simplify.kept_expressible`, `Simplify.expressible_of_combineAll`: simplification makes rules that can
  be expressed of such rules.
-/

namespace ExclusionAlgebra

/-- Each concrete field of the pattern is the same field of one of the sources. -/
structure Pattern.DrawnFrom (sources : Pattern → Prop) (p : Pattern) : Prop where
  group : ∀ name ∈ p.group, ∃ q, sources q ∧ q.group = some name
  module : ∀ name ∈ p.module, ∃ q, sources q ∧ q.module = some name
  artifact : ∀ artifact ∈ p.artifact, ∃ q, sources q ∧ q.artifact = some artifact

theorem Pattern.DrawnFrom.of_source {sources : Pattern → Prop} {p : Pattern} (h : sources p) :
    p.DrawnFrom sources :=
  ⟨fun _ hname => ⟨p, h, hname⟩, fun _ hname => ⟨p, h, hname⟩, fun _ hartifact => ⟨p, h, hartifact⟩⟩

namespace Simplify

open Rule

variable {operation : Operation}

theorem meetField?_cases {α : Type} [DecidableEq α] {x y z : Option α}
    (h : Pattern.meetField? x y = some z) : z = x ∨ z = y := by
  cases x with
  | none => exact .inr (Option.some.inj h).symm
  | some a =>
    cases y with
    | none => exact .inl (Option.some.inj h).symm
    | some b =>
      simp only [Pattern.meetField?] at h
      split at h
      · exact .inl (Option.some.inj h).symm
      · cases h

theorem meetField?_forall {α : Type} [DecidableEq α] {P : α → Prop} {x y z : Option α}
    (hx : ∀ a ∈ x, P a) (hy : ∀ a ∈ y, P a) (h : Pattern.meetField? x y = some z) : ∀ a ∈ z, P a := by
  rcases meetField?_cases h with rfl | rfl
  · exact hx
  · exact hy

/-! ## Where names come from -/

theorem drawnFrom_meet? {sources : Pattern → Prop} {p q r : Pattern} (hp : p.DrawnFrom sources)
    (hq : q.DrawnFrom sources) (h : p.meet? q = some r) : r.DrawnFrom sources := by
  obtain ⟨hgroup, hmodule, hartifact⟩ := fields_of_meet? h
  exact ⟨meetField?_forall hp.group hq.group hgroup, meetField?_forall hp.module hq.module hmodule,
    meetField?_forall hp.artifact hq.artifact hartifact⟩

theorem kept_drawnFrom (sources : Pattern → Prop) :
    Kept (Everywhere fun node => ∀ p, node = .pattern p → p.DrawnFrom sources) := by
  refine kept_everywhere nofun ?_ (fun _ _ => nofun) fun _ _ _ _ => nofun
  rintro p q _ hr hp hq _ ⟨⟩
  exact drawnFrom_meet? (hp p rfl) (hq q rfl) hr

/-! ## Names that can be spelled -/

theorem named_meet? {p q r : Pattern} (hp : p.Named) (hq : q.Named) (h : p.meet? q = some r) :
    r.Named := by
  obtain ⟨hgroup, hmodule, hartifact⟩ := fields_of_meet? h
  exact ⟨meetField?_forall hp.group hq.group hgroup, meetField?_forall hp.module hq.module hmodule,
    meetField?_forall hp.artifact hq.artifact hartifact⟩

theorem kept_named : Kept Named := by
  refine kept_everywhere nofun ?_ (fun _ _ => nofun) fun _ _ _ _ => nofun
  rintro p q _ hr hp hq _ ⟨⟩
  exact named_meet? (hp p rfl) (hq q rfl) hr

theorem kept_expressible : Kept Expressible := kept_known.and (kept_named.and kept_filled)

theorem expressible_of_combineAll {depth : Nat} {rules : List Rule} {r : Rule}
    (h : combineAll depth operation rules = .ok r) (hrules : ∀ rule ∈ rules, rule.Expressible) :
    r.Expressible :=
  kept_expressible.of_combineAll h hrules

end Simplify

end ExclusionAlgebra
