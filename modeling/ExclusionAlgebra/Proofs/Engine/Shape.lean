import ExclusionAlgebra.Proofs.Engine.Keeping
import ExclusionAlgebra.Proofs.Simplify.Settled

/-!
# No intersection is left in an engine

Simplification distributes every intersection that it meets, and the unions that it builds start with
two patterns that have nothing to do with each other.  So it is for everything that an engine gives
whose operands were simplified themselves, with or without a memo and a journal.

* `Rule.StartsApart`: what is said of a node.
* `Simplify.startsApart_of_settled`: a settled rule has no other nodes.
* `Simplify.Produced`, `Simplify.closed_produced`: simplification keeps to what it can build, and to
  the foreign values that it lets through.
* `Simplify.startsApart_of_reachable`: the main statement.
-/

namespace ExclusionAlgebra

/-- If the node is a composite, it is a union, and starts with two patterns of which neither equals
nor covers the other. -/
def Rule.StartsApart (node : Rule) : Prop :=
  ∀ operation components, node = .composite operation components →
    operation = .anyOf ∧ ∃ p q rest, components = .pattern p :: .pattern q :: rest ∧
      p ≠ q ∧ p.covers q = false ∧ q.covers p = false

namespace Simplify

open Rule

/-! ## Settled rules -/

/-- Induction on how the union has grown: what is added goes to the end. -/
theorem startsApart_of_settled {r : Rule} (h : Settled r) : r.Everywhere StartsApart := by
  induction h with
  | everything => exact everywhere_everything.mpr nofun
  | nothing => exact everywhere_nothing.mpr nofun
  | pattern p => exact everywhere_pattern.mpr nofun
  | @pair p q hne hpq hqp =>
    refine everywhere_composite.mpr ⟨?_, ?_⟩
    · rintro operation components ⟨⟩
      exact ⟨rfl, p, q, [], rfl, hne, hpq, hqp⟩
    · intro c hc
      simp only [List.mem_cons, List.not_mem_nil, or_false] at hc
      rcases hc with rfl | rfl <;> exact everywhere_pattern.mpr nofun
  | @grown cs x hcs hx hnew hlast ihcs ihx =>
    obtain ⟨hstart, hinside⟩ := everywhere_composite.mp ihcs
    obtain ⟨-, p, q, rest, rfl, hapart⟩ := hstart .anyOf cs rfl
    refine everywhere_composite.mpr ⟨?_, ?_⟩
    · rintro operation components ⟨⟩
      exact ⟨rfl, p, q, rest ++ [x], rfl, hapart⟩
    · intro c hc
      rcases List.mem_append.mp hc with hc | hc
      · exact hinside c hc
      · rw [List.mem_singleton.mp hc]
        exact ihx

/-! ## What an engine gives -/

/-- The rule was built by simplification, or is a foreign value. -/
def Produced (rule : Rule) : Prop := Reachable rule ∨ ∃ value, rule = .foreign value

theorem produced_of_not_composite {rule : Rule} (h : rule.isComposite = false) : Produced rule := by
  cases rule with
  | everything => exact Or.inl .everything
  | nothing => exact Or.inl .nothing
  | pattern p => exact Or.inl (.pattern p)
  | composite f cs => cases h
  | foreign value => exact Or.inr ⟨value, rfl⟩

/-- A combination with a foreign value, if it returns, returns one of the operands. -/
theorem eq_operand_of_law {again : Operation → Rule → Rule → Except Fault Rule} {f : Operation}
    {a b r : Rule} (h : Law again f a b r)
    (hforeign : (∃ value, a = .foreign value) ∨ ∃ value, b = .foreign value) : r = a ∨ r = b := by
  have hfaces : ∀ {inner cs x}, ¬ Faces a b inner cs x := by
    intro inner cs x hf
    rcases hforeign with ⟨value, rfl⟩ | ⟨value, rfl⟩ <;> cases hf
  cases h with
  | same => exact Or.inl rfl
  | takeLeft => exact Or.inl rfl
  | takeRight => exact Or.inr rfl
  | patterns =>
    rcases hforeign with ⟨value, hvalue⟩ | ⟨value, hvalue⟩ <;> cases hvalue
  | join _ hf _ => exact absurd hf hfaces
  | absorption _ hf _ => exact absurd hf hfaces
  | distribution hf _ _ => exact absurd hf hfaces

theorem produced_of_combine {depth : Nat} {f : Operation} {a b r : Rule}
    (h : combine depth f a b = .ok r) (ha : Produced a) (hb : Produced b) : Produced r := by
  by_cases hforeign : (∃ value, a = .foreign value) ∨ ∃ value, b = .foreign value
  · cases depth with
    | zero => cases h
    | succ depth =>
      rcases eq_operand_of_law (law_of_step h) hforeign with rfl | rfl
      · exact ha
      · exact hb
  · rw [not_or] at hforeign
    have ha : Reachable a := ha.resolve_right hforeign.1
    have hb : Reachable b := hb.resolve_right hforeign.2
    rw [← combineAll_pair] at h
    have hoperands : ∀ x ∈ [a, b], Reachable x :=
      List.forall_mem_cons.mpr ⟨ha, List.forall_mem_singleton.mpr hb⟩
    exact Or.inl (.combined hoperands h)

theorem closed_produced (depth : Nat) : (Base.simplifying depth).Closed Produced where
  atom _ := produced_of_not_composite
  answer operation rules result hanswer hrules := by
    have hpair : ∀ a b r, combine depth operation a b = .ok r → Produced a → Produced b →
        Produced r := fun _ _ _ => produced_of_combine
    exact fold_invariant (Or.inl .nothing) hpair hanswer hrules

theorem startsApart_of_produced {rule : Rule} (h : Produced rule) :
    rule.Everywhere StartsApart := by
  rcases h with hreachable | ⟨value, rfl⟩
  · exact startsApart_of_settled (settled_of_reachable hreachable)
  · exact everywhere_foreign.mpr nofun

/-- **No intersection is left.** In a rule that simplification has built every composite, at any
depth, is a union that starts with two patterns of which neither equals nor covers the other; and so
it is for every rule that an engine reads or answers in a session, whatever the options, if the
operands are answers to earlier steps or have been built by simplification. -/
theorem startsApart_of_reachable :
    (∀ rule, Reachable rule → rule.Everywhere Rule.StartsApart) ∧
      ∀ (depth : Nat) (clock : Nat → String) (sink : LogEntry → Except SinkFault Unit)
        (options : Engine.Options) (steps : List Session.Step),
        (∀ step ∈ steps, step.Within Reachable) →
          ∀ report ∈ Session.run ⟨Base.simplifying depth, clock, sink⟩ options.layers steps,
            ∀ rule, report.answer = .result rule → rule.Everywhere Rule.StartsApart := by
  constructor
  · intro rule hrule
    exact startsApart_of_produced (Or.inl hrule)
  · intro depth clock sink options steps hsteps report hreport rule hrule
    have hproduced : ∀ step ∈ steps, step.Within Produced := by
      intro step hstep
      exact Session.Step.within_mono (fun _ => Or.inl) (hsteps step hstep)
    have hearlier : ∀ rule, some rule ∈ ([] : List (Option Rule)) → Produced rule := by
      simp
    have hgiven : report.answer.rule? = some rule := by
      rw [hrule]
      rfl
    apply startsApart_of_produced
    exact Session.runFrom_keeps (closed_produced depth) hproduced hearlier
      (Engine.holds_layers options) report hreport rule hgiven

/-- Two modules are read and met by a group, with a memo and a journal: the answer is the union of
the two modules of the group. -/
theorem startsApart_modules_of_group :
    ∃ steps, steps = [Session.Step.parse "any(*:m, *:n)",
        .combine .allOf [.answer 0, .given (.pattern ⟨some "g", none, none⟩)]] ∧
      (∀ step ∈ steps, step.Within Reachable) ∧
      ∃ report ∈ Session.run ⟨Base.simplifying 3, fun _ => "", Engine.acceptAll⟩
          (Engine.Options.layers ⟨true, true⟩) steps,
        ∃ rule, rule = .composite .anyOf [.pattern ⟨some "g", some "m", none⟩,
            .pattern ⟨some "g", some "n", none⟩] ∧
          report.answer = .result rule ∧ rule.Everywhere Rule.StartsApart := by
  have hsteps : ∀ step ∈ [Session.Step.parse "any(*:m, *:n)",
      .combine .allOf [.answer 0, .given (.pattern ⟨some "g", none, none⟩)]],
      step.Within Reachable := by
    simp [Session.Step.Within, Session.Term.Within, Reachable.pattern]
  have hrun : (Session.run ⟨Base.simplifying 3, fun _ => "", Engine.acceptAll⟩
        (Engine.Options.layers ⟨true, true⟩) [Session.Step.parse "any(*:m, *:n)",
          .combine .allOf [.answer 0, .given (.pattern ⟨some "g", none, none⟩)]]).map (·.answer) =
      [.result (.composite .anyOf [.pattern ⟨none, some "m", none⟩, .pattern ⟨none, some "n", none⟩]),
        .result (.composite .anyOf [.pattern ⟨some "g", some "m", none⟩,
          .pattern ⟨some "g", some "n", none⟩])] := by
    decide +kernel
  have hmem : Session.Answer.result (.composite .anyOf [.pattern ⟨some "g", some "m", none⟩,
      .pattern ⟨some "g", some "n", none⟩]) ∈ (Session.run ⟨Base.simplifying 3, fun _ => "",
        Engine.acceptAll⟩ (Engine.Options.layers ⟨true, true⟩) [Session.Step.parse "any(*:m, *:n)",
          .combine .allOf [.answer 0, .given (.pattern ⟨some "g", none, none⟩)]]).map (·.answer) := by
    rw [hrun]
    simp
  obtain ⟨report, hreport, hanswer⟩ := List.mem_map.mp hmem
  exact ⟨_, rfl, hsteps, report, hreport, _, rfl, hanswer,
    startsApart_of_reachable.2 3 _ _ _ _ hsteps report hreport _ hanswer⟩

end Simplify

end ExclusionAlgebra
