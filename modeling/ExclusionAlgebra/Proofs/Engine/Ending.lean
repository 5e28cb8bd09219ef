import ExclusionAlgebra.Proofs.Engine.Written

/-!
# Combining written rules comes to an end

A rule in its written form may nest unions and intersections as it likes: they are simplified as soon
as they are read, so that only settled rules are combined.  Whatever the texts and the options, there
is one outcome from some depth on, and it is never that the depth did not suffice.

* `Engine.concludes_readOrFail`: one text, which is read or refused.
* `Engine.ends_of_intersectionFree`: rules without intersections, and rules in their written form.
-/

namespace ExclusionAlgebra

namespace Engine

open Simplify

variable {clock : Nat → String} {sink : LogEntry → Except SinkFault Unit} {E : Fault → Prop}

/-- A text is read, or the rules at its beginning are built and then it is refused. -/
theorem concludes_readOrFail {source : String}
    (hmalformed : ∀ error, Rule.read source = .error error → E (.malformed source error)) :
    Concludes sink E Settled fun depth => readOrFail (simplifying clock sink depth) source := by
  cases hsource : Rule.read source with
  | ok tree =>
    simp only [readOrFail_of_read hsource]
    exact concludes_rebuild (Rule.known_of_read hsource)
  | error error =>
    obtain ⟨trees, hknown, hgivesUp⟩ := readOrFail_of_read_error hsource
    simp only [hgivesUp]
    refine concludes_bind (concludes_rebuildEach fun tree htree => ?_) fun _ _ => ?_
    · exact concludes_rebuild (hknown tree htree)
    · exact concludes_throw (hmalformed error hsource)

theorem concludes_mapM_readOrFail {sources : List String}
    (hmalformed : ∀ source ∈ sources, ∀ error, Rule.read source = .error error →
      E (.malformed source error)) :
    Concludes sink E (fun rules => ∀ x ∈ rules, Settled x) fun depth =>
      sources.mapM (readOrFail (simplifying clock sink depth)) := by
  induction sources with
  | nil => exact concludes_pure (List.forall_mem_nil _)
  | cons source rest ih =>
    rw [List.forall_mem_cons] at hmalformed
    simp only [List.mapM_cons]
    refine concludes_bind (concludes_readOrFail hmalformed.1) fun first hfirst => ?_
    refine concludes_bind (ih hmalformed.2) fun others hothers => ?_
    exact concludes_pure (List.forall_mem_cons.mpr ⟨hfirst, hothers⟩)

/-- **Whatever an engine builds itself comes to an end.** Rules without intersections are combined to
one outcome from some depth on, under either operation: a rule, or a fault on a foreign value inside
one of them.  So are rules in their written form, whatever the operation and the options: the outcome
is a rule, or one of the texts cannot be read, or the journal is kept and its receiver refuses an
entry. -/
theorem ends_of_intersectionFree :
    (∀ (operation : Operation) (rules : List Rule), (∀ rule ∈ rules, rule.IntersectionFree) →
      ∃ bound outcome, (∀ depth, bound ≤ depth → combineAll depth operation rules = outcome) ∧
        ((∀ rule ∈ rules, rule.Known) → ∃ result, outcome = .ok result) ∧
        ∀ fault, outcome = .error fault → fault.Inside rules) ∧
    ∀ (clock : Nat → String) (sink : LogEntry → Except SinkFault Unit) (options : Options)
      (operation : Operation) (sources : List String),
      ∃ bound answer after,
        (∀ depth, bound ≤ depth → combineWritten (simplifying clock sink depth) operation sources
          (.initial options.layers) = (answer, after)) ∧
        ∀ fault, answer = .error fault →
          (∃ source ∈ sources, ∃ error, Rule.read source = .error error ∧
            fault = .malformed source error) ∨
          (options.journal = true ∧ ∃ entry refusal, sink entry = .error refusal ∧
            fault = .sink refusal) := by
  constructor
  · intro operation rules hfree
    have hunions : ∀ rule ∈ rules, Unions (fun fault => fault.Inside rules) rule :=
      fun rule hrule => ⟨hfree rule hrule, fun _ hinside => .of_mem hrule hinside⟩
    obtain ⟨outcome, houtcome, bound, hreturns⟩ := ends_combineAll operation hunions
    obtain ⟨-, hfault⟩ := outcome_iff.mp houtcome
    refine ⟨bound, outcome, hreturns, fun hknown => ?_, hfault⟩
    cases outcome with
    | ok result => exact ⟨result, rfl⟩
    | error fault => exact absurd hknown (hfault fault rfl).not_known
  · intro clock sink options operation sources
    have hends : Concludes sink (fun fault =>
        (∃ source ∈ sources, ∃ error, Rule.read source = .error error ∧
          fault = .malformed source error) ∨
        (options.journal = true ∧ ∃ entry refusal, sink entry = .error refusal ∧
          fault = .sink refusal)) Settled
        fun depth => combineWritten (simplifying clock sink depth) operation sources := by
      refine concludes_bind (concludes_mapM_readOrFail ?_) fun rules hrules =>
        concludes_request operation hrules
      exact fun source hsource error herror => Or.inl ⟨source, hsource, error, herror, rfl⟩
    have hcalm := hends (.initial options.layers) (.of_options fun hjournal entry refusal hrefused =>
      Or.inr ⟨hjournal, entry, refusal, hrefused, rfl⟩)
    obtain ⟨⟨answer, after⟩, ⟨hanswer, -⟩, bound, hreturns⟩ := hcalm
    exact ⟨bound, answer, after, hreturns, (outcome_iff.mp hanswer).2⟩

/-- A union with an empty union and a singleton inside, intersected with a module. -/
theorem ends_nested_unions :
    (∀ rule ∈ [Rule.composite .anyOf [.composite .anyOf [], .everything, .composite .anyOf []],
      .pattern ⟨some "a", some "m", none⟩], rule.IntersectionFree) ∧
    ∃ bound, ∀ depth, bound ≤ depth → combineAll depth .allOf
      [.composite .anyOf [.composite .anyOf [], .everything, .composite .anyOf []],
        .pattern ⟨some "a", some "m", none⟩] = .ok (.pattern ⟨some "a", some "m", none⟩) := by
  have hfree : ∀ rule ∈ [Rule.composite .anyOf [.composite .anyOf [], .everything,
      .composite .anyOf []], .pattern ⟨some "a", some "m", none⟩], rule.IntersectionFree := by
    simp [Rule.IntersectionFree]
  obtain ⟨bound, outcome, hreturns, -, -⟩ := ends_of_intersectionFree.1 .allOf _ hfree
  have hrun : combineAll 4 .allOf
      [.composite .anyOf [.composite .anyOf [], .everything, .composite .anyOf []],
        .pattern ⟨some "a", some "m", none⟩] = .ok (.pattern ⟨some "a", some "m", none⟩) := rfl
  have hlast := hreturns (max bound 4) (Nat.le_max_left bound 4)
  rw [combineAll_mono (Nat.le_max_right bound 4) hrun] at hlast
  subst hlast
  exact ⟨hfree, bound, hreturns⟩

end Engine

end ExclusionAlgebra
