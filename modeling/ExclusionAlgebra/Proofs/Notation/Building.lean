import ExclusionAlgebra.Proofs.Notation.Closing

/-!
# What the reader asks of a factory

Reading with a factory is reading the text as it is written and making the result again, from its
innermost parts.  Where a text cannot be read, the composites that were asked for by then are those whose
closing parenthesis stands before the place of the error.

* `Factory.recording`, `Rule.traverse_recording`: a factory that keeps a list of the combinations that
  it was asked for; after a rule has been made, they are its composites.
* `Rule.readBy_eq`: reading with any factory, whatever the effects of its answers.
-/

namespace ExclusionAlgebra

open Notation

/-! ## Recording what is asked for -/

/-- Every rule is made as it is asked for, and the combinations are listed. -/
def Factory.recording : Factory (StateM (List Rule)) :=
  .ofCombine fun operation rules => do
    modify (· ++ [.composite operation rules])
    pure (.composite operation rules)

theorem Factory.run_recording_combine (operation : Operation) (rules log : List Rule) :
    (Factory.recording.combine operation rules).run log =
      pure (.composite operation rules, log ++ [.composite operation rules]) := rfl

namespace Rule

theorem traverseEach_recording_of {rules : List Rule}
    (h : ∀ rule ∈ rules, ∀ log, (rule.traverse .recording).run log = pure (rule, log ++ rule.composites))
    (log : List Rule) :
    (traverseEach .recording rules).run log = pure (rules, log ++ compositesIn rules) := by
  induction rules generalizing log with
  | nil => simp [traverseEach, compositesIn]
  | cons rule rest ih =>
    have hrest := ih fun r hr => h r (List.mem_cons_of_mem _ hr)
    simp [traverseEach, compositesIn, h rule List.mem_cons_self, hrest]

theorem traverse_recording (rule : Rule) (log : List Rule) :
    (rule.traverse .recording).run log = pure (rule, log ++ rule.composites) := by
  induction rule generalizing log with
  | composite operation components ih =>
    have hcomponents := traverseEach_recording_of ih log
    simp [traverse, composites, hcomponents, Factory.run_recording_combine]
  | _ => simp [traverse, composites, Factory.recording, Factory.ofCombine, Factory.atom]

theorem traverseEach_recording (rules log : List Rule) :
    (traverseEach .recording rules).run log = pure (rules, log ++ compositesIn rules) :=
  traverseEach_recording_of (fun rule _ => traverse_recording rule) log

/-! ## Reading and making again -/

/-- **Reading with a factory is making again what is read.** On a text that can be read, the factory is
asked for each node of the rule, from the left and behind the parts of the node, with the answers for
the parts.  On any other text the same error comes out of every factory, and the factory has been asked
for rules whose composites are just the ones that end before the place of the error. -/
theorem readBy_eq (source : String) :
    match read source with
    | .ok tree => ∀ {m : Type → Type} [Monad m] [LawfulMonad m] (factory : Factory m),
        readBy factory source = Except.ok <$> tree.traverse factory
    | .error error => ∃ trees : List Rule,
        (∀ closed, Closes [] (source.toList.take error.position) closed ↔
          closed = compositesIn trees) ∧
        ∀ {m : Type → Type} [Monad m] [LawfulMonad m] (factory : Factory m),
          readBy factory source = (fun _ => .error error) <$> traverseEach factory trees := by
  cases h : read source with
  | ok tree =>
    intro m _ _ factory
    exact readBy_of_readsDocument factory (read_eq_ok_iff.mp h)
  | error error =>
    obtain ⟨trees, failure, hfail, rfl⟩ := read_eq_error_iff.mp h
    obtain ⟨passed, htext, hbegun⟩ := hfail.begun
    have htake : source.toList.take (failure.toSyntaxError source.toList).position = passed := by
      simp [Reader.Failure.toSyntaxError, htext]
    have hcloses := hbegun.closes []
    refine ⟨trees, fun closed => ?_, fun factory => readBy_of_failsDocument factory hfail⟩
    rw [htake]
    constructor
    · intro hclosed
      exact hclosed.unique hcloses
    · rintro rfl
      exact hcloses

/-- Two composites are closed before the error, the third is not. -/
theorem readBy_eq_of_unclosed :
    let source := "any(all(a, b), any(c:m), d"
    let error : SyntaxError := ⟨26, .separator⟩
    let group (name : String) : Rule := .pattern ⟨some name, none, none⟩
    let closed : List Rule := [.composite .allOf [group "a", group "b"],
      .composite .anyOf [.pattern ⟨some "c", some "m", none⟩]]
    read source = .error error ∧ Closes [] (source.toList.take error.position) closed ∧
      ∃ trees, compositesIn trees = closed ∧
        (readBy .recording source).run [] =
          ((fun _ => .error error) <$> traverseEach .recording trees).run [] := by
  intro source error group closed
  have hread : read source = .error error := by decide +kernel
  have hlog : ((readBy .recording source).run []).2 = closed := by decide +kernel
  have hall := readBy_eq source
  rw [hread] at hall
  obtain ⟨trees, hcloses, hrun⟩ := hall
  have hrecording := congrArg (fun reading => StateT.run reading []) (hrun .recording)
  have htrees : compositesIn trees = closed := by
    rw [← hlog, hrecording, StateT.run_map, traverseEach_recording]
    rfl
  exact ⟨hread, (hcloses closed).mpr htrees.symm, trees, htrees, hrecording⟩

end Rule

end ExclusionAlgebra
