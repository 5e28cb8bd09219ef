import ExclusionAlgebra.Proofs.Engine.Returning
import ExclusionAlgebra.Proofs.Engine.Written

/-!
# Engines that are granted more depth

A depth that is too small shows: somewhere in a request the simplification is given up, and this is what
the request, and everything that is made of it, comes to.  So whatever else an engine comes to at one
depth, it comes to at each greater depth as well, with the same memos and the same journal.

* `Engine.Action.Approximates`: an action that may be given up where another one goes on.
* `Engine.approximates_serve`, `Engine.approximates_rebuild`: one request, and a rule that is built
  again.
* `Engine.approximates_combineWritten`: written rules that are combined.
-/

namespace ExclusionAlgebra

namespace Engine

/-- From each state the action is given up for lack of depth, or the other one comes to the same and
leaves the same state. -/
def Action.Approximates {α : Type} (x y : Action α) : Prop :=
  ∀ s, (x s).1 = .error .tooDeep ∨ x s = y s

namespace Action.Approximates

variable {α β : Type}

theorem refl (x : Action α) : x.Approximates x := fun _ => .inr rfl

theorem bind {x y : Action α} {f g : α → Action β} (h : x.Approximates y)
    (hfg : ∀ a, (f a).Approximates (g a)) : Action.Approximates (x >>= f) (y >>= g) := by
  intro s
  rw [bind_apply, bind_apply]
  rcases h s with hgivenUp | hsame
  · rw [Prod.fst_eq_iff.mp hgivenUp]
    exact .inl rfl
  · rw [← hsame]
    rcases x s with ⟨fault | a, t⟩
    · exact .inr rfl
    · exact hfg a t

theorem mapM {f g : α → Action β} {xs : List α} (hfg : ∀ x ∈ xs, (f x).Approximates (g x)) :
    Action.Approximates (xs.mapM f) (xs.mapM g) := by
  induction xs with
  | nil => exact refl _
  | cons x rest ih =>
    rw [List.forall_mem_cons] at hfg
    rw [List.mapM_cons, List.mapM_cons]
    exact hfg.1.bind fun y => (ih hfg.2).bind fun ys => refl _

theorem rebuildEach {build other : Operation → List Rule → Action Rule} {trees : List Rule}
    (h : ∀ tree ∈ trees, Action.Approximates (tree.rebuild build) (tree.rebuild other)) :
    Action.Approximates (Rule.rebuildEach build trees) (Rule.rebuildEach other trees) := by
  induction trees with
  | nil => exact refl _
  | cons tree rest ih =>
    rw [List.forall_mem_cons] at h
    rw [Rule.rebuildEach, Rule.rebuildEach]
    exact h.1.bind fun first => (ih h.2).bind fun others => refl _

end Action.Approximates

variable {clock : Nat → String} {sink : LogEntry → Except SinkFault Unit} {depth more : Nat}
  (hle : depth ≤ more)
include hle

/-- One request, by induction on the layers that it passes.  Only the base knows the depth. -/
theorem approximates_serve (operation : Operation) (rules : List Rule) (layers : List Layer)
    (journal : Journal) :
    (serve (simplifying clock sink depth) operation rules layers journal).1 = .error .tooDeep ∨
      serve (simplifying clock sink depth) operation rules layers journal =
        serve (simplifying clock sink more) operation rules layers journal := by
  induction layers with
  | nil =>
    rcases Simplify.approximates_combineAll hle operation rules with hgivenUp | hsame
    · exact .inl hgivenUp
    · exact .inr (congrArg (fun answer => (answer, State.mk [] journal)) hsame)
  | cons layer below ih =>
    cases layer with
    | forwarding =>
      simp only [serve]
      exact ih.imp_right fun hsame => by rw [hsame]
    | logging kept =>
      rcases ih with hgivenUp | hsame
      · refine .inl ?_
        rw [serve, Prod.fst_eq_iff.mp hgivenUp]
      · refine .inr ?_
        rw [serve, serve, hsame]
        rfl
    | caching memo =>
      rw [serve, serve]
      cases Memo.key operation rules with
      | error fault => exact .inr rfl
      | ok key =>
        dsimp only
        cases memo.find? key with
        | some found => exact .inr rfl
        | none =>
          rcases ih with hgivenUp | hsame
          · refine .inl ?_
            rw [Prod.fst_eq_iff.mp hgivenUp]
          · rw [hsame]
            exact .inr rfl

theorem approximates_request (operation : Operation) (rules : List Rule) :
    (request (simplifying clock sink depth) operation rules).Approximates
      (request (simplifying clock sink more) operation rules) :=
  fun s => approximates_serve hle operation rules s.layers s.journal

/-- A rule that is built again, by induction on the rule. -/
theorem approximates_rebuild (tree : Rule) :
    (tree.rebuild (request (simplifying clock sink depth))).Approximates
      (tree.rebuild (request (simplifying clock sink more))) := by
  induction tree with
  | composite operation components ih =>
    rw [Rule.rebuild, Rule.rebuild]
    exact (Action.Approximates.rebuildEach ih).bind fun rules =>
      approximates_request hle operation rules
  | everything | nothing | pattern p | foreign value => exact .refl _

theorem approximates_readOrFail (source : String) :
    (readOrFail (simplifying clock sink depth) source).Approximates
      (readOrFail (simplifying clock sink more) source) := by
  cases hread : Rule.read source with
  | ok tree =>
    rw [readOrFail_of_read hread, readOrFail_of_read hread]
    exact approximates_rebuild hle tree
  | error error =>
    obtain ⟨trees, -, hrefuses⟩ := readOrFail_of_read_error hread
    rw [hrefuses, hrefuses]
    have htrees := Action.Approximates.rebuildEach fun tree (_ : tree ∈ trees) =>
      @approximates_rebuild clock sink depth more hle tree
    exact htrees.bind fun _ => .refl _

/-- Written rules that are combined, whether they can all be read or not. -/
theorem approximates_combineWritten (operation : Operation) (sources : List String) :
    (combineWritten (simplifying clock sink depth) operation sources).Approximates
      (combineWritten (simplifying clock sink more) operation sources) := by
  have hread := Action.Approximates.mapM fun source (_ : source ∈ sources) =>
    @approximates_readOrFail clock sink depth more hle source
  exact hread.bind fun rules => approximates_request hle operation rules

end Engine

end ExclusionAlgebra
