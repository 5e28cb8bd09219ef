import ExclusionAlgebra.Proofs.Engine.Meaning
import ExclusionAlgebra.Proofs.Engine.Returning

/-!
# Combining written rules

To combine written rules is to build one rule again, the composite of what is read from them; so all
that is known of building a rule again is known of it.  Where one of the texts cannot be read there is
no answer.

* `Engine.combineWritten_of_read`, `Engine.exists_mapM_read_of_combineWritten`: what an engine does
  with valid texts, and that it gives an answer to no others.
* `Engine.requestsOfWritten`: the requests that combining the texts comes to.
* `Engine.combineWritten_excludes_iff`: when there is an answer, and which coordinates it leaves out.
-/

namespace ExclusionAlgebra

/-- The text can be read, and the rule leaves the coordinate out as it is written. -/
def Coordinate.ExcludedBy (k : Coordinate) (source : String) : Prop :=
  ∃ tree, Rule.read source = .ok tree ∧ tree.excludes k = true

/-- A composite that is read has components, so that no intersection of nothing is read. -/
theorem Rule.grounded_of_read {source : String} {tree : Rule} (h : Rule.read source = .ok tree) :
    tree.Grounded := by
  refine Rule.forall_of_read ?_ ?_ h
  · intro text rule rest hatom
    rcases Reader.atom_cases hatom with rfl | rfl | ⟨p, rfl⟩
    · simp [Rule.Grounded]
    · exact Rule.grounded_nothing
    · exact Rule.grounded_pattern p
  · intro operation components hne hall
    exact Rule.grounded_composite.mpr ⟨fun _ => hne, hall⟩

namespace Engine

variable {wiring : Wiring} {operation : Operation} {sources : List String} {trees : List Rule}

/-! ## Valid texts -/

theorem readOrFail_of_read {source : String} {tree : Rule} (h : Rule.read source = .ok tree) :
    readOrFail wiring source = tree.rebuild (request wiring) := by
  unfold readOrFail read
  rw [Rule.readWith_of_read _ h, bind_map_left]
  exact bind_pure _

theorem mapM_readOrFail_of_read (h : sources.mapM Rule.read = .ok trees) :
    sources.mapM (readOrFail wiring) = Rule.rebuildEach (request wiring) trees := by
  have hpairs := mapM_eq_ok.mp h
  clear h
  induction hpairs with
  | nil => rfl
  | cons hsource _ ih => rw [List.mapM_cons, readOrFail_of_read hsource, ih, Rule.rebuildEach]

/-- Combining valid texts is building their composite again. -/
theorem combineWritten_of_read (h : sources.mapM Rule.read = .ok trees) :
    combineWritten wiring operation sources =
      (Rule.composite operation trees).rebuild (request wiring) := by
  unfold combineWritten
  rw [mapM_readOrFail_of_read h, Rule.rebuild]

/-! ## Other texts -/

/-- A text that cannot be read is refused once some rules have been built. -/
theorem readOrFail_of_read_error {source : String} {error : SyntaxError}
    (h : Rule.read source = .error error) : ∃ trees : List Rule, (∀ tree ∈ trees, tree.Known) ∧
      ∀ wiring, readOrFail wiring source =
        Rule.rebuildEach (request wiring) trees >>= fun _ => throw (.malformed source error) := by
  obtain ⟨trees, htrees, hgivesUp⟩ := Rule.readWith_of_read_error h
  refine ⟨trees, Rule.known_of_comesTo htrees, fun wiring => ?_⟩
  unfold readOrFail read
  rw [hgivesUp, bind_map_left]

theorem exists_read_of_readOrFail {source : String} {s t : State} {rule : Rule}
    (h : readOrFail wiring source s = (.ok rule, t)) : ∃ tree, Rule.read source = .ok tree := by
  cases hsource : Rule.read source with
  | ok tree => exact ⟨tree, rfl⟩
  | error error =>
    obtain ⟨built, -, hgivesUp⟩ := readOrFail_of_read_error hsource
    rw [hgivesUp] at h
    obtain ⟨_, _, _, hthrow⟩ := bind_apply_eq_ok.mp h
    cases hthrow

/-- An engine that gives an answer has read every text. -/
theorem exists_mapM_read_of_combineWritten {s after : State} {result : Rule}
    (h : combineWritten wiring operation sources s = (.ok result, after)) :
    ∃ trees, sources.mapM Rule.read = .ok trees := by
  obtain ⟨rules, t, hrules, -⟩ := bind_apply_eq_ok.mp h
  clear h
  induction sources generalizing s rules with
  | nil => exact ⟨[], rfl⟩
  | cons source rest ih =>
    rw [List.mapM_cons] at hrules
    obtain ⟨first, u, hfirst, hrules⟩ := bind_apply_eq_ok.mp hrules
    obtain ⟨others, v, hothers, hrules⟩ := bind_apply_eq_ok.mp hrules
    cases hrules
    obtain ⟨tree, htree⟩ := exists_read_of_readOrFail hfirst
    obtain ⟨trees, htrees⟩ := ih others hothers
    refine ⟨tree :: trees, ?_⟩
    rw [List.mapM_cons, htree, htrees]
    rfl

/-! ## The answer -/

/-- The requests that combining the texts comes to, if all are valid and the engine is in the
state. -/
def requestsOfWritten (wiring : Wiring) (operation : Operation) (sources : List String)
    (state : State) : List Request :=
  match sources.mapM Rule.read with
  | .ok trees => requests wiring (.composite operation trees) state
  | .error _ => []

theorem grounded_composite_of_read (hne : sources ≠ []) (h : sources.mapM Rule.read = .ok trees) :
    (Rule.composite operation trees).Grounded := by
  refine Rule.grounded_composite.mpr ⟨?_, ?_⟩
  · rintro - rfl
    cases mapM_eq_ok.mp h
    exact hne rfl
  · refine forall_of_mapM h ?_
    intro source _ tree htree
    exact Rule.grounded_of_read htree

theorem known_composite_of_read (h : sources.mapM Rule.read = .ok trees) :
    (Rule.composite operation trees).Known := by
  rw [Rule.known_composite]
  refine forall_of_mapM h ?_
  intro source _ tree htree
  exact Rule.known_of_read htree

/-- What a composite of the rules that were read leaves out, said of the texts. -/
theorem excludes_composite_iff_of_read (h : sources.mapM Rule.read = .ok trees) (k : Coordinate) :
    (Rule.composite operation trees).excludes k = true ↔
      match operation with
      | .anyOf => ∃ source ∈ sources, k.ExcludedBy source
      | .allOf => ∀ source ∈ sources, k.ExcludedBy source := by
  rw [Rule.excludes_composite]
  have hpairs := mapM_eq_ok.mp h
  clear h
  induction hpairs with
  | nil => cases operation <;> simp [Operation.verdict]
  | @cons source tree sources trees hsource _ ih =>
    have hfirst : k.ExcludedBy source ↔ tree.excludes k = true := by
      simp [Coordinate.ExcludedBy, hsource]
    cases operation with
    | anyOf =>
      simp only [Operation.verdict, List.map_cons, List.any_cons, id_eq, Bool.or_eq_true,
        List.exists_mem_cons_iff, hfirst] at ih ⊢
      exact or_congr Iff.rfl ih
    | allOf =>
      simp only [Operation.verdict, List.map_cons, List.all_cons, id_eq, Bool.and_eq_true,
        List.forall_mem_cons, hfirst] at ih ⊢
      exact and_congr Iff.rfl ih

/-- **Combining written rules.** With a memo or without, an engine that simplifies gives an answer to
rules in their written form, from some depth on, if and only if each of them can be read.  Any answer
that it gives leaves out a coordinate exactly when some of the rules do as they are written, or all of
them, unless digests collide on the rules in the requests that it comes to. -/
theorem combineWritten_excludes_iff (clock : Nat → String) (sink : LogEntry → Except SinkFault Unit)
    (cache : Bool) (operation : Operation) {sources : List String} (hne : sources ≠ []) :
    ((∃ bound result after, ∀ depth, bound ≤ depth →
        combineWritten (simplifying clock sink depth) operation sources
          (.initial (Options.layers ⟨cache, false⟩)) = (.ok result, after)) ↔
      ∀ source ∈ sources, ∃ tree, Rule.read source = .ok tree) ∧
    ∀ depth result after,
      combineWritten (simplifying clock sink depth) operation sources
        (.initial (Options.layers ⟨cache, false⟩)) = (.ok result, after) →
      Rule.Collisionless (fun node => ∃ r ∈ requestsOfWritten (simplifying clock sink depth)
        operation sources (.initial (Options.layers ⟨cache, false⟩)), r.Mentions node) →
      ∀ k, result.excludes k = true ↔
        match operation with
        | .anyOf => ∃ source ∈ sources, k.ExcludedBy source
        | .allOf => ∀ source ∈ sources, k.ExcludedBy source := by
  refine ⟨⟨?_, ?_⟩, ?_⟩
  · rintro ⟨bound, result, after, hreturns⟩ source hsource
    obtain ⟨trees, htrees⟩ := exists_mapM_read_of_combineWritten (hreturns bound le_rfl)
    exact exists_of_mapM htrees hsource
  · intro hvalid
    obtain ⟨trees, htrees⟩ := exists_mapM hvalid
    obtain ⟨result, -, after, -, bound, hreturns⟩ :=
      @returns_rebuild clock sink _ (known_composite_of_read htrees)
        (.initial (Options.layers ⟨cache, false⟩)) (.layers cache)
    refine ⟨bound, result, after, fun depth hdepth => ?_⟩
    rw [combineWritten_of_read htrees]
    exact hreturns depth hdepth
  · intro depth result after hreturns hfree k
    obtain ⟨trees, htrees⟩ := exists_mapM_read_of_combineWritten hreturns
    have hground := @grounded_composite_of_read operation _ _ hne htrees
    simp only [requestsOfWritten, htrees] at hfree
    rw [combineWritten_of_read htrees] at hreturns
    have hkeeps := keepsAt_rebuild_sameMeaning (Base.simplifying_keepsMeaning depth) hfree hground
      (holds_layers ⟨cache, false⟩) fun r hr => hr
    have hmeans := hkeeps.1 result (congrArg Prod.fst hreturns)
    rw [hmeans.excludes k, excludes_composite_iff_of_read htrees]

/-- A union of two modules, written twice, and a group. -/
def modulesAndGroup : List String := ["any(*:m, *:n)", "any(*:m, *:n)", "g"]

def eitherModule : Rule :=
  .composite .anyOf [.pattern ⟨none, some "m", none⟩, .pattern ⟨none, some "n", none⟩]

def wholeGroup : Rule := .pattern ⟨some "g", none, none⟩

theorem digests_of_eitherModule :
    (wholeGroup :: eitherModule.nodes).map Rule.digest =
      [⟨"553154f51391aae29edc8a977ee9adda34c9757369bc9a3c12426d2ca60d5f26"⟩,
        ⟨"1d2f89a1128af16718f5d7c2b41dafeb52cde50b9a8d111237f39b794a9fa22c"⟩,
        ⟨"df6982c7f2f75cd3f690ca8c9d9a7caeb1f652a027078a931e08a1af8aaa2523"⟩,
        ⟨"7bc4ade6181c7f4ab4ef34f3a663171cd485ac144b40c947281db442b3f20de5"⟩] := by
  decide +kernel

/-- With a memo, where the second union is found, and the group is distributed over the union. -/
theorem combineWritten_modulesAndGroup_excludes_iff :
    modulesAndGroup ≠ [] ∧ ∃ result after,
      combineWritten (simplifying (fun _ => "") acceptAll 3) .allOf modulesAndGroup
        (.initial (Options.layers ⟨true, false⟩)) = (.ok result, after) ∧
      result = .composite .anyOf [.pattern ⟨some "g", some "m", none⟩,
        .pattern ⟨some "g", some "n", none⟩] ∧
      Rule.Collisionless (fun node => ∃ r ∈ requestsOfWritten
        (simplifying (fun _ => "") acceptAll 3) .allOf modulesAndGroup
          (.initial (Options.layers ⟨true, false⟩)), r.Mentions node) ∧
      ∀ k, result.excludes k = true ↔ ∀ source ∈ modulesAndGroup, k.ExcludedBy source := by
  have hne : modulesAndGroup ≠ [] := by decide
  have hrun : (combineWritten (simplifying (fun _ => "") acceptAll 3) .allOf modulesAndGroup
      (.initial (Options.layers ⟨true, false⟩))).1 = .ok (.composite .anyOf
        [.pattern ⟨some "g", some "m", none⟩, .pattern ⟨some "g", some "n", none⟩]) := by
    decide +kernel
  have htrees : modulesAndGroup.mapM Rule.read = .ok [eitherModule, eitherModule, wholeGroup] := by
    decide +kernel
  have hlisted : ∀ r ∈ requests (simplifying (fun _ => "") acceptAll 3)
      (.composite .allOf [eitherModule, eitherModule, wholeGroup]) (.initial (Options.layers ⟨true, false⟩)),
        ∀ x ∈ r.operands, ∀ node ∈ x.nodes, node ∈ wholeGroup :: eitherModule.nodes := by
    decide +kernel
  have hdistinct : ((wholeGroup :: eitherModule.nodes).map Rule.digest).Nodup := by
    rw [digests_of_eitherModule]
    decide
  have hfree : Rule.Collisionless (fun node => ∃ r ∈ requestsOfWritten
      (simplifying (fun _ => "") acceptAll 3) .allOf modulesAndGroup
        (.initial (Options.layers ⟨true, false⟩)), r.Mentions node) := by
    apply (Rule.collisionless_of_nodup hdistinct).of_alike
    rintro node ⟨r, hr, x, hx, hnode⟩
    rw [requestsOfWritten, htrees] at hr
    exact ⟨node, hlisted r hr x hx node hnode, Rule.Alike.refl node⟩
  rcases hreturns : combineWritten (simplifying (fun _ => "") acceptAll 3) .allOf modulesAndGroup
    (.initial (Options.layers ⟨true, false⟩)) with ⟨answer, after⟩
  rw [hreturns] at hrun
  subst hrun
  exact ⟨hne, _, after, rfl, rfl, hfree,
    (combineWritten_excludes_iff (fun _ => "") acceptAll true .allOf hne).2 3 _ _ hreturns hfree⟩

end Engine

end ExclusionAlgebra
