import ExclusionAlgebra.Proofs.Engine.Ending
import ExclusionAlgebra.Proofs.Engine.Observers
import ExclusionAlgebra.Proofs.Engine.Telling
import ExclusionAlgebra.Proofs.Notation.Closing
import ExclusionAlgebra.Proofs.Simplify.Names

/-!
# Combining written rules, text by text

The texts are read from the left, and each composite in them is one request.  If all can be read, one
more request combines the rules; at the first that cannot, everything stops.

* `Engine.combineWritten_of_first_error`: what has been built when a text is refused.
* `Engine.exists_told_of_read`, `Engine.exists_told_of_first_error`: the outcome from some depth on, and
  what the journal tells of it.
* `Engine.keeps_rebuild_expressible`: what is built again can be written down and read again.
* `Engine.matches_combineWritten`, `Engine.combineWritten_sameMemos`: engines that go together, and
  engines with the same memos, give the same answers.
* `Engine.legible_of_combineWritten`: entries show readings of the clock, and rules that can be written
  down and read again.
-/

namespace ExclusionAlgebra

open Rule

/-! ## The first text that cannot be read -/

/-- Before a text is given up, the rules are built whose composites are closed before the error. -/
theorem Rule.exists_closed_of_read_error {source : String} {error : SyntaxError}
    (h : read source = .error error) : ∃ heads : List Rule, (∀ head ∈ heads, head.Known) ∧
      Notation.Closes [] (source.toList.take error.position) (compositesIn heads) ∧
      ∀ {m : Type → Type} [Monad m] [LawfulMonad m] (build : Operation → List Rule → m Rule),
        readWith build source = (fun _ => .error error) <$> rebuildEach build heads := by
  obtain ⟨heads, failure, hfail, rfl⟩ := read_eq_error_iff.mp h
  obtain ⟨passed, htext, hbegun⟩ := hfail.begun
  have htake : source.toList.take (failure.toSyntaxError source.toList).position = passed := by
    simp [Reader.Failure.toSyntaxError, htext]
  refine ⟨heads, known_of_comesTo (.inr ⟨failure, hfail⟩), ?_, fun build => ?_⟩
  · rw [htake]
    exact hbegun.closes []
  · rw [readWith, readBy_of_failsDocument _ hfail, traverseEach_ofCombine]

namespace Engine

open Simplify

variable {clock : Nat → String} {sink : LogEntry → Except SinkFault Unit} {operation : Operation}

theorem combineWritten_of_first_error {before after : List String} {source : String}
    {error : SyntaxError} {trees : List Rule} (hbefore : before.mapM Rule.read = .ok trees)
    (herror : Rule.read source = .error error) : ∃ heads : List Rule, (∀ head ∈ heads, head.Known) ∧
      Notation.Closes [] (source.toList.take error.position) (compositesIn heads) ∧
      ∀ wiring, combineWritten wiring operation (before ++ source :: after) =
        rebuildEach (request wiring) (trees ++ heads) >>= fun _ =>
          throw (.malformed source error) := by
  obtain ⟨heads, hknown, hcloses, hgivesUp⟩ := Rule.exists_closed_of_read_error herror
  refine ⟨heads, hknown, hcloses, fun wiring => ?_⟩
  have hsource : readOrFail wiring source =
      rebuildEach (request wiring) heads >>= fun _ => throw (.malformed source error) := by
    unfold readOrFail read
    rw [hgivesUp, bind_map_left]
  have hthrow : ∀ {α β : Type} (fault : Fault) (f : α → Action β), throw fault >>= f = throw fault :=
    fun _ _ => rfl
  unfold combineWritten
  rw [List.mapM_append, List.mapM_cons, mapM_readOrFail_of_read hbefore, hsource, rebuildEach_append]
  simp only [bind_assoc, hthrow, pure_bind]

/-! ## The answer can be written down -/

/-- Simplification makes rules that can be written down and read again of such rules, and so does a
request. -/
theorem serve_expressible (depth : Nat) (operation : Operation) {rules : List Rule}
    (hrules : ∀ x ∈ rules, x.Expressible) {layers : List Layer}
    (hlayers : Holds (fun _ => Expressible) layers) (journal : Journal) :
    (∀ r, (serve (simplifying clock sink depth) operation rules layers journal).1 = .ok r →
      r.Expressible) ∧
      Holds (fun _ => Expressible)
        (serve (simplifying clock sink depth) operation rules layers journal).2.layers := by
  refine serve_keeps ?_ ?_ ?_ hlayers journal
  · exact fun result hresult => expressible_of_combineAll hresult hrules
  · exact fun _ r _ hr => hr
  · exact fun _ r _ hr => hr

/-- Building a rule again makes such a rule of every rule whose names can be spelled, also if it holds
empty composites. -/
theorem keeps_rebuild_expressible (depth : Nat) {tree : Rule} (htree : tree.Known ∧ tree.Named) :
    Keeps (fun _ => Expressible) Expressible
      (tree.rebuild (request (simplifying clock sink depth))) := by
  intro s hs
  have hinside : ∀ operation components,
      (Rule.composite operation components).Known ∧ (Rule.composite operation components).Named →
        ∀ c ∈ components, c.Known ∧ c.Named := by
    rintro operation components ⟨hknown, hnamed⟩ c hc
    exact ⟨known_composite.mp hknown c hc, named_composite.mp hnamed c hc⟩
  have hatom : ∀ rule : Rule, rule.Known ∧ rule.Named → rule.isComposite = false → rule.Expressible := by
    rintro rule ⟨hknown, hnamed⟩ hcomposite
    cases rule with
    | pattern p => exact expressible_pattern (named_pattern.mp hnamed)
    | everything | nothing => exact ⟨hknown, hnamed, by simp⟩
    | composite f cs => cases hcomposite
    | foreign value => exact absurd hknown (not_known_foreign value)
  have hrequest : ∀ operation (components rules : List Rule) t,
      (Rule.composite operation components).Known ∧ (Rule.composite operation components).Named →
        List.Forall₂ (fun _ rule => rule.Expressible) components rules → True →
          Holds (fun _ => Expressible) t.layers →
            KeepsAt (fun _ => Expressible) Expressible
              (request (simplifying clock sink depth) operation rules) t := by
    intro operation components rules t _ hrules _ ht
    exact serve_expressible depth operation (forall_of_forall₂ hrules) ht t.journal
  exact @keepsAt_rebuild (simplifying clock sink depth) _ (fun _ => True) (fun _ => Expressible) _
    hinside hatom hrequest tree htree s hs fun _ _ => trivial

/-! ## The outcome and the journal -/

section

variable (hsink : ∀ entry, sink entry = .ok ()) (options : Options)
include hsink

theorem calm_options : Calm sink (fun _ => False) (State.initial options.layers).layers := by
  refine .of_options fun _ entry refusal hrefused => ?_
  rw [hsink] at hrefused
  cases hrefused

/-- Texts that can all be read have an answer, from some depth on.  If the engine records, the journal
tells of the composites in the texts, and then of the answer. -/
theorem exists_told_of_read {sources : List String} {trees : List Rule}
    (h : sources.mapM Rule.read = .ok trees) (operation : Operation) :
    ∃ (result : Rule) (after : State), result.Expressible ∧
      (if options.journal then (Rule.composite operation trees).Told after.journal.entries result
        else after.journal.entries = []) ∧
      ∃ bound, ∀ depth, bound ≤ depth →
        combineWritten (simplifying clock sink depth) operation sources (.initial options.layers) =
          (.ok result, after) := by
  have htree : (Rule.composite operation trees).Known ∧ (Rule.composite operation trees).Named := by
    have hexpressible : ∀ tree ∈ trees, tree.Expressible :=
      forall_of_mapM h fun _ _ _ hread => expressible_of_read hread
    exact ⟨known_composite.mpr fun tree htree => (hexpressible tree htree).1,
      named_composite.mpr fun tree htree => (hexpressible tree htree).2.1⟩
  obtain ⟨result, -, after, -, bound, hreturns⟩ := @returns_rebuild clock sink _ htree.1
    (.initial options.layers) (calm_options hsink options)
  have hrun := hreturns bound (Nat.le_refl bound)
  have hkeeps : Keeps (fun _ => Expressible) Expressible
      ((Rule.composite operation trees).rebuild (request (simplifying clock sink bound))) :=
    keeps_rebuild_expressible bound htree
  have hexpressible := (hkeeps (.initial options.layers) (holds_layers options)).1 result
    (congrArg Prod.fst hrun)
  have hwrites : Writes options.journal (Rule.composite operation trees).Told
      ((Rule.composite operation trees).rebuild (request (simplifying clock sink bound))) :=
    writes_rebuild _
  obtain ⟨-, new, hnew, htold⟩ := hwrites _ after result (traced_layers options) hrun
  have hentries : after.journal.entries = new := hnew
  refine ⟨result, after, hexpressible, ?_, bound, fun depth hdepth => ?_⟩
  · rw [hentries]
    exact htold
  · rw [combineWritten_of_read h]
    exact hreturns depth hdepth

/-- Where the first text that cannot be read comes behind others, that is the outcome, from some depth
on.  If the engine records, the journal tells of the composites in the texts before and of those that
are closed before the error, and of nothing else. -/
theorem exists_told_of_first_error {before after : List String} {source : String}
    {error : SyntaxError} {trees : List Rule} (hbefore : before.mapM Rule.read = .ok trees)
    (herror : Rule.read source = .error error) (operation : Operation) :
    ∃ (heads : List Rule) (last : State),
      Notation.Closes [] (source.toList.take error.position) (compositesIn heads) ∧
      (if options.journal then ∃ results, ToldEach (trees ++ heads) last.journal.entries results
        else last.journal.entries = []) ∧
      ∃ bound, ∀ depth, bound ≤ depth →
        combineWritten (simplifying clock sink depth) operation (before ++ source :: after)
          (.initial options.layers) = (.error (.malformed source error), last) := by
  obtain ⟨heads, hheads, hcloses, hrefuses⟩ :=
    @combineWritten_of_first_error operation before after source error trees hbefore herror
  have htrees : ∀ tree ∈ trees, tree.Known :=
    forall_of_mapM hbefore fun _ _ _ hread => known_of_read hread
  have hknown : ∀ tree ∈ trees ++ heads, tree.Known :=
    List.forall_mem_append.mpr ⟨htrees, hheads⟩
  have hconcludes := @concludes_rebuildEach clock sink (fun _ => False) (trees ++ heads)
    fun tree htree => concludes_rebuild (hknown tree htree)
  obtain ⟨results, -, last, -, bound, hreturns⟩ := hconcludes.returns (.initial options.layers)
    (calm_options hsink options)
  have hwrites : Writes options.journal (ToldEach (trees ++ heads))
      (rebuildEach (request (simplifying clock sink bound)) (trees ++ heads)) :=
    writes_rebuildEach fun tree _ => writes_rebuild tree
  obtain ⟨-, new, hnew, htold⟩ := hwrites _ last results (traced_layers options)
    (hreturns bound (Nat.le_refl bound))
  have hentries : last.journal.entries = new := hnew
  refine ⟨heads, last, hcloses, ?_, bound, fun depth hdepth => ?_⟩
  · rw [hentries]
    cases hjournal : options.journal with
    | false =>
      rw [hjournal] at htold
      exact htold
    | true =>
      rw [hjournal] at htold
      exact ⟨results, htold⟩
  · rw [hrefuses, bind_apply, hreturns depth hdepth]
    rfl

end

/-! ## Engines that go together -/

section

variable {wiring other : Wiring} {R : State → State → Prop} {kind : Rule → Prop}
  {L V W : Rule → Rule → Prop}
  (h : Stateful.Builders R kind L V (request wiring) (request other))
include h

theorem matches_readOrFail {source : String}
    (hkind : ∀ trees, Rule.ComesTo source trees → ∀ tree ∈ trees, kind tree) :
    Stateful.Matches R V (readOrFail wiring source) (readOrFail other source) := by
  refine Stateful.Matches.bind (h.readWith source hkind) ?_
  rintro _ _ (hab | error)
  · exact .pure hab
  · exact fun _ _ hst => ⟨.error _, hst⟩

/-- Whether the texts can be read or not: engines that go together on what the texts come to, and in the
last request, come to the same or fail with the same fault. -/
theorem matches_combineWritten {operation : Operation} {sources : List String}
    (hkind : ∀ source trees, Rule.ComesTo source trees → ∀ tree ∈ trees, kind tree)
    (hlast : ∀ as bs, List.Forall₂ V as bs →
      Stateful.Matches R W (request wiring operation as) (request other operation bs)) :
    Stateful.Matches R W (combineWritten wiring operation sources)
      (combineWritten other operation sources) := by
  have hread : Stateful.Matches R (List.Forall₂ V) (sources.mapM (readOrFail wiring))
      (sources.mapM (readOrFail other)) := by
    induction sources with
    | nil => exact .pure .nil
    | cons source rest ih =>
      rw [List.mapM_cons, List.mapM_cons]
      refine (matches_readOrFail h (hkind source)).bind fun a b hab => ?_
      exact ih.bind fun as bs hrest => .pure (.cons hab hrest)
  exact hread.bind hlast

end

/-- Engines with the same memos give the same answers. -/
theorem combineWritten_sameMemos {wiring other : Wiring} (hbases : wiring.base = other.base)
    (hbase : wiring.base.KeepsKnown) (hsink : ∀ entry, wiring.sink entry = .ok ())
    (hother : ∀ entry, other.sink entry = .ok ()) (operation : Operation) (sources : List String) :
    Stateful.Matches SameMemos (fun a b => a = b ∧ a.Known) (combineWritten wiring operation sources)
      (combineWritten other operation sources) := by
  refine matches_combineWritten (builders_sameMemos hbases hbase hsink hother)
    (fun _ _ => Rule.known_of_comesTo) fun as bs hsame => ?_
  obtain ⟨rfl, hknown⟩ := eq_of_forall₂ hsame
  have hr : Request.Known ⟨operation, as⟩ := hknown
  exact request_sameMemos hbases hbase hsink hother hr

end Engine

/-! ## What the entries show -/

/-- The entry shows a reading of the clock, and rules that can be written down and read again. -/
structure LogEntry.Legible (clock : Nat → String) (entry : LogEntry) : Prop where
  time : ∃ n, entry.timestamp = clock n
  rules : ∃ request result, entry.Describes request result ∧
    (∀ x ∈ request.operands, x.Expressible) ∧ result.Expressible

namespace Engine

/-- The memos and the journal show rules that can be written down and read again. -/
structure Legible (clock : Nat → String) (s : State) : Prop where
  memos : Holds (fun _ => Expressible) s.layers
  entries : ∀ entry ∈ s.journal.entries, entry.Legible clock

/-- One request on rules that can be written down and read again. -/
theorem request_legible (depth : Nat) (operation : Operation) {rules : List Rule}
    (hrules : ∀ x ∈ rules, x.Expressible) :
    Stateful.Matches (fun s t => s = t ∧ Legible clock s) (fun a b => a = b ∧ a.Expressible)
      (request (simplifying clock sink depth) operation rules)
      (request (simplifying clock sink depth) operation rules) := by
  rintro s _ ⟨rfl, hs⟩
  obtain ⟨hanswer, hmemos⟩ := serve_expressible depth operation hrules hs.memos s.journal
  refine ⟨.self fun a ha => ⟨rfl, hanswer a ha⟩, rfl, hmemos, ?_⟩
  refine serve_entries ?_ ?_ hs.memos hs.entries
  · exact fun _ _ hlayers memo hmemo => hlayers memo (List.mem_cons_of_mem _ hmemo)
  · intro below before result inner entry hlayers hserve htime hdescribes _
    have hresult := (serve_expressible depth operation hrules hlayers before).1 result
      (congrArg Prod.fst hserve)
    exact ⟨⟨_, htime⟩, _, _, hdescribes, hrules, hresult⟩

/-- Whatever combining written rules comes to, its entries are legible. -/
theorem legible_of_combineWritten (depth : Nat) (operation : Operation) (sources : List String)
    (options : Options) :
    ∀ entry ∈ (combineWritten (simplifying clock sink depth) operation sources
      (.initial options.layers)).2.journal.entries, entry.Legible clock := by
  have hbuilders : Stateful.Builders (fun s t => s = t ∧ Legible clock s) Expressible (fun _ _ => True)
      (fun a b => a = b ∧ a.Expressible) (request (simplifying clock sink depth))
      (request (simplifying clock sink depth)) :=
    { inside := fun _ _ h => (expressible_composite.mp h).2
      atom := fun _ h _ => ⟨trivial, rfl, h⟩
      request := by
        intro operation _ as bs _ _ hsame
        obtain ⟨rfl, hall⟩ := eq_of_forall₂ hsame
        exact (request_legible depth operation hall).imp fun _ _ hab => ⟨trivial, hab⟩ }
  have hmatches := @matches_combineWritten _ _ _ _ _ _ (fun a b => a = b ∧ a.Expressible) hbuilders
    operation sources (fun _ _ => expressible_of_comesTo) fun as bs hsame => by
      obtain ⟨rfl, hall⟩ := eq_of_forall₂ hsame
      exact request_legible depth operation hall
  have hinitial : Legible clock (.initial options.layers) :=
    ⟨holds_layers options, List.forall_mem_nil _⟩
  exact (hmatches _ _ ⟨rfl, hinitial⟩).2.2.entries

end Engine

end ExclusionAlgebra
