import ExclusionAlgebra.Proofs.Engine.Entries
import ExclusionAlgebra.Proofs.Engine.Keeping
import ExclusionAlgebra.Proofs.Simplify.Returning

/-!
# Engines that come to an end

Given raw rules, simplification may go on without end.  An engine that builds a rule again asks for
combinations of simplified rules only, since what it has built before was simplified too, and so was
what its memos hold.  Those combinations return, from some depth on, and so does the engine, unless a
receiver of the journal refuses an entry.

* `Engine.simplifying`: the wirings that simplify, by the depth that is granted.
* `Engine.Calm`: what is remembered is settled, and the receiver refuses for known reasons only.
* `Engine.Concludes`: an action that comes to one outcome from some depth on.
* `Engine.ends_serve`, `Engine.concludes_rebuild`: one request, and a rule that is built again.
* `Engine.Concludes.returns`, `Engine.returns_rebuild`: it returns if nothing can be refused.
-/

namespace ExclusionAlgebra

namespace Engine

open Simplify

/-- The wirings with simplification as their base, by the depth that is granted. -/
def simplifying (clock : Nat → String) (sink : LogEntry → Except SinkFault Unit) (depth : Nat) :
    Wiring :=
  ⟨Base.simplifying depth, clock, sink⟩

variable {clock : Nat → String} {sink : LogEntry → Except SinkFault Unit} {E : Fault → Prop}

/-- What the memos hold is settled, and if some layer passes entries on, the faults of their receiver
satisfy the condition. -/
structure Calm (sink : LogEntry → Except SinkFault Unit) (E : Fault → Prop) (layers : List Layer) :
    Prop where
  settled : Holds (fun _ => Settled) layers
  refused : .logging true ∈ layers → ∀ entry refusal, sink entry = .error refusal → E (.sink refusal)

namespace Calm

variable {layer : Layer} {memo : Memo} {below : List Layer}

theorem nil : Calm sink E [] := ⟨nofun, nofun⟩

theorem below_cons (h : Calm sink E (layer :: below)) : Calm sink E below := by
  refine ⟨fun memo hmemo => h.settled memo (List.mem_cons_of_mem _ hmemo), fun hkept => ?_⟩
  exact h.refused (List.mem_cons_of_mem _ hkept)

theorem forwarding (h : Calm sink E below) : Calm sink E (.forwarding :: below) :=
  ⟨holds_forwarding.mpr h.settled, fun hkept => h.refused (by simpa using hkept)⟩

theorem logging {kept : Bool} (h : Calm sink E below)
    (hkept : kept = true → ∀ entry refusal, sink entry = .error refusal → E (.sink refusal)) :
    Calm sink E (.logging kept :: below) := by
  refine ⟨holds_logging.mpr h.settled, fun hmem => ?_⟩
  rcases List.mem_cons.mp hmem with hself | hmem
  · cases hself
    exact hkept rfl
  · exact h.refused hmem

theorem caching (hmemo : ∀ key rule, (key, rule) ∈ memo.entries → Settled rule)
    (h : Calm sink E below) : Calm sink E (.caching memo :: below) :=
  ⟨holds_caching.mpr ⟨hmemo, h.settled⟩, fun hkept => h.refused (by simpa using hkept)⟩

theorem insert (key : Memo.Key) (hmemo : ∀ key rule, (key, rule) ∈ memo.entries → Settled rule)
    {r : Rule} (hr : Settled r) (h : Calm sink E below) :
    Calm sink E (.caching (memo.insert key r) :: below) :=
  ⟨holds_insert hmemo hr h.settled, fun hkept => h.refused (by simpa using hkept)⟩

theorem of_options {options : Options}
    (h : options.journal = true → ∀ entry refusal, sink entry = .error refusal → E (.sink refusal)) :
    Calm sink E options.layers := by
  refine ⟨holds_layers options, fun hkept => h ?_⟩
  obtain ⟨cache, journal⟩ := options
  cases cache <;> cases journal <;> simp [Options.layers] at hkept ⊢

theorem layers (cache : Bool) : Calm sink E (Options.layers ⟨cache, false⟩) :=
  of_options nofun

end Calm

/-! ## One request -/

/-- On rules without foreign values an entry is drawn up, so that only its receiver can fail. -/
theorem outcome_record {wiring : Wiring} {kept : Bool} {operation : Operation} {rules : List Rule}
    {result : Rule} {journal : Journal} (hrules : ∀ x ∈ rules, x.Known) (hresult : result.Known)
    (hrefused : kept = true → ∀ entry refusal, wiring.sink entry = .error refusal →
      E (.sink refusal)) :
    Outcome (fun _ => True) E (record wiring kept operation rules result journal).1 := by
  obtain ⟨entry, hdraft⟩ :=
    LogEntry.exists_draft (wiring.clock journal.readings) operation hrules hresult
  rw [record, hdraft]
  cases kept with
  | false => exact trivial
  | true =>
    dsimp only
    cases hsink : wiring.sink entry with
    | ok _ => exact trivial
    | error refusal => exact hrefused rfl entry refusal hsink

/-- The outcome satisfies the conditions, and the state is calm. -/
def EndsCalm {α : Type} (sink : LogEntry → Except SinkFault Unit) (E : Fault → Prop) (R : α → Prop)
    (last : Except Fault α × State) : Prop :=
  Outcome R E last.1 ∧ Calm sink E last.2.layers

section

variable {operation : Operation} {rules : List Rule} {below : List Layer} {journal : Journal}

theorem ends_serve_forwarding (hbelow : Ends (EndsCalm sink E Settled) fun depth =>
      serve (simplifying clock sink depth) operation rules below journal) :
    Ends (EndsCalm sink E Settled) fun depth =>
      serve (simplifying clock sink depth) operation rules (.forwarding :: below) journal := by
  rw [ends_iff] at hbelow ⊢
  obtain ⟨⟨answer, after⟩, ⟨hanswer, hafter⟩, bound, hreturns⟩ := hbelow
  refine ⟨(answer, ⟨.forwarding :: after.layers, after.journal⟩), ⟨hanswer, hafter.forwarding⟩, bound,
    fun depth hdepth => ?_⟩
  rw [serve, hreturns depth hdepth]

/-- What comes back from below is recorded, unless it is a fault. -/
theorem ends_serve_logging {kept : Bool} (hrules : ∀ x ∈ rules, x.Known)
    (hkept : kept = true → ∀ entry refusal, sink entry = .error refusal → E (.sink refusal))
    (hbelow : Ends (EndsCalm sink E Settled) fun depth =>
      serve (simplifying clock sink depth) operation rules below journal) :
    Ends (EndsCalm sink E Settled) fun depth =>
      serve (simplifying clock sink depth) operation rules (.logging kept :: below) journal := by
  rw [ends_iff] at hbelow ⊢
  obtain ⟨⟨answer, after⟩, ⟨hanswer, hafter⟩, bound, hreturns⟩ := hbelow
  cases answer with
  | error fault =>
    refine ⟨(.error fault, ⟨.logging kept :: after.layers, after.journal⟩),
      ⟨hanswer, hafter.logging hkept⟩, bound, fun depth hdepth => ?_⟩
    rw [serve, hreturns depth hdepth]
  | ok result =>
    have hresult : Settled result := hanswer
    -- Recording looks at the clock and the receiver only, which are the same at every depth.
    have hsame : ∀ depth, record (simplifying clock sink depth) kept operation rules result
        after.journal = record (simplifying clock sink 0) kept operation rules result
          after.journal := fun _ => rfl
    have hrecord : Outcome (fun _ => True) E (record (simplifying clock sink 0) kept operation
        rules result after.journal).1 := outcome_record hrules hresult.known hkept
    rcases hrecorded : record (simplifying clock sink 0) kept operation rules result
      after.journal with ⟨recorded, written⟩
    rw [hrecorded] at hrecord
    refine ⟨(recorded.map fun _ => result, ⟨.logging kept :: after.layers, written⟩),
      ⟨?_, hafter.logging hkept⟩, bound, fun depth hdepth => ?_⟩
    · cases recorded with
      | error fault => exact hrecord
      | ok _ => exact hresult
    · rw [serve, hreturns depth hdepth]
      dsimp only
      rw [hsame, hrecorded]

/-- A memo finds a settled answer, or takes in the one that comes back from below. -/
theorem ends_serve_caching {memo : Memo} (hrules : ∀ x ∈ rules, x.Known)
    (hlayers : Calm sink E (.caching memo :: below))
    (hbelow : Ends (EndsCalm sink E Settled) fun depth =>
      serve (simplifying clock sink depth) operation rules below journal) :
    Ends (EndsCalm sink E Settled) fun depth =>
      serve (simplifying clock sink depth) operation rules (.caching memo :: below) journal := by
  rw [ends_iff] at hbelow ⊢
  obtain ⟨⟨answer, after⟩, ⟨hanswer, hafter⟩, bound, hreturns⟩ := hbelow
  obtain ⟨hmemo, -⟩ := holds_caching.mp hlayers.settled
  have hknown : Request.Known ⟨operation, rules⟩ := hrules
  have hkey : Memo.key operation rules = .ok (Request.key ⟨operation, rules⟩) :=
    Memo.key_of_known hknown
  cases hfound : memo.find? (Request.key ⟨operation, rules⟩) with
  | some found =>
    have hsettled := hmemo _ _ (Memo.mem_of_find? hfound)
    refine ⟨(.ok found, ⟨.caching memo :: below, journal⟩), ⟨hsettled, hlayers⟩, 0,
      fun depth _ => ?_⟩
    simp only [serve, hkey, hfound]
  | none =>
    cases answer with
    | error fault =>
      refine ⟨(.error fault, ⟨.caching memo :: after.layers, after.journal⟩),
        ⟨hanswer, hafter.caching hmemo⟩, bound, fun depth hdepth => ?_⟩
      simp only [serve, hkey, hfound, hreturns depth hdepth]
    | ok result =>
      refine ⟨(.ok result, ⟨.caching (memo.insert _ result) :: after.layers, after.journal⟩),
        ⟨hanswer, hafter.insert (Request.key ⟨operation, rules⟩) hmemo hanswer⟩, bound,
        fun depth hdepth => ?_⟩
      simp only [serve, hkey, hfound, hreturns depth hdepth]

end

/-- A request for a combination of settled rules, by induction on the layers that it passes.  At the
bottom simplification returns. -/
theorem ends_serve (operation : Operation) {rules : List Rule} (hrules : ∀ x ∈ rules, Settled x)
    {layers : List Layer} (hlayers : Calm sink E layers) (journal : Journal) :
    Ends (EndsCalm sink E Settled) fun depth =>
      serve (simplifying clock sink depth) operation rules layers journal := by
  have hknown : ∀ x ∈ rules, x.Known := fun x hx => (hrules x hx).known
  induction layers with
  | nil =>
    rw [ends_iff]
    obtain ⟨r, hr, bound, hreturns⟩ := exists_combineAll_of_settled operation hrules
    refine ⟨(.ok r, ⟨[], journal⟩), ⟨hr, .nil⟩, bound, fun depth hdepth => ?_⟩
    have hanswer : (simplifying clock sink depth).base operation rules = .ok r :=
      hreturns depth hdepth
    rw [serve, hanswer]
  | cons layer below ih =>
    have hbelow := ih hlayers.below_cons
    cases layer with
    | forwarding => exact ends_serve_forwarding hbelow
    | logging kept =>
      refine ends_serve_logging hknown ?_ hbelow
      rintro rfl
      exact hlayers.refused List.mem_cons_self
    | caching memo => exact ends_serve_caching hknown hlayers hbelow

/-! ## Actions -/

/-- From some depth on the action comes to one outcome, and leaves one calm state behind. -/
def Concludes {α : Type} (sink : LogEntry → Except SinkFault Unit) (E : Fault → Prop) (R : α → Prop)
    (x : Nat → Action α) : Prop :=
  ∀ s : State, Calm sink E s.layers → Ends (EndsCalm sink E R) fun depth => x depth s

section

variable {α β : Type} {R : α → Prop} {S : β → Prop}

theorem concludes_pure {a : α} (h : R a) : Concludes sink E R fun _ => (pure a : Action α) :=
  fun _ hs => ends_const ⟨h, hs⟩

theorem concludes_throw {fault : Fault} (h : E fault) :
    Concludes sink E R fun _ => (throw fault : Action α) :=
  fun _ hs => ends_const ⟨h, hs⟩

/-- What follows an action may count on one result of it, from some depth on. -/
theorem concludes_bind {x : Nat → Action α} {f : Nat → α → Action β} (hx : Concludes sink E R x)
    (hf : ∀ a, R a → Concludes sink E S fun depth => f depth a) :
    Concludes sink E S fun depth => x depth >>= f depth := by
  intro s hs
  simp only [ends_iff, bind_apply]
  obtain ⟨⟨answer, t⟩, ⟨hanswer, ht⟩, first, hrun⟩ := ends_iff.mp (hx s hs)
  cases answer with
  | error fault =>
    refine ⟨(.error fault, t), ⟨hanswer, ht⟩, first, fun depth hdepth => ?_⟩
    rw [hrun depth hdepth]
  | ok a =>
    obtain ⟨last, hlast, second, hnext⟩ := ends_iff.mp (hf a hanswer t ht)
    refine ⟨last, hlast, max first second, fun depth hdepth => ?_⟩
    rw [hrun depth (by omega)]
    exact hnext depth (by omega)

end

theorem concludes_request (operation : Operation) {rules : List Rule}
    (hrules : ∀ x ∈ rules, Settled x) :
    Concludes sink E Settled fun depth => request (simplifying clock sink depth) operation rules :=
  fun s hs => ends_serve operation hrules hs s.journal

theorem concludes_rebuildEach {trees : List Rule}
    (htrees : ∀ tree ∈ trees, Concludes sink E Settled fun depth =>
      tree.rebuild (request (simplifying clock sink depth))) :
    Concludes sink E (fun rules => ∀ x ∈ rules, Settled x) fun depth =>
      Rule.rebuildEach (request (simplifying clock sink depth)) trees := by
  induction trees with
  | nil => exact concludes_pure (List.forall_mem_nil _)
  | cons tree rest ih =>
    rw [List.forall_mem_cons] at htrees
    simp only [Rule.rebuildEach]
    refine concludes_bind htrees.1 fun first hfirst => ?_
    refine concludes_bind (ih htrees.2) fun others hothers => ?_
    exact concludes_pure (List.forall_mem_cons.mpr ⟨hfirst, hothers⟩)

/-- Building a rule again, whatever its shape, by induction on the rule. -/
theorem concludes_rebuild {tree : Rule} (htree : tree.Known) :
    Concludes sink E Settled fun depth => tree.rebuild (request (simplifying clock sink depth)) := by
  induction tree with
  | everything => exact concludes_pure .everything
  | nothing => exact concludes_pure .nothing
  | pattern p => exact concludes_pure (.pattern p)
  | foreign value => exact absurd htree (Rule.not_known_foreign value)
  | composite operation components ih =>
    rw [Rule.known_composite] at htree
    simp only [Rule.rebuild]
    refine concludes_bind (concludes_rebuildEach fun c hc => ih c hc (htree c hc)) ?_
    exact fun rules hrules => concludes_request operation hrules

/-- Where nothing can be refused, there is a result. -/
theorem Concludes.returns {α : Type} {R : α → Prop} {x : Nat → Action α}
    (h : Concludes sink (fun _ => False) R x) (s : State) (hs : Calm sink (fun _ => False) s.layers) :
    ∃ result, R result ∧ ∃ after : State, Calm sink (fun _ => False) after.layers ∧
      ∃ bound, ∀ depth, bound ≤ depth → x depth s = (.ok result, after) := by
  obtain ⟨⟨answer, after⟩, ⟨hanswer, hafter⟩, bound, hreturns⟩ := h s hs
  obtain ⟨result, rfl, hresult⟩ := hanswer.exists_ok
  exact ⟨result, hresult, after, hafter, bound, hreturns⟩

theorem returns_rebuild {tree : Rule} (htree : tree.Known) (s : State)
    (hs : Calm sink (fun _ => False) s.layers) :
    ∃ result, Settled result ∧ ∃ after : State, Calm sink (fun _ => False) after.layers ∧
      ∃ bound, ∀ depth, bound ≤ depth →
        tree.rebuild (request (simplifying clock sink depth)) s = (.ok result, after) :=
  (concludes_rebuild htree).returns s hs

end Engine

end ExclusionAlgebra
