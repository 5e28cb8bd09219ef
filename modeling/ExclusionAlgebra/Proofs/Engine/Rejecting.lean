import ExclusionAlgebra.Proofs.Engine.Observers
import ExclusionAlgebra.Proofs.Rule.Faults

/-!
# Requests that a memo rejects

A memo takes the digest of every operand before it looks anything up, and digests are taken to the full
depth.  So a foreign value inside an operand ends the request there, whatever the base would have made
of it; and since nothing outside the memo has done anything by then, no trace of the request is left.

* `Engine.serve_of_firstForeignIn?`: one request to layers with a memo among them.
* `Engine.length_memos_serve`, `Session.memos_runFrom_ne_nil`: a session leaves the memos where they are.
* `Session.reached`, `Session.rulesGiven`, `Session.run_append_cons`: what a step in a session finds.
* `Session.rejects_foreign`: the request in any session on the usual engine with a memo.
-/

namespace ExclusionAlgebra

open Rule

namespace Engine

variable {wiring : Wiring} {operation : Operation} {rules : List Rule} {layers : List Layer}

/-- The memo gives up at the key.  The layers around it pass the fault on and stay as they are. -/
theorem serve_of_firstForeignIn? (hmemos : memos layers ≠ []) {value : Foreign}
    (h : firstForeignIn? rules = some value) (journal : Journal) :
    serve wiring operation rules layers journal = (.error (.foreign value), ⟨layers, journal⟩) := by
  induction layers with
  | nil => exact absurd rfl hmemos
  | cons layer below ih =>
    cases layer with
    | forwarding => rw [serve, ih hmemos]
    | logging kept => rw [serve, ih hmemos]
    | caching memo =>
      have hkey : Memo.key operation rules = .error (.foreign value) := by
        rw [Memo.key, mapM_hash_of_firstForeignIn? h]
        rfl
      rw [serve, hkey]

/-- No request adds a memo or takes one away. -/
theorem length_memos_serve (wiring : Wiring) (operation : Operation) (rules : List Rule)
    (layers : List Layer) (journal : Journal) :
    (memos (serve wiring operation rules layers journal).2.layers).length = (memos layers).length := by
  induction layers with
  | nil => rfl
  | cons layer below ih =>
    cases layer with
    | forwarding => exact ih
    | logging kept =>
      rw [serve]
      revert ih
      rcases serve wiring operation rules below journal with ⟨fault | result, after⟩
      · exact id
      · exact id
    | caching memo =>
      rw [serve]
      cases Memo.key operation rules with
      | error fault => rfl
      | ok key =>
        dsimp only
        cases memo.find? key with
        | some found => rfl
        | none =>
          revert ih
          rcases serve wiring operation rules below journal with ⟨fault | result, after⟩
          · exact congrArg (· + 1)
          · exact congrArg (· + 1)

end Engine

namespace Session

variable {wiring : Engine.Wiring}

theorem memos_runFrom_ne_nil (answers : List (Option Rule)) {state : Engine.State} (steps : List Step)
    (h : Engine.memos state.layers ≠ []) :
    Engine.memos (runFrom wiring answers state steps).2.layers ≠ [] := by
  refine runFrom_invariant (I := fun s => Engine.memos s.layers ≠ []) ?_ ?_ ?_ answers steps h
  · intro operation rules s hs
    have hlength := Engine.length_memos_serve wiring operation rules s.layers s.journal
    rw [← List.length_pos_iff] at hs ⊢
    exact hlength ▸ hs
  · intro s hs
    rw [Engine.State.clearCaches, Engine.memos_forget]
    exact fun hempty => hs (List.map_eq_nil_iff.mp hempty)
  · exact fun _ hs => hs

/-- The engine after the session.  It is not to be computed where two states are compared. -/
@[irreducible]
def reached (wiring : Engine.Wiring) (layers : List Layer) (steps : List Step) : Engine.State :=
  (runFrom wiring [] (.initial layers) steps).2

/-- What the steps of the session give to a step that follows them. -/
def rulesGiven (wiring : Engine.Wiring) (layers : List Layer) (steps : List Step) :
    List (Option Rule) :=
  (run wiring layers steps).map fun report => report.answer.rule?

/-- The report on a step in a session, and those on the steps after it. -/
theorem run_append_cons (layers : List Layer) (before : List Step) (step : Step) (after : List Step) :
    let given := rulesGiven wiring layers before
    let outcome := step.run wiring given (reached wiring layers before)
    run wiring layers (before ++ step :: after) =
      run wiring layers before ++ .of outcome.1 outcome.2 ::
        (runFrom wiring (given ++ [outcome.1.rule?]) outcome.2 after).1 := by
  simp [run, rulesGiven, reached, runFrom_append, runFrom]

/-- The step that asks for it fails, and the engine is as it was. -/
theorem Step.run_combine_foreign {answers : List (Option Rule)} {state : Engine.State}
    {operation : Operation} {operands : List Term} {rules : List Rule} {value : Foreign}
    (hmemos : Engine.memos state.layers ≠ [])
    (hrules : Term.resolveList answers operands = .ok rules)
    (hvalue : firstForeignIn? rules = some value) :
    (Step.combine operation operands).run wiring answers state = (.failed (.foreign value), state) := by
  rw [run_combine hrules, Engine.request, Engine.serve_of_firstForeignIn? hmemos hvalue]
  rfl

/-- **A memo rejects foreign values without a trace.** Take the usual engine with a memo, with or without
a journal, over any base, clock and receiver, and any session on it.  A request with a foreign value
anywhere inside its operands fails, whatever the base would make of them, and names the first such
value; the engine, that is, its memo, its journal and the readings of the clock, is what it was.  A
session that goes on after such a request has the very reports that it has without the request, where
the journal is looked at in its place so that the steps have the same numbers. -/
theorem rejects_foreign (wiring : Engine.Wiring) (journal : Bool) (before : List Step)
    (operation : Operation) {operands : List Term} {rules : List Rule}
    (hrules : Term.resolveList (rulesGiven wiring (Engine.Options.layers ⟨true, journal⟩) before)
      operands = .ok rules)
    (hforeign : ∃ rule ∈ rules, ∃ value, .foreign value ∈ rule.nodes) :
    let layers := Engine.Options.layers ⟨true, journal⟩
    let state := reached wiring layers before
    ∃ value, firstForeignIn? rules = some value ∧
      Engine.request wiring operation rules state = (.error (.foreign value), state) ∧
      ∀ after, ∃ later,
        run wiring layers (before ++ .combine operation operands :: after) =
          run wiring layers before ++ .of (.failed (.foreign value)) state :: later ∧
        run wiring layers (before ++ .journal :: after) =
          run wiring layers before ++ .of (.entries state.journal.entries) state :: later := by
  intro layers state
  obtain ⟨value, hvalue⟩ := exists_firstForeignIn? hforeign
  have hstart : Engine.memos (Engine.State.initial layers).layers ≠ [] := by
    cases journal <;> exact List.cons_ne_nil _ _
  have hmemos : Engine.memos state.layers ≠ [] := by
    unfold state reached
    exact memos_runFrom_ne_nil [] before hstart
  refine ⟨value, hvalue, Engine.serve_of_firstForeignIn? hmemos hvalue state.journal, ?_⟩
  intro after
  -- Neither step gives a rule to those that follow, and both leave the engine as it is.
  refine ⟨(runFrom wiring (rulesGiven wiring layers before ++ [none]) state after).1, ?_, ?_⟩
  · rw [run_append_cons, Step.run_combine_foreign hmemos hrules hvalue]
    rfl
  · rw [run_append_cons]
    rfl

/-- Requests that are answered by the base and by the memo, before and after the memo is emptied. -/
def hitsAndMisses : List Step :=
  [.parse "any(a, b:m)", .combine .anyOf [.answer 0, .given .nothing],
    .combine .anyOf [.answer 0, .given .nothing], .clearCaches, .combine .allOf [.written "a:*"]]

/-- Simplification alone does not look at what stands beside everything. -/
theorem rejects_foreign_beside_everything :
    let wiring : Engine.Wiring := ⟨Base.simplifying 3, fun n => toString n, Engine.acceptAll⟩
    let layers := Engine.Options.layers ⟨true, true⟩
    let bogus : Foreign := ⟨.object (some (.text "bogus")), 0, rfl⟩
    let rules : List Rule := [.everything, .composite .allOf [.nothing, .foreign bogus]]
    let operands : List Term :=
      [.given .everything, .composite .allOf [.given .nothing, .given (.foreign bogus)]]
    let state := reached wiring layers hitsAndMisses
    wiring.base .anyOf rules = .ok .everything ∧
      Term.resolveList (rulesGiven wiring layers hitsAndMisses) operands = .ok rules ∧
      (∃ rule ∈ rules, ∃ value, .foreign value ∈ rule.nodes) ∧
      Engine.request wiring .anyOf rules state = (.error (.foreign bogus), state) ∧
      ∀ after, ∃ later,
        run wiring layers (hitsAndMisses ++ .combine .anyOf operands :: after) =
          run wiring layers hitsAndMisses ++ .of (.failed (.foreign bogus)) state :: later ∧
        run wiring layers (hitsAndMisses ++ .journal :: after) =
          run wiring layers hitsAndMisses ++ .of (.entries state.journal.entries) state :: later := by
  intro wiring layers bogus rules operands state
  -- The operands use no answers of the session, which need not be run for them.
  have hresolve : ∀ given, Term.resolveList given operands = .ok rules := fun _ => rfl
  have hrules := hresolve (rulesGiven wiring layers hitsAndMisses)
  have hforeign : ∃ rule ∈ rules, ∃ value, .foreign value ∈ rule.nodes :=
    ⟨_, List.mem_cons_of_mem _ List.mem_cons_self, bogus, by simp [nodes, nodesIn]⟩
  obtain ⟨value, hvalue, hrequest, hafter⟩ :=
    rejects_foreign wiring true hitsAndMisses .anyOf hrules hforeign
  have hbogus : bogus = value := Option.some.inj hvalue
  subst hbogus
  exact ⟨rfl, hrules, hforeign, hrequest, hafter⟩

end Session

end ExclusionAlgebra
