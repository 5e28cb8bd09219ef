import ExclusionAlgebra.Proofs.Engine.Matching

/-!
# The exchanges of a session

A step of a session may come to many requests: one for each composite of a text, also of a text that
is given up in the end.  Each of them is an exchange with the engine.

* `Exchange`: a request, what came from behind the outermost layer, and the outcome.
* `Engine.watch`: a request, with the exchanges listed; `Engine.readWith_watch`: watching changes
  nothing about what is read.
* `Session.exchanges`: the exchanges of a whole session.
* `Session.exchangesFrom_keeps`: an invariant of the exchanges so far and the engine.
-/

namespace ExclusionAlgebra

/-- A request to an engine: what the layers behind the outermost one answered, and what the engine
did. -/
structure Exchange where
  request : Request
  inner : Except Fault Rule
  outcome : Except Fault Rule

/-- The layers behind the outermost one gave a rule. -/
def Exchange.answered (exchange : Exchange) : Bool := exchange.inner.isOk

/-- The engine gave a rule. -/
def Exchange.returned (exchange : Exchange) : Bool := exchange.outcome.isOk

namespace Engine

variable (wiring : Wiring)

/-- The exchange that a request amounts to. -/
def exchange (operation : Operation) (rules : List Rule) (s : State) : Exchange where
  request := ⟨operation, rules⟩
  inner := (serve wiring operation rules s.layers.tail s.journal).1
  outcome := (request wiring operation rules s).1

/-- A request that is put down behind the exchanges so far. -/
def watch (operation : Operation) (rules : List Rule) : Stateful (List Exchange × State) Rule :=
  fun s =>
    let (outcome, after) := request wiring operation rules s.2
    (outcome, s.1 ++ [exchange wiring operation rules s.2], after)

end Engine

namespace Session

/-- The exchanges that a step comes to. -/
def Step.exchanges (wiring : Engine.Wiring) (answers : List (Option Rule)) (state : Engine.State) :
    Step → List Exchange
  | .combine operation operands =>
    match Term.resolveList answers operands with
    | .ok rules => [Engine.exchange wiring operation rules state]
    | .error _ => []
  | .parse source => (Rule.readWith (Engine.watch wiring) source ([], state)).2.1
  | _ => []

def exchangesFrom (wiring : Engine.Wiring) (answers : List (Option Rule)) (state : Engine.State) :
    List Step → List Exchange
  | [] => []
  | step :: rest =>
    let (answer, after) := step.run wiring answers state
    step.exchanges wiring answers state ++ exchangesFrom wiring (answers ++ [answer.rule?]) after rest

/-- The exchanges that a session comes to, in order. -/
def exchanges (wiring : Engine.Wiring) (layers : List Layer) (steps : List Step) : List Exchange :=
  exchangesFrom wiring [] (.initial layers) steps

end Session

/-! ## Watching -/

namespace Engine

open Stateful

variable (wiring : Wiring)

/-- Watching changes nothing about a request. -/
theorem builders_watch_request :
    Builders (fun s t => s.2 = t) (fun _ => True) (fun _ _ => True) Eq (watch wiring)
      (request wiring) where
  inside _ _ _ _ _ := trivial
  atom _ _ _ := ⟨trivial, rfl⟩
  request := by
    rintro operation _ as bs - - hsame ⟨past, s⟩ _ rfl
    rw [List.forall₂_eq_eq_eq] at hsame
    subst hsame
    exact ⟨.self fun _ _ => ⟨trivial, rfl⟩, rfl⟩

/-- Watching changes nothing about what is read and where that leads. -/
theorem readWith_watch (source : String) (past : List Exchange) (s : State) :
    Matched (Matched Eq) (Rule.readWith (watch wiring) source (past, s)).1 (read wiring source s).1 ∧
      (Rule.readWith (watch wiring) source (past, s)).2.2 = (read wiring source s).2 :=
  (builders_watch_request wiring).readWith source (fun _ _ _ _ => trivial) (past, s) s rfl

variable {wiring} {I : List Exchange → State → Prop}

/-- What holds of the exchanges so far and the engine after each request goes on to hold, whether the
exchanges before are listed or not. -/
theorem builders_watch
    (hrequest : ∀ operation rules past s, I past s →
      I (past ++ [exchange wiring operation rules s]) (request wiring operation rules s).2)
    (past : List Exchange) :
    Builders (fun s t => s = (past ++ t.1, t.2) ∧ I s.1 s.2) (fun _ => True) (fun _ _ => True) Eq
      (watch wiring) (watch wiring) where
  inside _ _ _ _ _ := trivial
  atom _ _ _ := ⟨trivial, rfl⟩
  request := by
    rintro operation _ as bs - - hsame _ ⟨recent, t⟩ ⟨rfl, hI⟩
    rw [List.forall₂_eq_eq_eq] at hsame
    subst hsame
    refine ⟨.self fun _ _ => ⟨trivial, rfl⟩, ?_, hrequest operation as (past ++ recent) t hI⟩
    exact Prod.ext (List.append_assoc past recent _) rfl

end Engine

/-! ## Whole sessions -/

namespace Session

variable {wiring : Engine.Wiring} {I : List Exchange → Engine.State → Prop}
  (hrequest : ∀ operation rules past s, I past s →
    I (past ++ [Engine.exchange wiring operation rules s]) (Engine.request wiring operation rules s).2)
  (hclear : ∀ past s, I past s → I past s.clearCaches)
include hrequest hclear

/-- One step that does not clear the journal. -/
theorem Step.exchanges_keeps {step : Step} (hstep : step ≠ .clearJournal)
    (answers : List (Option Rule)) {past : List Exchange} {s : Engine.State} (h : I past s) :
    I (past ++ step.exchanges wiring answers s) (step.run wiring answers s).2 := by
  cases step with
  | combine operation operands =>
    cases hrules : Term.resolveList answers operands with
    | error fault =>
      simp only [exchanges, run, hrules, List.append_nil]
      exact h
    | ok rules =>
      rw [run_combine hrules]
      simp only [exchanges, hrules]
      exact hrequest operation rules past s h
  | parse source =>
    obtain ⟨-, hafter⟩ := Engine.readWith_watch wiring source [] s
    have hreading := (Engine.builders_watch hrequest past).readWith source fun _ _ _ _ => trivial
    obtain ⟨-, hpast, hI⟩ := hreading (past, s) ([], s) ⟨by rw [List.append_nil], h⟩
    rw [run_parse_eq, exchanges, ← hafter]
    rw [hpast] at hI
    exact hI
  | clearJournal => exact absurd rfl hstep
  | clearCaches =>
    simp only [exchanges, run, List.append_nil]
    exact hclear past s h
  | everything | nothing | pattern p | journal =>
    simp only [exchanges, run, List.append_nil]
    exact h

/-- A whole session, by induction on its steps. -/
theorem exchangesFrom_keeps {steps : List Step} (hsteps : ∀ step ∈ steps, step ≠ .clearJournal)
    (answers : List (Option Rule)) {past : List Exchange} {s : Engine.State} (h : I past s) :
    I (past ++ exchangesFrom wiring answers s steps) (runFrom wiring answers s steps).2 := by
  induction steps generalizing answers past s with
  | nil =>
    rw [exchangesFrom, List.append_nil]
    exact h
  | cons step rest ih =>
    rw [List.forall_mem_cons] at hsteps
    rw [exchangesFrom, runFrom, ← List.append_assoc]
    exact ih hsteps.2 _ (Step.exchanges_keeps hrequest hclear hsteps.1 answers h)

end Session

end ExclusionAlgebra
