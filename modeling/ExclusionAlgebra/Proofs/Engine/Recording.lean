import ExclusionAlgebra.Proofs.Engine.Entries
import ExclusionAlgebra.Proofs.Engine.Exchanges
import ExclusionAlgebra.Proofs.Simplify.Foreign

/-!
# What the journal records

The usual engine has its recording layer outermost, before the memo if there is one.  It has an entry
for each request that returned, and the clock has been read for each request that was answered from
behind the recording layer, whether it could be written down or not.

* `Exchange.Lawful`: the ways in which a request may fare.
* `Journal.Records`: the journal tells what has returned, in order, and when.
* `Engine.request_records`: one request.
* `Session.journal_records`: the journal after any session that does not clear it.
-/

namespace ExclusionAlgebra

/-! ## Exchanges and entries -/

/-- A fault from behind the recording layer goes through.  So does a rule, unless it or some operand
cannot be written down. -/
inductive Exchange.Lawful : Exchange → Prop
  | returned (request : Request) (result : Rule) : Lawful ⟨request, .ok result, .ok result⟩
  | unwritten {request : Request} {result x : Rule} {fault : Fault}
    (hx : x ∈ request.operands ∨ x = result) (hfault : x.format = .error fault) :
    Lawful ⟨request, .ok result, .error fault⟩
  | failed (request : Request) (fault : Fault) : Lawful ⟨request, .error fault, .error fault⟩

/-- There is one reading of the clock for each request that was answered, and one entry for each
request that returned.  Its entry stands where as many have returned before it, and shows the time of
the reading before which as many were answered. -/
structure Journal.Records (clock : Nat → String) (history : List Exchange) (journal : Journal) :
    Prop where
  readings : journal.readings = history.countP Exchange.answered
  length : journal.entries.length = history.countP Exchange.returned
  entry : ∀ before exchange after result, history = before ++ exchange :: after →
    exchange.outcome = .ok result →
      ∃ entry, journal.entries[before.countP Exchange.returned]? = some entry ∧
        entry.timestamp = clock (before.countP Exchange.answered) ∧
        entry.Describes exchange.request result

namespace Journal.Records

variable {clock : Nat → String} {history : List Exchange} {journal : Journal}

theorem nil : Records clock [] .empty := by
  refine ⟨rfl, rfl, ?_⟩
  intro before exchange after result hsplit
  exact absurd hsplit.symm (List.append_ne_nil_of_right_ne_nil _ (List.cons_ne_nil _ _))

/-- One more exchange, with the entries that are new. -/
theorem snoc (h : Records clock history journal) {exchange : Exchange} {after : Journal}
    {new : List LogEntry}
    (hreadings : after.readings = journal.readings + if exchange.answered then 1 else 0)
    (hentries : after.entries = journal.entries ++ new)
    (hlength : new.length = if exchange.returned then 1 else 0)
    (hnew : ∀ result, exchange.outcome = .ok result → ∃ entry : LogEntry, new = [entry] ∧
      entry.timestamp = clock journal.readings ∧ entry.Describes exchange.request result) :
    Records clock (history ++ [exchange]) after := by
  refine ⟨?_, ?_, ?_⟩
  · rw [hreadings, h.readings, List.countP_append, List.countP_singleton]
  · rw [hentries, List.length_append, h.length, hlength, List.countP_append, List.countP_singleton]
  · intro before other later result hsplit houtcome
    rcases List.eq_nil_or_concat later with rfl | ⟨later, last, rfl⟩
    · -- It is the new exchange.
      obtain ⟨rfl, hother⟩ := List.append_inj' hsplit rfl
      cases hother
      obtain ⟨entry, rfl, htime, hdescribes⟩ := hnew result houtcome
      refine ⟨entry, ?_, ?_, hdescribes⟩
      · rw [hentries, ← h.length]
        exact List.getElem?_concat_length
      · rw [htime, h.readings]
    · -- It is an earlier exchange, whose entry stays where it is.
      rw [List.concat_eq_append, ← List.cons_append, ← List.append_assoc] at hsplit
      obtain ⟨hhistory, -⟩ := List.append_inj' hsplit rfl
      obtain ⟨entry, hentry, htime, hdescribes⟩ := h.entry before other later result hhistory houtcome
      refine ⟨entry, ?_, htime, hdescribes⟩
      obtain ⟨hlt, -⟩ := List.getElem?_eq_some_iff.mp hentry
      rw [hentries, List.getElem?_append_left hlt, hentry]

variable (h : Records clock history journal) {request : Request}
include h

theorem failed (fault : Fault) :
    Records clock (history ++ [⟨request, .error fault, .error fault⟩]) journal := by
  refine h.snoc rfl (List.append_nil _).symm rfl ?_
  exact nofun

theorem unwritten (result : Rule) (fault : Fault) :
    Records clock (history ++ [⟨request, .ok result, .error fault⟩]) journal.tick := by
  refine h.snoc rfl (List.append_nil _).symm rfl ?_
  exact nofun

theorem returned {result : Rule} {entry : LogEntry} (htime : entry.timestamp = clock journal.readings)
    (hdescribes : entry.Describes request result) :
    Records clock (history ++ [⟨request, .ok result, .ok result⟩]) (journal.tick.append entry) := by
  refine h.snoc rfl rfl rfl ?_
  rintro _ ⟨⟩
  exact ⟨entry, rfl, htime, hdescribes⟩

end Journal.Records

/-! ## One request -/

namespace Engine

variable {wiring : Wiring}

/-- No layer records. -/
def Silent (layers : List Layer) : Prop := ∀ kept, .logging kept ∉ layers

theorem silent_forwarding {below : List Layer} :
    Silent (.forwarding :: below) ↔ Silent below := by
  simp [Silent]

theorem silent_caching {memo : Memo} {below : List Layer} :
    Silent (.caching memo :: below) ↔ Silent below := by
  simp [Silent]

theorem silent_forget {layers : List Layer} (h : Silent layers) :
    Silent (layers.map Layer.forget) := by
  intro kept hmem
  obtain ⟨layer, hlayer, hforget⟩ := List.mem_map.mp hmem
  cases layer with
  | logging other => exact h other hlayer
  | caching memo => cases hforget
  | forwarding => cases hforget

/-- A request to layers that do not record leaves the journal as it is. -/
theorem serve_silent (wiring : Wiring) (operation : Operation) (rules : List Rule) {layers : List Layer}
    (h : Silent layers) (journal : Journal) :
    (serve wiring operation rules layers journal).2.journal = journal ∧
      Silent (serve wiring operation rules layers journal).2.layers := by
  induction layers with
  | nil => exact ⟨rfl, h⟩
  | cons layer below ih =>
    cases layer with
    | logging kept => exact absurd List.mem_cons_self (h kept)
    | forwarding =>
      obtain ⟨hjournal, hafter⟩ := ih (silent_forwarding.mp h)
      exact ⟨hjournal, silent_forwarding.mpr hafter⟩
    | caching memo =>
      rw [serve]
      cases Memo.key operation rules with
      | error fault => exact ⟨rfl, h⟩
      | ok key =>
        dsimp only
        cases memo.find? key with
        | some found => exact ⟨rfl, h⟩
        | none =>
          obtain ⟨hjournal, hafter⟩ := ih (silent_caching.mp h)
          revert hjournal hafter
          rcases serve wiring operation rules below journal with ⟨fault | result, after⟩
          · exact fun hjournal hafter => ⟨hjournal, silent_caching.mpr hafter⟩
          · exact fun hjournal hafter => ⟨hjournal, silent_caching.mpr hafter⟩

/-- The engine records before layers that do not, its journal records the exchanges so far, and each of
them went as it should. -/
structure Recorded (clock : Nat → String) (history : List Exchange) (state : State) : Prop where
  layers : ∃ below, state.layers = .logging true :: below ∧ Silent below
  journal : state.journal.Records clock history
  lawful : ∀ exchange ∈ history, exchange.Lawful

variable {history : List Exchange} {state : State}

theorem Recorded.clearCaches {clock : Nat → String} (h : Recorded clock history state) :
    Recorded clock history state.clearCaches := by
  obtain ⟨below, hlayers, hsilent⟩ := h.layers
  refine ⟨⟨below.map Layer.forget, ?_, silent_forget hsilent⟩, h.journal, h.lawful⟩
  rw [State.clearCaches, hlayers]
  rfl

theorem Recorded.snoc {clock : Nat → String} (h : Recorded clock history state) {after : State}
    {exchange : Exchange} (hlayers : ∃ below, after.layers = .logging true :: below ∧ Silent below)
    (hjournal : after.journal.Records clock (history ++ [exchange])) (hlawful : exchange.Lawful) :
    Recorded clock (history ++ [exchange]) after :=
  ⟨hlayers, hjournal, List.forall_mem_append.mpr ⟨h.lawful, List.forall_mem_singleton.mpr hlawful⟩⟩

/-- A request, whatever the base and the operands: it fails behind the recording layer, or it is
answered and the answer is recorded, or there is something that cannot be written down. -/
theorem request_records (hsink : ∀ entry, wiring.sink entry = .ok ()) (operation : Operation)
    (rules : List Rule) (h : Recorded wiring.clock history state) :
    Recorded wiring.clock (history ++ [exchange wiring operation rules state])
      (request wiring operation rules state).2 := by
  obtain ⟨layers, journal⟩ := state
  obtain ⟨below, rfl, hsilent⟩ := h.layers
  obtain ⟨hjournal, hafter⟩ := serve_silent wiring operation rules hsilent journal
  simp only [exchange, request, serve, List.tail_cons]
  revert hjournal hafter
  rcases serve wiring operation rules below journal with ⟨fault | result, after⟩
  · rintro rfl hafter
    exact h.snoc ⟨_, rfl, hafter⟩ (h.journal.failed fault) (.failed _ fault)
  · rintro rfl hafter
    obtain ⟨entry, htime, hdescribes, hrecord⟩ | ⟨fault, x, hx, hfault, hrecord⟩ :=
      record_cases hsink operation rules result after.journal
    · dsimp only
      rw [hrecord]
      exact h.snoc ⟨_, rfl, hafter⟩ (h.journal.returned htime hdescribes) (.returned _ result)
    · dsimp only
      rw [hrecord]
      exact h.snoc ⟨_, rfl, hafter⟩ (h.journal.unwritten result fault) (.unwritten hx hfault)

theorem recorded_initial (clock : Nat → String) (cache : Bool) :
    Recorded clock [] (.initial (Options.layers ⟨cache, true⟩)) := by
  refine ⟨?_, .nil, List.forall_mem_nil _⟩
  cases cache with
  | false => exact ⟨[], rfl, by simp [Silent]⟩
  | true => exact ⟨[.caching .empty], rfl, by simp [Silent]⟩

end Engine

/-! ## Whole sessions -/

namespace Session

/-- The journal after a session. -/
def journalAfter (wiring : Engine.Wiring) (layers : List Layer) (steps : List Step) : Journal :=
  (runFrom wiring [] (.initial layers) steps).2.journal

/-- **What the journal records.** Take the usual engine with a journal whose receiver takes every entry,
with or without a memo, over any base.  After any session that does not clear the journal, with
requests on any operands, texts that are read or given up and memos that are emptied in between: the
entries are those of the requests that have returned, one for each and in order, with the operands as
they were given and the rule that was returned; the clock has been read once for each request that was
answered behind the recording layer, and the entry of a request shows its own reading.  A request that
returns was answered so; one that was answered and fails has something in it that cannot be written
down; any other fails as it failed behind the layer. -/
theorem journal_records (wiring : Engine.Wiring) (cache : Bool) (steps : List Step)
    (hsink : ∀ entry, wiring.sink entry = .ok ()) (hsteps : ∀ step ∈ steps, step ≠ .clearJournal) :
    (journalAfter wiring (Engine.Options.layers ⟨cache, true⟩) steps).Records wiring.clock
        (exchanges wiring (Engine.Options.layers ⟨cache, true⟩) steps) ∧
      ∀ exchange ∈ exchanges wiring (Engine.Options.layers ⟨cache, true⟩) steps,
        exchange.Lawful := by
  have hrequest : ∀ operation rules past s, Engine.Recorded wiring.clock past s →
      Engine.Recorded wiring.clock (past ++ [Engine.exchange wiring operation rules s])
        (Engine.request wiring operation rules s).2 :=
    fun operation rules _ _ => Engine.request_records hsink operation rules
  have hlast := exchangesFrom_keeps hrequest (fun _ _ => Engine.Recorded.clearCaches) hsteps []
    (Engine.recorded_initial wiring.clock cache)
  exact ⟨hlast.journal, hlast.lawful⟩

/-- An object of no known kind that is united with nothing but cannot be written down, one that is not
even united, a text that is given up after a request, and a request without operands. -/
def fourWays : List Step :=
  [.combine .anyOf [.given .nothing, .given Simplify.bogus],
    .combine .anyOf [.given Simplify.bogus, .given (.foreign (.kindless 1))],
    .parse "any(all(a, b), c", .clearCaches, .combine .allOf []]

def countingWiring : Engine.Wiring :=
  ⟨Base.simplifying 3, fun n => toString n, Engine.acceptAll⟩

/-- Requests, readings and entries come apart. -/
theorem journal_records_fourWays :
    (exchanges countingWiring (Engine.Options.layers ⟨false, true⟩) fourWays).map
        (fun exchange => (exchange.answered, exchange.returned)) =
      [(true, false), (false, false), (true, true), (true, true)] ∧
    (journalAfter countingWiring (Engine.Options.layers ⟨false, true⟩) fourWays).readings = 3 ∧
    (journalAfter countingWiring (Engine.Options.layers ⟨false, true⟩) fourWays).entries.map
      LogEntry.timestamp = ["1", "2"] ∧
    (∀ entry, countingWiring.sink entry = .ok ()) ∧ (∀ step ∈ fourWays, step ≠ .clearJournal) ∧
    (journalAfter countingWiring (Engine.Options.layers ⟨false, true⟩) fourWays).Records
        countingWiring.clock
        (exchanges countingWiring (Engine.Options.layers ⟨false, true⟩) fourWays) ∧
      ∀ exchange ∈ exchanges countingWiring (Engine.Options.layers ⟨false, true⟩) fourWays,
        exchange.Lawful := by
  have hsink : ∀ entry, countingWiring.sink entry = .ok () := fun _ => rfl
  have hsteps : ∀ step ∈ fourWays, step ≠ .clearJournal := by simp [fourWays]
  refine ⟨by decide +kernel, by decide +kernel, by decide +kernel, hsink, hsteps, ?_⟩
  exact journal_records countingWiring false fourWays hsink hsteps

end Session

end ExclusionAlgebra
