import ExclusionAlgebra.Proofs.Engine.Requests
import ExclusionAlgebra.Proofs.Notation.RoundTrip

/-!
# Journal entries

* `LogEntry.Describes`: what an entry says of a request and the answer to it, the time apart.
* `LogEntry.draft_eq_ok_iff`, `LogEntry.exists_of_draft_eq_error`: which entry is drawn up, and why none
  is.
* `Engine.record_cases`, `Engine.record_of_known`: what becomes of the journal, if its receiver takes
  every entry.
* `Engine.record_entries`: which entries are new, whatever the receiver does.
* `Engine.serve_logging`, `Engine.serve_logging_eq_ok`: one request to a recording layer.
* `Engine.serve_entries`: what holds of all that is taken down.
-/

namespace ExclusionAlgebra

open Rule

theorem Rule.known_of_format {rule : Rule} {text : String} (h : rule.format = .ok text) :
    rule.Known := by
  obtain ⟨_, hcheck, -⟩ := bind_eq_ok.mp h
  exact check_eq_ok_iff.mp hcheck

namespace LogEntry

/-- The entry tells the operation, the written operands in the order of the request, and the answer,
written and by its digest. -/
structure Describes (entry : LogEntry) (request : Request) (result : Rule) : Prop where
  operation : entry.operation = request.operation
  operands : request.operands.mapM Rule.format = .ok entry.operands
  written : result.format = .ok entry.result
  digest : result.hash = .ok entry.digest

namespace Describes

variable {entry : LogEntry} {request : Request} {result : Rule}

theorem operands_known (h : entry.Describes request result) : request.Known := by
  intro x hx
  obtain ⟨text, htext⟩ := exists_of_mapM h.operands hx
  exact known_of_format htext

end Describes

variable {timestamp : String} {operation : Operation} {rules : List Rule} {result : Rule}

theorem draft_eq_ok_iff {entry : LogEntry} :
    draft timestamp operation rules result = .ok entry ↔
      entry.timestamp = timestamp ∧ entry.Describes ⟨operation, rules⟩ result := by
  constructor
  · intro h
    obtain ⟨operands, hoperands, h⟩ := bind_eq_ok.mp h
    obtain ⟨written, hwritten, h⟩ := bind_eq_ok.mp h
    obtain ⟨digest, hdigest, h⟩ := bind_eq_ok.mp h
    cases h
    exact ⟨rfl, rfl, hoperands, hwritten, hdigest⟩
  · rintro ⟨rfl, rfl, hoperands, hwritten, hdigest⟩
    have hoperands : rules.mapM Rule.format = .ok entry.operands := hoperands
    rw [draft, hoperands, hwritten, hdigest]
    rfl

/-- Rules without foreign values can all be written down. -/
theorem exists_draft (timestamp : String) (operation : Operation) (hrules : ∀ x ∈ rules, x.Known)
    (hresult : result.Known) : ∃ entry, draft timestamp operation rules result = .ok entry := by
  obtain ⟨operands, hoperands⟩ := exists_mapM fun x hx => ⟨_, format_eq_ok (hrules x hx)⟩
  have hdescribes : Describes
      ⟨timestamp, operation, operands, String.ofList result.written, result.digest⟩
      ⟨operation, rules⟩ result :=
    ⟨rfl, hoperands, format_eq_ok hresult, hash_eq_ok hresult⟩
  exact ⟨_, draft_eq_ok_iff.mpr ⟨rfl, hdescribes⟩⟩

/-- The only reason why an entry cannot be drawn up is that some rule cannot be written down.  Digests
are not taken of such a rule any more. -/
theorem exists_of_draft_eq_error {fault : Fault}
    (h : draft timestamp operation rules result = .error fault) :
    ∃ x, (x ∈ rules ∨ x = result) ∧ x.format = .error fault := by
  rcases bind_eq_error.mp h with h | ⟨operands, -, h⟩
  · obtain ⟨x, hx, hfault⟩ := exists_of_mapM_eq_error h
    exact ⟨x, .inl hx, hfault⟩
  · rcases bind_eq_error.mp h with h | ⟨written, hwritten, h⟩
    · exact ⟨result, .inr rfl, h⟩
    · rw [hash_eq_ok (known_of_format hwritten)] at h
      cases h

end LogEntry

/-! ## Recording -/

namespace Engine

variable {wiring : Wiring} {operation : Operation} {rules : List Rule} {result : Rule}
  {journal : Journal}

/-- An answered request is recorded, or fails on a rule that cannot be written down.  The clock is read
either way. -/
theorem record_cases (hsink : ∀ entry, wiring.sink entry = .ok ()) (operation : Operation)
    (rules : List Rule) (result : Rule) (journal : Journal) :
    (∃ entry : LogEntry, entry.timestamp = wiring.clock journal.readings ∧
      entry.Describes ⟨operation, rules⟩ result ∧
      record wiring true operation rules result journal = (.ok (), journal.tick.append entry)) ∨
    ∃ fault x, (x ∈ rules ∨ x = result) ∧ x.format = .error fault ∧
      record wiring true operation rules result journal = (.error fault, journal.tick) := by
  cases hdraft : LogEntry.draft (wiring.clock journal.readings) operation rules result with
  | ok entry =>
    obtain ⟨htime, hdescribes⟩ := LogEntry.draft_eq_ok_iff.mp hdraft
    refine .inl ⟨entry, htime, hdescribes, ?_⟩
    simp only [record, hdraft, hsink, if_true]
  | error fault =>
    obtain ⟨x, hx, hfault⟩ := LogEntry.exists_of_draft_eq_error hdraft
    refine .inr ⟨fault, x, hx, hfault, ?_⟩
    simp only [record, hdraft]

/-- No entry is new, unless the layer keeps its entries and one can be drawn up and is taken. -/
theorem record_entries (wiring : Wiring) (kept : Bool) (operation : Operation) (rules : List Rule)
    (result : Rule) (journal : Journal) :
    (record wiring kept operation rules result journal).2.entries = journal.entries ∨
      kept = true ∧ ∃ entry : LogEntry, entry.timestamp = wiring.clock journal.readings ∧
        entry.Describes ⟨operation, rules⟩ result ∧
        record wiring kept operation rules result journal = (.ok (), journal.tick.append entry) := by
  unfold record
  cases hdraft : LogEntry.draft (wiring.clock journal.readings) operation rules result with
  | error fault => exact .inl rfl
  | ok entry =>
    obtain ⟨htime, hdescribes⟩ := LogEntry.draft_eq_ok_iff.mp hdraft
    cases kept with
    | false => exact .inl rfl
    | true =>
      dsimp only
      cases wiring.sink entry with
      | error fault => exact .inl rfl
      | ok _ => exact .inr ⟨rfl, entry, htime, hdescribes, rfl⟩

/-- A journal that takes an entry has it at its end. -/
theorem record_eq_ok {after : Journal}
    (h : record wiring true operation rules result journal = (.ok (), after)) :
    ∃ entry : LogEntry, entry.Describes ⟨operation, rules⟩ result ∧
      after = journal.tick.append entry := by
  cases hdraft : LogEntry.draft (wiring.clock journal.readings) operation rules result with
  | error fault =>
    simp only [record, hdraft] at h
    cases h
  | ok entry =>
    simp only [record, hdraft, if_true] at h
    cases hsink : wiring.sink entry with
    | error fault =>
      rw [hsink] at h
      cases h
    | ok _ =>
      rw [hsink] at h
      cases h
      exact ⟨entry, (LogEntry.draft_eq_ok_iff.mp hdraft).2, rfl⟩

/-- Recording does not fail on rules without foreign values. -/
theorem record_of_known {kept : Bool} (hsink : ∀ entry, wiring.sink entry = .ok ())
    (hrules : ∀ x ∈ rules, x.Known) (hresult : result.Known) :
    (record wiring kept operation rules result journal).1 = .ok () := by
  obtain ⟨entry, hdraft⟩ :=
    LogEntry.exists_draft (wiring.clock journal.readings) operation hrules hresult
  cases kept with
  | false => simp [record, hdraft]
  | true => simp [record, hdraft, hsink]

/-! ## Recording layers -/

variable {below : List Layer} {inner : State}

/-- A recording layer that has got an answer writes it down, and passes it on if that succeeds. -/
theorem serve_logging (kept : Bool)
    (h : serve wiring operation rules below journal = (.ok result, inner)) :
    serve wiring operation rules (.logging kept :: below) journal =
      ((record wiring kept operation rules result inner.journal).1.map fun _ => result,
        ⟨.logging kept :: inner.layers,
          (record wiring kept operation rules result inner.journal).2⟩) := by
  rw [serve, h]

theorem serve_logging_error (kept : Bool) {fault : Fault}
    (h : serve wiring operation rules below journal = (.error fault, inner)) :
    serve wiring operation rules (.logging kept :: below) journal =
      (.error fault, ⟨.logging kept :: inner.layers, inner.journal⟩) := by
  rw [serve, h]

/-- What a recording layer passes on, it has got from below and written down. -/
theorem serve_logging_eq_ok {after : State}
    (h : serve wiring operation rules (.logging true :: below) journal = (.ok result, after)) :
    ∃ (inner : State) (entry : LogEntry),
      serve wiring operation rules below journal = (.ok result, inner) ∧
      entry.Describes ⟨operation, rules⟩ result ∧
      after = ⟨.logging true :: inner.layers, inner.journal.tick.append entry⟩ := by
  rcases hbelow : serve wiring operation rules below journal with ⟨fault | answer, inner⟩
  · rw [serve_logging_error true hbelow] at h
    cases h
  · rw [serve_logging true hbelow] at h
    rcases hrecord : record wiring true operation rules answer inner.journal with
      ⟨fault | _, written⟩
    · rw [hrecord] at h
      cases h
    · rw [hrecord] at h
      cases h
      obtain ⟨entry, hdescribes, rfl⟩ := record_eq_ok hrecord
      exact ⟨inner, entry, rfl, hdescribes, rfl⟩

/-- A condition on entries goes on to hold of all entries in the journal, if it holds of what a recording
layer takes down.  There may be a condition on layers that goes over to the layers below. -/
theorem serve_entries {H : List Layer → Prop} {P : LogEntry → Prop}
    (hbelow : ∀ layer below, H (layer :: below) → H below)
    (hentry : ∀ below before result inner (entry : LogEntry), H below →
      serve wiring operation rules below before = (.ok result, inner) →
        entry.timestamp = wiring.clock inner.journal.readings →
          entry.Describes ⟨operation, rules⟩ result →
            serve wiring operation rules (.logging true :: below) before =
              (.ok result, ⟨.logging true :: inner.layers, inner.journal.tick.append entry⟩) → P entry)
    {layers : List Layer} (hlayers : H layers) (h : ∀ entry ∈ journal.entries, P entry) :
    ∀ entry ∈ (serve wiring operation rules layers journal).2.journal.entries, P entry := by
  induction layers with
  | nil => exact h
  | cons layer below ih =>
    replace ih := ih (hbelow layer below hlayers)
    cases layer with
    | forwarding => exact ih
    | caching memo =>
      rw [serve]
      cases Memo.key operation rules with
      | error fault => exact h
      | ok key =>
        dsimp only
        cases memo.find? key with
        | some found => exact h
        | none =>
          revert ih
          rcases serve wiring operation rules below journal with ⟨fault | result, after⟩
          · exact id
          · exact id
    | logging kept =>
      rcases hserve : serve wiring operation rules below journal with ⟨fault | result, inner⟩
      · rw [serve_logging_error kept hserve]
        rwa [hserve] at ih
      · rw [hserve] at ih
        rcases record_entries wiring kept operation rules result inner.journal with
          hsame | ⟨rfl, entry, htime, hdescribes, hrecord⟩
        · rw [serve_logging kept hserve, hsame]
          exact ih
        · -- The entry of this layer stands behind those of the layers below it.
          have hlogging := serve_logging true hserve
          rw [hrecord] at hlogging
          rw [hlogging]
          refine List.forall_mem_append.mpr ⟨ih, List.forall_mem_singleton.mpr ?_⟩
          exact hentry below journal result inner entry (hbelow _ _ hlayers) hserve htime hdescribes
            hlogging

end Engine

end ExclusionAlgebra
