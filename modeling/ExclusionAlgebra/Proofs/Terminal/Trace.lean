import ExclusionAlgebra.Terminal.Trace
import ExclusionAlgebra.Proofs.Engine.Recording

/-!
# What a trace line tells

A trace line shows a request and its answer in a few words, with the same commas between operands as
inside of them.  Still nothing is lost: if the time has no space in it and all rules can be expressed,
the line ends the time at its first space and the operands before its first arrow, and operands that
are written one behind another can be told apart.

* `LogEntry.RecordedFor`: a recording layer has taken the entry down for a request and its answer.
* `Engine.exists_recordedFor`, `Session.recordedFor_of_mem_journalAfter`: there is one for each answer
  without foreign values, and a journal has no other entries, whatever the layers and the session.
* `LogEntry.Describes.toList_trace`: the parts of a line.
* `LogEntry.eq_of_trace_eq`: entries that have the same line.
-/

namespace ExclusionAlgebra

open Rule

/-! ## Recorded entries -/

/-- In some engine, a recording layer has passed the result of the request on, and then the entry is
the last one in the journal.  What the layers below it and the base are, and what was in the journal
before, does not matter. -/
def LogEntry.RecordedFor (entry : LogEntry) (request : Request) (result : Rule) : Prop :=
  ∃ wiring below journal after,
    Engine.serve wiring request.operation request.operands (.logging true :: below) journal =
      (.ok result, after) ∧
    after.journal.entries.getLast? = some entry

/-- If the receiver takes every entry, an answer to rules without foreign values is recorded. -/
theorem Engine.exists_recordedFor {wiring : Engine.Wiring} {operation : Operation} {rules : List Rule}
    {result : Rule} {below : List Layer} {journal : Journal} {inner : Engine.State}
    (hsink : ∀ entry, wiring.sink entry = .ok ()) (hrules : ∀ x ∈ rules, x.Known)
    (hresult : result.Known)
    (h : Engine.serve wiring operation rules below journal = (.ok result, inner)) :
    ∃ entry : LogEntry, entry.timestamp = wiring.clock inner.journal.readings ∧
      entry.RecordedFor ⟨operation, rules⟩ result := by
  obtain ⟨entry, htime, -, hrecord⟩ | ⟨fault, x, hx, hfault, -⟩ :=
    Engine.record_cases hsink operation rules result inner.journal
  · refine ⟨entry, htime, wiring, below, journal,
      ⟨.logging true :: inner.layers, inner.journal.tick.append entry⟩, ?_, List.getLast?_concat⟩
    rw [Engine.serve_logging true h, hrecord]
    rfl
  · have hknown : x.Known := hx.elim (hrules x) fun heq => heq ▸ hresult
    rw [format_eq_ok hknown] at hfault
    cases hfault

theorem LogEntry.RecordedFor.describes {entry : LogEntry} {request : Request} {result : Rule}
    (h : entry.RecordedFor request result) : entry.Describes request result := by
  obtain ⟨wiring, below, journal, after, hserve, hlast⟩ := h
  obtain ⟨inner, new, -, hdescribes, rfl⟩ := Engine.serve_logging_eq_ok hserve
  have hnew : (inner.journal.entries ++ [new]).getLast? = some entry := hlast
  rw [List.getLast?_concat] at hnew
  cases hnew
  exact hdescribes

namespace Engine

/-- A request adds to the journal only what its recording layers take down for it. -/
theorem serve_recorded (wiring : Wiring) (operation : Operation) (rules : List Rule)
    (layers : List Layer) {journal : Journal}
    (h : ∀ entry ∈ journal.entries, ∃ request result, entry.RecordedFor request result) :
    ∀ entry ∈ (serve wiring operation rules layers journal).2.journal.entries,
      ∃ request result, entry.RecordedFor request result := by
  refine serve_entries (H := fun _ => True) (fun _ _ => id) ?_ trivial h
  intro below before result inner entry _ _ _ _ hserve
  exact ⟨⟨operation, rules⟩, result, wiring, below, before, _, hserve, List.getLast?_concat⟩

end Engine

/-- Every entry in the journal after a session was recorded for some request, on any engine. -/
theorem Session.recordedFor_of_mem_journalAfter (wiring : Engine.Wiring) (layers : List Layer)
    (steps : List Session.Step) :
    ∀ entry ∈ (Session.journalAfter wiring layers steps).entries,
      ∃ request result, entry.RecordedFor request result := by
  refine Session.runFrom_invariant (I := fun s => ∀ entry ∈ s.journal.entries,
    ∃ request result, entry.RecordedFor request result) ?_ ?_ ?_ [] steps (List.forall_mem_nil _)
  · exact fun operation rules s => Engine.serve_recorded wiring operation rules s.layers
  · exact fun _ hs => hs
  · exact fun _ _ => List.forall_mem_nil _

/-! ## Lines -/

/-- What stands before the first of its kind, and what stands behind it. -/
theorem append_cons_inj_of_notMem_left {α : Type} {a : α} {xs ys us vs : List α} (hxs : a ∉ xs)
    (hys : a ∉ ys) (h : xs ++ a :: us = ys ++ a :: vs) : xs = ys ∧ us = vs := by
  induction xs generalizing ys with
  | nil =>
    cases ys with
    | nil => exact ⟨rfl, (List.cons.inj h).2⟩
    | cons y ys => exact absurd (List.mem_cons.mpr (.inl (List.cons.inj h).1)) hys
  | cons x xs ih =>
    cases ys with
    | nil => exact absurd (List.mem_cons.mpr (.inl (List.cons.inj h).1.symm)) hxs
    | cons y ys =>
      obtain ⟨rfl, htail⟩ := List.cons.inj h
      obtain ⟨rfl, rfl⟩ := ih (List.not_mem_of_not_mem_cons hxs) (List.not_mem_of_not_mem_cons hys)
        htail
      exact ⟨rfl, rfl⟩

namespace Rule

theorem toList_of_format {rule : Rule} {text : String} (h : rule.format = .ok text) :
    text.toList = rule.written := by
  rw [format_eq_ok (known_of_format h)] at h
  rw [← Except.ok.inj h, String.toList_ofList]

/-- Operands are joined as components are. -/
theorem toList_intercalate_of_format {rules : List Rule} {texts : List String}
    (h : rules.mapM format = .ok texts) : (", ".intercalate texts).toList = writtenList rules := by
  have hpairs := mapM_eq_ok.mp h
  clear h
  induction hpairs with
  | nil => rfl
  | cons hrule hrest ih =>
    cases hrest with
    | nil =>
      rw [String.intercalate_singleton, toList_of_format hrule]
      rfl
    | cons _ _ =>
      rw [String.intercalate_cons_cons, String.toList_append, ih, String.toList_append,
        toList_of_format hrule, List.append_assoc]
      rfl

theorem arrow_notMem_writtenList {rules : List Rule} (h : ∀ x ∈ rules, x.Expressible) :
    '→' ∉ writtenList rules := by
  intro hmem
  have hchars := Notation.writtenChars_list fun x hx => Notation.writtenChars (h x hx)
  exact absurd (hchars '→' hmem) (by decide)

end Rule

namespace LogEntry

variable {entry other : LogEntry} {request asked : Request} {result answer : Rule}

/-- Without colours, the line is the time up to a space, the operation up to a parenthesis, the operands
and the other parenthesis up to an arrow, and the result. -/
theorem Describes.toList_trace (h : entry.Describes request result) :
    (entry.trace false).toList = entry.timestamp.toList ++ ' ' :: (request.operation.name.toList ++
      '(' :: ((writtenList request.operands ++ [')', ' ']) ++ '→' :: ' ' :: result.written)) := by
  rw [← toList_intercalate_of_format h.operands, ← toList_of_format h.written, ← h.operation]
  simp [trace, Terminal.traceLine, Terminal.paint]

/-- The time apart, an entry is determined by what it describes. -/
theorem Describes.unique (h : entry.Describes request result)
    (hother : other.Describes request result) (htime : entry.timestamp = other.timestamp) :
    entry = other := by
  obtain ⟨time, operation, operands, written, digest⟩ := entry
  obtain ⟨time', operation', operands', written', digest'⟩ := other
  obtain rfl : time = time' := htime
  obtain rfl : operation = operation' := h.operation.trans hother.operation.symm
  obtain rfl : operands = operands' := Except.ok.inj (h.operands.symm.trans hother.operands)
  obtain rfl : written = written' := Except.ok.inj (h.written.symm.trans hother.written)
  obtain rfl : digest = digest' := Except.ok.inj (h.digest.symm.trans hother.digest)
  rfl

/-- **A trace line tells the entry, the request and the answer.** Take two entries that were recorded
anywhere, by layers of one engine or of two, whatever their bases, clocks and receivers.  If their times
have no space in them and their operands and results can be expressed, and both have the same line
without colours, then they are the same, time and digest included; they were recorded for the same
operation on the same operands, as many and one by one the same rules in the same order; and the
results are the same rule. -/
theorem eq_of_trace_eq (h : entry.RecordedFor request result) (hother : other.RecordedFor asked answer)
    (htime : ' ' ∉ entry.timestamp.toList) (htime' : ' ' ∉ other.timestamp.toList)
    (hoperands : ∀ x ∈ request.operands, x.Expressible) (hasked : ∀ x ∈ asked.operands, x.Expressible)
    (hresult : result.Expressible) (hanswer : answer.Expressible)
    (hline : entry.trace false = other.trace false) :
    entry = other ∧ request = asked ∧ result = answer := by
  have hdescribes := h.describes
  have hdescribes' := hother.describes
  have hchars := congrArg String.toList hline
  rw [hdescribes.toList_trace, hdescribes'.toList_trace] at hchars
  obtain ⟨hstamp, hbehind⟩ := append_cons_inj_of_notMem_left htime htime' hchars
  obtain ⟨hoperation, hcall⟩ := Operation.name_append_inj hbehind
  -- The first arrow is the one behind the operands, whatever the result is.
  have harrow : ∀ rules : List Rule, (∀ x ∈ rules, x.Expressible) →
      '→' ∉ writtenList rules ++ [')', ' '] := fun rules hrules =>
    List.not_mem_append (arrow_notMem_writtenList hrules) (by decide)
  obtain ⟨hinside, hanswered⟩ := append_cons_inj_of_notMem_left (harrow _ hoperands) (harrow _ hasked)
    (List.cons.inj hcall).2
  obtain rfl : request = asked := by
    obtain ⟨operation, operands⟩ := request
    obtain ⟨operation', operands'⟩ := asked
    obtain rfl : operation = operation' := hoperation
    obtain rfl : operands = operands' :=
      writtenList_inj hoperands hasked (List.append_cancel_right hinside)
    rfl
  obtain rfl : result = answer := written_inj hresult hanswer (List.cons.inj hanswered).2
  exact ⟨hdescribes.unique hdescribes' (String.toList_injective hstamp), rfl, rfl⟩

/-- Two engines, one of which has shown the time before.  In the line, one comma stands between operands
and one inside of an operand. -/
theorem trace_of_nested_union :
    let operands : List Rule := [.composite .anyOf [.pattern ⟨some "a", some "m", none⟩,
      .pattern ⟨some "b", some "n", none⟩], .pattern ⟨some "c", none, none⟩]
    let result : Rule := .composite .anyOf [.pattern ⟨some "a", some "m", none⟩,
      .pattern ⟨some "b", some "n", none⟩, .pattern ⟨some "c", none, none⟩]
    ∃ entry other : LogEntry, entry.RecordedFor ⟨.anyOf, operands⟩ result ∧
      other.RecordedFor ⟨.anyOf, operands⟩ result ∧ ' ' ∉ entry.timestamp.toList ∧
      ' ' ∉ other.timestamp.toList ∧ (∀ x ∈ operands, x.Expressible) ∧ result.Expressible ∧
      entry.trace false = "12:00 anyOf(any(a:m, b:n), c:*) → any(a:m, b:n, c:*)" ∧
      entry.trace false = other.trace false ∧ entry = other := by
  intro operands result
  have hread : Rule.read "any(any(a:m, b:n), c)" = .ok (.composite .anyOf operands) := by
    decide +kernel
  have hoperands : ∀ x ∈ operands, x.Expressible :=
    (expressible_composite.mp (expressible_of_read hread)).2
  have hresult : result.Expressible :=
    expressible_of_read (by decide +kernel : Rule.read "any(a:m, b:n, c)" = .ok result)
  have hknown : ∀ x ∈ operands, x.Known := fun x hx => (hoperands x hx).1
  have hdirect : Engine.serve ⟨Base.simplifying 3, fun _ => "12:00", Engine.acceptAll⟩ .anyOf operands
      [] .empty = (.ok result, ⟨[], .empty⟩) := by
    decide +kernel
  have hforwarded : Engine.serve ⟨Base.simplifying 7, fun n => toString (8 + n) ++ ":00",
      Engine.acceptAll⟩ .anyOf operands [.forwarding] ⟨[], 4⟩ =
        (.ok result, ⟨[.forwarding], ⟨[], 4⟩⟩) := by
    decide +kernel
  obtain ⟨entry, htime, hentry⟩ := Engine.exists_recordedFor (fun _ => rfl) hknown hresult.1 hdirect
  obtain ⟨other, htime', hother⟩ := Engine.exists_recordedFor (fun _ => rfl) hknown hresult.1 hforwarded
  have hline : ∀ e : LogEntry, e.timestamp = "12:00" → e.RecordedFor ⟨.anyOf, operands⟩ result →
      e.trace false = "12:00 anyOf(any(a:m, b:n), c:*) → any(a:m, b:n, c:*)" := by
    intro e he hrecorded
    apply String.toList_injective
    rw [hrecorded.describes.toList_trace, he]
    decide +kernel
  have hnoon : entry.timestamp = "12:00" := htime
  have hnoon' : other.timestamp = "12:00" := htime'.trans (by decide)
  have hspace : ' ' ∉ entry.timestamp.toList := by
    rw [hnoon]
    decide
  have hspace' : ' ' ∉ other.timestamp.toList := by
    rw [hnoon']
    decide
  have hsame := (hline entry hnoon hentry).trans (hline other hnoon' hother).symm
  refine ⟨entry, other, hentry, hother, hspace, hspace', hoperands, hresult, hline entry hnoon hentry,
    hsame, ?_⟩
  exact (eq_of_trace_eq hentry hother hspace hspace' hoperands hoperands hresult hresult hsame).1

end LogEntry

end ExclusionAlgebra
