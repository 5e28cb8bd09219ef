import ExclusionAlgebra.Terminal.Instant
import ExclusionAlgebra.Proofs.Engine.Combining
import ExclusionAlgebra.Proofs.Terminal.Trace

/-!
# What a terminal shows

A terminal takes colour codes out of what is written to it.  So a text in colour reads as it does without,
and so do the trace lines, which are put together from such texts.  None of them goes beyond its line.

* `Terminal.seen`: the characters that are seen.
* `Terminal.Clear`: texts without control characters.
* `Terminal.Shows`: what is written shows a text, in one line.
* `Terminal.shows_paint`, `Terminal.shows_traceLine`: a text in colour, and a trace line.
* `LogEntry.text`, `LogEntry.shows_trace`: how the trace line of an entry reads.
* `Instant.clear_text`: how an instant is written.
-/

namespace ExclusionAlgebra

namespace Terminal

/-- What is seen of the characters.  A colour code reaches from the escape character to the next `m`, and
nothing is seen of it; the first argument is whether one has begun. -/
def seen : Bool → List Char → List Char
  | _, [] => []
  | true, c :: rest => seen (c != 'm') rest
  | false, c :: rest => if c = '\x1b' then seen true rest else c :: seen false rest

/-- The text has no control characters, so that there are neither line ends nor colour codes in it. -/
def Clear (text : String) : Prop := ∀ c ∈ text.toList, 0x20 ≤ c.toNat

-- The list is gone through, and not all characters that there are.
instance (text : String) : Decidable (Clear text) :=
  List.decidableBAll (fun c : Char => 0x20 ≤ c.toNat) text.toList

/-- What is written shows the text: it does not go beyond its line, it reads as the text whatever is
written behind it, and without colours it is the text. -/
structure Shows (coloured : Bool) (written text : String) : Prop where
  single : '\n' ∉ written.toList
  reads : ∀ rest, seen false (written.toList ++ rest) = text.toList ++ seen false rest
  plain : coloured = false → written = text

/-! ## Clear texts -/

theorem Clear.append {first second : String} (h : Clear first) (h' : Clear second) :
    Clear (first ++ second) := by
  unfold Clear
  rw [String.toList_append, List.forall_mem_append]
  exact ⟨h, h'⟩

theorem Clear.notMem {text : String} (h : Clear text) {c : Char} (hc : c.toNat < 0x20) :
    c ∉ text.toList := by
  intro hmem
  have hle := h c hmem
  omega

theorem isDigit_of_mem_toString {n : Nat} {c : Char} (h : c ∈ (toString n).toList) :
    c.isDigit = true :=
  Nat.isDigit_of_mem_toDigits (by decide) (by decide) (Nat.toList_repr ▸ h)

theorem clear_toString (n : Nat) : Clear (toString n) := by
  intro c hc
  have hdigit := isDigit_of_mem_toString hc
  simp only [Char.isDigit, ge_iff_le, Bool.and_eq_true, decide_eq_true_eq] at hdigit
  exact Nat.le_trans (by decide) hdigit.1

/-! ## What is written shows a text -/

variable {coloured : Bool} {ink : Ink}

theorem shows_of_clear {text : String} (h : Clear text) : Shows coloured text text := by
  refine ⟨h.notMem (by decide), fun rest => ?_, fun _ => rfl⟩
  have hescape := h.notMem (c := '\x1b') (by decide)
  generalize text.toList = chars at hescape
  induction chars with
  | nil => rfl
  | cons c chars ih =>
    have hne : c ≠ '\x1b' := (List.ne_of_not_mem_cons hescape).symm
    rw [List.cons_append, seen, if_neg hne, ih (List.not_mem_of_not_mem_cons hescape)]
    rfl

theorem Shows.append {first second text other : String} (h : Shows coloured first text)
    (h' : Shows coloured second other) : Shows coloured (first ++ second) (text ++ other) := by
  refine ⟨?_, fun rest => ?_, fun hplain => ?_⟩
  · rw [String.toList_append]
    exact List.not_mem_append h.single h'.single
  · rw [String.toList_append, List.append_assoc, h.reads, h'.reads, String.toList_append,
      List.append_assoc]
  · rw [h.plain hplain, h'.plain hplain]

theorem seen_code_append {body : List Char} (h : 'm' ∉ body) (rest : List Char) :
    seen true (body ++ 'm' :: rest) = seen false rest := by
  induction body with
  | nil => rfl
  | cons c body ih =>
    have hne : (c != 'm') = true := bne_iff_ne.mpr (List.ne_of_not_mem_cons h).symm
    rw [List.cons_append, seen, hne, ih (List.not_mem_of_not_mem_cons h)]

/-- A colour code shows nothing. -/
theorem shows_code {code : String} (body : List Char) (hcode : code.toList = '\x1b' :: (body ++ ['m']))
    (hend : 'm' ∉ body) (hline : '\n' ∉ body) : Shows true code "" := by
  refine ⟨?_, fun rest => ?_, nofun⟩
  · rw [hcode]
    simp [hline]
  · rw [hcode, List.cons_append, List.append_assoc, seen, if_pos rfl]
    exact seen_code_append hend rest

theorem shows_colour (colour : Colour) : Shows true colour.code "" := by
  have hcode : colour.code.toList = '\x1b' :: (("[38;2;" ++ toString colour.red ++ ";" ++
      toString colour.green ++ ";" ++ toString colour.blue).toList ++ ['m']) := by
    simp [Colour.code]
  have hdigit : ∀ (c : Char) (n : Nat), c.isDigit = false → c ∉ (toString n).toList := by
    intro c n hc hmem
    rw [isDigit_of_mem_toString hmem] at hc
    cases hc
  have hbody : ∀ c : Char, c.isDigit = false → c ∉ "[38;2;".toList ++ ";".toList →
      c ∉ ("[38;2;" ++ toString colour.red ++ ";" ++ toString colour.green ++ ";" ++
        toString colour.blue).toList := by
    intro c hc hpunctuation
    rw [List.mem_append, not_or] at hpunctuation
    simp only [String.toList_append, List.mem_append, not_or]
    exact ⟨⟨⟨⟨⟨hpunctuation.1, hdigit c _ hc⟩, hpunctuation.2⟩, hdigit c _ hc⟩, hpunctuation.2⟩,
      hdigit c _ hc⟩
  exact shows_code _ hcode (hbody 'm' (by decide) (by decide)) (hbody '\n' (by decide) (by decide))

theorem shows_paint {text : String} (h : Clear text) : Shows coloured (paint coloured ink text) text := by
  have hreset : Shows true resetCode "" := shows_code ['[', '3', '9'] rfl (by decide) (by decide)
  cases coloured with
  | false => exact shows_of_clear h
  | true =>
    rw [paint]
    split
    · have hpainted := ((shows_colour ink.colour).append (shows_of_clear h)).append hreset
      rwa [String.empty_append, String.append_empty] at hpainted
    · exact shows_of_clear h

theorem shows_intercalate {separator visible : String} (hseparator : Shows coloured separator visible)
    {texts : List String} (h : ∀ text ∈ texts, Clear text) :
    Shows coloured (separator.intercalate texts) (visible.intercalate texts) := by
  induction texts with
  | nil => exact shows_of_clear nofun
  | cons first rest ih =>
    rw [List.forall_mem_cons] at h
    cases rest with
    | nil =>
      rw [String.intercalate_singleton, String.intercalate_singleton]
      exact shows_of_clear h.1
    | cons next rest =>
      rw [String.intercalate_cons_cons, String.intercalate_cons_cons]
      exact ((shows_of_clear h.1).append hseparator).append (ih h.2)

/-- A trace line shows its parts, one behind the other. -/
theorem shows_traceLine {timestamp operation result : String} {operands : List String}
    (htime : Clear timestamp) (hoperation : Clear operation) (hoperands : ∀ text ∈ operands, Clear text)
    (hresult : Clear result) :
    Shows coloured (traceLine coloured timestamp operation operands result)
      (timestamp ++ " " ++ operation ++ "(" ++ ", ".intercalate operands ++ ")" ++ " " ++ "→" ++ " " ++
        result) := by
  have hspace : Shows coloured " " " " := shows_of_clear (by decide)
  have hseparator : Shows coloured (paint coloured .dim ", ") ", " := shows_paint (by decide)
  unfold traceLine
  refine .append (.append (.append (.append (.append (.append (.append (.append (.append ?_ hspace) ?_)
    ?_) ?_) ?_) hspace) ?_) hspace) ?_
  · exact shows_paint htime
  · exact shows_paint hoperation
  · exact shows_paint (by decide)
  · exact shows_intercalate hseparator hoperands
  · exact shows_paint (by decide)
  · exact shows_paint (by decide)
  · exact shows_paint hresult

end Terminal

/-! ## Written rules and entries -/

open Terminal

theorem Rule.clear_of_format {rule : Rule} {text : String} (h : rule.Expressible)
    (hformat : rule.format = .ok text) : Clear text := by
  intro c hc
  rw [Rule.toList_of_format hformat] at hc
  exact Notation.toNat_of_isWrittenChar (Notation.writtenChars h c hc)

theorem Operation.clear_name (operation : Operation) : Clear operation.name := by
  cases operation <;> decide

namespace LogEntry

/-- How the trace line of an entry reads. -/
def text (entry : LogEntry) : String :=
  entry.timestamp ++ " " ++ entry.operation.name ++ "(" ++ ", ".intercalate entry.operands ++ ")" ++
    " " ++ "→" ++ " " ++ entry.result

variable {clock : Nat → String} {entry : LogEntry}

/-- A legible entry has a trace line that shows it, whether there are colours or not. -/
theorem shows_trace (coloured : Bool) (hclock : ∀ n, Clear (clock n)) (h : entry.Legible clock) :
    Shows coloured (entry.trace coloured) entry.text := by
  obtain ⟨⟨n, htime⟩, request, result, hdescribes, hoperands, hresult⟩ := h
  have htexts : ∀ text ∈ entry.operands, Clear text := by
    refine forall_of_mapM hdescribes.operands ?_
    intro x hx text
    exact Rule.clear_of_format (hoperands x hx)
  refine shows_traceLine ?_ entry.operation.clear_name htexts ?_
  · rw [htime]
    exact hclock n
  · exact Rule.clear_of_format hresult hdescribes.written

/-- The line ends in the result, in the colour that it has where it is printed. -/
theorem exists_trace_eq_append (coloured : Bool) (entry : LogEntry) :
    ∃ front, entry.trace coloured = front ++ paint coloured (resultInk entry.result) entry.result :=
  ⟨_, rfl⟩

end LogEntry

/-! ## Instants -/

namespace Instant

theorem clear_padded (width n : Nat) : Clear (padded width n) := by
  intro c hc
  rw [padded, String.toList_ofList, List.mem_append] at hc
  rcases hc with hzero | hdigit
  · rw [List.eq_of_mem_replicate hzero]
    decide
  · rw [← Nat.toList_repr] at hdigit
    exact clear_toString n c hdigit

/-- An instant is written without control characters. -/
theorem clear_text (milliseconds : Nat) : Clear (text milliseconds) := by
  have hmore : ∀ {front separator : String} (width n : Nat), Clear front → Clear separator →
      Clear (front ++ separator ++ padded width n) := fun width n hfront hseparator =>
    (hfront.append hseparator).append (clear_padded width n)
  have hdash : Clear "-" := by decide
  have hcolon : Clear ":" := by decide
  have hdate (year month day : Nat) :
      Clear (padded 4 year ++ "-" ++ padded 2 month ++ "-" ++ padded 2 day) :=
    hmore 2 day (hmore 2 month (clear_padded 4 year) hdash) hdash
  have htime {date : String} (hour minute second : Nat) (h : Clear date) :
      Clear (date ++ "T" ++ padded 2 hour ++ ":" ++ padded 2 minute ++ ":" ++ padded 2 second) :=
    hmore 2 second (hmore 2 minute (hmore 2 hour h (by decide)) hcolon) hcolon
  exact (hmore 3 _ (htime _ _ _ (hdate _ _ _)) (by decide)).append (by decide)

end Instant

end ExclusionAlgebra
