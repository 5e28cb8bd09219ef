import ExclusionAlgebra.Command.Run
import ExclusionAlgebra.Proofs.Digest.Hex
import ExclusionAlgebra.Proofs.Terminal.Shows

/-!
# What a run leaves

A run leaves text on two outputs, trace lines, and its ending.  A rule is printed in two lines, one for
its written form and one for its digest, and a text that cannot be read is reported in one line, whatever
characters it is made of.

* `Run.Leaves`: what a run has left, in lines.
* `Run.leaves_close`: how a run is put together.
* `Run.exists_printed`: the two lines that show a rule.
* `Run.shows_report`: the line of a report.
-/

namespace ExclusionAlgebra

open Terminal

theorem SyntaxError.clear_message (error : SyntaxError) : Clear error.message := by
  unfold SyntaxError.message
  cases error.cause with
  | unexpected found =>
    refine Clear.append (by decide) fun c hc => ?_
    rw [String.toList_ofList] at hc
    exact Text.toNat_of_mem_quoteLead found c hc
  | separator | group | module | artifact | extension => decide

namespace Run

/-! ## Lines -/

/-- What a run has left: the lines of its output, of its trace and of its report, and its ending.  The
trace stands in front of the report if that is where it goes. -/
structure Leaves (run : Run) (target : TraceTarget) (output trace report : List String)
    (ending : Ending) : Prop where
  output : run.output = String.join (output.map fun line => line ++ "\n")
  errors : run.errors =
    String.join (((if target = .standardError then trace else []) ++ report).map fun line => line ++ "\n")
  trace : run.trace = if target = .receiver then trace else []
  ending : run.ending = ending

theorem leaves_close (target : TraceTarget) (output trace report : List String) (ending : Ending) :
    (close target trace (String.join (output.map line)) (String.join (report.map line)) ending).Leaves
      target output trace report ending := by
  cases target with
  | standardError =>
    refine ⟨rfl, ?_, rfl, rfl⟩
    rw [if_pos rfl, List.map_append, String.join_append]
    rfl
  | receiver => exact ⟨rfl, rfl, rfl, rfl⟩

/-- The two lines that show a rule, from its written form and its digest. -/
def lines (coloured : Bool) (text : String) (digest : Digest) : List String :=
  [paint coloured (resultInk text) text, paint coloured .muted ("hash " ++ digest.hex)]

/-- A rule that can be expressed is printed in two lines, one of which shows its written form and the
other its digest. -/
theorem exists_printed (coloured : Bool) {rule : Rule} (h : rule.Expressible) :
    ∃ text digest, rule.format = .ok text ∧ rule.hash = .ok digest ∧
      printed coloured rule = .ok (String.join ((lines coloured text digest).map line)) ∧
      Shows coloured (paint coloured (resultInk text) text) text ∧
      Shows coloured (paint coloured .muted ("hash " ++ digest.hex)) ("hash " ++ digest.hex) := by
  have hformat := Rule.format_eq_ok h.1
  have hhash := Rule.hash_eq_ok h.1
  refine ⟨_, _, hformat, hhash, ?_, shows_paint (Rule.clear_of_format h hformat), shows_paint ?_⟩
  · rw [printed, hformat, hhash]
    simp [lines, String.join_cons]
    rfl
  · have hdigits : Clear (String.ofList Digest.hexDigits) := by decide
    refine Clear.append (by decide) fun c hc => hdigits c ?_
    rw [String.toList_ofList]
    exact (Digest.hex_ofText rule.canonical).2 c hc

/-- The report on a text with one error in it. -/
theorem malformedText_singleton (source : String) (position : Nat) (message : String) :
    malformedText source [(position, message)] =
      "Invalid exclusion notation " ++ String.ofList (Text.quote source.toList) ++ ": " ++ message ++
        " at " ++ toString position := by
  unfold malformedText
  generalize String.ofList (Text.quote source.toList) = quoted
  have hnumber : toString (position : Int) = toString position := rfl
  rw [List.map_singleton, String.intercalate_singleton, hnumber]
  simp only [String.append_assoc]

/-- A text that cannot be read is reported in one line. -/
theorem shows_report (coloured : Bool) (source : String) (error : SyntaxError) :
    Shows coloured (paint coloured .red (malformedText source [(error.position, error.message)]))
      ("Invalid exclusion notation " ++ String.ofList (Text.quote source.toList) ++ ": " ++
        error.message ++ " at " ++ toString error.position) := by
  rw [malformedText_singleton]
  have hquoted : Clear (String.ofList (Text.quote source.toList)) := by
    intro c hc
    rw [String.toList_ofList] at hc
    exact Text.toNat_of_mem_quote _ c hc
  have hfront : Clear "Invalid exclusion notation " := by decide
  have hcolon : Clear ": " := by decide
  have hat : Clear " at " := by decide
  have hposition : Clear (toString error.position) := clear_toString error.position
  exact shows_paint
    (((((hfront.append hquoted).append hcolon).append error.clear_message).append hat).append hposition)

end Run

end ExclusionAlgebra
