import ExclusionAlgebra.Proofs.Engine.Recording
import ExclusionAlgebra.Proofs.Simplify.Names

/-!
# Running a journal again

An entry of the journal holds nothing but texts.  If all rules that are handed in can be spelled, so can
all that the engine makes of them, and reading an entry's operands and combining them afresh leads to
the answer that the entry tells.

* `LogEntry.Replays`: the entry can be run again from its texts.
* `Engine.Replayable`, `Engine.request_replayable`: a journal of such entries, and one request.
* `Session.Step.Spelled`: a step brings in only what can be spelled.
* `Session.journal_replays`: the journal after a session of such steps.
-/

namespace ExclusionAlgebra

open Rule

/-- The operands are texts of rules.  Combining these, with the granted depth or more, gives a rule with
the text and the digest of the entry; and so does reading that text. -/
def LogEntry.Replays (depth : Nat) (entry : LogEntry) : Prop :=
  ∃ operands result, entry.operands.mapM Rule.read = .ok operands ∧
    (∀ more, depth ≤ more → Simplify.combineAll more entry.operation operands = .ok result) ∧
    result.format = .ok entry.result ∧ result.hash = .ok entry.digest ∧
    ∃ again, Rule.read entry.result = .ok again ∧ again.hash = .ok entry.digest

theorem Rule.read_of_format {rule : Rule} {text : String} (hrule : rule.Spelled)
    (h : rule.format = .ok text) : Rule.read text = .ok rule := by
  have hknown := known_of_format h
  rw [format_eq_ok hknown] at h
  cases h
  exact read_written ⟨hknown, hrule⟩

/-- An entry that describes an answer of simplification can be run again. -/
theorem LogEntry.Describes.replays {entry : LogEntry} {request : Request} {result : Rule} {depth : Nat}
    (h : entry.Describes request result) (hoperands : ∀ x ∈ request.operands, x.Spelled)
    (hresult : request.answer (Base.simplifying depth) = .ok result) :
    entry.Replays depth ∧ result.Expressible := by
  have hexpressible : ∀ x ∈ request.operands, x.Expressible :=
    fun x hx => ⟨h.operands_known x hx, hoperands x hx⟩
  have hmade : result.Expressible := Simplify.expressible_of_combineAll hresult hexpressible
  refine ⟨⟨request.operands, result, ?_, ?_, h.written, h.digest, result, ?_, h.digest⟩, hmade⟩
  · rw [mapM_eq_ok]
    have hpairs := (List.forall₂_and_left _ _).mpr ⟨hoperands, mapM_eq_ok.mp h.operands⟩
    exact (hpairs.imp fun x text hx => read_of_format hx.1 hx.2).flip
  · intro more hmore
    rw [h.operation]
    exact Simplify.combineAll_mono hmore hresult
  · exact read_of_format hmade.2 h.written

namespace Engine

variable {wiring : Wiring} {depth : Nat}

/-- Two engines in one state, with nothing but a recording layer, whose journal can be run again. -/
structure Replayable (depth : Nat) (s t : State) : Prop where
  same : s = t
  layers : s.layers = [.logging true]
  entries : ∀ entry ∈ s.journal.entries, entry.Replays depth

section

variable (hbase : wiring.base = Base.simplifying depth) (hsink : ∀ entry, wiring.sink entry = .ok ())
include hbase hsink

/-- A request: what is answered and recorded can be spelled, and its entry can be run again. -/
theorem request_replayable (operation : Operation) {rules : List Rule}
    (hrules : ∀ x ∈ rules, x.Spelled) :
    Stateful.Matches (Replayable depth) (fun a b => a = b ∧ a.Expressible)
      (request wiring operation rules) (request wiring operation rules) := by
  rintro ⟨layers, journal⟩ _ ⟨rfl, hlayers, hentries⟩
  cases hlayers
  simp only [request, serve]
  cases hanswer : wiring.base operation rules with
  | error fault => exact ⟨.error fault, rfl, rfl, hentries⟩
  | ok result =>
    obtain ⟨entry, -, hdescribes, hrecord⟩ | ⟨fault, x, -, -, hrecord⟩ :=
      record_cases hsink operation rules result journal
    · have hresult : Request.answer (Base.simplifying depth) ⟨operation, rules⟩ = .ok result := by
        rw [← hbase]
        exact hanswer
      obtain ⟨hreplays, hexpressible⟩ := hdescribes.replays hrules hresult
      dsimp only
      rw [hrecord]
      refine ⟨.ok ⟨rfl, hexpressible⟩, rfl, rfl, ?_⟩
      exact List.forall_mem_append.mpr ⟨hentries, List.forall_mem_singleton.mpr hreplays⟩
    · dsimp only
      rw [hrecord]
      exact ⟨.error fault, rfl, rfl, hentries⟩

theorem builders_replayable :
    Stateful.Builders (Replayable depth) Rule.Expressible (fun _ _ => True)
      (fun a b => a = b ∧ a.Expressible) (request wiring) (request wiring) where
  inside _ _ h := (expressible_composite.mp h).2
  atom rule h _ := ⟨trivial, rfl, h⟩
  request := by
    intro operation components as bs _ _ hsame
    obtain ⟨rfl, hexpressible⟩ := eq_of_forall₂ hsame
    have hrequest := request_replayable hbase hsink operation fun x hx => (hexpressible x hx).2
    exact hrequest.imp fun _ _ hab => ⟨trivial, hab⟩

end

end Engine

/-! ## Sessions -/

namespace Session

mutual

/-- The operand brings in no names but identifiers and no empty composite. -/
def Term.Spelled : Term → Prop
  | .given rule => rule.Spelled
  | .written _ => True
  | .answer _ => True
  | .composite _ components => components ≠ [] ∧ Term.AllSpelled components

def Term.AllSpelled : List Term → Prop
  | [] => True
  | term :: rest => term.Spelled ∧ Term.AllSpelled rest

end

def Step.Spelled : Step → Prop
  | .combine _ operands => Term.AllSpelled operands
  | .pattern p => p.Named
  | _ => True

mutual

/-- What such an operand stands for can be spelled, or is a foreign value. -/
theorem Term.spelled_of_resolve {answers : List (Option Rule)}
    (hanswers : ∀ rule, some rule ∈ answers → rule.Spelled) : (term : Term) → term.Spelled →
      ∀ {rule : Rule}, term.resolve answers = .ok rule → rule.Spelled
  | .given x, hterm, rule, h => by
    cases h
    exact hterm
  | .written source, _, rule, h => by
    rw [Term.resolve] at h
    cases hread : Rule.read source with
    | ok tree =>
      rw [hread] at h
      cases h
      exact (expressible_of_read hread).2
    | error error =>
      rw [hread] at h
      cases h
  | .answer step, _, rule, h => by
    cases h
    cases hstep : answers[step]? with
    | none => simp [Rule.Spelled, Named]
    | some answer =>
      cases answer with
      | none => simp [Rule.Spelled, Named]
      | some rule => exact hanswers rule (List.mem_of_getElem? hstep)
  | .composite operation components, hterm, rule, h => by
    rw [Term.resolve] at h
    obtain ⟨rules, hrules, h⟩ := bind_eq_ok.mp h
    cases h
    obtain ⟨hlength, hall⟩ := Term.spelled_of_resolveList hanswers components hterm.2 hrules
    refine spelled_composite.mpr ⟨?_, hall⟩
    rintro rfl
    exact hterm.1 (List.length_eq_zero_iff.mp hlength.symm)

theorem Term.spelled_of_resolveList {answers : List (Option Rule)}
    (hanswers : ∀ rule, some rule ∈ answers → rule.Spelled) : (terms : List Term) →
      Term.AllSpelled terms → ∀ {rules : List Rule}, Term.resolveList answers terms = .ok rules →
        rules.length = terms.length ∧ ∀ x ∈ rules, x.Spelled
  | [], _, rules, h => by
    cases h
    exact ⟨rfl, List.forall_mem_nil _⟩
  | term :: rest, hterms, rules, h => by
    rw [Term.resolveList] at h
    obtain ⟨first, hfirst, h⟩ := bind_eq_ok.mp h
    obtain ⟨others, hothers, h⟩ := bind_eq_ok.mp h
    cases h
    have hspelled := Term.spelled_of_resolve hanswers term hterms.1 hfirst
    obtain ⟨hlength, hall⟩ := Term.spelled_of_resolveList hanswers rest hterms.2 hothers
    exact ⟨congrArg (· + 1) hlength, List.forall_mem_cons.mpr ⟨hspelled, hall⟩⟩

end

variable {wiring : Engine.Wiring} {depth : Nat}

theorem Step.matches_replayable (hbase : wiring.base = Base.simplifying depth)
    (hsink : ∀ entry, wiring.sink entry = .ok ()) {as bs : List (Option Rule)}
    (hanswers : List.Forall₂ (Option.Rel fun a b => a = b ∧ a.Expressible) as bs) {step : Step}
    (hstep : step.Spelled) :
    step.Matches wiring wiring (Engine.Replayable depth) (fun a b => a = b ∧ a.Expressible) as bs := by
  obtain ⟨rfl, hexpressible⟩ := eq_of_answers hanswers
  cases step with
  | combine operation operands =>
    have hspelled : ∀ rule, some rule ∈ as → rule.Spelled := fun rule h => (hexpressible rule h).2
    refine Step.matches_combine fun rules hrules => ?_
    obtain ⟨-, hall⟩ := Term.spelled_of_resolveList hspelled operands hstep hrules
    exact Engine.request_replayable hbase hsink operation hall
  | parse source =>
    have hbuilders := Engine.builders_replayable hbase hsink
    exact hbuilders.readWith source fun trees htrees => expressible_of_comesTo htrees
  | everything | nothing => exact ⟨rfl, by simp [Expressible, Named]⟩
  | pattern p => exact ⟨rfl, expressible_pattern hstep⟩
  | clearCaches =>
    rintro s _ ⟨rfl, hlayers, hentries⟩
    refine ⟨rfl, ?_, hentries⟩
    rw [Engine.State.clearCaches, hlayers]
    rfl
  | clearJournal =>
    rintro s _ ⟨rfl, hlayers, -⟩
    exact ⟨rfl, hlayers, List.forall_mem_nil _⟩
  | journal =>
    rintro s _ ⟨rfl, -, -⟩
    rfl

/-- **The journal can be run again from its texts.** Take the usual engine with a journal and without a
memo, and any session that brings in no names but identifiers and no empty composite.  Each operand of
each entry is read as a rule; the operation applied to these, afresh, gives a rule whose text is the
entry's answer and whose digest is the entry's; and that text is read as a rule with this digest. -/
theorem journal_replays (hbase : wiring.base = Base.simplifying depth)
    (hsink : ∀ entry, wiring.sink entry = .ok ()) {steps : List Step}
    (hsteps : ∀ step ∈ steps, step.Spelled) :
    ∀ entry ∈ (journalAfter wiring (Engine.Options.layers ⟨false, true⟩) steps).entries,
      entry.Replays depth := by
  have hstart : Engine.Replayable depth (.initial (Engine.Options.layers ⟨false, true⟩))
      (.initial (Engine.Options.layers ⟨false, true⟩)) := ⟨rfl, rfl, List.forall_mem_nil _⟩
  have hgood : Along wiring (fun _ _ step => step.Spelled) []
      (.initial (Engine.Options.layers ⟨false, true⟩)) steps :=
    along_of_forall (fun step hmem _ _ => hsteps step hmem) [] _
  obtain ⟨-, hlast⟩ := runFrom_matched
    (fun as bs s t step hanswers _ => Step.matches_replayable hbase hsink hanswers) .nil hstart hgood
  exact hlast.entries

/-- A text, a request that is distributed over what it says, and one that fails on an answer that is not
there. -/
def distributedSteps : List Step :=
  [.parse "any(a:m, all(b:n, everything))", .pattern ⟨some "b", none, none⟩,
    .combine .allOf [.answer 1, .composite .anyOf [.answer 0, .written "*:*:x"]], .clearCaches,
    .combine .anyOf [.answer 2, .answer 7]]

theorem journal_replays_distributedSteps :
    let wiring : Engine.Wiring := ⟨Base.simplifying 5, fun n => toString n, Engine.acceptAll⟩
    let journal := journalAfter wiring (Engine.Options.layers ⟨false, true⟩) distributedSteps
    (∀ step ∈ distributedSteps, step.Spelled) ∧
      journal.entries.map (fun entry => (entry.operation, entry.operands, entry.result)) =
        [(.allOf, ["b:n", "everything"], "b:n"), (.anyOf, ["a:m", "b:n"], "any(a:m, b:n)"),
          (.allOf, ["b:*", "any(any(a:m, b:n), *:*:x)"], "any(b:n, b:*:x)")] ∧
      ∀ entry ∈ journal.entries, entry.Replays 5 := by
  intro wiring journal
  have hnamed : (⟨some "b", none, none⟩ : Pattern).Named := by
    simp [Pattern.named_iff, Identifier, Reader.isNameChar]
  have hsteps : ∀ step ∈ distributedSteps, step.Spelled := by
    simp [distributedSteps, Step.Spelled, Term.AllSpelled, Term.Spelled, hnamed]
  have hentries : journal.entries.map (fun entry => (entry.operation, entry.operands, entry.result)) =
      [(.allOf, ["b:n", "everything"], "b:n"), (.anyOf, ["a:m", "b:n"], "any(a:m, b:n)"),
        (.allOf, ["b:*", "any(any(a:m, b:n), *:*:x)"], "any(b:n, b:*:x)")] := by
    decide +kernel
  exact ⟨hsteps, hentries, journal_replays rfl (fun _ => rfl) hsteps⟩

end Session

end ExclusionAlgebra
