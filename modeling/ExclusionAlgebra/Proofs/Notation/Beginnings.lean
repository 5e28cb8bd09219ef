import ExclusionAlgebra.Proofs.Notation.Accepted

/-!
# Beginnings of written rules

The texts that a text of the grammar begins with, as a grammar of their own: a text that breaks off
inside of a pattern, or inside of composites behind some complete rules, or nowhere.

* `Notation.Begun`, `Notation.BegunItems`: the grammar of beginnings, with the composites whose closing
  parentheses are in the text.
* `Notation.Begun.completed`: every beginning can be completed.
* `Reader.FailsDocument.begun`: where the reader fails, it has passed a beginning, and the composites of
  the rules that it has read are those that are closed there.
-/

namespace ExclusionAlgebra

namespace Notation

mutual

/-- The beginning of a document. -/
inductive Begun : List Char → List Rule → Prop
  | pattern {before passed more : List Char} {p : Pattern} : Blanks before →
      Leaf (passed ++ more) p → Begun (before ++ passed) []
  | inside {before blanks inside : List Char} {closed : List Rule} (operation : Operation) :
      Blanks before → Blanks blanks → BegunItems inside closed →
      Begun (before ++ (operation.keyword ++ (blanks ++ '(' :: inside))) closed
  | whole {text : List Char} {rule : Rule} : Document text rule → Begun text rule.composites

/-- The beginning of the inside of a composite. -/
inductive BegunItems : List Char → List Rule → Prop
  | first {text : List Char} {closed : List Rule} : Begun text closed → BegunItems text closed
  | later {text inside : List Char} {rule : Rule} {closed : List Rule} : Document text rule →
      BegunItems inside closed → BegunItems (text ++ ',' :: inside) (rule.composites ++ closed)

end

/-! ## Completing what has begun -/

/-- A text like a pattern says something: the pattern, or one of the constants. -/
theorem exists_expression_of_leaf {text : List Char} {p : Pattern} (h : Leaf text p) :
    ∃ rule, Expression text rule := by
  by_cases heverything : text = everythingText
  · exact ⟨.everything, heverything ▸ .everything⟩
  · by_cases hnothing : text = nothingText
    · exact ⟨.nothing, hnothing ▸ .nothing⟩
    · exact ⟨.pattern p, .pattern h heverything hnothing⟩

mutual

theorem Begun.completed {text : List Char} {closed : List Rule} :
    Begun text closed → ∃ more rule, Document (text ++ more) rule
  | @Begun.pattern _ _ more _ hbefore hleaf => by
    obtain ⟨rule, hrule⟩ := exists_expression_of_leaf hleaf
    exact ⟨more, rule, _, _, [], hbefore, hrule, blanks_nil, by simp⟩
  | .inside operation hbefore hblanks hitems => by
    obtain ⟨more, rules, hinside⟩ := hitems.completed
    have hexpression := Expression.composite operation hblanks hinside
    exact ⟨more ++ [')'], _, _, _, [], hbefore, hexpression, blanks_nil, by simp⟩
  | .whole hdocument => ⟨[], _, by rwa [List.append_nil]⟩

theorem BegunItems.completed {text : List Char} {closed : List Rule} :
    BegunItems text closed → ∃ more rules, Items (text ++ more) rules
  | .first hfirst => by
    obtain ⟨more, rule, hdocument⟩ := hfirst.completed
    exact ⟨more, [rule], hdocument.last⟩
  | .later hdocument hothers => by
    obtain ⟨more, rules, hinside⟩ := hothers.completed
    have hitems := hdocument.more hinside
    exact ⟨more, _, by simpa using hitems⟩

end

end Notation

open Notation

namespace Reader

/-! ## What has been passed where the reader fails -/

/-- What is read and what the text says have the same composites. -/
theorem Faithful.composites {rest : List Char} {said read : Rule} (h : Faithful rest said read) :
    said.composites = read.composites := by
  rcases h with rfl | ⟨-, hsaid, hread⟩
  · rfl
  · rw [Rule.composites_eq_nil hsaid, Rule.composites_eq_nil hread]

/-- A rule that has been read, and the blanks behind it, where the text goes on in a way that the reader
does not accept. -/
theorem Reads.begun {text rest : List Char} {r : Rule} (h : Reads text r rest) :
    ∃ passed, text = passed ++ Text.skipBlank rest ∧ Begun passed r.composites := by
  obtain ⟨passed, said, rfl, hdocument, hsaid⟩ := h.document
  obtain ⟨blanks, hblanks, hrest⟩ := exists_blanks rest
  refine ⟨passed ++ blanks, ?_, ?_⟩
  · rw [List.append_assoc, ← hrest]
  · rw [← hsaid.composites]
    exact .whole (hdocument.append_blanks hblanks)

mutual

theorem Fails.begun {text : List Char} {rs : List Rule} {failure : Failure} :
    Fails text rs failure →
      ∃ passed, text = passed ++ failure.rest ∧ Begun passed (Rule.compositesIn rs)
  | .atom _ hatom => by
    obtain ⟨before, hbefore, htext⟩ := exists_blanks text
    obtain ⟨passed, more, p, hpassed, hleaf, -⟩ := pattern_eq_error (atom_eq_error.mp hatom).2
    rw [hpassed] at htext
    exact ⟨before ++ passed, by simpa using htext, .pattern hbefore hleaf⟩
  | @Fails.inside _ _ operation _ _ hopening hitems => by
    obtain ⟨before, blanks, hbefore, hblanks, rfl⟩ := exists_front hopening
    obtain ⟨passed, rfl, hinside⟩ := hitems.begun
    have hbegun := Begun.inside operation hbefore hblanks hinside
    exact ⟨_, by simp, hbegun⟩

theorem FailsItems.begun {text : List Char} {rs : List Rule} {failure : Failure} :
    FailsItems text rs failure →
      ∃ passed, text = passed ++ failure.rest ∧ BegunItems passed (Rule.compositesIn rs)
  | .first hfirst => by
    obtain ⟨passed, htext, hbegun⟩ := hfirst.begun
    exact ⟨passed, htext, .first hbegun⟩
  | .separator hfirst _ _ => by
    obtain ⟨passed, htext, hbegun⟩ := hfirst.begun
    refine ⟨passed, htext, ?_⟩
    rw [Rule.compositesIn_singleton]
    exact .first hbegun
  | .later hfirst hbehind hothers => by
    obtain ⟨passed, said, rfl, hdocument, hsaid⟩ := hfirst.document
    obtain ⟨blanks, hblanks, rfl⟩ := exists_blanks_of_skipBlank hbehind
    obtain ⟨inside, rfl, hinside⟩ := hothers.begun
    refine ⟨passed ++ blanks ++ ',' :: inside, by simp, ?_⟩
    rw [Rule.compositesIn, ← hsaid.composites]
    exact .later (hdocument.append_blanks hblanks) hinside

end

theorem FailsDocument.begun {text : List Char} {rs : List Rule} {failure : Failure}
    (h : FailsDocument text rs failure) :
    ∃ passed, text = passed ++ failure.rest ∧ Begun passed (Rule.compositesIn rs) := by
  cases h with
  | inside hfail => exact hfail.begun
  | excess hread hbehind =>
    obtain ⟨passed, htext, hbegun⟩ := hread.begun
    rw [hbehind] at htext
    refine ⟨passed, htext, ?_⟩
    rw [Rule.compositesIn_singleton]
    exact hbegun

end Reader

end ExclusionAlgebra
