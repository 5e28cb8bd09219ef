import ExclusionAlgebra.Proofs.Notation.Lookahead
import ExclusionAlgebra.Proofs.Rule.Rebuild

/-!
# Runs of the reader

What the reader does with a text as a relation, without factories and without a bound on nested calls.
A run ends with a rule and the text behind it, or it fails; then it leaves rules behind that were read
by then.

* `Reader.Reads`, `Reader.Fails`: runs that take a rule from the front of a text, and runs that fail.
* `Reader.ReadsDocument`, `Reader.FailsDocument`: the same for a whole text.
* `Reader.Reads.length_lt`: every run takes at least one character.
* `Reader.reads_or_fails`: every text has a run.
-/

namespace ExclusionAlgebra

open Notation

namespace Reader

mutual

/-- A rule stands at the front of the text, before the rest. -/
inductive Reads : List Char → Rule → List Char → Prop
  | atom {text rest : List Char} {r : Rule} : opening? (Text.skipBlank text) = none →
      Reader.atom (Text.skipBlank text) = .ok (r, rest) → Reads text r rest
  | composite {text inside rest : List Char} {operation : Operation} {components : List Rule} :
      opening? (Text.skipBlank text) = some (operation, inside) →
      ReadsItems inside components rest → Reads text (.composite operation components) rest

/-- Rules up to a closing parenthesis stand at the front of the text. -/
inductive ReadsItems : List Char → List Rule → List Char → Prop
  | last {text after rest : List Char} {r : Rule} : Reads text r after →
      Text.skipBlank after = ')' :: rest → ReadsItems text [r] rest
  | more {text after others rest : List Char} {r : Rule} {rs : List Rule} : Reads text r after →
      Text.skipBlank after = ',' :: others → ReadsItems others rs rest →
      ReadsItems text (r :: rs) rest

end

mutual

/-- No rule stands at the front of the text.  The rules are those that were read inside of composites
that are not complete. -/
inductive Fails : List Char → List Rule → Failure → Prop
  | atom {text : List Char} {failure : Failure} : opening? (Text.skipBlank text) = none →
      Reader.atom (Text.skipBlank text) = .error failure → Fails text [] failure
  | inside {text inside : List Char} {operation : Operation} {rs : List Rule} {failure : Failure} :
      opening? (Text.skipBlank text) = some (operation, inside) → FailsItems inside rs failure →
      Fails text rs failure

inductive FailsItems : List Char → List Rule → Failure → Prop
  | first {text : List Char} {rs : List Rule} {failure : Failure} : Fails text rs failure →
      FailsItems text rs failure
  | separator {text after : List Char} {r : Rule} : Reads text r after →
      (Text.skipBlank after).head? ≠ some ',' → (Text.skipBlank after).head? ≠ some ')' →
      FailsItems text [r] ⟨.separator, Text.skipBlank after⟩
  | later {text after others : List Char} {r : Rule} {rs : List Rule} {failure : Failure} :
      Reads text r after → Text.skipBlank after = ',' :: others → FailsItems others rs failure →
      FailsItems text (r :: rs) failure

end

/-- The text is a rule, with nothing but blanks behind it. -/
def ReadsDocument (text : List Char) (r : Rule) : Prop :=
  ∃ rest, Reads text r rest ∧ Text.skipBlank rest = []

inductive FailsDocument : List Char → List Rule → Failure → Prop
  | inside {text : List Char} {rs : List Rule} {failure : Failure} : Fails text rs failure →
      FailsDocument text rs failure
  | excess {text after rest : List Char} {r : Rule} {c : Char} : Reads text r after →
      Text.skipBlank after = c :: rest → FailsDocument text [r] ⟨.unexpected c, c :: rest⟩

/-! ## Every run makes progress -/

theorem length_skipBlank_le (text : List Char) : (Text.skipBlank text).length ≤ text.length :=
  (List.dropWhile_sublist Text.isBlank).length_le

variable {text rest inside : List Char} {r : Rule} {rs : List Rule} {failure : Failure}

theorem length_of_skipBlank {c : Char} (h : Text.skipBlank text = c :: rest) :
    rest.length < text.length := by
  have hle := length_skipBlank_le text
  rw [h, List.length_cons] at hle
  omega

theorem length_of_opening? {operation : Operation}
    (h : opening? (Text.skipBlank text) = some (operation, inside)) :
    inside.length + 3 < text.length := by
  obtain ⟨before, blanks, -, -, rfl⟩ := exists_front h
  have hkeyword : operation.keyword.length = 3 := by cases operation <;> rfl
  simp only [List.length_append, List.length_cons]
  omega

theorem length_of_atom (h : atom text = .ok (r, rest)) : rest.length < text.length := by
  rcases atom_eq_ok h with ⟨hconstant, rfl⟩ | ⟨-, p, -, hpattern⟩
  · obtain ⟨word, after, hsplit⟩ : ∃ word after, splitName text = (word, after) := ⟨_, _, rfl⟩
    obtain ⟨rfl, -, -⟩ := splitName_spec hsplit
    have hword : 0 < word.length := by
      rcases (constant?_cases hconstant).2 with ⟨-, hword⟩ | ⟨-, hword⟩ <;>
        simp only [lookahead, hsplit] at hword <;> rw [hword] <;> decide
    have hafter := length_skipBlank_le after
    simp only [hsplit, List.length_append]
    omega
  · obtain ⟨t, hleaf, rfl, -⟩ := pattern_eq_ok hpattern
    have ht := List.length_pos_iff.mpr hleaf.ne_nil
    rw [List.length_append]
    omega

mutual

theorem Reads.length_lt {text rest : List Char} {r : Rule} :
    Reads text r rest → rest.length < text.length
  | .atom _ hatom => by
    have hlt := length_of_atom hatom
    have hle := length_skipBlank_le text
    omega
  | .composite hopening hitems => by
    have hlt := hitems.length_lt
    have hinside := length_of_opening? hopening
    omega

theorem ReadsItems.length_lt {text rest : List Char} {rs : List Rule} :
    ReadsItems text rs rest → rest.length < text.length
  | .last hfirst hafter => by
    have hlt := hfirst.length_lt
    have hend := length_of_skipBlank hafter
    omega
  | .more hfirst hafter hothers => by
    have hlt := hfirst.length_lt
    have hcomma := length_of_skipBlank hafter
    have hrest := hothers.length_lt
    omega

end

/-! ## Every text has a run -/

def Ran (text : List Char) : Prop :=
  (∃ r rest, Reads text r rest) ∨ ∃ rs failure, Fails text rs failure

def RanItems (text : List Char) : Prop :=
  (∃ rs rest, ReadsItems text rs rest) ∨ ∃ rs failure, FailsItems text rs failure

/-- A rule runs if the inside of a shorter text does. -/
theorem ran_of_inside (h : ∀ inside : List Char, inside.length < text.length → RanItems inside) :
    Ran text := by
  cases hopening : opening? (Text.skipBlank text) with
  | none =>
    cases hatom : atom (Text.skipBlank text) with
    | ok result => exact .inl ⟨result.1, result.2, .atom hopening hatom⟩
    | error failure => exact .inr ⟨[], failure, .atom hopening hatom⟩
  | some front =>
    obtain ⟨operation, inside⟩ := front
    have hlength := length_of_opening? hopening
    rcases h inside (by omega) with ⟨rs, rest, hitems⟩ | ⟨rs, failure, hitems⟩
    · exact .inl ⟨_, rest, .composite hopening hitems⟩
    · exact .inr ⟨rs, failure, .inside hopening hitems⟩

/-- The inside of a composite runs if its first rule does and what stands behind a comma. -/
theorem ranItems_of_first (hfirst : Ran text)
    (hothers : ∀ others : List Char, others.length < text.length → RanItems others) :
    RanItems text := by
  rcases hfirst with ⟨r, after, hfirst⟩ | ⟨rs, failure, hfirst⟩
  · by_cases hcomma : (Text.skipBlank after).head? = some ','
    · obtain ⟨others, hafter⟩ := List.head?_eq_some_iff.mp hcomma
      have hlt := hfirst.length_lt
      have hlength := length_of_skipBlank hafter
      rcases hothers others (by omega) with ⟨rs, rest, hitems⟩ | ⟨rs, failure, hitems⟩
      · exact .inl ⟨_, rest, .more hfirst hafter hitems⟩
      · exact .inr ⟨_, failure, .later hfirst hafter hitems⟩
    · by_cases hparenthesis : (Text.skipBlank after).head? = some ')'
      · obtain ⟨rest, hafter⟩ := List.head?_eq_some_iff.mp hparenthesis
        exact .inl ⟨_, rest, .last hfirst hafter⟩
      · exact .inr ⟨_, _, .separator hfirst hcomma hparenthesis⟩
  · exact .inr ⟨rs, failure, .first hfirst⟩

theorem ran_ranItems (text : List Char) : Ran text ∧ RanItems text := by
  induction hn : text.length using Nat.strong_induction_on generalizing text with
  | _ n ih =>
    subst hn
    have hshorter : ∀ other : List Char, other.length < text.length → RanItems other :=
      fun other hother => (ih other.length hother other rfl).2
    have htext := ran_of_inside hshorter
    exact ⟨htext, ranItems_of_first htext hshorter⟩

theorem reads_or_fails (text : List Char) :
    (∃ r, ReadsDocument text r) ∨ ∃ rs failure, FailsDocument text rs failure := by
  rcases (ran_ranItems text).1 with ⟨r, rest, hread⟩ | ⟨rs, failure, hfail⟩
  · cases hrest : Text.skipBlank rest with
    | nil => exact .inl ⟨r, rest, hread, hrest⟩
    | cons c tail => exact .inr ⟨_, _, .excess hread hrest⟩
  · exact .inr ⟨rs, failure, .inside hfail⟩

end Reader

end ExclusionAlgebra
