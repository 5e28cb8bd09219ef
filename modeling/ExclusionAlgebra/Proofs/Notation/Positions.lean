import ExclusionAlgebra.Proofs.Notation.Beginnings
import ExclusionAlgebra.Proofs.Text.Units

/-!
# Where reading fails

A text that cannot be read is refused at the place where it stops being the beginning of a text that
can.  What the reader has passed is a beginning; and as the reader decides by the next character, no
text goes on with that character.

* `Reader.Reads.local`, `Reader.Fails.local`: a run depends on what it passes and on how the rest
  begins, not on the rest as a whole.
* `Notation.Document.basic`: a text of the grammar has one 16-bit unit a character.
* `Rule.position_of_read_error`: the position of an error.
-/

namespace ExclusionAlgebra

open Notation

namespace Reader

/-! ## The next character decides -/

/-- Behind the leading blanks of a text, what stands there may be changed from some place on, if the
change begins in the same way. -/
theorem exists_skipBlank_append {text passed rest : List Char}
    (h : Text.skipBlank text = passed ++ rest) : ∃ before, text = before ++ (passed ++ rest) ∧
      ∀ other : List Char, (passed ++ other).head? = (passed ++ rest).head? →
        Text.skipBlank (before ++ (passed ++ other)) = passed ++ other := by
  obtain ⟨before, hbefore, htext⟩ := exists_blanks text
  refine ⟨before, h ▸ htext, fun other hother => ?_⟩
  rw [hbefore.skipBlank_append]
  apply skipBlank_of_head?
  rw [hother, ← h]
  exact not_blank_of_head?_skipBlank

/-- A separator behind blanks tells a reader all that it needs, whatever follows the separator. -/
theorem exists_sameFront {text rest : List Char} {c : Char} (h : Text.skipBlank text = c :: rest) :
    ∃ blanks, text = blanks ++ c :: rest ∧ ∀ other : List Char,
      SameFront (blanks ++ c :: other) text ∧ Text.skipBlank (blanks ++ c :: other) = c :: other := by
  obtain ⟨blanks, hblanks, rfl⟩ := exists_blanks_of_skipBlank h
  have hc := not_blank_of_skipBlank h
  refine ⟨blanks, rfl, fun other => ⟨?_, hblanks.skipBlank_append_cons hc other⟩⟩
  apply SameFront.blanks_append hblanks
  · rintro d ⟨⟩
    exact hc
  · rfl

/-- Behind the front of a composite, anything may stand. -/
theorem exists_opening {text inside : List Char} {operation : Operation}
    (h : opening? (Text.skipBlank text) = some (operation, inside)) : ∃ front,
      text = front ++ inside ∧ ∀ other, opening? (Text.skipBlank (front ++ other)) =
        some (operation, other) := by
  obtain ⟨before, blanks, hbefore, hblanks, rfl⟩ := exists_front h
  refine ⟨before ++ (operation.keyword ++ (blanks ++ ['('])), by simp, fun other => ?_⟩
  apply opening?_eq_some_iff.mpr
  refine ⟨blanks, hblanks, ?_⟩
  rw [List.append_assoc, hbefore.skipBlank_append]
  cases operation <;> simp [Operation.keyword, skipBlank_cons (show Text.isBlank 'a' = false from rfl)]

mutual

theorem Reads.local {text rest : List Char} {r : Rule} :
    Reads text r rest → ∃ passed, text = passed ++ rest ∧
      ∀ other, SameFront other rest → Reads (passed ++ other) r other
  | .atom hopening hatom => by
    obtain ⟨passed, hpassed, hlocal⟩ := atom_local_ok hopening hatom
    obtain ⟨before, rfl, hskip⟩ := exists_skipBlank_append hpassed
    refine ⟨before ++ passed, by simp, fun other hother => ?_⟩
    obtain ⟨hopening', hatom'⟩ := hlocal other hother
    rw [← hskip other (head?_append_eq passed hother.head)] at hopening' hatom'
    rw [List.append_assoc]
    exact .atom hopening' hatom'
  | .composite hopening hitems => by
    obtain ⟨front, rfl, hfront⟩ := exists_opening hopening
    obtain ⟨passed, rfl, hlocal⟩ := hitems.local
    refine ⟨front ++ passed, by simp, fun other _ => ?_⟩
    rw [List.append_assoc]
    exact .composite (hfront _) (hlocal other)

theorem ReadsItems.local {text rest : List Char} {rs : List Rule} :
    ReadsItems text rs rest → ∃ passed, text = passed ++ rest ∧
      ∀ other, ReadsItems (passed ++ other) rs other
  | .last hfirst hbehind => by
    obtain ⟨passed, rfl, hlocal⟩ := hfirst.local
    obtain ⟨blanks, rfl, hend⟩ := exists_sameFront hbehind
    refine ⟨passed ++ (blanks ++ [')']), by simp, fun other => ?_⟩
    have hfirst' := hlocal _ (hend other).1
    simpa using ReadsItems.last hfirst' (hend other).2
  | .more hfirst hbehind hothers => by
    obtain ⟨passed, rfl, hlocal⟩ := hfirst.local
    obtain ⟨blanks, rfl, hend⟩ := exists_sameFront hbehind
    obtain ⟨passed', rfl, hlocal'⟩ := hothers.local
    refine ⟨passed ++ (blanks ++ ',' :: passed'), by simp, fun other => ?_⟩
    have hfirst' := hlocal _ (hend (passed' ++ other)).1
    simpa using ReadsItems.more hfirst' (hend _).2 (hlocal' other)

end

mutual

theorem Fails.local {text : List Char} {rs : List Rule} {failure : Failure} :
    Fails text rs failure → ∃ passed, text = passed ++ failure.rest ∧ ∀ other : List Char,
      other.head? = failure.rest.head? → Fails (passed ++ other) rs ⟨failure.cause, other⟩
  | .atom hopening hatom => by
    obtain ⟨passed, hpassed, hlocal⟩ := atom_local_error not_blank_of_head?_skipBlank hopening hatom
    obtain ⟨before, rfl, hskip⟩ := exists_skipBlank_append hpassed
    refine ⟨before ++ passed, by simp, fun other hother => ?_⟩
    obtain ⟨hopening', hatom'⟩ := hlocal other hother
    rw [← hskip other (head?_append_eq passed hother)] at hopening' hatom'
    rw [List.append_assoc]
    exact .atom hopening' hatom'
  | .inside hopening hitems => by
    obtain ⟨front, rfl, hfront⟩ := exists_opening hopening
    obtain ⟨passed, rfl, hlocal⟩ := hitems.local
    refine ⟨front ++ passed, by simp, fun other hother => ?_⟩
    rw [List.append_assoc]
    exact .inside (hfront _) (hlocal other hother)

theorem FailsItems.local {text : List Char} {rs : List Rule} {failure : Failure} :
    FailsItems text rs failure → ∃ passed, text = passed ++ failure.rest ∧ ∀ other : List Char,
      other.head? = failure.rest.head? → FailsItems (passed ++ other) rs ⟨failure.cause, other⟩
  | .first hfirst => by
    obtain ⟨passed, htext, hlocal⟩ := hfirst.local
    exact ⟨passed, htext, fun other hother => .first (hlocal other hother)⟩
  | @FailsItems.separator _ behind _ hfirst hcomma hparenthesis => by
    obtain ⟨passed, rfl, hlocal⟩ := hfirst.local
    obtain ⟨blanks, hblanks, hskip⟩ := exists_blanks behind
    refine ⟨passed ++ blanks, by rw [List.append_assoc, ← hskip], fun other hother => ?_⟩
    have hfront : SameFront (blanks ++ other) behind := by
      rw [hskip]
      exact .blanks_append hblanks not_blank_of_head?_skipBlank hother
    have hother' : Text.skipBlank (blanks ++ other) = other := by
      rw [hblanks.skipBlank_append]
      apply skipBlank_of_head?
      rw [hother]
      exact not_blank_of_head?_skipBlank
    have hfails := FailsItems.separator (hlocal _ hfront) (by rwa [hother', hother])
      (by rwa [hother', hother])
    rw [hother'] at hfails
    rwa [List.append_assoc]
  | .later hfirst hbehind hothers => by
    obtain ⟨passed, rfl, hlocal⟩ := hfirst.local
    obtain ⟨blanks, rfl, hend⟩ := exists_sameFront hbehind
    obtain ⟨passed', rfl, hlocal'⟩ := hothers.local
    refine ⟨passed ++ (blanks ++ ',' :: passed'), by simp, fun other hother => ?_⟩
    have hfirst' := hlocal _ (hend (passed' ++ other)).1
    simpa using FailsItems.later hfirst' (hend _).2 (hlocal' other hother)

end

theorem FailsDocument.local {text : List Char} {rs : List Rule} {failure : Failure}
    (h : FailsDocument text rs failure) : ∃ passed, text = passed ++ failure.rest ∧
      ∀ other : List Char, other ≠ [] → other.head? = failure.rest.head? →
        FailsDocument (passed ++ other) rs ⟨failure.cause, other⟩ := by
  cases h with
  | inside hfail =>
    obtain ⟨passed, htext, hlocal⟩ := hfail.local
    exact ⟨passed, htext, fun other _ hother => .inside (hlocal other hother)⟩
  | excess hread hbehind =>
    obtain ⟨passed, rfl, hlocal⟩ := hread.local
    obtain ⟨blanks, rfl, hend⟩ := exists_sameFront hbehind
    refine ⟨passed ++ blanks, by simp, fun other hne hother => ?_⟩
    obtain ⟨c, tail, rfl⟩ := List.exists_cons_of_ne_nil hne
    cases hother
    rw [List.append_assoc]
    exact .excess (hlocal _ (hend tail).1) (hend tail).2

end Reader

namespace Notation

/-! ## Texts of the grammar have one unit a character -/

theorem Blanks.basic {blanks : List Char} (h : Blanks blanks) : Text.Basic blanks :=
  fun c hc => Text.toNat_lt_of_isBlank (h c hc)

mutual

theorem Expression.basic {text : List Char} {rule : Rule} :
    Expression text rule → Text.Basic text
  | .everything => by decide
  | .nothing => by decide
  | .pattern hleaf _ _ => fun c hc =>
    Nat.lt_trans (toNat_of_isPatternChar (hleaf.patternChars c hc)).2 (by decide)
  | .composite operation hblanks hitems => by
    have hkeyword : Text.Basic operation.keyword := by cases operation <;> decide
    simp only [Text.Basic, List.forall_mem_append, List.forall_mem_cons]
    exact ⟨hkeyword, hblanks.basic, by decide, hitems.basic, by decide, nofun⟩

theorem Items.basic {inside : List Char} {rules : List Rule} :
    Items inside rules → Text.Basic inside
  | .last hbefore hexpression hafter => by
    simp only [Text.Basic, List.forall_mem_append]
    exact ⟨hbefore.basic, hexpression.basic, hafter.basic⟩
  | .more hbefore hexpression hafter hinside => by
    simp only [Text.Basic, List.forall_mem_append, List.forall_mem_cons]
    exact ⟨hbefore.basic, hexpression.basic, hafter.basic, by decide, hinside.basic⟩

end

theorem Document.basic {text : List Char} {rule : Rule} (h : Document text rule) :
    Text.Basic text := by
  obtain ⟨before, expression, after, hbefore, hexpression, hafter, rfl⟩ := h
  simp only [Text.Basic, List.forall_mem_append]
  exact ⟨hbefore.basic, hexpression.basic, hafter.basic⟩

/-- The texts of the grammar, whatever they say. -/
def Valid (text : List Char) : Prop := ∃ tree, Document text tree

end Notation

namespace Rule

/-- **Errors stand where the text goes wrong.** In 16-bit units, the position of an error lies within
the source; what stands before it begins a text of the grammar; and it is either the end of the source,
which is no text of the grammar, or no text of the grammar begins with what stands before it and the
unit there. -/
theorem position_of_read_error {source : String} {error : SyntaxError}
    (h : read source = .error error) :
    error.position ≤ (Text.units source.toList).length ∧
    (∃ text, Valid text ∧
      (Text.units source.toList).take error.position <+: Text.units text) ∧
    (error.position = (Text.units source.toList).length ∧ ¬ Valid source.toList ∨
      ¬ ∃ text, Valid text ∧
        (Text.units source.toList).take (error.position + 1) <+: Text.units text) := by
  obtain ⟨trees, failure, hfail, rfl⟩ := read_eq_error_iff.mp h
  obtain ⟨passed, htext, hbegun⟩ := hfail.begun
  obtain ⟨more, tree, hdocument⟩ := hbegun.completed
  have hpassed : Text.Basic passed := fun c hc => hdocument.basic c (List.mem_append_left more hc)
  have hposition : (failure.toSyntaxError source.toList).position = passed.length := by
    simp [Reader.Failure.toSyntaxError, htext]
  rw [hposition, htext]
  refine ⟨?_, ⟨passed ++ more, ⟨tree, hdocument⟩, ?_⟩, ?_⟩
  · rw [Text.units_append, List.length_append, hpassed.length_units]
    omega
  · rw [Text.take_units hpassed, Text.units_append]
    exact List.prefix_append _ _
  · cases hrest : failure.rest with
    | nil =>
      left
      rw [hrest] at htext
      rw [← htext]
      refine ⟨?_, ?_⟩
      · rw [htext, List.append_nil, hpassed.length_units]
      · rintro ⟨tree, hvalid⟩
        exact hfail.not_readsDocument (Reader.readsDocument_iff.mpr hvalid)
    | cons c tail =>
      right
      rintro ⟨text, ⟨tree, hvalid⟩, hprefix⟩
      obtain ⟨other, rfl⟩ := Text.exists_of_take_units_prefix hpassed hvalid.basic hprefix
      obtain ⟨passed', htext', hlocal⟩ := hfail.local
      obtain rfl : passed' = passed := List.append_cancel_right (htext'.symm.trans htext)
      have hother := hlocal (c :: other) (List.cons_ne_nil c other) (by rw [hrest]; rfl)
      exact hother.not_readsDocument (Reader.readsDocument_iff.mpr hvalid)

/-- A colon behind a constant and a blank: the blank still goes on in a text of the grammar, the colon
in none. -/
theorem position_of_colon_behind_word :
    let source := "all(nothing, everything :m)"
    let error : SyntaxError := ⟨24, .separator⟩
    read source = .error error ∧
      error.position ≤ (Text.units source.toList).length ∧
      (∃ text, Valid text ∧
        (Text.units source.toList).take error.position <+: Text.units text) ∧
      (error.position = (Text.units source.toList).length ∧ ¬ Valid source.toList ∨
        ¬ ∃ text, Valid text ∧
          (Text.units source.toList).take (error.position + 1) <+: Text.units text) := by
  intro source error
  have hread : read source = .error error := by decide +kernel
  exact ⟨hread, position_of_read_error hread⟩

end Rule

end ExclusionAlgebra
