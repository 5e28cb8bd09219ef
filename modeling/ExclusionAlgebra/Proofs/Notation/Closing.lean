import ExclusionAlgebra.Proofs.Notation.Beginnings

/-!
# Closing parentheses

Each closing parenthesis in a text of the grammar, or in the beginning of one, ends a composite.  Which
one it is can be told from what stands before it: going back from the parenthesis, the composite begins
at the word before the opening parenthesis that belongs to it.

* `Notation.Closes`: the composites that the closing parentheses of a text end, one after another.
* `Notation.Begun.closes`: in the beginning of a text of the grammar, every closing parenthesis ends a
  composite.
* `Notation.Balanced`: texts in which all parentheses belong together.
* `Notation.Closes.unique`: the composites that are closed are determined by the text.
-/

namespace ExclusionAlgebra

namespace Notation

/-- In the second text, which goes on from the first, every closing parenthesis ends a composite, and
these are the composites, in order. -/
inductive Closes : List Char → List Char → List Rule → Prop
  | done {passed : List Char} : Closes passed [] []
  | other {passed rest : List Char} {closed : List Rule} {c : Char} : c ≠ ')' →
      Closes (passed ++ [c]) rest closed → Closes passed (c :: rest) closed
  | close {before expression passed rest : List Char} {operation : Operation}
      {components closed : List Rule} :
      Expression expression (.composite operation components) →
      passed ++ [')'] = before ++ expression → Closes (passed ++ [')']) rest closed →
      Closes passed (')' :: rest) (.composite operation components :: closed)

section

variable {passed text more : List Char} {closed others : List Rule}

theorem Closes.append (h : Closes passed text closed) (hmore : Closes (passed ++ text) more others) :
    Closes passed (text ++ more) (closed ++ others) := by
  induction h with
  | done =>
    rw [List.append_nil] at hmore
    exact hmore
  | other hc _ ih =>
    refine .other hc (ih ?_)
    rwa [List.append_assoc]
  | close hexpression heq _ ih =>
    refine .close hexpression heq (ih ?_)
    rwa [List.append_assoc]

theorem closes_of_notMem (h : ')' ∉ text) : Closes passed text [] := by
  induction text generalizing passed with
  | nil => exact .done
  | cons c rest ih =>
    rw [List.mem_cons, not_or] at h
    exact .other (Ne.symm h.1) (ih h.2)

end

/-! ## Texts of the grammar -/

theorem Blanks.closes {blanks : List Char} (h : Blanks blanks) (passed : List Char) :
    Closes passed blanks [] :=
  closes_of_notMem fun hmem => absurd (h ')' hmem) (by decide)

theorem closes_of_patternChars {text : List Char} (h : ∀ c ∈ text, isPatternChar c = true)
    (passed : List Char) : Closes passed text [] :=
  closes_of_notMem fun hmem => absurd (h ')' hmem) (by decide)

/-- The front of a composite closes nothing. -/
theorem closes_front {blanks : List Char} (operation : Operation) (h : Blanks blanks)
    (passed : List Char) : Closes passed (operation.keyword ++ (blanks ++ ['('])) [] := by
  apply closes_of_notMem
  have hblanks : ')' ∉ blanks := fun hmem => absurd (h ')' hmem) (by decide)
  cases operation <;> simp [Operation.keyword, hblanks]

mutual

theorem Expression.closes {text : List Char} {rule : Rule} :
    Expression text rule → ∀ passed, Closes passed text rule.composites
  | .everything, _ => closes_of_notMem (by decide)
  | .nothing, _ => closes_of_notMem (by decide)
  | .pattern hleaf _ _, passed => closes_of_patternChars hleaf.patternChars passed
  | .composite operation hblanks hitems, passed => by
    have hexpression := Expression.composite operation hblanks hitems
    have hfront := closes_front operation hblanks passed
    have hinside := hfront.append (hitems.closes _)
    have hclosed := hinside.append (.close hexpression (by simp : _ = passed ++ _) .done)
    simpa [Rule.composites] using hclosed

theorem Items.closes {inside : List Char} {rules : List Rule} :
    Items inside rules → ∀ passed, Closes passed inside (Rule.compositesIn rules)
  | .last hbefore hexpression hafter, passed => by
    have hclosed := (hbefore.closes passed).append
      ((hexpression.closes _).append (hafter.closes _))
    simpa [Rule.compositesIn] using hclosed
  | .more hbefore hexpression hafter hinside, passed => by
    have hfirst := (hbefore.closes passed).append
      ((hexpression.closes _).append (hafter.closes _))
    have hseparator := hfirst.append (.other (c := ',') (by decide) .done)
    have hclosed := hseparator.append (hinside.closes _)
    simpa [Rule.compositesIn] using hclosed

end

theorem Document.closes {text : List Char} {rule : Rule} (h : Document text rule)
    (passed : List Char) : Closes passed text rule.composites := by
  have hclosed := h.last.closes passed
  rwa [Rule.compositesIn_singleton] at hclosed

/-! ## Beginnings -/

mutual

theorem Begun.closes {text : List Char} {closed : List Rule} :
    Begun text closed → ∀ passed, Closes passed text closed
  | .pattern hbefore hleaf, passed => by
    have hpattern := fun c hc => hleaf.patternChars c (List.mem_append_left _ hc)
    exact (hbefore.closes passed).append (closes_of_patternChars hpattern _)
  | .inside operation hbefore hblanks hitems, passed => by
    have hfront := (hbefore.closes passed).append (closes_front operation hblanks _)
    have hclosed := hfront.append (hitems.closes _)
    simpa using hclosed
  | .whole hdocument, passed => hdocument.closes passed

theorem BegunItems.closes {text : List Char} {closed : List Rule} :
    BegunItems text closed → ∀ passed, Closes passed text closed
  | .first hfirst, passed => hfirst.closes passed
  | .later hdocument hothers, passed => by
    have hfirst := (hdocument.closes passed).append (.other (c := ',') (by decide) .done)
    have hclosed := hfirst.append (hothers.closes _)
    simpa using hclosed

end

/-! ## Parentheses that belong together -/

/-- The text closes as many parentheses as it opens, and no end of it opens more than it closes. -/
structure Balanced (text : List Char) : Prop where
  total : text.count '(' = text.count ')'
  ends : ∀ back, back <:+ text → back.count '(' ≤ back.count ')'

theorem Balanced.append {a b : List Char} (ha : Balanced a) (hb : Balanced b) :
    Balanced (a ++ b) where
  total := by
    have htotal := ha.total
    have htotal' := hb.total
    rw [List.count_append, List.count_append]
    omega
  ends back hback := by
    rcases List.suffix_or_suffix_of_suffix hback (List.suffix_append a b) with hback' | ⟨front, rfl⟩
    · exact hb.ends back hback'
    · have hends := ha.ends front (List.suffix_append_self_iff.mp hback)
      have htotal := hb.total
      rw [List.count_append, List.count_append]
      omega

theorem balanced_of_notMem {text : List Char} (hopen : '(' ∉ text) (hclose : ')' ∉ text) :
    Balanced text where
  total := by rw [List.count_eq_zero.mpr hopen, List.count_eq_zero.mpr hclose]
  ends back hback := by
    rw [List.count_eq_zero.mpr fun h => hopen (hback.subset h)]
    exact Nat.zero_le _

theorem Balanced.parenthesized {inside : List Char} (h : Balanced inside) :
    Balanced ('(' :: (inside ++ [')'])) where
  total := by
    have htotal := h.total
    simp [htotal]
  ends back hback := by
    rcases List.suffix_cons_iff.mp hback with rfl | hback
    · simp [h.total]
    · rcases List.suffix_concat_iff.mp hback with rfl | ⟨front, rfl, hfront⟩
      · exact Nat.le_refl _
      · have hends := h.ends front hfront
        rw [List.count_append, List.count_append, show [')'].count '(' = 0 from rfl]
        omega

theorem Blanks.balanced {blanks : List Char} (h : Blanks blanks) : Balanced blanks :=
  balanced_of_notMem (fun hmem => absurd (h '(' hmem) (by decide))
    (fun hmem => absurd (h ')' hmem) (by decide))

mutual

theorem Expression.balanced {text : List Char} {rule : Rule} : Expression text rule → Balanced text
  | .everything => balanced_of_notMem (by decide) (by decide)
  | .nothing => balanced_of_notMem (by decide) (by decide)
  | .pattern hleaf _ _ => balanced_of_notMem
      (fun hmem => absurd (hleaf.patternChars '(' hmem) (by decide))
      (fun hmem => absurd (hleaf.patternChars ')' hmem) (by decide))
  | .composite operation hblanks hitems => by
    have hkeyword : Balanced operation.keyword := by
      cases operation <;> exact balanced_of_notMem (by decide) (by decide)
    exact hkeyword.append (hblanks.balanced.append hitems.balanced.parenthesized)

theorem Items.balanced {inside : List Char} {rules : List Rule} :
    Items inside rules → Balanced inside
  | .last hbefore hexpression hafter =>
    hbefore.balanced.append (hexpression.balanced.append hafter.balanced)
  | .more hbefore hexpression hafter hinside => by
    have hseparator : Balanced [','] := balanced_of_notMem (by decide) (by decide)
    have hothers := hseparator.append hinside.balanced
    exact hbefore.balanced.append (hexpression.balanced.append (hafter.balanced.append hothers))

end

/-- The opening parenthesis before a text in which all belong together is not one of another such
text. -/
theorem Balanced.ne_append {inside other : List Char} (h : Balanced inside) (hother : Balanced other)
    (front : List Char) : other ≠ front ++ '(' :: inside := by
  rintro rfl
  have hends := hother.ends ('(' :: inside) (List.suffix_append _ _)
  have htotal := h.total
  simp only [List.count_cons_self, List.count_cons_of_ne (show '(' ≠ ')' by decide)] at hends
  omega

theorem front_eq_of_balanced {a b inside other : List Char} (h : Balanced inside)
    (hother : Balanced other) (heq : a ++ '(' :: inside = b ++ '(' :: other) : a = b := by
  rcases List.append_eq_append_iff.mp heq with ⟨front, rfl, hfront⟩ | ⟨front, rfl, hfront⟩
  · cases front with
    | nil => exact (List.append_nil a).symm
    | cons c front => exact absurd (List.cons.inj hfront).2 (hother.ne_append h front)
  · cases front with
    | nil => exact List.append_nil b
    | cons c front => exact absurd (List.cons.inj hfront).2 (h.ne_append hother front)

/-! ## What a closing parenthesis ends -/

/-- The word before an opening parenthesis is found behind the blanks there. -/
theorem skipBlank_reverse_front {blanks : List Char} (before : List Char) (operation : Operation)
    (h : Blanks blanks) : Text.skipBlank (before ++ (operation.keyword ++ blanks)).reverse =
      (before ++ operation.keyword).reverse := by
  have hblanks : Blanks blanks.reverse := fun c hc => h c (List.mem_reverse.mp hc)
  rw [← List.append_assoc, List.reverse_append, hblanks.skipBlank_append]
  cases operation <;> simp [Operation.keyword, skipBlank_cons (show Text.isBlank 'y' = false from rfl),
    skipBlank_cons (show Text.isBlank 'l' = false from rfl)]

/-- Two composites that end at the same place are the same. -/
theorem Expression.eq_of_append_eq {a b text other : List Char} {f g : Operation}
    {cs ds : List Rule} (h : Expression text (.composite f cs))
    (hother : Expression other (.composite g ds)) (heq : a ++ text = b ++ other) :
    Rule.composite f cs = .composite g ds := by
  suffices hfront : a = b by
    subst hfront
    rw [List.append_cancel_left heq] at h
    exact Reader.eq_of_expression h hother
  cases h with
  | @composite blanks inside _ _ hblanks hitems =>
    cases hother with
    | @composite blanks' inside' _ _ hblanks' hitems' =>
      have hend : (a ++ (f.keyword ++ blanks) ++ '(' :: inside) ++ [')'] =
          (b ++ (g.keyword ++ blanks') ++ '(' :: inside') ++ [')'] := by simpa using heq
      have hfront := front_eq_of_balanced hitems.balanced hitems'.balanced
        (List.append_cancel_right hend)
      have hword := congrArg (fun text => Text.skipBlank text.reverse) hfront
      simp only [skipBlank_reverse_front _ _ hblanks, skipBlank_reverse_front _ _ hblanks',
        List.reverse_inj] at hword
      have hlength : f.keyword.length = g.keyword.length := by cases f <;> cases g <;> rfl
      exact (List.append_inj' hword hlength).1

theorem Closes.unique {passed text : List Char} {closed others : List Rule}
    (h : Closes passed text closed) (hothers : Closes passed text others) : closed = others := by
  induction h generalizing others with
  | done =>
    cases hothers
    rfl
  | other hc _ ih =>
    cases hothers with
    | other _ hrest => exact ih hrest
    | close _ _ _ => exact absurd rfl hc
  | close hexpression heq _ ih =>
    cases hothers with
    | other hc _ => exact absurd rfl hc
    | close hexpression' heq' hrest =>
      rw [ih hrest, hexpression.eq_of_append_eq hexpression' (heq.symm.trans heq')]

end Notation

end ExclusionAlgebra
