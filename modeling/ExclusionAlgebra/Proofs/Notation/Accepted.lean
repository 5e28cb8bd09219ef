import ExclusionAlgebra.Proofs.Notation.Reading

/-!
# What is read and what the grammar derives

The reader takes the texts that the grammar derives and no others, and gives them the meaning that the
grammar does.

* `Reader.Reads.document`, `Reader.ReadsItems.items`: what is read, the grammar derives.
* `Notation.Expression.reads`, `Notation.Items.reads`: what the grammar derives is read, whatever follows
  that may stand behind a rule.
* `Reader.readsDocument_iff`: the two directions for whole texts.
* `Rule.read_accepts_grammar`: what a text is read as, and that it is read or refused.
-/

namespace ExclusionAlgebra

open Notation

namespace Reader

variable {text rest t : List Char} {r : Rule} {p : Pattern}

/-! ## Words -/

theorem isNameChar_everything : ∀ c ∈ everythingText, isNameChar c = true :=
  List.all_eq_true.mp rfl

theorem isNameChar_nothing : ∀ c ∈ nothingText, isNameChar c = true :=
  List.all_eq_true.mp rfl

theorem lookahead_word {word : List Char} (hword : ∀ c ∈ word, isNameChar c = true)
    (hrest : Stops rest) : lookahead (word ++ rest) = (word, (Text.skipBlank rest).head?) := by
  rw [lookahead, splitName_append hword hrest]

theorem constant?_eq_none {ahead : List Char × Option Char} (h : constant? ahead = none) :
    (ahead.1 = everythingText ∨ ahead.1 = nothingText) → ahead.2 = some ':' := by
  unfold constant? at h
  by_contra hne
  push Not at hne
  obtain ⟨hword, hahead⟩ := hne
  rcases hword with hword | hword
  · rw [if_pos ⟨hword, hahead⟩] at h
    cases h
  · rw [hword, if_neg (fun heq => nomatch heq.1), if_pos ⟨rfl, hahead⟩] at h
    cases h

/-! ## What is read, the grammar derives -/

/-- What the text says is what is read, unless a colon follows.  Then a word that says a constant may
have been read as a group, but a composite has not. -/
def Faithful (rest : List Char) (said read : Rule) : Prop :=
  said = read ∨
    (Text.skipBlank rest).head? = some ':' ∧ said.isComposite = false ∧ read.isComposite = false

/-- A pattern that looks like a constant was read because a colon follows. -/
theorem colon_of_leaf (hends : Marked t ∨ Stops rest)
    (hconstant : constant? (lookahead (t ++ rest)) = none)
    (ht : t = everythingText ∨ t = nothingText) : (Text.skipBlank rest).head? = some ':' := by
  have hword : ∀ c ∈ t, isNameChar c = true := by
    rcases ht with rfl | rfl
    · exact isNameChar_everything
    · exact isNameChar_nothing
  have hstops : Stops rest := by
    refine hends.resolve_left ?_
    rintro ⟨c, hc, hname, -⟩
    rw [hword c hc] at hname
    cases hname
  rw [lookahead_word hword hstops] at hconstant
  exact constant?_eq_none hconstant ht

theorem expression_of_atom (h : atom text = .ok (r, rest)) : ∃ t after said,
    Expression t said ∧ Blanks after ∧ text = t ++ (after ++ rest) ∧ Faithful rest said r := by
  rcases atom_eq_ok h with ⟨hconstant, rfl⟩ | ⟨hconstant, p, rfl, hpattern⟩
  · obtain ⟨word, behind, hsplit⟩ : ∃ word behind, splitName text = (word, behind) := ⟨_, _, rfl⟩
    obtain ⟨rfl, -, -⟩ := splitName_spec hsplit
    obtain ⟨after, hafter, hbehind⟩ := exists_blanks behind
    have hexpression : Expression word r := by
      rw [lookahead, hsplit] at hconstant
      rcases (constant?_cases hconstant).2 with ⟨rfl, rfl⟩ | ⟨rfl, rfl⟩
      · exact .everything
      · exact .nothing
    refine ⟨word, after, r, hexpression, hafter, ?_, .inl rfl⟩
    rw [hsplit, ← hbehind]
  · obtain ⟨t, hleaf, rfl, hends⟩ := pattern_eq_ok hpattern
    have hcolon := colon_of_leaf hends hconstant
    by_cases heverything : t = everythingText
    · exact ⟨t, [], .everything, heverything ▸ .everything, blanks_nil, rfl,
        .inr ⟨hcolon (.inl heverything), rfl, rfl⟩⟩
    · by_cases hnothing : t = nothingText
      · exact ⟨t, [], .nothing, hnothing ▸ .nothing, blanks_nil, rfl,
          .inr ⟨hcolon (.inr hnothing), rfl, rfl⟩⟩
      · exact ⟨t, [], .pattern p, .pattern hleaf heverything hnothing, blanks_nil, rfl, .inl rfl⟩

/-- Where no colon follows, the text says just what is read. -/
theorem Faithful.eq {said read : Rule} (h : Faithful rest said read)
    (hcolon : (Text.skipBlank rest).head? ≠ some ':') : said = read :=
  h.resolve_right fun hatoms => hcolon hatoms.1

mutual

theorem Reads.document {text rest : List Char} {r : Rule} :
    Reads text r rest → ∃ passed said, text = passed ++ rest ∧ Document passed said ∧
      Faithful rest said r
  | .atom _ hatom => by
    obtain ⟨before, hbefore, htext⟩ := exists_blanks text
    obtain ⟨t, after, said, ht, hafter, hskip, hsaid⟩ := expression_of_atom hatom
    rw [hskip] at htext
    exact ⟨before ++ (t ++ after), said, by simpa using htext,
      ⟨before, t, after, hbefore, ht, hafter, rfl⟩, hsaid⟩
  | @Reads.composite _ _ _ operation _ hopening hitems => by
    obtain ⟨before, blanks, hbefore, hblanks, rfl⟩ := exists_front hopening
    obtain ⟨inside, rfl, hinside⟩ := hitems.items
    have ht := Expression.composite operation hblanks hinside
    exact ⟨before ++ (_ ++ []), _, by simp, ⟨before, _, [], hbefore, ht, blanks_nil, rfl⟩, .inl rfl⟩

theorem ReadsItems.items {text rest : List Char} {rs : List Rule} :
    ReadsItems text rs rest → ∃ inside, text = inside ++ ')' :: rest ∧ Items inside rs
  | .last hfirst hbehind => by
    obtain ⟨passed, said, rfl, hdocument, hsaid⟩ := hfirst.document
    obtain rfl := hsaid.eq (by rw [hbehind]; simp)
    obtain ⟨blanks, hblanks, rfl⟩ := exists_blanks_of_skipBlank hbehind
    exact ⟨passed ++ blanks, by simp, (hdocument.append_blanks hblanks).last⟩
  | .more hfirst hbehind hothers => by
    obtain ⟨passed, said, rfl, hdocument, hsaid⟩ := hfirst.document
    obtain rfl := hsaid.eq (by rw [hbehind]; simp)
    obtain ⟨blanks, hblanks, rfl⟩ := exists_blanks_of_skipBlank hbehind
    obtain ⟨inside, rfl, hinside⟩ := hothers.items
    exact ⟨_, by simp, (hdocument.append_blanks hblanks).more hinside⟩

end

/-! ## What may stand behind a rule -/

def Closed (rest : List Char) : Prop := ∀ c ∈ (Text.skipBlank rest).head?, c = ',' ∨ c = ')'

theorem Closed.of_skipBlank {c : Char} {tail : List Char} (hc : c = ',' ∨ c = ')')
    (h : Text.skipBlank rest = c :: tail) : Closed rest := by
  intro d hd
  rw [h] at hd
  cases hd
  exact hc

theorem Closed.stops (h : Closed rest) : Stops rest := by
  obtain ⟨blanks, hblanks, hrest⟩ := exists_blanks rest
  rw [hrest]
  apply stops_blanks hblanks
  intro c hc
  rcases h c hc with rfl | rfl <;> rfl

theorem Closed.ends (h : Closed rest) : Ends rest := by
  intro c hc
  refine ⟨h.stops c hc, ?_, ?_⟩
  all_goals
    rintro rfl
    obtain ⟨tail, rfl⟩ := List.head?_eq_some_iff.mp hc
    rcases h _ (by rw [skipBlank_cons rfl]; rfl) with heq | heq <;> cases heq

theorem Closed.ne (h : Closed rest) {c : Char} (hcomma : c ≠ ',') (hparenthesis : c ≠ ')') :
    (Text.skipBlank rest).head? ≠ some c := by
  intro hc
  rcases h c hc with heq | heq
  · exact hcomma heq
  · exact hparenthesis heq

end Reader

namespace Notation

open Reader

variable {text rest t : List Char} {r : Rule} {p : Pattern}

/-! ## What the grammar derives is read -/

/-- A pattern from the front: a single name, or a name and a colon, or a star. -/
theorem Leaf.front (h : Leaf t p) (rest : List Char) :
    (∀ c ∈ t, isNameChar c = true) ∨ (lookahead (t ++ rest)).2 = some ':' ∨
      lookahead (t ++ rest) = ([], some '*') := by
  have hfield {g : List Char} {group : Option String} (hg : Field g group) :
      (∀ c ∈ g, isNameChar c = true) ∨ g = ['*'] := by
    cases hg with
    | star => exact .inr rfl
    | name hvalue => exact .inl hvalue.2
  have hcolon {g : List Char} {group : Option String} (hg : Field g group) (tail : List Char) :
      (lookahead (g ++ ':' :: tail)).2 = some ':' ∨
        lookahead (g ++ ':' :: tail) = ([], some '*') := by
    rcases hfield hg with hname | rfl
    · left
      rw [lookahead_word hname (stops_cons rfl), skipBlank_cons rfl]
      rfl
    · exact .inr rfl
  cases h with
  | group hg =>
    rcases hfield hg with hname | rfl
    · exact .inl hname
    · exact .inr (.inr rfl)
  | module hg hm =>
    rw [List.append_assoc]
    exact .inr (hcolon hg _)
  | artifact hg hm ha =>
    rw [List.append_assoc]
    exact .inr (hcolon hg _)

/-- A pattern is not taken for a constant or for the front of a composite. -/
theorem atom_leaf (h : Leaf t p) (heverything : t ≠ everythingText) (hnothing : t ≠ nothingText)
    (hrest : Closed rest) :
    opening? (t ++ rest) = none ∧ atom (t ++ rest) = .ok (.pattern p, rest) := by
  have hpattern := pattern_append h hrest.ends
  have hboth : opening? (t ++ rest) = none ∧ constant? (lookahead (t ++ rest)) = none := by
    rw [opening?_eq_none_iff]
    rcases h.front rest with hname | hcolon | hstar
    · rw [lookahead_word hname hrest.stops]
      refine ⟨fun operation heq => ?_, ?_⟩
      · exact hrest.ne (by decide) (by decide) (Prod.mk.inj heq).2
      · simp [constant?, heverything, hnothing]
    · refine ⟨fun operation heq => ?_, ?_⟩
      · rw [heq] at hcolon
        cases hcolon
      · simp [constant?, hcolon]
    · rw [hstar]
      refine ⟨fun operation heq => ?_, rfl⟩
      cases (Prod.mk.inj heq).2
  exact ⟨hboth.1, atom_of_pattern hboth.2 hpattern⟩

theorem atom_word {word : List Char} {constant : Rule} (hword : ∀ c ∈ word, isNameChar c = true)
    (hconstant : ∀ c, c ≠ some ':' → constant? (word, c) = some constant) (hrest : Closed rest) :
    opening? (word ++ rest) = none ∧
      atom (word ++ rest) = .ok (constant, Text.skipBlank rest) := by
  have hahead := lookahead_word hword hrest.stops
  have hcolon : (Text.skipBlank rest).head? ≠ some ':' := hrest.ne (by decide) (by decide)
  constructor
  · rw [opening?_eq_none_iff, hahead]
    intro operation heq
    exact hrest.ne (by decide) (by decide) (Prod.mk.inj heq).2
  · have hword' : constant? (lookahead (word ++ rest)) = some constant := by
      rw [hahead]
      exact hconstant _ hcolon
    have hatom := atom_of_constant hword'
    rwa [splitName_append hword hrest.stops] at hatom

/-- An expression does not begin with a blank. -/
theorem Expression.skipBlank_append {before : List Char} (h : Expression t r)
    (hbefore : Blanks before) (rest : List Char) :
    Text.skipBlank (before ++ (t ++ rest)) = t ++ rest := by
  rw [hbefore.skipBlank_append]
  cases h with
  | everything => rfl
  | nothing => rfl
  | pattern hleaf _ _ =>
    obtain ⟨c, chars, rfl⟩ := List.exists_cons_of_ne_nil hleaf.ne_nil
    exact skipBlank_cons (not_blank_of_isPatternChar (hleaf.patternChars c List.mem_cons_self))
  | composite operation _ _ => cases operation <;> rfl

mutual

/-- What the grammar derives stands at the front of every text that begins with it, where a rule may
end. -/
theorem Expression.reads {text rest t : List Char} {r : Rule} :
    Expression t r → Text.skipBlank text = t ++ rest → Closed rest →
      ∃ behind, Reads text r behind ∧ Text.skipBlank behind = Text.skipBlank rest
  | .everything, htext, hrest => by
    have hconstant (c) (hc : c ≠ some ':') : constant? (everythingText, c) = some .everything := by
      simp [constant?, hc]
    have hatom := atom_word isNameChar_everything hconstant hrest
    rw [← htext] at hatom
    exact ⟨_, .atom hatom.1 hatom.2, skipBlank_skipBlank rest⟩
  | .nothing, htext, hrest => by
    have hconstant (c) (hc : c ≠ some ':') : constant? (nothingText, c) = some .nothing := by
      simp [constant?, hc, nothingText, everythingText]
    have hatom := atom_word isNameChar_nothing hconstant hrest
    rw [← htext] at hatom
    exact ⟨_, .atom hatom.1 hatom.2, skipBlank_skipBlank rest⟩
  | .pattern hleaf heverything hnothing, htext, hrest => by
    have hatom := atom_leaf hleaf heverything hnothing hrest
    rw [← htext] at hatom
    exact ⟨rest, .atom hatom.1 hatom.2, rfl⟩
  | .composite operation hblanks hitems, htext, hrest => by
    refine ⟨rest, .composite (opening?_eq_some_iff.mpr ⟨_, hblanks, ?_⟩) (hitems.reads rest), rfl⟩
    rw [htext]
    simp

theorem Items.reads {inside : List Char} {rs : List Rule} :
    Items inside rs → ∀ rest, ReadsItems (inside ++ ')' :: rest) rs rest
  | .last hbefore hexpression hafter, rest => by
    have hend := hafter.skipBlank_append_cons (c := ')') rfl rest
    obtain ⟨behind, hreads, hbehind⟩ :=
      hexpression.reads (hexpression.skipBlank_append hbefore _) (.of_skipBlank (.inr rfl) hend)
    rw [hend] at hbehind
    simpa using ReadsItems.last hreads hbehind
  | @Items.more _ _ _ inside _ _ hbefore hexpression hafter hinside, rest => by
    have hend := hafter.skipBlank_append_cons (c := ',') rfl (inside ++ ')' :: rest)
    obtain ⟨behind, hreads, hbehind⟩ :=
      hexpression.reads (hexpression.skipBlank_append hbefore _) (.of_skipBlank (.inl rfl) hend)
    rw [hend] at hbehind
    simpa using ReadsItems.more hreads hbehind (hinside.reads rest)

end

end Notation

namespace Reader

variable {text : List Char} {r : Rule}

/-- A text is read just as the grammar derives it. -/
theorem readsDocument_iff : ReadsDocument text r ↔ Document text r := by
  constructor
  · rintro ⟨rest, hread, hrest⟩
    obtain ⟨passed, said, rfl, hdocument, hsaid⟩ := hread.document
    obtain rfl := hsaid.eq (by rw [hrest]; simp)
    exact hdocument.append_blanks (List.dropWhile_eq_nil_iff.mp hrest)
  · rintro ⟨before, t, after, hbefore, ht, hafter, rfl⟩
    have hafter : Text.skipBlank after = [] := List.dropWhile_eq_nil_iff.mpr hafter
    obtain ⟨behind, hreads, hbehind⟩ := ht.reads (ht.skipBlank_append hbefore after)
      (by rw [Closed, hafter]; simp)
    exact ⟨behind, hreads, hbehind.trans hafter⟩

theorem document_of_expression (h : Expression text r) : Document text r :=
  ⟨[], text, [], blanks_nil, h, blanks_nil, by simp⟩

/-- An expression says one rule. -/
theorem eq_of_expression {r' : Rule} (h : Expression text r) (h' : Expression text r') : r = r' :=
  (readsDocument_iff.mpr (document_of_expression h)).unique
    (readsDocument_iff.mpr (document_of_expression h'))

/-- More nested calls than the text has characters make no difference. -/
theorem document_eq_of_length_lt {text : List Char} {fuel : Nat} (h : text.length < fuel) :
    document .verbatim fuel text = document .verbatim (text.length + 2) text := by
  rcases reads_or_fails text with ⟨r, hread⟩ | ⟨rs, failure, hfail⟩
  · exact (hread.run .verbatim fuel h).trans (hread.run .verbatim _ (by omega)).symm
  · exact (hfail.run .verbatim fuel h).trans (hfail.run .verbatim _ (by omega)).symm

end Reader

/-- **The reader accepts just the grammar.** Whatever the text, the bound on nested calls is never
reached: any larger one gives the same outcome.  A rule is read exactly if the grammar derives the text
with that meaning, and a text without a meaning is refused with one error. -/
theorem Rule.read_accepts_grammar (source : String) :
    (∀ more : Nat,
      ((Reader.document .verbatim (source.toList.length + 1 + more) source.toList).run :
        Except Reader.Failure Rule).mapError (Reader.Failure.toSyntaxError source.toList) =
          Rule.read source) ∧
    (∀ tree, Rule.read source = .ok tree ↔ Document source.toList tree) ∧
    ((∃ tree, Document source.toList tree) ∨ ∃! error, Rule.read source = .error error) := by
  refine ⟨fun more => ?_, fun tree => Rule.read_eq_ok_iff.trans Reader.readsDocument_iff, ?_⟩
  · rw [Reader.document_eq_of_length_lt (by omega)]
    rfl
  · cases h : Rule.read source with
    | ok tree => exact .inl ⟨tree, Reader.readsDocument_iff.mp (Rule.read_eq_ok_iff.mp h)⟩
    | error error => exact .inr ⟨error, rfl, fun other hother => (Except.error.inj hother).symm⟩

/-- Words of the notation may be groups, but a composite has at least one component. -/
theorem Rule.read_accepts_words_as_groups :
    Document "all (any, everything:m )".toList (.composite .allOf
      [.pattern ⟨some "any", none, none⟩, .pattern ⟨some "everything", some "m", none⟩]) ∧
    ¬ ∃ tree, Document "any()".toList tree := by
  constructor
  · exact ((Rule.read_accepts_grammar "all (any, everything:m )").2.1 _).mp (by decide +kernel)
  · rintro ⟨tree, h⟩
    have hread := ((Rule.read_accepts_grammar "any()").2.1 tree).mpr h
    rw [show Rule.read "any()" = .error ⟨4, .group⟩ by decide +kernel] at hread
    cases hread

end ExclusionAlgebra
