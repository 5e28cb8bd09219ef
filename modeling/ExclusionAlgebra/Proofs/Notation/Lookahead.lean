import ExclusionAlgebra.Proofs.Notation.Atoms

/-!
# Words and what follows them

Whether a text begins with a composite, a constant or a pattern is decided by its first word and by
what comes behind that word, after blanks.

* `Reader.lookahead`: the word, and the character behind it.
* `Reader.opening?_eq_some_iff`, `Reader.atom_eq`: the front of a composite, and the choice between
  constants and patterns.
* `Reader.SameFront`: two texts that a reader with this lookahead cannot tell apart.
* `Reader.lookahead_append`, `Reader.lookahead_append_of_marked`: the lookahead into a text that goes
  on in different ways.
* `Reader.atom_local_ok`, `Reader.atom_local_error`: atoms are read in the same way before texts that
  cannot be told apart.
-/

namespace ExclusionAlgebra

open Notation

theorem Rule.written_everything : Rule.written .everything = everythingText := rfl

theorem Rule.written_nothing : Rule.written .nothing = nothingText := rfl

namespace Reader

variable {text rest other passed : List Char}

/-- The first word of a text, and the character that follows it after blanks. -/
def lookahead (text : List Char) : List Char × Option Char :=
  ((splitName text).1, (Text.skipBlank (splitName text).2).head?)

/-- A name that ends within the text, or where the text ends, is the first word of every longer
text. -/
theorem splitName_append_right {word after : List Char} (h : splitName passed = (word, after))
    (hstops : after ≠ [] ∨ Stops rest) : splitName (passed ++ rest) = (word, after ++ rest) := by
  obtain ⟨rfl, hword, hafter⟩ := splitName_spec h
  rw [List.append_assoc]
  apply splitName_append hword
  cases after with
  | nil => simpa using hstops
  | cons c tail => exact hafter

/-! ## Texts that begin in the same way -/

/-- The texts begin in the same way, and so they do behind their leading blanks. -/
structure SameFront (other rest : List Char) : Prop where
  head : other.head? = rest.head?
  behind : (Text.skipBlank other).head? = (Text.skipBlank rest).head?

theorem skipBlank_of_head? (h : ∀ c ∈ text.head?, Text.isBlank c = false) :
    Text.skipBlank text = text := by
  cases text with
  | nil => rfl
  | cons c tail => exact skipBlank_cons (h c rfl)

theorem not_blank_of_head?_skipBlank : ∀ c ∈ (Text.skipBlank text).head?, Text.isBlank c = false := by
  intro c hc
  obtain ⟨tail, htail⟩ := List.head?_eq_some_iff.mp hc
  exact not_blank_of_skipBlank htail

/-- Behind blanks, texts without leading blanks are told apart by their first character. -/
theorem SameFront.blanks_append {blanks : List Char} (hblanks : Blanks blanks)
    (hrest : ∀ c ∈ rest.head?, Text.isBlank c = false) (h : other.head? = rest.head?) :
    SameFront (blanks ++ other) (blanks ++ rest) := by
  refine ⟨head?_append_eq blanks h, ?_⟩
  rw [hblanks.skipBlank_append, hblanks.skipBlank_append, skipBlank_of_head? hrest,
    skipBlank_of_head? (h ▸ hrest), h]

theorem head?_skipBlank_append (passed : List Char) (h : SameFront other rest) :
    (Text.skipBlank (passed ++ other)).head? = (Text.skipBlank (passed ++ rest)).head? := by
  unfold Text.skipBlank
  rw [List.dropWhile_append, List.dropWhile_append]
  split
  · exact h.behind
  · exact head?_append_eq _ h.head

/-- The lookahead does not change with what follows, if the first word has ended by then and what
follows begins in the same way. -/
theorem lookahead_append (hstops : (∃ c ∈ passed, isNameChar c = false) ∨ Stops rest)
    (h : SameFront other rest) : lookahead (passed ++ other) = lookahead (passed ++ rest) := by
  obtain ⟨word, after, hsplit⟩ : ∃ word after, splitName passed = (word, after) := ⟨_, _, rfl⟩
  obtain ⟨hpassed, hword, -⟩ := splitName_spec hsplit
  have hafter : after ≠ [] ∨ Stops rest := by
    refine hstops.imp_left ?_
    rintro ⟨c, hc, hname⟩ rfl
    rw [hpassed, List.append_nil] at hc
    rw [hword c hc] at hname
    cases hname
  have hother : after ≠ [] ∨ Stops other := hafter.imp_right fun hrest => hrest.of_head? h.head
  unfold lookahead
  rw [splitName_append_right hsplit hafter, splitName_append_right hsplit hother]
  exact Prod.ext rfl (head?_skipBlank_append after h)

/-- Where the passed text is marked, the lookahead does not reach beyond it. -/
theorem lookahead_append_of_marked (h : Marked passed) (other rest : List Char) :
    lookahead (passed ++ other) = lookahead (passed ++ rest) := by
  obtain ⟨word, after, hsplit⟩ : ∃ word after, splitName passed = (word, after) := ⟨_, _, rfl⟩
  obtain ⟨hpassed, hword, -⟩ := splitName_spec hsplit
  obtain ⟨c, hc, hname, hblank⟩ := h
  have hmem : c ∈ after := by
    rw [hpassed] at hc
    refine (List.mem_append.mp hc).resolve_left fun hc => ?_
    rw [hword c hc] at hname
    cases hname
  have hne : (List.dropWhile Text.isBlank after).isEmpty = false := by
    rw [List.isEmpty_eq_false_iff]
    intro hnil
    rw [List.dropWhile_eq_nil_iff.mp hnil c hmem] at hblank
    cases hblank
  have hbehind (tail : List Char) : (Text.skipBlank (after ++ tail)).head? =
      (List.dropWhile Text.isBlank after).head? := by
    unfold Text.skipBlank
    rw [List.dropWhile_append, hne]
    cases hafter : List.dropWhile Text.isBlank after with
    | nil => simp [hafter] at hne
    | cons d tail => rfl
  unfold lookahead
  rw [splitName_append_right hsplit (.inl (List.ne_nil_of_mem hmem)),
    splitName_append_right hsplit (.inl (List.ne_nil_of_mem hmem)), hbehind, hbehind]

/-! ## The front of a composite -/

theorem isNameChar_keyword (operation : Operation) :
    ∀ c ∈ operation.keyword, isNameChar c = true := by
  rw [← List.all_eq_true]
  cases operation <;> rfl

theorem stops_blanks {blanks : List Char} (h : Blanks blanks) (hrest : Stops rest) :
    Stops (blanks ++ rest) := by
  cases blanks with
  | nil => exact hrest
  | cons c tail => exact stops_cons (not_nameChar_of_isBlank (h c List.mem_cons_self))

/-- A composite begins with the word of its operation, blanks and an opening parenthesis. -/
theorem opening?_eq_some_iff {operation : Operation} {inside : List Char} :
    opening? text = some (operation, inside) ↔
      ∃ blanks, Blanks blanks ∧ text = operation.keyword ++ (blanks ++ '(' :: inside) := by
  constructor
  · intro h
    obtain ⟨word, after, hsplit⟩ : ∃ word after, splitName text = (word, after) := ⟨_, _, rfl⟩
    obtain ⟨rfl, -, -⟩ := splitName_spec hsplit
    obtain ⟨blanks, hblanks, hafter⟩ := exists_blanks after
    unfold opening? at h
    rw [hsplit] at h
    dsimp only at h
    split at h
    · rename_i inside' hinside
      rw [hinside] at hafter
      refine ⟨blanks, hblanks, ?_⟩
      split at h
      · rename_i hword
        cases h
        rw [hword, hafter]
      · split at h
        · rename_i hword
          cases h
          rw [hword, hafter]
        · cases h
    · cases h
  · rintro ⟨blanks, hblanks, rfl⟩
    unfold opening?
    rw [splitName_append (isNameChar_keyword operation) (stops_blanks hblanks (stops_cons rfl))]
    dsimp only
    rw [hblanks.skipBlank_append, skipBlank_cons rfl]
    cases operation <;> rfl

/-- The front of a composite, with the blanks before it. -/
theorem exists_front {operation : Operation} {inside : List Char}
    (h : opening? (Text.skipBlank text) = some (operation, inside)) : ∃ before blanks,
      Blanks before ∧ Blanks blanks ∧
        text = before ++ (operation.keyword ++ (blanks ++ '(' :: inside)) := by
  obtain ⟨blanks, hblanks, hskip⟩ := opening?_eq_some_iff.mp h
  obtain ⟨before, hbefore, htext⟩ := exists_blanks_of_skipBlank hskip
  exact ⟨before, blanks, hbefore, hblanks, htext⟩

theorem opening?_eq_none_iff :
    opening? text = none ↔ ∀ operation, lookahead text ≠ (Operation.keyword operation, some '(') := by
  unfold opening? lookahead
  generalize splitName text = split
  obtain ⟨word, after⟩ := split
  dsimp only
  split
  · rename_i inside hinside
    rw [hinside]
    constructor
    · intro h operation heq
      obtain ⟨rfl, -⟩ := Prod.mk.inj heq
      cases operation <;> cases h
    · intro h
      rw [if_neg fun heq => h .anyOf (by rw [heq]; rfl), if_neg fun heq => h .allOf (by rw [heq]; rfl)]
  · rename_i hinside
    refine iff_of_true rfl fun operation heq => ?_
    obtain ⟨tail, htail⟩ := List.head?_eq_some_iff.mp (Prod.mk.inj heq).2
    exact hinside tail htail

/-! ## Constants and patterns -/

/-- The constant whose word stands at the front with no colon behind it. -/
def constant? (ahead : List Char × Option Char) : Option Rule :=
  if ahead.1 = everythingText ∧ ahead.2 ≠ some ':' then some .everything
  else if ahead.1 = nothingText ∧ ahead.2 ≠ some ':' then some .nothing
  else none

theorem atom_eq (text : List Char) : atom text =
    match constant? (lookahead text) with
    | some constant => .ok (constant, Text.skipBlank (splitName text).2)
    | none => pattern text >>= fun r => .ok (.pattern r.1, r.2) := by
  obtain ⟨word, after, hsplit⟩ : ∃ word after, splitName text = (word, after) := ⟨_, _, rfl⟩
  unfold atom constant? lookahead
  rw [hsplit, Rule.written_everything, Rule.written_nothing]
  dsimp only
  by_cases heverything : word = everythingText ∧ (Text.skipBlank after).head? ≠ some ':'
  · rw [if_pos heverything, if_pos heverything]
  · rw [if_neg heverything, if_neg heverything]
    by_cases hnothing : word = nothingText ∧ (Text.skipBlank after).head? ≠ some ':'
    · rw [if_pos hnothing, if_pos hnothing]
    · rw [if_neg hnothing, if_neg hnothing]
      rfl

theorem constant?_cases {ahead : List Char × Option Char} {constant : Rule}
    (h : constant? ahead = some constant) : ahead.2 ≠ some ':' ∧
      (constant = .everything ∧ ahead.1 = everythingText ∨
        constant = .nothing ∧ ahead.1 = nothingText) := by
  unfold constant? at h
  split at h
  · rename_i hword
    cases h
    exact ⟨hword.2, .inl ⟨rfl, hword.1⟩⟩
  · split at h
    · rename_i hword
      cases h
      exact ⟨hword.2, .inr ⟨rfl, hword.1⟩⟩
    · cases h

theorem atom_eq_ok {r : Rule} (h : atom text = .ok (r, rest)) :
    constant? (lookahead text) = some r ∧ rest = Text.skipBlank (splitName text).2 ∨
      constant? (lookahead text) = none ∧ ∃ p, r = .pattern p ∧ pattern text = .ok (p, rest) := by
  rw [atom_eq] at h
  split at h
  · rename_i constant hconstant
    cases h
    exact .inl ⟨hconstant, rfl⟩
  · rename_i hconstant
    obtain ⟨⟨p, rest'⟩, hpattern, hpure⟩ := bind_eq_ok.mp h
    cases hpure
    exact .inr ⟨hconstant, p, rfl, hpattern⟩

theorem atom_of_constant {constant : Rule} (h : constant? (lookahead text) = some constant) :
    atom text = .ok (constant, Text.skipBlank (splitName text).2) := by
  rw [atom_eq, h]

theorem atom_of_pattern {p : Pattern} (h : constant? (lookahead text) = none)
    (hpattern : pattern text = .ok (p, rest)) : atom text = .ok (.pattern p, rest) := by
  rw [atom_eq, h]
  exact bind_eq_ok.mpr ⟨_, hpattern, rfl⟩

theorem atom_eq_error {failure : Failure} :
    atom text = .error failure ↔
      constant? (lookahead text) = none ∧ pattern text = .error failure := by
  rw [atom_eq]
  constructor
  · intro h
    split at h
    · cases h
    · rename_i hconstant
      rcases bind_eq_error.mp h with hpattern | ⟨a, -, hpure⟩
      · exact ⟨hconstant, hpattern⟩
      · cases hpure
  · rintro ⟨hconstant, hpattern⟩
    rw [hconstant]
    exact bind_eq_error.mpr (.inl hpattern)

/-! ## Atoms before texts that cannot be told apart -/

/-- The front of a composite is seen in the lookahead. -/
theorem opening?_eq_none_of_lookahead (h : lookahead other = lookahead text)
    (hopening : opening? text = none) : opening? other = none := by
  rw [opening?_eq_none_iff] at hopening ⊢
  rwa [h]

theorem atom_local_ok {r : Rule} (hopening : opening? text = none)
    (h : atom text = .ok (r, rest)) : ∃ passed, text = passed ++ rest ∧
      ∀ other, SameFront other rest →
        opening? (passed ++ other) = none ∧ atom (passed ++ other) = .ok (r, other) := by
  rcases atom_eq_ok h with ⟨hconstant, hrest⟩ | ⟨hconstant, p, rfl, hpattern⟩
  · obtain ⟨word, after, hsplit⟩ : ∃ word after, splitName text = (word, after) := ⟨_, _, rfl⟩
    obtain ⟨rfl, hword, hstops⟩ := splitName_spec hsplit
    obtain ⟨blanks, hblanks, hafter⟩ := exists_blanks after
    rw [hsplit] at hrest
    rw [← hrest] at hafter
    subst hafter
    refine ⟨word ++ blanks, by simp, fun other hother => ?_⟩
    have hother' : Stops (blanks ++ other) :=
      hstops.of_head? (head?_append_eq blanks hother.head)
    have hsplit' : splitName (word ++ (blanks ++ other)) = (word, blanks ++ other) :=
      splitName_append hword hother'
    have hbehind : Text.skipBlank (blanks ++ other) = other := by
      rw [hblanks.skipBlank_append]
      apply skipBlank_of_head?
      rw [hother.head, hrest]
      exact not_blank_of_head?_skipBlank
    have hahead : lookahead (word ++ (blanks ++ other)) = lookahead (word ++ (blanks ++ rest)) := by
      unfold lookahead
      rw [hsplit', hsplit]
      exact Prod.ext rfl (head?_skipBlank_append blanks hother)
    rw [List.append_assoc]
    refine ⟨opening?_eq_none_of_lookahead hahead hopening, ?_⟩
    rw [atom_of_constant (hahead ▸ hconstant), hsplit', hbehind]
  · obtain ⟨t, -, htext, hends⟩ := pattern_eq_ok hpattern
    obtain ⟨passed, hpassed, hlocal⟩ := local_pattern.ok hpattern
    obtain rfl : passed = t := List.append_cancel_right (hpassed.symm.trans htext)
    refine ⟨passed, hpassed, fun other hother => ?_⟩
    have hstops : (∃ c ∈ passed, isNameChar c = false) ∨ Stops rest := by
      refine hends.imp_left ?_
      rintro ⟨c, hc, hname, -⟩
      exact ⟨c, hc, hname⟩
    have hahead : lookahead (passed ++ other) = lookahead text := by
      rw [hpassed]
      exact lookahead_append hstops hother
    exact ⟨opening?_eq_none_of_lookahead hahead hopening,
      atom_of_pattern (hahead ▸ hconstant) (hlocal other hother.head)⟩

theorem atom_local_error {failure : Failure} (hfront : ∀ c ∈ text.head?, Text.isBlank c = false)
    (hopening : opening? text = none) (h : atom text = .error failure) :
    ∃ passed, text = passed ++ failure.rest ∧ ∀ other : List Char,
      other.head? = failure.rest.head? → opening? (passed ++ other) = none ∧
        atom (passed ++ other) = .error ⟨failure.cause, other⟩ := by
  obtain ⟨hconstant, hpattern⟩ := atom_eq_error.mp h
  obtain ⟨t, more, p, htext, -, hends⟩ := pattern_eq_error hpattern
  obtain ⟨passed, hpassed, hlocal⟩ := local_pattern.error hpattern
  obtain rfl : passed = t := List.append_cancel_right (hpassed.symm.trans htext)
  refine ⟨passed, hpassed, fun other hother => ?_⟩
  have hahead : lookahead (passed ++ other) = lookahead text := by
    rw [hpassed]
    rcases hends with hmarked | ⟨rfl, hstops⟩
    · exact lookahead_append_of_marked hmarked other failure.rest
    · -- Nothing was passed, so the text has no leading blanks and one character tells all.
      rw [hpassed, List.nil_append] at hfront hstops
      exact lookahead_append (.inr hstops) (SameFront.blanks_append blanks_nil hfront hother)
  exact ⟨opening?_eq_none_of_lookahead hahead hopening,
    atom_eq_error.mpr ⟨hahead ▸ hconstant, hlocal other hother⟩⟩

end Reader

end ExclusionAlgebra
