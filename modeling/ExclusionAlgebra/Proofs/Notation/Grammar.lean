import ExclusionAlgebra.Notation.Reader
import Mathlib.Data.List.DropRight
import Mathlib.Tactic.ByContra

/-!
# The grammar of written rules

The written form of rules as a relation between texts and what they say, without a reader in sight:

    document := blanks expression blanks
    expression := everything | nothing | pattern
                | (any | all) blanks ( items )
    items := blanks expression blanks [, items]
    pattern := field [: field [: artifact]]
    field := * | name
    artifact := * | name [@ name]

A star and a field that is left out are open.  A name is a run of at least one name character, and the
two constants are no patterns.

* `Notation.Expression`, `Notation.Items`: one rule, and the inside of a composite.
* `Notation.Document`: a whole text.
* `Notation.Leaf.patternChars`: the characters of a pattern.
-/

namespace ExclusionAlgebra

/-- A name that can be spelled. -/
def Identifier (name : String) : Prop :=
  name.toList ≠ [] ∧ ∀ c ∈ name.toList, Reader.isNameChar c = true

namespace Notation

def Blanks (text : List Char) : Prop := ∀ c ∈ text, Text.isBlank c = true

inductive Field : List Char → Option String → Prop
  | star : Field ['*'] none
  | name {value : String} : Identifier value → Field value.toList (some value)

inductive ArtifactField : List Char → Option Artifact → Prop
  | star : ArtifactField ['*'] none
  | name {value : String} : Identifier value → ArtifactField value.toList (some ⟨value, none⟩)
  | extension {value extension : String} : Identifier value → Identifier extension →
      ArtifactField (value.toList ++ '@' :: extension.toList) (some ⟨value, some extension⟩)

inductive Leaf : List Char → Pattern → Prop
  | group {g : List Char} {group : Option String} : Field g group → Leaf g ⟨group, none, none⟩
  | module {g m : List Char} {group module : Option String} : Field g group → Field m module →
      Leaf (g ++ ':' :: m) ⟨group, module, none⟩
  | artifact {g m a : List Char} {group module : Option String} {artifact : Option Artifact} :
      Field g group → Field m module → ArtifactField a artifact →
      Leaf (g ++ ':' :: (m ++ ':' :: a)) ⟨group, module, artifact⟩

def everythingText : List Char := ['e', 'v', 'e', 'r', 'y', 't', 'h', 'i', 'n', 'g']

def nothingText : List Char := ['n', 'o', 't', 'h', 'i', 'n', 'g']

mutual

inductive Expression : List Char → Rule → Prop
  | everything : Expression everythingText .everything
  | nothing : Expression nothingText .nothing
  | pattern {text : List Char} {p : Pattern} : Leaf text p → text ≠ everythingText →
      text ≠ nothingText → Expression text (.pattern p)
  | composite {blanks inside : List Char} {components : List Rule} (operation : Operation) :
      Blanks blanks → Items inside components →
      Expression (operation.keyword ++ (blanks ++ '(' :: (inside ++ [')'])))
        (.composite operation components)

inductive Items : List Char → List Rule → Prop
  | last {before text after : List Char} {rule : Rule} : Blanks before → Expression text rule →
      Blanks after → Items (before ++ (text ++ after)) [rule]
  | more {before text after inside : List Char} {rule : Rule} {rules : List Rule} :
      Blanks before → Expression text rule → Blanks after → Items inside rules →
      Items (before ++ (text ++ (after ++ ',' :: inside))) (rule :: rules)

end

/-- The text says the rule: an expression for it, with blanks on either side. -/
def Document (text : List Char) (rule : Rule) : Prop :=
  ∃ before expression after, Blanks before ∧ Expression expression rule ∧ Blanks after ∧
    text = before ++ (expression ++ after)

/-! ## Characters -/

/-- Names are made of visible ASCII characters. -/
theorem toNat_of_isNameChar {c : Char} (h : Reader.isNameChar c = true) :
    0x20 < c.toNat ∧ c.toNat < 0x80 := by
  delta Reader.isNameChar Char.isAlphanum Char.isAlpha Char.isUpper Char.isLower Char.isDigit at h
  simp only [Bool.or_eq_true, Bool.and_eq_true, decide_eq_true_eq, ge_iff_le,
    UInt32.le_iff_toNat_le] at h
  rcases h with ((((( ⟨hlow, hhigh⟩ | ⟨hlow, hhigh⟩) | ⟨hlow, hhigh⟩) | rfl) | rfl) | rfl) | rfl
  · exact ⟨Nat.lt_of_lt_of_le (by decide) hlow, Nat.lt_of_le_of_lt hhigh (by decide)⟩
  · exact ⟨Nat.lt_of_lt_of_le (by decide) hlow, Nat.lt_of_le_of_lt hhigh (by decide)⟩
  · exact ⟨Nat.lt_of_lt_of_le (by decide) hlow, Nat.lt_of_le_of_lt hhigh (by decide)⟩
  all_goals decide

theorem not_blank_of_isNameChar {c : Char} (h : Reader.isNameChar c = true) :
    Text.isBlank c = false := by
  have hascii := toNat_of_isNameChar h
  simp [Text.isBlank, Text.blankRanges]
  omega

/-- Blanks do not go on in names. -/
theorem not_nameChar_of_isBlank {c : Char} (h : Text.isBlank c = true) :
    Reader.isNameChar c = false := by
  by_contra hname
  rw [not_blank_of_isNameChar (by simpa using hname)] at h
  cases h

/-! ## Blanks -/

theorem blanks_nil : Blanks [] := nofun

theorem Blanks.append {a b : List Char} (ha : Blanks a) (hb : Blanks b) : Blanks (a ++ b) :=
  List.forall_mem_append.mpr ⟨ha, hb⟩

theorem skipBlank_cons {c : Char} {rest : List Char} (h : Text.isBlank c = false) :
    Text.skipBlank (c :: rest) = c :: rest := by
  simp [Text.skipBlank, h]

theorem Blanks.skipBlank_append {blanks : List Char} (h : Blanks blanks) (rest : List Char) :
    Text.skipBlank (blanks ++ rest) = Text.skipBlank rest :=
  List.dropWhile_append_of_pos h

theorem Blanks.skipBlank_append_cons {blanks : List Char} (h : Blanks blanks) {c : Char}
    (hc : Text.isBlank c = false) (rest : List Char) :
    Text.skipBlank (blanks ++ c :: rest) = c :: rest := by
  rw [h.skipBlank_append, skipBlank_cons hc]

theorem skipBlank_skipBlank (text : List Char) :
    Text.skipBlank (Text.skipBlank text) = Text.skipBlank text :=
  List.dropWhile_idempotent Text.isBlank text

theorem exists_blanks (text : List Char) :
    ∃ blanks, Blanks blanks ∧ text = blanks ++ Text.skipBlank text :=
  ⟨text.takeWhile Text.isBlank, fun _ hc => List.mem_takeWhile_imp hc,
    List.takeWhile_append_dropWhile.symm⟩

theorem exists_blanks_of_skipBlank {text rest : List Char} (h : Text.skipBlank text = rest) :
    ∃ blanks, Blanks blanks ∧ text = blanks ++ rest :=
  h ▸ exists_blanks text

/-- What is left without its leading blanks begins with none. -/
theorem not_blank_of_skipBlank {text rest : List Char} {c : Char}
    (h : Text.skipBlank text = c :: rest) : Text.isBlank c = false := by
  have hne : List.dropWhile Text.isBlank text ≠ [] := by
    rw [show List.dropWhile Text.isBlank text = c :: rest from h]
    exact List.cons_ne_nil c rest
  have hhead := List.head_dropWhile_not Text.isBlank hne
  simpa [show List.dropWhile Text.isBlank text = c :: rest from h] using hhead

/-! ## Texts among other texts -/

section

variable {text blanks inside : List Char} {rule : Rule} {rules : List Rule}

theorem Document.append_blanks (h : Document text rule) (hblanks : Blanks blanks) :
    Document (text ++ blanks) rule := by
  obtain ⟨before, expression, after, hbefore, hexpression, hafter, rfl⟩ := h
  exact ⟨before, expression, after ++ blanks, hbefore, hexpression, hafter.append hblanks, by simp⟩

theorem Document.last (h : Document text rule) : Items text [rule] := by
  obtain ⟨before, expression, after, hbefore, hexpression, hafter, rfl⟩ := h
  exact .last hbefore hexpression hafter

theorem Document.more (h : Document text rule) (hinside : Items inside rules) :
    Items (text ++ ',' :: inside) (rule :: rules) := by
  obtain ⟨before, expression, after, hbefore, hexpression, hafter, rfl⟩ := h
  have hitems := Items.more hbefore hexpression hafter hinside
  simpa using hitems

end

/-! ## What expressions are made of -/

/-- Patterns are made of name characters and three others. -/
def isPatternChar (c : Char) : Bool :=
  Reader.isNameChar c || c == '*' || c == ':' || c == '@'

theorem not_blank_of_isPatternChar {c : Char} (h : isPatternChar c = true) :
    Text.isBlank c = false := by
  simp only [isPatternChar, Bool.or_eq_true, beq_iff_eq] at h
  rcases h with ((h | rfl) | rfl) | rfl
  · exact not_blank_of_isNameChar h
  all_goals rfl

theorem toNat_of_isPatternChar {c : Char} (h : isPatternChar c = true) :
    0x20 < c.toNat ∧ c.toNat < 0x80 := by
  simp only [isPatternChar, Bool.or_eq_true, beq_iff_eq] at h
  rcases h with ((h | rfl) | rfl) | rfl
  · exact toNat_of_isNameChar h
  all_goals decide

theorem patternChars_of_identifier {value : String} (h : Identifier value) :
    ∀ c ∈ value.toList, isPatternChar c = true := by
  intro c hc
  simp [isPatternChar, h.2 c hc]

theorem Field.patternChars {text : List Char} {value : Option String} (h : Field text value) :
    ∀ c ∈ text, isPatternChar c = true := by
  cases h with
  | star => simp [isPatternChar]
  | name hvalue => exact patternChars_of_identifier hvalue

theorem ArtifactField.patternChars {text : List Char} {value : Option Artifact}
    (h : ArtifactField text value) : ∀ c ∈ text, isPatternChar c = true := by
  cases h with
  | star => simp [isPatternChar]
  | name hvalue => exact patternChars_of_identifier hvalue
  | extension hvalue hextension =>
    intro c hc
    rcases List.mem_append.mp hc with hc | hc
    · exact patternChars_of_identifier hvalue c hc
    · rcases List.mem_cons.mp hc with rfl | hc
      · rfl
      · exact patternChars_of_identifier hextension c hc

theorem Leaf.patternChars {text : List Char} {p : Pattern} (h : Leaf text p) :
    ∀ c ∈ text, isPatternChar c = true := by
  have hcolon : isPatternChar ':' = true := rfl
  cases h with
  | group hg => exact hg.patternChars
  | module hg hm =>
    simp only [List.forall_mem_append, List.forall_mem_cons]
    exact ⟨hg.patternChars, hcolon, hm.patternChars⟩
  | artifact hg hm ha =>
    simp only [List.forall_mem_append, List.forall_mem_cons]
    exact ⟨hg.patternChars, hcolon, hm.patternChars, hcolon, ha.patternChars⟩

theorem Field.ne_nil {text : List Char} {value : Option String} (h : Field text value) :
    text ≠ [] := by
  cases h with
  | star => nofun
  | name hvalue => exact hvalue.1

theorem Leaf.ne_nil {text : List Char} {p : Pattern} (h : Leaf text p) : text ≠ [] := by
  cases h with
  | group hg => exact hg.ne_nil
  | module hg hm => simp
  | artifact hg hm ha => simp

theorem Expression.ne_nil {text : List Char} {r : Rule} (h : Expression text r) : text ≠ [] := by
  cases h with
  | everything => exact List.cons_ne_nil _ _
  | nothing => exact List.cons_ne_nil _ _
  | pattern hleaf _ _ => exact hleaf.ne_nil
  | composite operation _ _ => simp

theorem Items.ne_nil {text : List Char} {rules : List Rule} (h : Items text rules) : text ≠ [] := by
  cases h with
  | last _ hexpression _ => simp [hexpression.ne_nil]
  | more _ _ _ _ => simp

end Notation

end ExclusionAlgebra
