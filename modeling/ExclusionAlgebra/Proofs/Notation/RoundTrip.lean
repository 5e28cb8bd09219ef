import ExclusionAlgebra.Proofs.Notation.Accepted

/-!
# Reading what was written

Every rule that the notation can express is read back from its written form exactly as it is, order
and repeats of components included; and what is read from any text can be expressed.

* `Rule.Named`, `Rule.Spelled`, `Rule.Expressible`: all names of the rule are identifiers; and no
  composite is empty; and there are no foreign values.
* `Notation.expression_written`: the grammar derives the written form of a rule with that meaning.
* `Notation.writtenChars`: the characters of a written form.
* `Rule.read_written`: the written form is read back.
* `Rule.written_inj`, `Rule.writtenList_inj`: so it is the written form of one rule only, and rules that
  are written one behind another can be told apart.
* `Rule.expressible_of_comesTo`: what is read can be expressed.
* `Rule.format_read_inverse`: the round trip, from rules and from texts.
-/

namespace ExclusionAlgebra

/-! ## What can be spelled -/

def Artifact.Named (artifact : Artifact) : Prop :=
  Identifier artifact.name ∧ ∀ extension ∈ artifact.extension, Identifier extension

/-- The concrete fields of a pattern can be spelled. -/
structure Pattern.Named (p : Pattern) : Prop where
  group : ∀ name ∈ p.group, Identifier name
  module : ∀ name ∈ p.module, Identifier name
  artifact : ∀ artifact ∈ p.artifact, artifact.Named

theorem Pattern.named_iff {p : Pattern} :
    p.Named ↔ (∀ name ∈ p.group, Identifier name) ∧ (∀ name ∈ p.module, Identifier name) ∧
      ∀ artifact ∈ p.artifact, artifact.Named :=
  ⟨fun h => ⟨h.group, h.module, h.artifact⟩, fun h => ⟨h.1, h.2.1, h.2.2⟩⟩

namespace Rule

def Named (rule : Rule) : Prop := rule.Everywhere fun node => ∀ p, node = .pattern p → p.Named

/-- The notation can express the rule: it has no foreign value, no composite without components, and
only names that can be spelled. -/
def Expressible (rule : Rule) : Prop :=
  rule.Known ∧ rule.Named ∧ rule.Everywhere fun node => ∀ operation, node ≠ .composite operation []

/-- The names of the rule can be spelled, and no composite is empty; foreign values do not matter. -/
def Spelled (rule : Rule) : Prop :=
  rule.Named ∧ rule.Everywhere fun node => ∀ operation, node ≠ .composite operation []

theorem expressible_iff {rule : Rule} : rule.Expressible ↔ rule.Known ∧ rule.Spelled := Iff.rfl

@[simp]
theorem named_pattern {p : Pattern} : Named (.pattern p) ↔ p.Named := by
  simp [Named]

@[simp]
theorem named_composite {operation : Operation} {components : List Rule} :
    Named (.composite operation components) ↔ ∀ c ∈ components, c.Named := by
  simp [Named]

theorem spelled_composite {operation : Operation} {components : List Rule} :
    Spelled (.composite operation components) ↔ components ≠ [] ∧ ∀ c ∈ components, c.Spelled := by
  unfold Spelled
  rw [named_composite, everywhere_composite]
  constructor
  · rintro ⟨hnamed, hne, hinside⟩
    refine ⟨?_, fun c hc => ⟨hnamed c hc, hinside c hc⟩⟩
    rintro rfl
    exact hne operation rfl
  · rintro ⟨hne, h⟩
    refine ⟨fun c hc => (h c hc).1, ?_, fun c hc => (h c hc).2⟩
    intro f heq
    cases heq
    exact hne rfl

theorem expressible_composite {operation : Operation} {components : List Rule} :
    Expressible (.composite operation components) ↔
      components ≠ [] ∧ ∀ c ∈ components, c.Expressible := by
  simp only [expressible_iff, known_composite, spelled_composite]
  constructor
  · rintro ⟨hknown, hne, hspelled⟩
    exact ⟨hne, fun c hc => ⟨hknown c hc, hspelled c hc⟩⟩
  · rintro ⟨hne, h⟩
    exact ⟨fun c hc => (h c hc).1, hne, fun c hc => (h c hc).2⟩

theorem named_of_expressible_pattern {p : Pattern} (h : Expressible (.pattern p)) : p.Named :=
  named_pattern.mp h.2.1

end Rule

namespace Notation

variable {text : List Char} {r : Rule} {p : Pattern}

/-! ## The written form is derived -/

theorem field_written {value : Option String} (h : ∀ name ∈ value, Identifier name) :
    Field (writtenField value) value := by
  cases value with
  | none => exact .star
  | some name => exact .name (h name rfl)

theorem artifact_written {artifact : Artifact} (h : artifact.Named) :
    ArtifactField artifact.written (some artifact) := by
  obtain ⟨name, extension⟩ := artifact
  cases extension with
  | none => exact .name h.1
  | some extension => exact .extension h.1 (h.2 extension rfl)

theorem leaf_written (h : p.Named) : Leaf p.written p := by
  obtain ⟨group, module, artifact⟩ := p
  have hgroup := field_written h.group
  have hmodule := field_written h.module
  cases artifact with
  | none =>
    unfold Pattern.written
    rw [List.append_nil]
    exact .module hgroup hmodule
  | some artifact => exact .artifact hgroup hmodule (artifact_written (h.artifact artifact rfl))

/-- A written pattern has a colon, so it is neither of the two constants. -/
theorem colon_mem_written (p : Pattern) : ':' ∈ p.written := by
  simp [Pattern.written]

theorem Items.blanks_append {blanks inside : List Char} {rs : List Rule} (hblanks : Blanks blanks)
    (h : Items inside rs) : Items (blanks ++ inside) rs := by
  cases h with
  | last hbefore hexpression hafter =>
    rw [← List.append_assoc]
    exact .last (hblanks.append hbefore) hexpression hafter
  | more hbefore hexpression hafter hinside =>
    rw [← List.append_assoc]
    exact .more (hblanks.append hbefore) hexpression hafter hinside

theorem items_written {components : List Rule} (hne : components ≠ [])
    (h : ∀ c ∈ components, Expression c.written c) :
    Items (Rule.writtenList components) components := by
  induction components with
  | nil => exact absurd rfl hne
  | cons c rest ih =>
    have hc := h c List.mem_cons_self
    cases rest with
    | nil =>
      have hlast := Items.last blanks_nil hc blanks_nil
      rwa [List.append_nil, List.nil_append] at hlast
    | cons next rest =>
      have hrest := ih (List.cons_ne_nil next rest) fun d hd => h d (List.mem_cons_of_mem _ hd)
      have hblank : Blanks [' '] := List.forall_mem_singleton.mpr rfl
      exact .more blanks_nil hc blanks_nil (hrest.blanks_append hblank)

theorem expression_written (h : r.Expressible) : Expression r.written r := by
  induction r with
  | everything => exact .everything
  | nothing => exact .nothing
  | pattern p =>
    refine .pattern (leaf_written (Rule.named_of_expressible_pattern h)) ?_ ?_
    all_goals
      intro heq
      have hcolon : ':' ∈ (Rule.pattern p).written := colon_mem_written p
      rw [heq] at hcolon
      exact absurd hcolon (by decide)
  | composite operation components ih =>
    obtain ⟨hne, hcomponents⟩ := Rule.expressible_composite.mp h
    have hitems := items_written hne fun c hc => ih c hc (hcomponents c hc)
    exact .composite operation blanks_nil hitems
  | foreign value => exact absurd h.1 (Rule.not_known_foreign value)

theorem writtenList_ne_nil {components : List Rule} (hne : components ≠ [])
    (h : ∀ c ∈ components, c.Expressible) : Rule.writtenList components ≠ [] :=
  (items_written hne fun c hc => expression_written (h c hc)).ne_nil

/-! ## The characters of a written form -/

/-- Patterns, and the parentheses, commas and spaces of composites. -/
def isWrittenChar (c : Char) : Bool :=
  isPatternChar c || c == '(' || c == ')' || c == ',' || c == ' '

theorem isWrittenChar_of_isPatternChar {c : Char} (h : isPatternChar c = true) :
    isWrittenChar c = true := by
  simp [isWrittenChar, h]

/-- A written form has no control characters. -/
theorem toNat_of_isWrittenChar {c : Char} (h : isWrittenChar c = true) : 0x20 ≤ c.toNat := by
  simp only [isWrittenChar, Bool.or_eq_true, beq_iff_eq] at h
  rcases h with (((h | rfl) | rfl) | rfl) | rfl
  · exact (toNat_of_isPatternChar h).1.le
  all_goals decide

theorem writtenChars_list {components : List Rule}
    (h : ∀ r ∈ components, ∀ c ∈ r.written, isWrittenChar c = true) :
    ∀ c ∈ Rule.writtenList components, isWrittenChar c = true := by
  induction components with
  | nil => exact List.forall_mem_nil _
  | cons r rest ih =>
    rw [List.forall_mem_cons] at h
    cases rest with
    | nil => exact h.1
    | cons next rest =>
      rw [Rule.writtenList, List.forall_mem_append, List.forall_mem_cons, List.forall_mem_cons]
      exact ⟨h.1, rfl, rfl, ih h.2⟩

theorem writtenChars (h : r.Expressible) : ∀ c ∈ r.written, isWrittenChar c = true := by
  induction r with
  | everything => exact List.all_eq_true.mp rfl
  | nothing => exact List.all_eq_true.mp rfl
  | pattern p =>
    have hleaf := leaf_written (Rule.named_of_expressible_pattern h)
    exact fun c hc => isWrittenChar_of_isPatternChar (hleaf.patternChars c hc)
  | composite operation components ih =>
    have hkeyword : ∀ c ∈ operation.keyword, isWrittenChar c = true := by
      cases operation <;> exact List.all_eq_true.mp rfl
    have hinside := writtenChars_list fun r hr => ih r hr ((Rule.expressible_composite.mp h).2 r hr)
    rw [Rule.written, List.forall_mem_append, List.forall_mem_cons, List.forall_mem_append]
    exact ⟨hkeyword, rfl, hinside, List.forall_mem_singleton.mpr rfl⟩
  | foreign value => exact absurd h.1 (Rule.not_known_foreign value)

/-! ## What is derived can be spelled -/

theorem Field.named {value : Option String} (h : Field text value) :
    ∀ name ∈ value, Identifier name := by
  cases h with
  | star => exact nofun
  | name hvalue =>
    rintro name ⟨⟩
    exact hvalue

theorem ArtifactField.named {value : Option Artifact} (h : ArtifactField text value) :
    ∀ artifact ∈ value, artifact.Named := by
  cases h with
  | star => exact nofun
  | name hvalue =>
    rintro artifact ⟨⟩
    exact ⟨hvalue, nofun⟩
  | extension hvalue hextension =>
    rintro artifact ⟨⟩
    refine ⟨hvalue, ?_⟩
    rintro extension ⟨⟩
    exact hextension

theorem Leaf.named (h : Leaf text p) : p.Named := by
  cases h with
  | group hg => exact ⟨hg.named, nofun, nofun⟩
  | module hg hm => exact ⟨hg.named, hm.named, nofun⟩
  | artifact hg hm ha => exact ⟨hg.named, hm.named, ha.named⟩

end Notation

namespace Rule

/-- **Written rules are read back.** A rule that the notation can express is read from its written
form as it is. -/
theorem read_written {r : Rule} (h : r.Expressible) : read (String.ofList r.written) = .ok r := by
  rw [read_eq_ok_iff, Reader.readsDocument_iff, String.toList_ofList]
  have hexpression := Notation.expression_written h
  exact ⟨[], r.written, [], Notation.blanks_nil, hexpression, Notation.blanks_nil, by simp⟩

/-! ## Written forms can be told apart -/

theorem written_inj {r s : Rule} (hr : r.Expressible) (hs : s.Expressible)
    (h : r.written = s.written) : r = s := by
  have hread := read_written hr
  rw [h, read_written hs] at hread
  exact (Except.ok.inj hread).symm

/-- Rules with commas between them can be told apart, however many there are and whatever commas they
have inside: in parentheses they are one rule.  No rules at all are not written like any. -/
theorem writtenList_inj {rs ts : List Rule} (hrs : ∀ r ∈ rs, r.Expressible)
    (hts : ∀ t ∈ ts, t.Expressible) (h : writtenList rs = writtenList ts) : rs = ts := by
  by_cases hr : rs = []
  · subst hr
    by_contra ht
    exact Notation.writtenList_ne_nil (Ne.symm ht) hts h.symm
  · by_cases ht : ts = []
    · subst ht
      exact absurd h (Notation.writtenList_ne_nil hr hrs)
    · have hcomposite : (composite .anyOf rs).written = (composite .anyOf ts).written := by
        rw [written, written, h]
      have hsame := written_inj (expressible_composite.mpr ⟨hr, hrs⟩)
        (expressible_composite.mpr ⟨ht, hts⟩) hcomposite
      exact (Rule.composite.inj hsame).2

/-! ## What is read can be spelled -/

theorem expressible_pattern {p : Pattern} (h : p.Named) : Expressible (.pattern p) :=
  ⟨known_pattern p, named_pattern.mpr h, by simp⟩

theorem expressible_of_comesTo {source : String} {trees : List Rule} (h : ComesTo source trees) :
    ∀ tree ∈ trees, tree.Expressible := by
  refine forall_of_comesTo ?_ ?_ h
  · intro text r rest hatom
    rcases Reader.atom_eq_ok hatom with ⟨hconstant, -⟩ | ⟨-, p, rfl, hpattern⟩
    · rcases (Reader.constant?_cases hconstant).2 with ⟨rfl, -⟩ | ⟨rfl, -⟩ <;>
        simp [Expressible, Named]
    · obtain ⟨t, hleaf, -⟩ := Reader.pattern_eq_ok hpattern
      exact expressible_pattern hleaf.named
  · intro operation components hne hcomponents
    exact expressible_composite.mpr ⟨hne, hcomponents⟩

theorem expressible_of_read {source : String} {tree : Rule} (h : read source = .ok tree) :
    tree.Expressible :=
  expressible_of_comesTo (comesTo_of_read h) tree List.mem_cons_self

theorem format_eq_ok {r : Rule} (h : r.Known) : r.format = .ok (String.ofList r.written) := by
  rw [format, check_eq_ok_iff.mpr h]
  rfl

/-- **Formatting and reading are inverse.** A rule that the notation can express is formatted to a text
that is read as that rule, component by component; and what is read from any text at all can be
expressed, so that formatting it and reading again changes nothing. -/
theorem format_read_inverse :
    (∀ r : Rule, r.Expressible → ∃ text, r.format = .ok text ∧ read text = .ok r) ∧
    (∀ (source : String) (tree : Rule), read source = .ok tree →
      tree.Expressible ∧ ∃ text, tree.format = .ok text ∧ read text = .ok tree) := by
  have hformat (r : Rule) (h : r.Expressible) : ∃ text, r.format = .ok text ∧ read text = .ok r :=
    ⟨_, format_eq_ok h.1, read_written h⟩
  refine ⟨hformat, fun source tree hread => ?_⟩
  have hexpressible := expressible_of_read hread
  exact ⟨hexpressible, hformat tree hexpressible⟩

/-- Groups that are called like an operation or a constant, repeats, and blanks that are not written
back. -/
theorem format_read_of_words :
    let rule : Rule := .composite .anyOf [.pattern ⟨some "any", none, none⟩,
      .composite .allOf [.pattern ⟨some "everything", some "nothing", some ⟨"all", some "x.y"⟩⟩,
        .everything], .pattern ⟨some "any", none, none⟩]
    rule.Expressible ∧
      (∃ text, rule.format = .ok text ∧ read text = .ok rule) ∧
      read " any (any , all( everything:nothing:all@x.y,everything ) , any:* )" = .ok rule ∧
      ∃ text, rule.format = .ok text ∧ read text = .ok rule := by
  intro rule
  have hshort : read "any(any, all(everything:nothing:all@x.y, everything), any)" = .ok rule := by
    decide +kernel
  have hexpressible := expressible_of_read hshort
  have hread : read " any (any , all( everything:nothing:all@x.y,everything ) , any:* )" = .ok rule := by
    decide +kernel
  exact ⟨hexpressible, format_read_inverse.1 rule hexpressible, hread,
    (format_read_inverse.2 _ rule hread).2⟩

end Rule

end ExclusionAlgebra
