import ExclusionAlgebra.Proofs.Notation.Grammar
import ExclusionAlgebra.Proofs.Returns

/-!
# Reading atoms

The readers for names, fields, artifacts and patterns pass what the grammar calls so, and nothing
else.

* `Reader.Stops`, `Reader.Ends`: what comes next does not go on in a name, or in a pattern.
* `Reader.name_append`, `Reader.field_append`, `Reader.artifact_append`, `Reader.pattern_append`: what
  the grammar derives is read, whatever follows that does not go on in it.
* `Reader.name_eq_ok`, `Reader.field_eq_ok`, `Reader.artifact_eq_ok`, `Reader.pattern_eq_ok`: what is
  read, the grammar derives.
* `Reader.artifact_eq_error`, `Reader.pattern_eq_error`: what was passed when a reader failed begins
  something that the grammar derives.
* `Reader.Local`: a reader that decides by what it passes and the one character behind it, as all of
  these do.
-/

namespace ExclusionAlgebra

open Notation

namespace Reader

variable {α β : Type} {missing : SyntaxError.Cause} {text rest : List Char}

/-! ## Where a name ends -/

/-- No name goes on into the text. -/
def Stops (rest : List Char) : Prop := ∀ c ∈ rest.head?, isNameChar c = false

/-- No pattern goes on into the text. -/
def Ends (rest : List Char) : Prop :=
  ∀ c ∈ rest.head?, isNameChar c = false ∧ c ≠ ':' ∧ c ≠ '@'

theorem Ends.stops (h : Ends rest) : Stops rest := fun c hc => (h c hc).1

theorem stops_cons {c : Char} (h : isNameChar c = false) : Stops (c :: rest) := by
  intro d hd
  cases hd
  exact h

/-- A name ends where the first character behind it is none of its own. -/
theorem splitName_append {word : List Char} (hword : ∀ c ∈ word, isNameChar c = true)
    (hrest : Stops rest) : splitName (word ++ rest) = (word, rest) := by
  have hnone : rest.takeWhile isNameChar = [] ∧ rest.dropWhile isNameChar = rest := by
    cases rest with
    | nil => exact ⟨rfl, rfl⟩
    | cons c rest => simp [hrest c rfl]
  rw [splitName, List.takeWhile_append_of_pos hword, List.dropWhile_append_of_pos hword, hnone.1,
    hnone.2, List.append_nil]

theorem splitName_spec {word : List Char} (h : splitName text = (word, rest)) :
    text = word ++ rest ∧ (∀ c ∈ word, isNameChar c = true) ∧ Stops rest := by
  obtain ⟨rfl, rfl⟩ := Prod.mk.inj h
  refine ⟨List.takeWhile_append_dropWhile.symm, fun c hc => List.mem_takeWhile_imp hc, ?_⟩
  intro c hc
  have hhead := List.head?_dropWhile_not isNameChar text
  rw [Option.mem_def.mp hc] at hhead
  exact hhead

/-! ## What the grammar derives is read -/

theorem name_append {value : String} (h : Identifier value) (hrest : Stops rest) :
    name missing (value.toList ++ rest) = .ok (value, rest) := by
  unfold name
  rw [splitName_append h.2 hrest]
  split
  · rename_i heq
    exact absurd (Prod.mk.inj heq).1 h.1
  · rename_i heq
    obtain ⟨hchars, hrest⟩ := Prod.mk.inj heq
    rw [← hchars, ← hrest, String.ofList_toList]

/-- An identifier does not begin with a star. -/
theorem identifier_append_ne_star {value : String} (h : Identifier value) (rest tail : List Char) :
    value.toList ++ rest ≠ '*' :: tail := by
  intro heq
  obtain ⟨c, chars, hchars⟩ := List.exists_cons_of_ne_nil h.1
  rw [hchars, List.cons_append] at heq
  have hc := h.2 c (hchars ▸ List.mem_cons_self)
  rw [(List.cons.inj heq).1] at hc
  cases hc

theorem field_append {f : List Char} {value : Option String} (h : Field f value)
    (hrest : Stops rest) : field missing (f ++ rest) = .ok (value, rest) := by
  cases h with
  | star => rfl
  | name hvalue =>
    unfold field
    split
    · rename_i heq
      exact absurd heq (identifier_append_ne_star hvalue _ _)
    · rw [name_append hvalue hrest]
      rfl

theorem artifact_append {a : List Char} {value : Option Artifact} (h : ArtifactField a value)
    (hrest : Ends rest) : artifact (a ++ rest) = .ok (value, rest) := by
  cases h with
  | star => rfl
  | name hvalue =>
    unfold artifact
    split
    · rename_i heq
      exact absurd heq (identifier_append_ne_star hvalue _ _)
    · refine bind_eq_ok.mpr ⟨_, name_append hvalue hrest.stops, ?_⟩
      dsimp only
      split
      · exact absurd rfl (hrest '@' rfl).2.2
      · rfl
  | @extension value extension hvalue hextension =>
    rw [List.append_assoc, List.cons_append]
    unfold artifact
    split
    · rename_i heq
      exact absurd heq (identifier_append_ne_star hvalue _ _)
    · refine bind_eq_ok.mpr ⟨_, name_append hvalue (stops_cons rfl), ?_⟩
      exact bind_eq_ok.mpr ⟨_, name_append hextension hrest.stops, rfl⟩

theorem pattern_append {t : List Char} {p : Pattern} (h : Leaf t p) (hrest : Ends rest) :
    pattern (t ++ rest) = .ok (p, rest) := by
  have hcolon : ∀ tail, Stops (':' :: tail) := fun _ => stops_cons rfl
  cases h with
  | group hg =>
    refine bind_eq_ok.mpr ⟨_, field_append hg hrest.stops, ?_⟩
    dsimp only
    split
    · exact absurd rfl (hrest ':' rfl).2.1
    · rfl
  | module hg hm =>
    rw [List.append_assoc, List.cons_append]
    refine bind_eq_ok.mpr ⟨_, field_append hg (hcolon _), ?_⟩
    refine bind_eq_ok.mpr ⟨_, field_append hm hrest.stops, ?_⟩
    dsimp only
    split
    · exact absurd rfl (hrest ':' rfl).2.1
    · rfl
  | artifact hg hm ha =>
    rw [List.append_assoc, List.cons_append, List.append_assoc, List.cons_append]
    refine bind_eq_ok.mpr ⟨_, field_append hg (hcolon _), ?_⟩
    refine bind_eq_ok.mpr ⟨_, field_append hm (hcolon _), ?_⟩
    exact bind_eq_ok.mpr ⟨_, artifact_append ha hrest, rfl⟩

/-! ## What is read, the grammar derives -/

/-- The text holds a character that stands in no name and is no blank, so it is clear from the text
alone what its first name is and what follows that name. -/
def Marked (text : List Char) : Prop :=
  ∃ c ∈ text, isNameChar c = false ∧ Text.isBlank c = false

theorem marked_of_mem {c : Char} (hname : isNameChar c = false) (hblank : Text.isBlank c = false)
    (h : c ∈ text) : Marked text :=
  ⟨c, h, hname, hblank⟩

theorem name_eq_ok {value : String} (h : name missing text = .ok (value, rest)) :
    Identifier value ∧ text = value.toList ++ rest ∧ Stops rest := by
  unfold name at h
  split at h
  · cases h
  · rename_i chars rest' hne hsplit
    cases h
    obtain ⟨htext, hchars, hstops⟩ := splitName_spec hsplit
    refine ⟨⟨?_, ?_⟩, ?_, hstops⟩
    · rw [String.toList_ofList]
      exact hne
    · rwa [String.toList_ofList]
    · rwa [String.toList_ofList]

theorem field_eq_ok {value : Option String} (h : field missing text = .ok (value, rest)) :
    ∃ f, Field f value ∧ text = f ++ rest ∧ (Marked f ∨ Stops rest) := by
  unfold field at h
  split at h
  · cases h
    exact ⟨['*'], .star, rfl, .inl (marked_of_mem rfl rfl List.mem_cons_self)⟩
  · obtain ⟨⟨value', rest'⟩, hname, h⟩ := bind_eq_ok.mp h
    cases h
    obtain ⟨hvalue, htext, hstops⟩ := name_eq_ok hname
    exact ⟨_, .name hvalue, htext, .inr hstops⟩

theorem artifact_eq_ok {value : Option Artifact} (h : artifact text = .ok (value, rest)) :
    ∃ a, ArtifactField a value ∧ text = a ++ rest := by
  unfold artifact at h
  split at h
  · cases h
    exact ⟨['*'], .star, rfl⟩
  · obtain ⟨⟨value', rest'⟩, hname, h⟩ := bind_eq_ok.mp h
    obtain ⟨hvalue, htext, -⟩ := name_eq_ok hname
    dsimp only at h
    split at h
    · obtain ⟨⟨extension, rest''⟩, hextension, h⟩ := bind_eq_ok.mp h
      cases h
      obtain ⟨hextension, hrest, -⟩ := name_eq_ok hextension
      refine ⟨_, .extension hvalue hextension, ?_⟩
      rw [htext, hrest, List.append_assoc, List.cons_append]
    · cases h
      exact ⟨_, .name hvalue, htext⟩

theorem pattern_eq_ok {p : Pattern} (h : pattern text = .ok (p, rest)) :
    ∃ t, Leaf t p ∧ text = t ++ rest ∧ (Marked t ∨ Stops rest) := by
  unfold pattern at h
  obtain ⟨⟨group, rest₁⟩, hgroup, hmore⟩ := bind_eq_ok.mp h
  obtain ⟨g, hg, rfl, hends⟩ := field_eq_ok hgroup
  have hmarked : ∀ tail, Marked (g ++ ':' :: tail) := fun tail =>
    marked_of_mem (c := ':') rfl rfl (by simp)
  dsimp only at hmore
  split at hmore
  · obtain ⟨⟨module, rest₂⟩, hmodule, hlast⟩ := bind_eq_ok.mp hmore
    obtain ⟨m, hm, rfl, -⟩ := field_eq_ok hmodule
    dsimp only at hlast
    split at hlast
    · obtain ⟨⟨artifact, rest₃⟩, hartifact, hpure⟩ := bind_eq_ok.mp hlast
      cases hpure
      obtain ⟨a, ha, rfl⟩ := artifact_eq_ok hartifact
      exact ⟨_, .artifact hg hm ha, by simp, .inl (hmarked _)⟩
    · cases hlast
      exact ⟨_, .module hg hm, by simp, .inl (hmarked _)⟩
  · cases hmore
    exact ⟨g, .group hg, rfl, hends⟩

/-! ## What was passed when a reader failed -/

theorem name_eq_error {failure : Failure} (h : name missing text = .error failure) :
    failure = ⟨missing, text⟩ ∧ Stops text := by
  unfold name at h
  split at h
  · rename_i hsplit
    cases h
    obtain ⟨rfl, -, hstops⟩ := splitName_spec hsplit
    exact ⟨rfl, hstops⟩
  · cases h

theorem field_eq_error {failure : Failure} (h : field missing text = .error failure) :
    failure = ⟨missing, text⟩ ∧ Stops text := by
  unfold field at h
  split at h
  · cases h
  · rcases bind_eq_error.mp h with h | ⟨a, -, h⟩
    · exact name_eq_error h
    · cases h

/-- A name for a place where one is missing. -/
theorem identifier_x : Identifier "x" := by
  simp [Identifier, isNameChar]

theorem artifact_eq_error {failure : Failure} (h : artifact text = .error failure) :
    ∃ passed more value, text = passed ++ failure.rest ∧ ArtifactField (passed ++ more) value := by
  unfold artifact at h
  split at h
  · cases h
  · rcases bind_eq_error.mp h with hname | ⟨⟨value, rest⟩, hname, hmore⟩
    · obtain ⟨rfl, -⟩ := name_eq_error hname
      exact ⟨[], ['*'], none, rfl, .star⟩
    · obtain ⟨hvalue, rfl, -⟩ := name_eq_ok hname
      dsimp only at hmore
      split at hmore
      · rcases bind_eq_error.mp hmore with hextension | ⟨a, -, hmore⟩
        · obtain ⟨rfl, -⟩ := name_eq_error hextension
          refine ⟨value.toList ++ ['@'], "x".toList, some ⟨value, some "x"⟩, by simp, ?_⟩
          rw [List.append_assoc]
          exact .extension hvalue identifier_x
        · cases hmore
      · cases hmore

/-- A pattern fails at its very first character, or behind a colon. -/
theorem pattern_eq_error {failure : Failure} (h : pattern text = .error failure) :
    ∃ passed more p, text = passed ++ failure.rest ∧ Leaf (passed ++ more) p ∧
      (Marked passed ∨ passed = [] ∧ Stops text) := by
  unfold pattern at h
  rcases bind_eq_error.mp h with hgroup | ⟨⟨group, rest₁⟩, hgroup, hmore⟩
  · obtain ⟨rfl, hstops⟩ := field_eq_error hgroup
    exact ⟨[], ['*'], _, rfl, .group .star, .inr ⟨rfl, hstops⟩⟩
  · obtain ⟨g, hg, rfl, -⟩ := field_eq_ok hgroup
    have hmarked : ∀ tail, Marked (g ++ ':' :: tail) := fun tail =>
      marked_of_mem (c := ':') rfl rfl (by simp)
    dsimp only at hmore
    split at hmore
    · rcases bind_eq_error.mp hmore with hmodule | ⟨⟨module, rest₂⟩, hmodule, hlast⟩
      · obtain ⟨rfl, -⟩ := field_eq_error hmodule
        refine ⟨g ++ [':'], ['*'], ⟨group, none, none⟩, by simp, ?_, .inl (hmarked [])⟩
        rw [List.append_assoc]
        exact .module hg .star
      · obtain ⟨m, hm, rfl, -⟩ := field_eq_ok hmodule
        dsimp only at hlast
        split at hlast
        · rcases bind_eq_error.mp hlast with hartifact | ⟨a, -, hpure⟩
          · obtain ⟨passed, more, value, htext, ha⟩ := artifact_eq_error hartifact
            refine ⟨g ++ ':' :: (m ++ ':' :: passed), more, ⟨group, module, value⟩, by simp [htext],
              ?_, .inl (hmarked _)⟩
            have hleaf := Leaf.artifact hg hm ha
            simpa using hleaf
          · cases hpure
        · cases hlast
    · cases hmore

/-! ## Deciding by the next character -/

/-- What is left begins in the same way, so that a reader that stands before it cannot tell. -/
theorem head?_append_eq {other : List Char} (passed : List Char) (h : other.head? = rest.head?) :
    (passed ++ other).head? = (passed ++ rest).head? := by
  rw [List.head?_append, List.head?_append, h]

/-- The reader decides by what it passes and the character behind it: with another text in place of
the rest that begins in the same way, it does the same. -/
structure Local (read : List Char → Except Failure (α × List Char)) : Prop where
  ok : ∀ {text a rest}, read text = .ok (a, rest) → ∃ passed, text = passed ++ rest ∧
    ∀ other : List Char, other.head? = rest.head? → read (passed ++ other) = .ok (a, other)
  error : ∀ {text failure}, read text = .error failure → ∃ passed, text = passed ++ failure.rest ∧
    ∀ other : List Char, other.head? = failure.rest.head? →
      read (passed ++ other) = .error ⟨failure.cause, other⟩

namespace Local

theorem pure (a : α) : Local fun text => .ok (a, text) where
  ok h := by
    cases h
    exact ⟨[], rfl, fun _ _ => rfl⟩
  error h := by cases h

theorem bind {read : List Char → Except Failure (α × List Char)}
    {next : α × List Char → Except Failure (β × List Char)} (hread : Local read)
    (hnext : ∀ a, Local fun rest => next (a, rest)) : Local fun text => read text >>= next where
  ok h := by
    obtain ⟨⟨a, rest⟩, hfirst, hsecond⟩ := bind_eq_ok.mp h
    obtain ⟨passed, rfl, hread⟩ := hread.ok hfirst
    obtain ⟨passed', rfl, hnext⟩ := (hnext a).ok hsecond
    refine ⟨passed ++ passed', by simp, fun other hother => ?_⟩
    rw [List.append_assoc]
    exact bind_eq_ok.mpr ⟨_, hread _ (head?_append_eq passed' hother), hnext other hother⟩
  error h := by
    rcases bind_eq_error.mp h with hfirst | ⟨⟨a, rest⟩, hfirst, hsecond⟩
    · obtain ⟨passed, rfl, hread⟩ := hread.error hfirst
      exact ⟨passed, rfl, fun other hother => bind_eq_error.mpr (.inl (hread other hother))⟩
    · obtain ⟨passed, rfl, hread⟩ := hread.ok hfirst
      obtain ⟨passed', hrest, hnext⟩ := (hnext a).error hsecond
      refine ⟨passed ++ passed', by simp [← hrest], fun other hother => ?_⟩
      rw [List.append_assoc]
      refine bind_eq_error.mpr (.inr ⟨_, hread _ ?_, hnext other hother⟩)
      rw [hrest]
      exact head?_append_eq passed' hother

/-- A choice by whether a certain character comes next, which is passed if it does. -/
theorem branch {read yes no : List Char → Except Failure (α × List Char)} (c : Char)
    (hread : ∀ rest, read (c :: rest) = yes rest)
    (hother : ∀ text : List Char, text.head? ≠ some c → read text = no text) (hyes : Local yes)
    (hno : Local no) : Local read where
  ok {text a rest} h := by
    by_cases hhead : text.head? = some c
    · obtain ⟨tail, rfl⟩ := List.head?_eq_some_iff.mp hhead
      rw [hread] at h
      obtain ⟨passed, rfl, hyes⟩ := hyes.ok h
      exact ⟨c :: passed, rfl, fun other hsame => (hread _).trans (hyes other hsame)⟩
    · rw [hother text hhead] at h
      obtain ⟨passed, rfl, hno⟩ := hno.ok h
      refine ⟨passed, rfl, fun other hsame => (hother _ ?_).trans (hno other hsame)⟩
      rwa [head?_append_eq passed hsame]
  error {text failure} h := by
    by_cases hhead : text.head? = some c
    · obtain ⟨tail, rfl⟩ := List.head?_eq_some_iff.mp hhead
      rw [hread] at h
      obtain ⟨passed, rfl, hyes⟩ := hyes.error h
      exact ⟨c :: passed, rfl, fun other hsame => (hread _).trans (hyes other hsame)⟩
    · rw [hother text hhead] at h
      obtain ⟨passed, hpassed, hno⟩ := hno.error h
      refine ⟨passed, hpassed, fun other hsame => (hother _ ?_).trans (hno other hsame)⟩
      rwa [head?_append_eq passed hsame, ← hpassed]

end Local

theorem Stops.of_head? {other : List Char} (h : Stops rest) (hhead : other.head? = rest.head?) :
    Stops other := by
  intro c hc
  rw [hhead] at hc
  exact h c hc

theorem name_of_stops (h : Stops text) : name missing text = .error ⟨missing, text⟩ := by
  have hsplit : splitName ([] ++ text) = ([], text) := splitName_append nofun h
  unfold name
  rw [List.nil_append] at hsplit
  rw [hsplit]

theorem local_name (missing : SyntaxError.Cause) : Local (name missing) where
  ok h := by
    obtain ⟨hvalue, htext, hstops⟩ := name_eq_ok h
    exact ⟨_, htext, fun other hother => name_append hvalue (hstops.of_head? hother)⟩
  error h := by
    obtain ⟨rfl, hstops⟩ := name_eq_error h
    exact ⟨[], rfl, fun other hother => name_of_stops (hstops.of_head? hother)⟩

theorem local_field (missing : SyntaxError.Cause) : Local (field missing) := by
  have hname : Local fun text => name missing text >>= fun r => .ok (some r.1, r.2) :=
    (local_name missing).bind fun value => .pure (some value)
  refine Local.branch '*' (fun _ => rfl) (fun text hhead => ?_) (.pure none) hname
  unfold field
  split
  · exact absurd rfl hhead
  · rfl

theorem local_artifact : Local artifact := by
  apply Local.branch '*' (fun _ => rfl)
  case hother =>
    intro text hhead
    unfold artifact
    split
    · exact absurd rfl hhead
    · rfl
  case hyes => exact .pure none
  case hno =>
    refine (local_name .artifact).bind fun value => ?_
    have hextension : Local fun text => name .extension text >>= fun s =>
        .ok (some (Artifact.mk value (some s.1)), s.2) :=
      (local_name .extension).bind fun extension =>
        .pure (some (Artifact.mk value (some extension)))
    refine Local.branch '@' (fun _ => rfl) (fun text hhead => ?_) hextension
      (.pure (some (Artifact.mk value none)))
    dsimp only
    split
    · exact absurd rfl hhead
    · rfl

theorem local_pattern : Local pattern := by
  unfold pattern
  refine (local_field .group).bind fun group => ?_
  refine Local.branch ':' (fun _ => rfl) (fun text hhead => ?_)
    ((local_field .module).bind fun module => ?_) (.pure (Pattern.mk group none none))
  · dsimp only
    split
    · exact absurd rfl hhead
    · rfl
  · have hartifact : Local fun text => artifact text >>= fun s =>
        .ok (Pattern.mk group module s.1, s.2) :=
      local_artifact.bind fun artifact => .pure (Pattern.mk group module artifact)
    refine Local.branch ':' (fun _ => rfl) (fun text hhead => ?_) hartifact
      (.pure (Pattern.mk group module none))
    dsimp only
    split
    · exact absurd rfl hhead
    · rfl

end Reader

end ExclusionAlgebra
