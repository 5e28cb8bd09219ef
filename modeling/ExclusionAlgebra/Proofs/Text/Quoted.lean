import ExclusionAlgebra.Text.Quoted

/-!
# Quoted texts are self-delimiting

The closing quote of a quoted text can be told from the quotes inside, so a text that begins with a
quoted text determines it and what comes behind (`Text.quote_append_inj`).  Control characters are
written by other characters, so that there are none between the quotes (`Text.toNat_of_mem_quote`).
-/

namespace ExclusionAlgebra.Text

/-! ## Single characters -/

/-- The characters that have a letter, with it. -/
def letters : List (Char × Char) :=
  [('"', '"'), ('\\', '\\'), ('\x08', 'b'), ('\t', 't'), ('\n', 'n'), ('\x0c', 'f'), ('\r', 'r')]

theorem mem_letters {c l : Char} (h : escapeLetter? c = some l) : (c, l) ∈ letters := by
  unfold escapeLetter? at h
  repeat' split at h
  all_goals cases h
  all_goals simp [letters, *]

theorem escapeLetter?_inj {c d l : Char} (hc : escapeLetter? c = some l)
    (hd : escapeLetter? d = some l) : c = d := by
  have hall : ∀ p ∈ letters, ∀ q ∈ letters, p.2 = q.2 → p.1 = q.1 := by decide
  exact hall _ (mem_letters hc) _ (mem_letters hd) rfl

theorem escapeLetter?_ne_u {c l : Char} (h : escapeLetter? c = some l) : l ≠ 'u' := by
  have hall : ∀ p ∈ letters, p.2 ≠ 'u' := by decide
  exact hall _ (mem_letters h)

theorem ne_of_escapeLetter?_eq_none {c : Char} (h : escapeLetter? c = none) : c ≠ '"' ∧ c ≠ '\\' := by
  constructor
  · rintro rfl
    cases h
  · rintro rfl
    cases h

theorem hexFour_inj {m n : Nat} (hm : m < 0x20) (hn : n < 0x20) (h : hexFour m = hexFour n) :
    m = n := by
  have hall : ∀ m < 0x20, ∀ n < 0x20, hexFour m = hexFour n → m = n := by decide
  exact hall m hm n hn h

/-- The three ways in which a character stands inside quotes. -/
theorem escaped_cons_cases (c : Char) (rest : List Char) :
    (∃ l, escapeLetter? c = some l ∧ escaped (c :: rest) = '\\' :: l :: escaped rest) ∨
      (c.toNat < 0x20 ∧ escaped (c :: rest) = '\\' :: 'u' :: (hexFour c.toNat ++ escaped rest)) ∨
      (c ≠ '"' ∧ c ≠ '\\' ∧ escaped (c :: rest) = c :: escaped rest) := by
  rw [escaped]
  cases hletter : escapeLetter? c with
  | some l => exact Or.inl ⟨l, rfl, rfl⟩
  | none =>
    dsimp only
    by_cases hlow : c.toNat < 0x20
    · rw [if_pos hlow]
      exact Or.inr (Or.inl ⟨hlow, rfl⟩)
    · rw [if_neg hlow]
      obtain ⟨hquote, hslash⟩ := ne_of_escapeLetter?_eq_none hletter
      exact Or.inr (Or.inr ⟨hquote, hslash, rfl⟩)

/-! ## Whole texts -/

/-- No character inside quotes looks like the closing quote. -/
theorem escaped_cons_ne_quote (c : Char) (rest x y : List Char) :
    escaped (c :: rest) ++ x ≠ '"' :: y := by
  intro h
  rcases escaped_cons_cases c rest with ⟨l, _, heq⟩ | ⟨_, heq⟩ | ⟨hquote, _, heq⟩
  · rw [heq] at h
    cases h
  · rw [heq] at h
    cases h
  · rw [heq] at h
    exact hquote (List.cons.inj h).1

/-- Texts that begin with a character in its form inside quotes begin with the same character. -/
theorem escaped_cons_inj {c d : Char} {s t x y : List Char}
    (h : escaped (c :: s) ++ x = escaped (d :: t) ++ y) : c = d ∧ escaped s ++ x = escaped t ++ y := by
  rcases escaped_cons_cases c s with ⟨l, hl, hc⟩ | ⟨hlow, hc⟩ | ⟨-, hslash, hc⟩ <;>
    rcases escaped_cons_cases d t with ⟨k, hk, hd⟩ | ⟨hlow', hd⟩ | ⟨-, hslash', hd⟩ <;>
    rw [hc, hd] at h <;> simp only [List.cons_append, List.append_assoc, List.cons.injEq] at h
  · obtain ⟨-, rfl, h⟩ := h
    exact ⟨escapeLetter?_inj hl hk, h⟩
  · exact absurd h.2.1 (escapeLetter?_ne_u hl)
  · exact absurd h.1.symm hslash'
  · exact absurd h.2.1.symm (escapeLetter?_ne_u hk)
  · obtain ⟨hhex, h⟩ := List.append_inj h.2.2 rfl
    exact ⟨Char.toNat_inj.mp (hexFour_inj hlow hlow' hhex), h⟩
  · exact absurd h.1.symm hslash'
  · exact absurd h.1 hslash
  · exact absurd h.1 hslash
  · exact h

theorem escaped_append_inj {s t x y : List Char}
    (h : escaped s ++ '"' :: x = escaped t ++ '"' :: y) : s = t ∧ x = y := by
  induction s generalizing t with
  | nil =>
    cases t with
    | nil => exact ⟨rfl, (List.cons.inj h).2⟩
    | cons d t => exact absurd h.symm (escaped_cons_ne_quote d t _ _)
  | cons c s ih =>
    cases t with
    | nil => exact absurd h (escaped_cons_ne_quote c s _ _)
    | cons d t =>
      obtain ⟨rfl, hrest⟩ := escaped_cons_inj h
      obtain ⟨rfl, hxy⟩ := ih hrest
      exact ⟨rfl, hxy⟩

/-- A quoted text at the front can be told from what comes behind it. -/
theorem quote_append_inj {s t x y : List Char} (h : quote s ++ x = quote t ++ y) :
    s = t ∧ x = y := by
  simp only [quote, List.cons_append, List.append_assoc, List.cons.injEq, true_and] at h
  exact escaped_append_inj h

/-! ## What quoted texts are made of -/

theorem toNat_of_mem_hexFour {n : Nat} {c : Char} (h : c ∈ hexFour n) : 0x20 ≤ c.toNat := by
  have hdigit : ∀ k < 16, 0x20 ≤ (Nat.digitChar k).toNat := by decide
  simp only [hexFour, List.mem_cons, List.not_mem_nil, or_false] at h
  rcases h with rfl | rfl | rfl | rfl <;> exact hdigit _ (Nat.mod_lt _ (by decide))

theorem toNat_of_mem_escaped (text : List Char) : ∀ c ∈ escaped text, 0x20 ≤ c.toNat := by
  have hletters : ∀ p ∈ letters, 0x20 ≤ p.2.toNat := by decide
  induction text with
  | nil => exact List.forall_mem_nil _
  | cons c rest ih =>
    rw [escaped]
    cases hletter : escapeLetter? c with
    | some letter =>
      simp only [List.forall_mem_cons]
      exact ⟨by decide, hletters _ (mem_letters hletter), ih⟩
    | none =>
      dsimp only
      split
      · simp only [List.forall_mem_cons, List.forall_mem_append]
        exact ⟨by decide, by decide, fun _ => toNat_of_mem_hexFour, ih⟩
      · exact List.forall_mem_cons.mpr ⟨by omega, ih⟩

/-- Between quotes there are no control characters, whatever is quoted. -/
theorem toNat_of_mem_quote (text : List Char) : ∀ c ∈ quote text, 0x20 ≤ c.toNat := by
  simp only [quote, List.forall_mem_cons, List.forall_mem_append]
  exact ⟨by decide, toNat_of_mem_escaped text, by decide, nofun⟩

theorem toNat_of_mem_quoteLead (c : Char) : ∀ d ∈ quoteLead c, 0x20 ≤ d.toNat := by
  unfold quoteLead
  split
  · exact toNat_of_mem_quote [c]
  · simp only [List.forall_mem_cons, List.forall_mem_append]
    exact ⟨by decide, by decide, by decide, fun _ => toNat_of_mem_hexFour, by decide, nofun⟩

end ExclusionAlgebra.Text
