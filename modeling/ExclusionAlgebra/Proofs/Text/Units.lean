import Mathlib.Data.List.Infix

/-!
# Texts in 16-bit units

Positions in a text count 16-bit units.  A character of the basic plane is one unit, its number; any
other is a pair of surrogates, which are the numbers of no character.

* `Text.units`: the units of a text.
* `Text.Basic`: the characters are all of the basic plane, so units and characters are the same.
* `Text.exists_of_take_units_prefix`: a text of the basic plane whose units begin like those of a given
  text begins with the same characters.
-/

namespace ExclusionAlgebra.Text

def unitsOf (c : Char) : List Nat :=
  if c.toNat < 0x10000 then [c.toNat]
  else [0xD800 + (c.toNat - 0x10000) / 0x400, 0xDC00 + (c.toNat - 0x10000) % 0x400]

def units (text : List Char) : List Nat := text.flatMap unitsOf

def Basic (text : List Char) : Prop := ∀ c ∈ text, c.toNat < 0x10000

instance (text : List Char) : Decidable (Basic text) := List.decidableBAll _ text

theorem units_append (a b : List Char) : units (a ++ b) = units a ++ units b :=
  List.flatMap_append

theorem Basic.units_eq {text : List Char} (h : Basic text) : units text = text.map Char.toNat := by
  induction text with
  | nil => rfl
  | cons c rest ih =>
    obtain ⟨hc, hrest⟩ := List.forall_mem_cons.mp h
    rw [units, List.flatMap_cons, ← units, ih hrest, unitsOf, if_pos hc]
    rfl

theorem Basic.length_units {text : List Char} (h : Basic text) :
    (units text).length = text.length := by
  rw [h.units_eq, List.length_map]

/-- The number of a character is no surrogate. -/
theorem toNat_not_surrogate (c : Char) : c.toNat < 0xD800 ∨ 0xDFFF < c.toNat := by
  rcases c.valid with h | h
  · exact .inl h
  · exact .inr h.1

/-- The first unit of a character tells it from all others of the basic plane. -/
theorem exists_unitsOf (c : Char) :
    ∃ unit more, unitsOf c = unit :: more ∧ ∀ d : Char, d.toNat = unit → d = c := by
  unfold unitsOf
  split
  · exact ⟨_, _, rfl, fun d hd => Char.toNat_inj.mp hd⟩
  · refine ⟨_, _, rfl, fun d hd => ?_⟩
    have hnumber := toNat_not_surrogate d
    have hbound : c.toNat < 0x110000 := c.valid.elim (fun h => Nat.lt_trans h (by decide)) (·.2)
    omega

variable {passed valid rest : List Char}

theorem take_units (h : Basic passed) (rest : List Char) :
    (units (passed ++ rest)).take passed.length = units passed := by
  rw [units_append]
  exact List.take_left' h.length_units

theorem exists_of_take_units_prefix {c : Char} (hpassed : Basic passed) (hvalid : Basic valid)
    (h : (units (passed ++ c :: rest)).take (passed.length + 1) <+: units valid) :
    ∃ other, valid = passed ++ c :: other := by
  obtain ⟨unit, more, hunits, hunit⟩ := exists_unitsOf c
  have htake : (units (passed ++ c :: rest)).take (passed.length + 1) =
      passed.map Char.toNat ++ [unit] := by
    rw [units_append, hpassed.units_eq, units, List.flatMap_cons, hunits, ← units,
      List.take_append]
    simp
  obtain ⟨tail, htail⟩ := h
  rw [htake, hvalid.units_eq, List.append_assoc] at htail
  obtain ⟨front, behind, rfl, hfront, hbehind⟩ := List.map_eq_append_iff.mp htail.symm
  obtain ⟨d, other, rfl, hd, -⟩ := List.map_eq_cons_iff.mp hbehind
  have hinjective : Function.Injective Char.toNat := fun _ _ => Char.toNat_inj.mp
  exact ⟨other, by rw [hunit d hd, hinjective.list_map hfront]⟩

end ExclusionAlgebra.Text
