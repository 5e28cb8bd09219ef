import Mathlib.Data.List.Sort
import ExclusionAlgebra.Digest.Basic

/-!
# The order of digests

Digests are ordered linearly by their digits, so sorting a list of digests forgets the order of the
list and nothing else (`Digest.sort_eq_sort_iff`).
-/

namespace ExclusionAlgebra

namespace Digest

theorem le_iff {a b : Digest} : a.le b = true ↔ a.hex ≤ b.hex := by
  rw [le, Bool.not_eq_true', decide_eq_false_iff_not, String.not_lt]

theorem le_refl (a : Digest) : a.le a = true := le_iff.mpr (String.le_refl _)

theorem le_trans {a b c : Digest} (hab : a.le b = true) (hbc : b.le c = true) : a.le c = true :=
  le_iff.mpr (String.le_trans (le_iff.mp hab) (le_iff.mp hbc))

theorem le_antisymm {a b : Digest} (hab : a.le b = true) (hba : b.le a = true) : a = b := by
  have hhex : a.hex = b.hex := String.le_antisymm (le_iff.mp hab) (le_iff.mp hba)
  cases a
  cases b
  cases hhex
  rfl

theorem le_of_le_eq_false {a b : Digest} (h : a.le b = false) : b.le a = true := by
  rw [le, Bool.not_eq_false', decide_eq_true_eq] at h
  have hle : b.hex ≤ a.hex := String.not_lt.mp (String.lt_asymm h)
  exact le_iff.mpr hle

/-! ## Sorting -/

/-- The relation by which digests are sorted. -/
def Below (a b : Digest) : Prop := a.le b = true

instance : DecidableRel Below := fun a b => inferInstanceAs (Decidable (a.le b = true))

instance : IsTrans Digest Below := ⟨fun _ _ _ => le_trans⟩

instance : Std.Antisymm Below := ⟨fun _ _ => le_antisymm⟩

instance : Std.Total Below := ⟨fun a b => by
  cases hab : a.le b with
  | true => exact Or.inl hab
  | false => exact Or.inr (le_of_le_eq_false hab)⟩

theorem insert_eq_orderedInsert (d : Digest) (digests : List Digest) :
    insert d digests = digests.orderedInsert Below d := by
  induction digests with
  | nil => rfl
  | cons e rest ih =>
    rw [insert, List.orderedInsert_cons, ih]
    rfl

theorem sort_eq_insertionSort (digests : List Digest) :
    sort digests = digests.insertionSort Below := by
  induction digests with
  | nil => rfl
  | cons d rest ih =>
    rw [List.insertionSort_cons, ← ih, ← insert_eq_orderedInsert]
    rfl

theorem sort_perm (digests : List Digest) : (sort digests).Perm digests := by
  rw [sort_eq_insertionSort]
  exact List.perm_insertionSort Below digests

/-- Two lists are sorted to the same list exactly when they differ in their order only. -/
theorem sort_eq_sort_iff {as bs : List Digest} : sort as = sort bs ↔ as.Perm bs := by
  constructor
  · intro h
    exact (sort_perm as).symm.trans (h ▸ sort_perm bs)
  · intro h
    have hperm : (sort as).Perm (sort bs) := ((sort_perm as).trans h).trans (sort_perm bs).symm
    rw [sort_eq_insertionSort, sort_eq_insertionSort] at hperm ⊢
    exact hperm.eq_of_pairwise' (List.pairwise_insertionSort Below as)
      (List.pairwise_insertionSort Below bs)

end Digest

end ExclusionAlgebra
