import ExclusionAlgebra.Digest.Basic

/-!
# The digits of digests

A digest is written in sixty-four hexadecimal digits, and in nothing else (`Digest.hex_ofText`).
-/

namespace ExclusionAlgebra

namespace Digest

def hexDigits : List Char :=
  ['0', '1', '2', '3', '4', '5', '6', '7', '8', '9', 'a', 'b', 'c', 'd', 'e', 'f']

theorem hexDigit_mem (w : UInt32) : hexDigit w ∈ hexDigits := by
  have hdigits : ∀ n < 16, Nat.digitChar n ∈ hexDigits := by decide
  have hle : (w &&& 0xF).toNat ≤ 0xF := by
    rw [UInt32.toNat_and]
    exact Nat.and_le_right
  apply hdigits
  omega

theorem hexWords_mem (ws : List UInt32) : ∀ c ∈ hexWords ws, c ∈ hexDigits := by
  induction ws with
  | nil => exact List.forall_mem_nil _
  | cons w rest ih => simpa [hexWords, hexDigit_mem] using ih

theorem length_hexWords (ws : List UInt32) : (hexWords ws).length = 8 * ws.length := by
  induction ws with
  | nil => rfl
  | cons w rest ih =>
    simp only [hexWords, List.length_cons, ih]
    omega

theorem hex_ofText (text : List Char) :
    (ofText text).hex.toList.length = 64 ∧ ∀ c ∈ (ofText text).hex.toList, c ∈ hexDigits := by
  have hwords : (Sha256.hash (utf8 text)).length = 8 := rfl
  rw [ofText, String.toList_ofList, length_hexWords, hwords]
  exact ⟨rfl, hexWords_mem _⟩

end Digest

end ExclusionAlgebra
