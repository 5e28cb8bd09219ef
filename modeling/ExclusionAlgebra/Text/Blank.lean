/-!
# Blanks

The characters that count as white space around the punctuation of a written rule and around the
value of a setting.  The set is wider than the blanks of ASCII: it holds the space separators of
Unicode, the two separators U+2028 and U+2029, and the byte order mark U+FEFF, but not U+0085.

* `isBlank`: membership, by the ranges of `blankRanges`.
* `skipBlank`, `trimBlank`: a text without its leading blanks, and without blanks on either side.
-/

namespace ExclusionAlgebra.Text

def blankRanges : List (Nat × Nat) :=
  [(0x09, 0x0D), (0x20, 0x20), (0xA0, 0xA0), (0x1680, 0x1680), (0x2000, 0x200A), (0x2028, 0x2029),
   (0x202F, 0x202F), (0x205F, 0x205F), (0x3000, 0x3000), (0xFEFF, 0xFEFF)]

/-- Does the character lie in one of the ranges? -/
def isBlank (c : Char) : Bool :=
  blankRanges.any fun range => range.1 ≤ c.toNat && c.toNat ≤ range.2

/-- The text from its first character that is no blank. -/
def skipBlank (text : List Char) : List Char := text.dropWhile isBlank

/-- The text without blanks at either end. -/
def trimBlank (text : List Char) : List Char := (skipBlank (skipBlank text).reverse).reverse

/-- Every blank lies in the basic plane, so it takes one 16-bit unit. -/
theorem toNat_lt_of_isBlank {c : Char} (h : isBlank c = true) : c.toNat < 0x10000 := by
  simp [isBlank, blankRanges] at h
  omega

end ExclusionAlgebra.Text
