import ExclusionAlgebra.Rule.Canonical

/-!
# Memos

Answers that were given before, by operation and operands.  Operands count by their digests, in the
order of the request.

* `Memo.key`: the key of a request; a fault if an operand holds a foreign value.
* `Memo.find?`, `Memo.insert`: looking an answer up, and adding one.
-/

namespace ExclusionAlgebra

/-- What tells requests apart: the operation, and the digests of the operands in order. -/
structure Memo.Key where
  operation : Operation
  operands : List Digest
deriving DecidableEq, Repr

/-- The key of a request.  Operands are looked at from the left. -/
def Memo.key (operation : Operation) (rules : List Rule) : Except Fault Memo.Key := do
  let operands ← rules.mapM Rule.hash
  pure ⟨operation, operands⟩

/-- Answers by key, oldest first. -/
structure Memo where
  entries : List (Memo.Key × Rule)
deriving DecidableEq, Repr

namespace Memo

def empty : Memo := ⟨[]⟩

def size (memo : Memo) : Nat := memo.entries.length

def find? (memo : Memo) (key : Key) : Option Rule := memo.entries.lookup key

def insert (memo : Memo) (key : Key) (rule : Rule) : Memo := ⟨memo.entries ++ [(key, rule)]⟩

end Memo

end ExclusionAlgebra
