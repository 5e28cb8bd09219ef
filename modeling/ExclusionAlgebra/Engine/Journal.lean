import ExclusionAlgebra.Notation.Written
import ExclusionAlgebra.Rule.Canonical

/-!
# Journals

The record of the requests that were answered.

* `LogEntry`: a request and its answer, in the written form.
* `LogEntry.draft`: the entry for a request; a fault if a rule in it holds a foreign value.
* `Journal`: the entries, oldest first, and how often the clock has been read.
-/

namespace ExclusionAlgebra

/-- A request that was answered: when, which operation, on what, and the answer with its digest. -/
structure LogEntry where
  timestamp : String
  operation : Operation
  operands : List String
  result : String
  digest : Digest
deriving DecidableEq, Repr

/-- Writes an entry down: the operands from the left, the result, then its digest. -/
def LogEntry.draft (timestamp : String) (operation : Operation) (rules : List Rule)
    (result : Rule) : Except Fault LogEntry := do
  let operands ← rules.mapM Rule.format
  let written ← result.format
  let digest ← result.hash
  pure ⟨timestamp, operation, operands, written, digest⟩

structure Journal where
  entries : List LogEntry
  readings : Nat
deriving DecidableEq, Repr

namespace Journal

def empty : Journal := ⟨[], 0⟩

def tick (journal : Journal) : Journal := { journal with readings := journal.readings + 1 }

def append (journal : Journal) (entry : LogEntry) : Journal :=
  { journal with entries := journal.entries ++ [entry] }

/-- Without its entries; the clock stays as often read as it was. -/
def clear (journal : Journal) : Journal := { journal with entries := [] }

end Journal

end ExclusionAlgebra
