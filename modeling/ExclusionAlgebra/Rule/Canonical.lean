import ExclusionAlgebra.Fault
import ExclusionAlgebra.Digest.Basic

/-!
# Canonical texts and digests of rules

Each rule has a canonical text, an object with its fields in alphabetic order.  A composite does not
spell its components out but lists their digests in ascending order, so the order in which they were
added leaves no trace while repeats do.  The digest of a rule is the digest of that text.

* `Rule.canonical`: the canonical text.
* `Rule.digest`: the digest.  On a rule that holds a foreign value it says nothing about that value.
* `Rule.hash`: the digest of a rule that holds no foreign value, a fault for any other.
-/

namespace ExclusionAlgebra

namespace Canonical

def commaJoined : List (List Char) → List Char
  | [] => []
  | [item] => item
  | item :: next :: rest => item ++ ',' :: commaJoined (next :: rest)

def field (name : String) (value : List Char) : List Char :=
  Text.quote name.toList ++ ':' :: value

def object (fields : List (List Char)) : List Char :=
  '\x7b' :: (commaJoined fields ++ ['\x7d'])

def array (items : List (List Char)) : List Char := '[' :: (commaJoined items ++ [']'])

def text : Option String → List Char
  | none => "null".toList
  | some value => Text.quote value.toList

def artifact : Option Artifact → List Char
  | none => "null".toList
  | some value =>
    object [field "extension" (text value.extension), field "name" (text (some value.name))]

/-- An object whose only field is its kind. -/
def kind (name : String) : List Char := object [field "kind" (text (some name))]

def pattern (p : Pattern) : List Char :=
  object [field "artifact" (artifact p.artifact), field "group" (text p.group),
    field "kind" (text (some "leaf")), field "module" (text p.module)]

/-- A composite of components with the given digests. -/
def composite (operation : Operation) (digests : List Digest) : List Char :=
  object [
    field "components" (array ((Digest.sort digests).map fun digest => text (some digest.hex))),
    field "kind" (text (some operation.name))]

end Canonical

namespace Rule

mutual

def canonical : Rule → List Char
  | .everything => Canonical.kind "everything"
  | .nothing => Canonical.kind "nothing"
  | .pattern p => Canonical.pattern p
  | .composite operation components => Canonical.composite operation (digests components)
  | .foreign _ => Canonical.text none

def digests : List Rule → List Digest
  | [] => []
  | rule :: rest => Digest.ofText (canonical rule) :: digests rest

end

def digest (rule : Rule) : Digest := Digest.ofText rule.canonical

/-- The digest of a rule without foreign values. -/
def hash (rule : Rule) : Except Fault Digest := do
  rule.check
  pure rule.digest

end Rule

end ExclusionAlgebra
