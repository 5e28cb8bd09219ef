import ExclusionAlgebra.Fault

/-!
# The written form of rules

A pattern is written `group:module`, with `:artifact` or `:artifact@extension` behind it if it names
one; an open field is a star.  A composite is `any(...)` or `all(...)` around its components.

* `Rule.written`: the written form.  A foreign value has none; its description stands in its place.
* `Rule.format`: the written form of a rule without foreign values, a fault for any other.
-/

namespace ExclusionAlgebra

def Operation.keyword : Operation → List Char
  | .anyOf => ['a', 'n', 'y']
  | .allOf => ['a', 'l', 'l']

def writtenField : Option String → List Char
  | none => ['*']
  | some value => value.toList

def Artifact.written (artifact : Artifact) : List Char :=
  match artifact.extension with
  | none => artifact.name.toList
  | some extension => artifact.name.toList ++ '@' :: extension.toList

/-- A pattern.  Group and module are always written, the artifact only if it is concrete. -/
def Pattern.written (p : Pattern) : List Char :=
  writtenField p.group ++ ':' :: (writtenField p.module ++
    match p.artifact with
    | none => []
    | some artifact => ':' :: artifact.written)

namespace Rule

mutual

def written : Rule → List Char
  | .everything => ['e', 'v', 'e', 'r', 'y', 't', 'h', 'i', 'n', 'g']
  | .nothing => ['n', 'o', 't', 'h', 'i', 'n', 'g']
  | .pattern p => p.written
  | .composite operation components =>
    operation.keyword ++ '(' :: (writtenList components ++ [')'])
  | .foreign value => value.description.toList

def writtenList : List Rule → List Char
  | [] => []
  | [rule] => written rule
  | rule :: next :: rest => written rule ++ ',' :: ' ' :: writtenList (next :: rest)

end

/-- The written form of a rule without foreign values. -/
def format (rule : Rule) : Except Fault String := do
  rule.check
  pure (String.ofList rule.written)

end Rule

end ExclusionAlgebra
