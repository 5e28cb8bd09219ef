import ExclusionAlgebra.Rule.Foreign

/-!
# Exclusion rules

A rule says which coordinates (group, module, artifact) a dependency resolution leaves out.

* `Pattern`: a group, a module and an artifact, each either concrete or open.
* `Operation`: the two ways to combine rules; they are dual to each other.
* `Rule`: everything, nothing, a pattern, or a composite of rules.  A composite keeps its components
  as they were given, with repeats and in order, and may have none.
* `Rule.firstForeign?`: the first foreign value inside a rule, from the left.
-/

namespace ExclusionAlgebra

/-- An artifact of a module.  No extension is a value of its own: `a` and `a@jar` differ. -/
structure Artifact where
  name : String
  extension : Option String
deriving DecidableEq, Repr

/-- The coordinates that agree with every concrete field; an open field admits any value. -/
structure Pattern where
  group : Option String
  module : Option String
  artifact : Option Artifact
deriving DecidableEq, Repr

inductive Operation where
  | anyOf
  | allOf
deriving DecidableEq, Repr

def Operation.dual : Operation → Operation
  | .anyOf => .allOf
  | .allOf => .anyOf

/-- The name of the operation, as journals and canonical texts write it. -/
def Operation.name : Operation → String
  | .anyOf => "anyOf"
  | .allOf => "allOf"

/-- An exclusion rule.  The last constructor stands for what was handed in as a rule and is none. -/
inductive Rule where
  | everything
  | nothing
  | pattern (pattern : Pattern)
  | composite (operation : Operation) (components : List Rule)
  | foreign (value : Foreign)
deriving Repr, Inhabited

namespace Rule

def isComposite : Rule → Bool
  | .composite _ _ => true
  | _ => false

mutual

/-- The first foreign value inside the rule, from the left. -/
def firstForeign? : Rule → Option Foreign
  | .everything => none
  | .nothing => none
  | .pattern _ => none
  | .composite _ components => firstForeignIn? components
  | .foreign value => some value

def firstForeignIn? : List Rule → Option Foreign
  | [] => none
  | rule :: rest => (firstForeign? rule).or (firstForeignIn? rest)

end

/-! ## Decidable identity -/

mutual

/-- Decides whether two rules are built in exactly the same way, order of components included. -/
def decEq : (a b : Rule) → Decidable (a = b)
  | .everything, .everything => isTrue rfl
  | .nothing, .nothing => isTrue rfl
  | .pattern p, .pattern q =>
    if h : p = q then isTrue (h ▸ rfl) else isFalse fun e => h (Rule.pattern.inj e)
  | .composite f cs, .composite g ds =>
    if h : f = g then
      match decEqList cs ds with
      | isTrue hs => isTrue (h ▸ hs ▸ rfl)
      | isFalse hs => isFalse fun e => hs (Rule.composite.inj e).2
    else isFalse fun e => h (Rule.composite.inj e).1
  | .foreign v, .foreign w =>
    if h : v = w then isTrue (h ▸ rfl) else isFalse fun e => h (Rule.foreign.inj e)
  | .everything, .nothing | .everything, .pattern _ | .everything, .composite _ _
  | .everything, .foreign _ | .nothing, .everything | .nothing, .pattern _
  | .nothing, .composite _ _ | .nothing, .foreign _ | .pattern _, .everything
  | .pattern _, .nothing | .pattern _, .composite _ _ | .pattern _, .foreign _
  | .composite _ _, .everything | .composite _ _, .nothing | .composite _ _, .pattern _
  | .composite _ _, .foreign _ | .foreign _, .everything | .foreign _, .nothing
  | .foreign _, .pattern _ | .foreign _, .composite _ _ => isFalse fun e => nomatch e

def decEqList : (cs ds : List Rule) → Decidable (cs = ds)
  | [], [] => isTrue rfl
  | [], _ :: _ => isFalse fun e => nomatch e
  | _ :: _, [] => isFalse fun e => nomatch e
  | c :: cs, d :: ds =>
    match decEq c d with
    | isTrue h =>
      match decEqList cs ds with
      | isTrue hs => isTrue (h ▸ hs ▸ rfl)
      | isFalse hs => isFalse fun e => hs (List.cons.inj e).2
    | isFalse h => isFalse fun e => h (List.cons.inj e).1

end

instance : DecidableEq Rule := decEq

end Rule

end ExclusionAlgebra
