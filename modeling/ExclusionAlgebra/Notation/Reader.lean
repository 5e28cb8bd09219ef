import ExclusionAlgebra.Notation.Written
import ExclusionAlgebra.Rule.Factory
import ExclusionAlgebra.Text.Blank

/-!
# Reading rules

The reader for the written form.  `everything` and `nothing` are words, `any` and `all` open a list
in parentheses, and anything else is a pattern: a group, then a module, then an artifact, separated
by colons, where what is left out at the end is open.  Blanks may stand around the punctuation of
composites but not inside a pattern.  A word is only special where it is followed by what makes it
so: `any` by an opening parenthesis, `everything` by no colon.

* `Reader.pattern`, `Reader.atom`: what contains no other rule.
* `Reader.rule`, `Reader.items`: composites, over any factory.  The factory is asked for a rule when
  its text has been read, for a composite at the closing parenthesis, so innermost and leftmost rules
  come first.
* `Rule.readBy`: a whole text, with a given factory.
* `Rule.readWith`, `Rule.read`: with a given way to build composites, or with composites kept as they
  are written.

All characters that the reader passes are names, punctuation or blanks, each of which is one 16-bit
unit, so a position is the number of characters passed.
-/

namespace ExclusionAlgebra

namespace Reader

/-- Where reading failed: what was missed, and the text from there on. -/
structure Failure where
  cause : SyntaxError.Cause
  rest : List Char
deriving DecidableEq, Repr

def isNameChar (c : Char) : Bool :=
  c.isAlphanum || c = '_' || c = '.' || c = '+' || c = '-'

def splitName (text : List Char) : List Char × List Char :=
  (text.takeWhile isNameChar, text.dropWhile isNameChar)

/-! ## Patterns -/

def name (missing : SyntaxError.Cause) (text : List Char) :
    Except Failure (String × List Char) :=
  match splitName text with
  | ([], _) => .error ⟨missing, text⟩
  | (chars, rest) => .ok (String.ofList chars, rest)

def field (missing : SyntaxError.Cause) : List Char → Except Failure (Option String × List Char)
  | '*' :: rest => .ok (none, rest)
  | text => do
    let (value, rest) ← name missing text
    pure (some value, rest)

def artifact : List Char → Except Failure (Option Artifact × List Char)
  | '*' :: rest => .ok (none, rest)
  | text => do
    let (value, rest) ← name .artifact text
    match rest with
    | '@' :: rest => do
      let (extension, rest) ← name .extension rest
      pure (some ⟨value, some extension⟩, rest)
    | rest => pure (some ⟨value, none⟩, rest)

/-- A pattern: a group, and perhaps a module, and perhaps an artifact. -/
def pattern (text : List Char) : Except Failure (Pattern × List Char) := do
  let (group, rest) ← field .group text
  match rest with
  | ':' :: rest => do
    let (module, rest) ← field .module rest
    match rest with
    | ':' :: rest => do
      let (artifact, rest) ← artifact rest
      pure (⟨group, module, artifact⟩, rest)
    | rest => pure (⟨group, module, none⟩, rest)
  | rest => pure (⟨group, none, none⟩, rest)

/-- A rule without components.  A word before a colon is a group of that name. -/
def atom (text : List Char) : Except Failure (Rule × List Char) :=
  let (word, rest) := splitName text
  let rest := Text.skipBlank rest
  if word = Rule.everything.written ∧ rest.head? ≠ some ':' then .ok (.everything, rest)
  else if word = Rule.nothing.written ∧ rest.head? ≠ some ':' then .ok (.nothing, rest)
  else do
    let (pattern, rest) ← pattern text
    pure (.pattern pattern, rest)

/-! ## Composites -/

/-- The operation whose word and opening parenthesis stand at the front, and the text inside. -/
def opening? (text : List Char) : Option (Operation × List Char) :=
  let (word, rest) := splitName text
  match Text.skipBlank rest with
  | '(' :: inside =>
    if word = Operation.anyOf.keyword then some (.anyOf, inside)
    else if word = Operation.allOf.keyword then some (.allOf, inside)
    else none
  | _ => none

section

variable {m : Type → Type} [Monad m] (factory : Factory m)

mutual

def rule : Nat → List Char → ExceptT Failure m (Rule × List Char)
  | 0, text => throw ⟨.group, text⟩
  | fuel + 1, text =>
    match opening? (Text.skipBlank text) with
    | some (operation, inside) => do
      let (components, rest) ← items fuel inside
      let composite ← ExceptT.lift (factory.combine operation components)
      pure (composite, rest)
    | none => do
      let (value, rest) ← ExceptT.mk (pure (atom (Text.skipBlank text)))
      let made ← ExceptT.lift (factory.atom value)
      pure (made, rest)

def items : Nat → List Char → ExceptT Failure m (List Rule × List Char)
  | 0, text => throw ⟨.group, text⟩
  | fuel + 1, text => do
    let (first, rest) ← rule fuel text
    match Text.skipBlank rest with
    | ',' :: rest => do
      let (others, rest) ← items fuel rest
      pure (first :: others, rest)
    | ')' :: rest => pure ([first], rest)
    | rest => throw ⟨.separator, rest⟩

end

def document (fuel : Nat) (text : List Char) : ExceptT Failure m Rule := do
  let (value, rest) ← rule factory fuel text
  match Text.skipBlank rest with
  | [] => pure value
  | found :: rest => throw ⟨.unexpected found, found :: rest⟩

end

/-- The error that a failure in a text amounts to: the characters before it are those passed. -/
def Failure.toSyntaxError (text : List Char) (failure : Failure) : SyntaxError :=
  ⟨text.length - failure.rest.length, failure.cause⟩

end Reader

namespace Rule

/-- Reads a text, asking the factory for each rule in it.  Every nested call passes a character first
or is the first of an `items`, so two more calls than characters suffice. -/
def readBy {m : Type → Type} [Monad m] (factory : Factory m) (source : String) :
    m (Except SyntaxError Rule) := do
  let text := source.toList
  let outcome ← (Reader.document factory (text.length + 2) text).run
  pure (outcome.mapError (Reader.Failure.toSyntaxError text))

/-- Reads a text, building each composite with `build`. -/
def readWith {m : Type → Type} [Monad m] (build : Operation → List Rule → m Rule)
    (source : String) : m (Except SyntaxError Rule) :=
  readBy (.ofCombine build) source

/-- Reads a text, keeping composites as they are written. -/
def read (source : String) : Except SyntaxError Rule := Id.run (readBy .verbatim source)

end Rule

end ExclusionAlgebra
