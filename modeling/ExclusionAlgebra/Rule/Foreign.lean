import ExclusionAlgebra.Text.Number

/-!
# Foreign values

What stands where a rule is expected and is none: a value whose kind can be asked for, and is one that
no rule has.  No operation takes a foreign value apart; it can only be told from others and named in a
message.

* `Shape`, `Shape.description`: the shape of any value whatever, and the word that messages use.
* `Shape.isForeign`: the shapes of foreign values.
* `Foreign`: such a shape, and an identity that tells two values of one shape apart.
-/

namespace ExclusionAlgebra

inductive Kind where
  | null
  | truth (value : Bool)
  | number (value : Text.Number)
  | text (value : String)
  /-- A list or another object in the place of a kind, by the text that it stands for in messages. -/
  | object (name : String)
deriving DecidableEq, Repr, Inhabited

/-- The kind as messages name it. -/
def Kind.description : Kind → String
  | .null => "null"
  | .truth true => "true"
  | .truth false => "false"
  | .number value => String.ofList value.text
  | .text value => value
  | .object name => name

namespace Kind

/-- An item of a list that stands as a kind; a null leaves its place empty. -/
def itemDescription : Kind → String
  | .null => ""
  | kind => kind.description

/-- A list in the place of a kind is named by its items, with commas between them. -/
def ofList (items : List Kind) : Kind :=
  .object (String.intercalate "," (items.map itemDescription))

/-- An object in the place of a kind has no name of its own. -/
def ofObject : Kind := .object "[object Object]"

end Kind

inductive Shape where
  | absent
  | null
  | truth
  | number
  | text
  | object (kind : Option Kind)
deriving DecidableEq, Repr

/-- The shape as messages name it: an object with a kind by its kind, all else by the sort of
value. -/
def Shape.description : Shape → String
  | .absent => "undefined"
  | .null => "null"
  | .truth => "boolean"
  | .number => "number"
  | .text => "string"
  | .object none => "object"
  | .object (some kind) => kind.description

/-- The kinds that rules have. -/
def ruleKinds : List String := ["everything", "nothing", "leaf", "anyOf", "allOf"]

/-- Can a value of the shape be asked for its kind, and is that no kind of a rule?  Nothing can be asked
of null or of a value that is absent, so that these two never get as far as an operation. -/
def Shape.isForeign : Shape → Bool
  | .absent | .null => false
  | .object (some (.text kind)) => !ruleKinds.contains kind
  | _ => true

/-- A value that is no rule.  Two values are the same only if their identities agree; each object has an
identity of its own, and values that are no objects share one if they are equal. -/
structure Foreign where
  shape : Shape
  identity : Nat
  outside : shape.isForeign = true
deriving DecidableEq, Repr

/-- An object without a kind. -/
def Foreign.kindless (identity : Nat) : Foreign := ⟨.object none, identity, rfl⟩

/-- The value as messages name it. -/
def Foreign.description (value : Foreign) : String := value.shape.description

end ExclusionAlgebra
