import ExclusionAlgebra.Rule.Basic

/-!
# Terminal styles

Colours for output on a terminal.

* `Ink`: the colours in use, by name.
* `paint`: a text in a colour, if colours are wanted.  An empty text gets no colour codes.
* `resultInk`: singletons stand out from ordinary rules in what is printed.
-/

namespace ExclusionAlgebra

namespace Terminal

structure Colour where
  red : Nat
  green : Nat
  blue : Nat
deriving DecidableEq, Repr

inductive Ink where
  | blue
  | white
  | dim
  | muted
  | amber
  | red
deriving DecidableEq, Repr

def Ink.colour : Ink → Colour
  | .blue => ⟨0x4F, 0xC3, 0xF7⟩
  | .white => ⟨0xF2, 0xF2, 0xEC⟩
  | .dim => ⟨0x44, 0x44, 0x44⟩
  | .muted => ⟨0x66, 0x66, 0x66⟩
  | .amber => ⟨0xD4, 0x88, 0x0A⟩
  | .red => ⟨0xCF, 0x66, 0x79⟩

/-- The code that switches the foreground to a colour. -/
def Colour.code (colour : Colour) : String :=
  "\x1b[38;2;" ++ toString colour.red ++ ";" ++ toString colour.green ++ ";" ++
    toString colour.blue ++ "m"

def resetCode : String := "\x1b[39m"

def paint (coloured : Bool) (ink : Ink) (text : String) : String :=
  if coloured && text != "" then ink.colour.code ++ text ++ resetCode else text

/-- The colour of an operation in traces, by its name. -/
def operationInk (name : String) : Ink :=
  if name = Operation.anyOf.name then .blue
  else if name = Operation.allOf.name then .amber
  else .muted

/-- The colour of a printed rule. -/
def resultInk (text : String) : Ink :=
  if text = "nothing" then .muted else if text = "everything" then .red else .white

end Terminal

end ExclusionAlgebra
