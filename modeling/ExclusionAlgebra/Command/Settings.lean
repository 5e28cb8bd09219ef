import ExclusionAlgebra.Text.Blank

/-!
# Settings

Each setting comes from the command line if a flag gives it, else from the environment, else from its
default: tracing is off, remembering answers is on.

* `Flags`: what the command line says, where it says anything.
* `Environment.switch?`: a variable read as a switch.
* `Settings.resolve`: the settings in force.
-/

namespace ExclusionAlgebra

structure Flags where
  trace : Option Bool
  cache : Option Bool
deriving DecidableEq, Repr

def Flags.none : Flags := ⟨.none, .none⟩

abbrev Environment : Type := String → Option String

def switchWords : List (List Char) :=
  [['1'], ['t', 'r', 'u', 'e'], ['y', 'e', 's'], ['o', 'n']]

/-- Does the value switch on?  Case is ignored; only ASCII letters have a case that matters, since
the words hold no others. -/
def switchesOn (value : List Char) : Bool := switchWords.contains (value.map Char.toLower)

/-- A variable as a switch: none if it is not set or blank, else whether its value is one of the
words that switch on. -/
def Environment.switch? (environment : Environment) (name : String) : Option Bool :=
  match environment name with
  | none => none
  | some value =>
    match Text.trimBlank value.toList with
    | [] => none
    | trimmed => some (switchesOn trimmed)

structure Settings where
  trace : Bool
  cache : Bool
deriving DecidableEq, Repr

namespace Settings

def traceVariable : String := "EXCLUSIONS_TRACE"

def noCacheVariable : String := "EXCLUSIONS_NO_CACHE"

/-- The settings from flags, environment and defaults, in this order. -/
def resolve (flags : Flags) (environment : Environment) : Settings where
  trace := (flags.trace.or (environment.switch? traceVariable)).getD false
  cache := (flags.cache.or ((environment.switch? noCacheVariable).map not)).getD true

end Settings

end ExclusionAlgebra
