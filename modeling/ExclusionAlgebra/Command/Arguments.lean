import ExclusionAlgebra.Command.Settings
import ExclusionAlgebra.Rule.Basic

/-!
# Command lines

What the arguments of the program ask for.  Options and other arguments mix freely, the last of
contradicting options wins, and behind `--` everything is an argument.  The arguments are gone
through twice: for the program's own options, which stops at nothing else, and then, from the first
unknown option on, for the options of the command.

* `Invocation`: what is asked for.
* `UsageError`: why the arguments ask for nothing, with its wording.
* `Invocation.ofArguments`: the invocation of a command line.
-/

namespace ExclusionAlgebra

inductive Invocation where
  | version
  | combine (operation : Operation) (flags : Flags) (rules : List String)
  | format (flags : Flags) (rule : String)
deriving DecidableEq, Repr

inductive UsageError where
  | unknownOption (option : String)
  | missingArgument (name : String)
  | unknownCommand (name : String)
  | noCommand
deriving DecidableEq, Repr

def UsageError.message : UsageError → String
  | .unknownOption option => "error: unknown option '" ++ option ++ "'"
  | .missingArgument name => "error: missing required argument '" ++ name ++ "'"
  | .unknownCommand name => "error: unknown command '" ++ name ++ "'"
  | .noCommand => "error: missing command, expected 'union', 'intersect' or 'format'"

/-! ## Telling options from operands -/

structure Scan (α : Type) where
  options : List α
  /-- The arguments before the first unknown option, and those behind `--` if there is none. -/
  operands : List String
  /-- The first unknown option and all that follows it, recognised options apart. -/
  unknown : List String
deriving DecidableEq, Repr

def isOption (argument : String) : Bool :=
  match argument.toList with
  | '-' :: _ :: _ => true
  | _ => false

/-- Goes through arguments.  `diverted` says that an unknown option has been met. -/
def scan {α : Type} (recognise : String → Option α) : Bool → List String → Scan α
  | _, [] => ⟨[], [], []⟩
  | diverted, argument :: rest =>
    if argument = "--" then
      if diverted then ⟨[], [], argument :: rest⟩ else ⟨[], rest, []⟩
    else
      match recognise argument with
      | some option =>
        let found := scan recognise diverted rest
        { found with options := option :: found.options }
      | none =>
        if diverted || isOption argument then
          let found := scan recognise true rest
          { found with unknown := argument :: found.unknown }
        else
          let found := scan recognise false rest
          { found with operands := argument :: found.operands }

/-! ## The program and its commands -/

/-- The program's own option asks for its version: `--version`, or `-V`, to which further letters may
be attached. -/
def versionOption (argument : String) : Option Unit :=
  match argument.toList with
  | '-' :: 'V' :: _ => some ()
  | _ => if argument = "--version" then some () else none

abbrev FlagOption : Type := Flags → Flags

def traceOption : String → Option FlagOption
  | "--trace" => some fun flags => { flags with trace := some true }
  | "--no-trace" => some fun flags => { flags with trace := some false }
  | _ => none

def combineOption : String → Option FlagOption
  | "--cache" => some fun flags => { flags with cache := some true }
  | "--no-cache" => some fun flags => { flags with cache := some false }
  | argument => traceOption argument

/-- The flags that a list of options amounts to; later options win. -/
def Flags.ofOptions (options : List FlagOption) : Flags :=
  options.foldl (fun flags option => option flags) Flags.none

/-- The flags and operands of a command, given its operands so far and what is still to be gone
through. -/
def commandArguments (recognise : String → Option FlagOption) (operands pending : List String) :
    Except UsageError (Flags × List String) :=
  let found := scan recognise false pending
  match found.unknown with
  | option :: _ => .error (.unknownOption option)
  | [] => .ok (Flags.ofOptions found.options, operands ++ found.operands)

/-- A command that combines its operands, of which it wants at least one. -/
def combineCommand (operation : Operation) (operands pending : List String) :
    Except UsageError Invocation := do
  let (flags, rules) ← commandArguments combineOption operands pending
  match rules with
  | [] => .error (.missingArgument "rules")
  | rules => .ok (.combine operation flags rules)

/-- The command that prints its first operand; further ones are ignored. -/
def formatCommand (operands pending : List String) : Except UsageError Invocation := do
  let (flags, rules) ← commandArguments traceOption operands pending
  match rules with
  | [] => .error (.missingArgument "rule")
  | rule :: _ => .ok (.format flags rule)

def Invocation.ofArguments (arguments : List String) : Except UsageError Invocation :=
  let found := scan versionOption false arguments
  if !found.options.isEmpty then .ok .version
  else
    match found.operands, found.unknown with
    | "union" :: operands, pending => combineCommand .anyOf operands pending
    | "intersect" :: operands, pending => combineCommand .allOf operands pending
    | "format" :: operands, pending => formatCommand operands pending
    | command :: _, _ => .error (.unknownCommand command)
    | [], option :: _ => .error (.unknownOption option)
    | [], [] => .error .noCommand

end ExclusionAlgebra
