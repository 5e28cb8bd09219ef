import ExclusionAlgebra.Engine.Memo
import ExclusionAlgebra.Engine.Journal

/-!
# Engines

An engine answers requests to combine rules.  A request passes through layers, outermost first, down
to the base that combines the rules; a layer may answer by itself, and may look at the answer on its
way back.

* `Layer`: remembers answers, records them in the journal, or merely forwards.
* `Wiring`: what does not change: the base, the clock, and who receives the journal.
* `Engine.State`: what changes: the layers with their memos, and the journal.
* `Engine.serve`: one request.  A request that fails leaves behind what had changed until then.
-/

namespace ExclusionAlgebra

/-- A layer around the base.  All recording layers write to one journal; one that is not `kept`
draws its entries up without passing them on. -/
inductive Layer where
  | caching (memo : Memo)
  | logging (kept : Bool)
  | forwarding
deriving DecidableEq, Repr

abbrev Base : Type := Operation → List Rule → Except Fault Rule

/-- The base that keeps what it is given. -/
def Base.verbatim : Base := fun operation rules => .ok (.composite operation rules)

namespace Engine

structure Wiring where
  base : Base
  /-- What the clock shows when it is read for the `n`-th time, counting from zero. -/
  clock : Nat → String
  /-- The receiver of journal entries, which may refuse one. -/
  sink : LogEntry → Except SinkFault Unit

structure State where
  layers : List Layer
  journal : Journal
deriving DecidableEq, Repr

def acceptAll (_ : LogEntry) : Except SinkFault Unit := .ok ()

/-- Records an answered request: reads the clock, draws the entry up, and passes it on if the layer
keeps entries.  A request that cannot be written down still costs a reading. -/
def record (wiring : Wiring) (kept : Bool) (operation : Operation) (rules : List Rule)
    (result : Rule) (journal : Journal) : Except Fault Unit × Journal :=
  match LogEntry.draft (wiring.clock journal.readings) operation rules result with
  | .error fault => (.error fault, journal.tick)
  | .ok entry =>
    if kept then
      match wiring.sink entry with
      | .error fault => (.error (.sink fault), journal.tick)
      | .ok () => (.ok (), journal.tick.append entry)
    else (.ok (), journal.tick)

/-- Serves a request through the layers.  A memo is asked before anything below it, and takes an
answer in only if there is one. -/
def serve (wiring : Wiring) (operation : Operation) (rules : List Rule) :
    List Layer → Journal → Except Fault Rule × State
  | [], journal => (wiring.base operation rules, ⟨[], journal⟩)
  | .forwarding :: below, journal =>
    let (answer, state) := serve wiring operation rules below journal
    (answer, ⟨.forwarding :: state.layers, state.journal⟩)
  | .logging kept :: below, journal =>
    let (answer, state) := serve wiring operation rules below journal
    match answer with
    | .error fault => (.error fault, ⟨.logging kept :: state.layers, state.journal⟩)
    | .ok result =>
      let (recorded, journal) := record wiring kept operation rules result state.journal
      (recorded.map fun _ => result, ⟨.logging kept :: state.layers, journal⟩)
  | .caching memo :: below, journal =>
    match Memo.key operation rules with
    | .error fault => (.error fault, ⟨.caching memo :: below, journal⟩)
    | .ok key =>
      match memo.find? key with
      | some result => (.ok result, ⟨.caching memo :: below, journal⟩)
      | none =>
        let (answer, state) := serve wiring operation rules below journal
        match answer with
        | .error fault => (.error fault, ⟨.caching memo :: state.layers, state.journal⟩)
        | .ok result =>
          (.ok result, ⟨.caching (memo.insert key result) :: state.layers, state.journal⟩)

/-- What is done with an engine: it changes the state, and may fail without undoing that. -/
abbrev Action (α : Type) : Type := ExceptT Fault (StateM State) α

def request (wiring : Wiring) (operation : Operation) (rules : List Rule) : Action Rule :=
  fun state => serve wiring operation rules state.layers state.journal

def Layer.forget : Layer → Layer
  | .caching _ => .caching .empty
  | layer => layer

/-- How many answers each caching layer holds, outermost first. -/
def State.cacheSizes (state : State) : List Nat :=
  state.layers.filterMap fun
    | .caching memo => some memo.size
    | _ => none

def State.clearCaches (state : State) : State :=
  { state with layers := state.layers.map Layer.forget }

def State.clearJournal (state : State) : State := { state with journal := state.journal.clear }

end Engine

end ExclusionAlgebra
