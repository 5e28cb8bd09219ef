import ExclusionAlgebra.Session
import ExclusionAlgebra.Proofs.Notation.Reading
import ExclusionAlgebra.Proofs.Rule.Fingerprint

/-!
# The requests of a session

A stack without layers hands every request to the base and keeps nothing, so what a session asks of
it can be read off the steps and the answers.

* `Request`, `Request.Variant`: a request, and one whose operands differ in the order of components.
* `Memo.key_of_known`, `variant_of_key_eq`: the key of a request, and what requests with one key have
  in common.
* `Rule.requests`: the requests that building a rule again comes to.
* `Session.requests`: the requests that the steps of a session come to on a stack without layers.
* `Session.run_plain`: such a stack stays as it is.
* `Session.runFrom_append`: a session in two parts.
-/

namespace ExclusionAlgebra

/-- What an engine is asked: to combine rules by an operation. -/
structure Request where
  operation : Operation
  operands : List Rule

namespace Request

def answer (base : Base) (request : Request) : Except Fault Rule :=
  base request.operation request.operands

def Known (request : Request) : Prop := ∀ x ∈ request.operands, x.Known

def Mentions (request : Request) (node : Rule) : Prop := ∃ x ∈ request.operands, node ∈ x.nodes

/-- The key under which a memo holds the answer. -/
def key (request : Request) : Memo.Key := ⟨request.operation, request.operands.map Rule.digest⟩

/-- The same operation on operands that are alike, one by one. -/
structure Variant (r s : Request) : Prop where
  operation : r.operation = s.operation
  operands : List.Forall₂ Rule.Alike r.operands s.operands

namespace Variant

theorem refl (r : Request) : Variant r r :=
  ⟨rfl, List.forall₂_same.mpr fun x _ => Rule.Alike.refl x⟩

theorem symm {r s : Request} (h : Variant r s) : Variant s r :=
  ⟨h.operation.symm, Rule.forall₂_alike_symm h.operands⟩

theorem trans {r s t : Request} (hrs : Variant r s) (hst : Variant s t) : Variant r t :=
  ⟨hrs.operation.trans hst.operation, Rule.forall₂_alike_trans hrs.operands hst.operands⟩

theorem known {r s : Request} (h : Variant r s) (hr : r.Known) : s.Known :=
  Rule.known_of_forall₂ h.operands hr

theorem key_eq {r s : Request} (h : Variant r s) : r.key = s.key := by
  rw [key, key, h.operation, Rule.map_digest_eq h.operands]

theorem exists_mentions {r s : Request} (h : Variant r s) {node : Rule} (hnode : s.Mentions node) :
    ∃ other, r.Mentions other ∧ Rule.Alike other node := by
  obtain ⟨y, hy, hnode⟩ := hnode
  obtain ⟨x, hx, hxy⟩ := Rule.exists_alike_of_mem h.operands hy
  obtain ⟨other, hother, halike⟩ := hxy.exists_mem_nodes hnode
  exact ⟨other, ⟨x, hx, hother⟩, halike⟩

end Variant

/-- What the base answers to variants of the request does not depend on the order of components, up
to that order. -/
def OrderBlind (base : Base) (request : Request) : Prop :=
  ∀ r s, Variant request r → Variant request s →
    ∀ a b, r.answer base = .ok a → s.answer base = .ok b → Rule.Alike a b

end Request

/-! ## Keys -/

open Rule

namespace Memo

theorem key_of_known {r : Request} (h : r.Known) :
    Memo.key r.operation r.operands = .ok r.key := by
  have hpairs : List.Forall₂ (fun x d => x.hash = .ok d) r.operands (r.operands.map digest) := by
    rw [List.forall₂_map_right_iff, List.forall₂_same]
    exact fun x hx => hash_eq_ok (h x hx)
  exact bind_eq_ok.mpr ⟨_, mapM_eq_ok.mpr hpairs, rfl⟩

theorem known_of_key {r : Request} {key : Key} (h : Memo.key r.operation r.operands = .ok key) :
    r.Known ∧ key = r.key := by
  have hknown : r.Known := by
    intro x hx
    obtain ⟨digests, hdigests, -⟩ := bind_eq_ok.mp h
    obtain ⟨d, hd⟩ := exists_of_mapM hdigests hx
    exact (known_of_hash hd).1
  exact ⟨hknown, Except.ok.inj (h.symm.trans (key_of_known hknown))⟩

theorem mem_of_find? {memo : Memo} {key : Key} {rule : Rule} (h : memo.find? key = some rule) :
    (key, rule) ∈ memo.entries := by
  obtain ⟨l₁, l₂, hentries, -⟩ := List.lookup_eq_some_iff.mp h
  rw [hentries]
  simp

end Memo

/-- Where digests do not collide, requests with one key are variants of each other. -/
theorem variant_of_key_eq {requests : Request → Prop}
    (h : Collisionless fun node => ∃ r, requests r ∧ r.Mentions node) {r s : Request}
    (hr : requests r) (hs : requests s) (hknown : r.Known) (hkey : r.key = s.key) :
    r.Variant s := by
  obtain ⟨hoperation, hdigests⟩ := Memo.Key.mk.inj hkey
  refine ⟨hoperation, ?_⟩
  have hmentioned : ∀ x ∈ r.operands, ∀ y ∈ s.operands, x.digest = y.digest → Alike x y := by
    intro x hx y hy hxy
    exact alike_of_digest_eq h (hknown x hx) (fun node hnode => ⟨r, hr, x, hx, hnode⟩)
      (fun node hnode => ⟨s, hs, y, hy, hnode⟩) hxy
  clear hkey hoperation hknown
  revert hdigests hmentioned
  generalize r.operands = xs, s.operands = ys
  intro hdigests hmentioned
  induction xs generalizing ys with
  | nil =>
    cases ys with
    | nil => exact .nil
    | cons y ys => cases hdigests
  | cons x xs ih =>
    cases ys with
    | nil => cases hdigests
    | cons y ys =>
      obtain ⟨hxy, hrest⟩ := List.cons.inj hdigests
      refine .cons (hmentioned x List.mem_cons_self y List.mem_cons_self hxy) (ih ys hrest ?_)
      intro x' hx' y' hy'
      exact hmentioned x' (List.mem_cons_of_mem _ hx') y' (List.mem_cons_of_mem _ hy')

/-! ## The requests that building comes to -/

namespace Rule

variable (base : Base)

mutual

/-- The requests to the base that building the rule again comes to, in order. -/
def requests : Rule → List Request
  | .composite operation components =>
    requestsEach components ++
      match rebuildEach base components with
      | .ok operands => [⟨operation, operands⟩]
      | .error _ => []
  | _ => []

def requestsEach : List Rule → List Request
  | [] => []
  | rule :: rest => requests rule ++ requestsEach rest

end

end Rule

namespace Session

/-- The requests that a step comes to on a stack without layers. -/
def Step.requests (base : Base) (answers : List (Option Rule)) : Step → List Request
  | .combine operation operands =>
    match Term.resolveList answers operands with
    | .ok rules => [⟨operation, rules⟩]
    | .error _ => []
  | .parse source =>
    match Rule.read source with
    | .ok tree => tree.requests base
    | .error _ => []
  | _ => []

def requestsFrom (wiring : Engine.Wiring) (answers : List (Option Rule)) : List Step → List Request
  | [] => []
  | step :: rest =>
    let answer := (step.run wiring answers (.initial [])).1
    step.requests wiring.base answers ++ requestsFrom wiring (answers ++ [answer.rule?]) rest

/-- The requests that a session comes to on a stack without layers. -/
def requests (wiring : Engine.Wiring) (steps : List Step) : List Request :=
  requestsFrom wiring [] steps

end Session

/-! ## Actions -/

namespace Engine

variable {α β : Type} {wiring : Wiring}

/-- Sequencing in terms of the states, whatever they are. -/
theorem bind_apply {σ : Type} (x : ExceptT Fault (StateM σ) α) (f : α → ExceptT Fault (StateM σ) β)
    (s : σ) :
    (x >>= f) s = match x s with
      | (.ok a, t) => f a t
      | (.error fault, t) => (.error fault, t) := by
  simp only [bind, ExceptT.bind, ExceptT.mk, StateT.bind, ExceptT.bindCont]
  rcases x s with ⟨fault | a, t⟩ <;> rfl

theorem bind_apply_eq_ok {x : Action α} {f : α → Action β} {s u : State} {b : β} :
    (x >>= f) s = (.ok b, u) ↔ ∃ a t, x s = (.ok a, t) ∧ f a t = (.ok b, u) := by
  rw [bind_apply]
  rcases x s with ⟨fault | a, t⟩
  · constructor
    · intro h
      cases h
    · rintro ⟨a, t, hx, -⟩
      cases hx
  · constructor
    · intro h
      exact ⟨a, t, rfl, h⟩
    · rintro ⟨a, t, hx, h⟩
      cases hx
      exact h

/-- Reading a valid text is building again what it says. -/
theorem read_apply_of_read {source : String} {tree : Rule} (h : Rule.read source = .ok tree)
    (s : State) : read wiring source s =
      (((tree.rebuild (request wiring)) s).1.map .ok, ((tree.rebuild (request wiring)) s).2) := by
  unfold read
  rw [Rule.readWith_of_read _ h, map_eq_pure_bind, bind_apply]
  rcases (tree.rebuild (request wiring)) s with ⟨fault | a, t⟩
  · rfl
  · rfl

/-! ## The stack without layers -/

theorem request_plain (operation : Operation) (rules : List Rule) :
    request wiring operation rules (.initial []) = (wiring.base operation rules, .initial []) := rfl

theorem rebuildEach_plain_of {trees : List Rule}
    (h : ∀ tree ∈ trees, (tree.rebuild (request wiring)) (.initial []) =
      (tree.rebuild wiring.base, .initial [])) :
    (Rule.rebuildEach (request wiring) trees) (.initial []) =
      (Rule.rebuildEach wiring.base trees, .initial []) := by
  induction trees with
  | nil => rfl
  | cons tree rest ih =>
    rw [List.forall_mem_cons] at h
    rw [Rule.rebuildEach, Rule.rebuildEach, bind_apply, h.1]
    cases Rule.rebuild wiring.base tree with
    | error fault => rfl
    | ok first =>
      dsimp only
      rw [bind_apply, ih h.2]
      cases Rule.rebuildEach wiring.base rest <;> rfl

theorem rebuild_plain (tree : Rule) :
    (tree.rebuild (request wiring)) (.initial []) = (tree.rebuild wiring.base, .initial []) := by
  induction tree with
  | composite operation components ih =>
    rw [Rule.rebuild, Rule.rebuild, bind_apply, rebuildEach_plain_of ih]
    cases Rule.rebuildEach wiring.base components <;> rfl
  | _ => rfl

theorem read_plain (source : String) :
    read wiring source (.initial []) = (Rule.readWith wiring.base source, .initial []) := by
  cases hread : Rule.read source with
  | ok tree =>
    rw [read_apply_of_read hread, rebuild_plain, Rule.readWith_of_read _ hread]
    rfl
  | error error =>
    obtain ⟨trees, -, hgivesUp⟩ := Rule.readWith_of_read_error hread
    unfold read
    rw [hgivesUp, hgivesUp, map_eq_pure_bind, bind_apply,
      rebuildEach_plain_of fun tree _ => rebuild_plain tree]
    cases Rule.rebuildEach wiring.base trees <;> rfl

end Engine

namespace Session

/-- A step that reads a text reads a valid one. -/
def Step.Valid : Step → Prop
  | .parse source => ∃ tree, Rule.read source = .ok tree
  | _ => True

def Answer.ofOutcome : Except Fault Rule → Answer
  | .ok rule => .result rule
  | .error fault => .failed fault

/-- The answer to a text that is read. -/
def Answer.ofReading : Except Fault (Except SyntaxError Rule) → Answer
  | .ok (.ok rule) => .result rule
  | .ok (.error error) => .malformed error
  | .error fault => .failed fault

variable {wiring : Engine.Wiring} {answers : List (Option Rule)} {state : Engine.State}

theorem Step.run_combine {operation : Operation} {operands : List Term} {rules : List Rule}
    (h : Term.resolveList answers operands = .ok rules) :
    (Step.combine operation operands).run wiring answers state =
      (.ofOutcome (Engine.request wiring operation rules state).1,
        (Engine.request wiring operation rules state).2) := by
  simp only [run, h]
  rcases Engine.request wiring operation rules state with ⟨fault | rule, state'⟩ <;> rfl

theorem Step.run_parse {source : String} {tree : Rule} (h : Rule.read source = .ok tree) :
    (Step.parse source).run wiring answers state =
      (.ofOutcome ((tree.rebuild (Engine.request wiring)) state).1,
        ((tree.rebuild (Engine.request wiring)) state).2) := by
  simp only [run, Engine.read_apply_of_read h]
  rcases (tree.rebuild (Engine.request wiring)) state with ⟨fault | rule, state'⟩ <;> rfl

theorem Step.run_parse_eq (source : String) :
    (Step.parse source).run wiring answers state =
      (.ofReading (Engine.read wiring source state).1, (Engine.read wiring source state).2) := by
  rw [run]
  rcases Engine.read wiring source state with ⟨fault | error | rule, after⟩ <;> rfl

/-- Steps leave a stack without layers as it is. -/
theorem Step.run_plain (step : Step) : (step.run wiring answers (.initial [])).2 = .initial [] := by
  cases step with
  | combine operation operands =>
    cases hrules : Term.resolveList answers operands with
    | error fault => simp only [run, hrules]
    | ok rules => rw [run_combine hrules, Engine.request_plain]
  | parse source => rw [run_parse_eq, Engine.read_plain]
  | _ => rfl

/-- A session in two parts: the second finds the engine and the answers that the first has left. -/
theorem runFrom_append (answers : List (Option Rule)) (state : Engine.State)
    (before after : List Step) :
    runFrom wiring answers state (before ++ after) =
      let (reports, reached) := runFrom wiring answers state before
      let (later, final) :=
        runFrom wiring (answers ++ reports.map fun report => report.answer.rule?) reached after
      (reports ++ later, final) := by
  induction before generalizing answers state with
  | nil => simp [runFrom]
  | cons step rest ih => simp [runFrom, ih, Report.of]

end Session

end ExclusionAlgebra
