import ExclusionAlgebra.Proofs.Engine.Requests

/-!
# What an engine keeps

An engine gives what its base answers, or what a memo took in when the base had answered.  So what
holds of every answer of the base, and of every entry that a memo takes in, holds of every answer of
the engine, whatever its layers.

* `Engine.Holds`: a condition on all entries of the memos among the layers.
* `Engine.serve_keeps`: one request, by induction on the layers that it passes.
* `Base.Closed`: a condition on rules that holds of all rules that the base makes of rules of which it
  holds.
* `Engine.KeepsAt`, `Engine.Keeps`: what an action gives satisfies a condition, and the memos go on to
  satisfy theirs, also if the action fails.
* `Engine.requests`: the requests that building a rule again comes to.
* `Engine.keepsAt_rebuild`, `Engine.keeps_read`: a rule that is built again, a text that is read.
* `Session.runFrom_keeps`: a session whose operands are earlier answers or rules of which the
  condition holds.
-/

namespace ExclusionAlgebra

/-- The condition holds of what is no composite, foreign values included, and of what the base makes
of rules of which it holds. -/
structure Base.Closed (base : Base) (P : Rule → Prop) : Prop where
  atom : ∀ rule : Rule, rule.isComposite = false → P rule
  answer : ∀ operation rules result, base operation rules = .ok result → (∀ x ∈ rules, P x) →
    P result

namespace Engine

variable {wiring : Wiring} {Q : Memo.Key → Rule → Prop}

/-! ## One request -/

/-- The condition holds of all that the memos among the layers hold. -/
def Holds (Q : Memo.Key → Rule → Prop) (layers : List Layer) : Prop :=
  ∀ memo, .caching memo ∈ layers → ∀ key rule, (key, rule) ∈ memo.entries → Q key rule

theorem holds_caching {memo : Memo} {below : List Layer} :
    Holds Q (.caching memo :: below) ↔
      (∀ key rule, (key, rule) ∈ memo.entries → Q key rule) ∧ Holds Q below := by
  simp [Holds]

theorem holds_logging {kept : Bool} {below : List Layer} :
    Holds Q (.logging kept :: below) ↔ Holds Q below := by
  simp [Holds]

theorem holds_forwarding {below : List Layer} : Holds Q (.forwarding :: below) ↔ Holds Q below := by
  simp [Holds]

theorem holds_layers (options : Options) : Holds Q options.layers := by
  obtain ⟨cache, journal⟩ := options
  cases cache <;> cases journal <;> simp [Options.layers, Holds, Memo.empty]

theorem holds_forget (layers : List Layer) : Holds Q (layers.map Layer.forget) := by
  intro memo hmemo key rule hentry
  obtain ⟨layer, -, hlayer⟩ := List.mem_map.mp hmemo
  cases layer with
  | caching old =>
    cases hlayer
    cases hentry
  | logging kept => cases hlayer
  | forwarding => cases hlayer

theorem holds_insert {memo : Memo} {below : List Layer} {key : Memo.Key} {r : Rule}
    (hmemo : ∀ key rule, (key, rule) ∈ memo.entries → Q key rule) (hr : Q key r)
    (hbelow : Holds Q below) : Holds Q (.caching (memo.insert key r) :: below) := by
  refine holds_caching.mpr ⟨fun key' rule hentry => ?_, hbelow⟩
  rcases List.mem_append.mp hentry with hentry | hentry
  · exact hmemo key' rule hentry
  · cases List.mem_singleton.mp hentry
    exact hr

/-- A request gives what the base answers or what a memo holds under its key, and a memo takes in
nothing else. -/
theorem serve_keeps {R : Rule → Prop} {operation : Operation} {rules : List Rule}
    (hanswer : ∀ r, wiring.base operation rules = .ok r → R r)
    (hfound : ∀ key r, Memo.key operation rules = .ok key → Q key r → R r)
    (hstored : ∀ key r, Memo.key operation rules = .ok key → R r → Q key r)
    {layers : List Layer} (hlayers : Holds Q layers) (journal : Journal) :
    (∀ r, (serve wiring operation rules layers journal).1 = .ok r → R r) ∧
      Holds Q (serve wiring operation rules layers journal).2.layers := by
  induction layers with
  | nil => exact ⟨hanswer, hlayers⟩
  | cons layer below ih =>
    cases layer with
    | forwarding =>
      rw [serve]
      obtain ⟨hr, hafter⟩ := ih (holds_forwarding.mp hlayers)
      exact ⟨hr, holds_forwarding.mpr hafter⟩
    | logging kept =>
      rw [serve]
      obtain ⟨hr, hafter⟩ := ih (holds_logging.mp hlayers)
      revert hr hafter
      rcases serve wiring operation rules below journal with ⟨fault | r, state⟩
      · intro _ hafter
        exact ⟨nofun, holds_logging.mpr hafter⟩
      · intro hr hafter
        refine ⟨fun r' hr' => ?_, holds_logging.mpr hafter⟩
        dsimp only at hr'
        cases hrecord : (record wiring kept operation rules r state.journal).1 with
        | error fault =>
          rw [hrecord] at hr'
          cases hr'
        | ok _ =>
          rw [hrecord] at hr'
          cases hr'
          exact hr r rfl
    | caching memo =>
      rw [serve]
      obtain ⟨hmemo, hbelow⟩ := holds_caching.mp hlayers
      cases hkey : Memo.key operation rules with
      | error fault => exact ⟨nofun, hlayers⟩
      | ok key =>
        dsimp only
        cases hlookup : memo.find? key with
        | some found =>
          have hentry := Memo.mem_of_find? hlookup
          refine ⟨fun r hr => ?_, hlayers⟩
          cases hr
          exact hfound key found hkey (hmemo key found hentry)
        | none =>
          obtain ⟨hr, hafter⟩ := ih hbelow
          revert hr hafter
          rcases serve wiring operation rules below journal with ⟨fault | r, state⟩
          · intro _ hafter
            exact ⟨nofun, holds_caching.mpr ⟨hmemo, hafter⟩⟩
          · intro hr hafter
            exact ⟨hr, holds_insert hmemo (hstored key r hkey (hr r rfl)) hafter⟩

/-! ## Actions -/

/-- Run from this state, the action gives what satisfies the condition, and leaves memos behind that
satisfy theirs, also if it fails. -/
def KeepsAt {α : Type} (Q : Memo.Key → Rule → Prop) (R : α → Prop) (x : Action α) (s : State) :
    Prop :=
  (∀ a, (x s).1 = .ok a → R a) ∧ Holds Q (x s).2.layers

theorem keepsAt_pure {α : Type} {R : α → Prop} {a : α} {s : State} (h : R a)
    (hs : Holds Q s.layers) : KeepsAt Q R (pure a : Action α) s := by
  refine ⟨fun b hb => ?_, hs⟩
  cases hb
  exact h

theorem keepsAt_bind {α β : Type} {R : α → Prop} {S : β → Prop} {x : Action α} {f : α → Action β}
    {s : State} (hx : KeepsAt Q R x s)
    (hf : ∀ a t, x s = (.ok a, t) → R a → Holds Q t.layers → KeepsAt Q S (f a) t) :
    KeepsAt Q S (x >>= f) s := by
  obtain ⟨ha, hafter⟩ := hx
  unfold KeepsAt
  rw [bind_apply]
  revert ha hafter hf
  rcases x s with ⟨fault | a, t⟩
  · intro _ _ hafter
    exact ⟨nofun, hafter⟩
  · intro hf ha hafter
    exact hf a t rfl (ha a rfl) hafter

theorem KeepsAt.imp {α : Type} {R S : α → Prop} {x : Action α} {s : State} (h : KeepsAt Q R x s)
    (hRS : ∀ a, R a → S a) : KeepsAt Q S x s :=
  ⟨fun a ha => hRS a (h.1 a ha), h.2⟩

/-- The same, whatever the state, if its memos satisfy the condition on them. -/
def Keeps {α : Type} (Q : Memo.Key → Rule → Prop) (R : α → Prop) (x : Action α) : Prop :=
  ∀ s, Holds Q s.layers → KeepsAt Q R x s

theorem keeps_pure {α : Type} {R : α → Prop} {a : α} (h : R a) :
    Keeps Q R (pure a : Action α) :=
  fun _ hs => keepsAt_pure h hs

theorem keeps_bind {α β : Type} {R : α → Prop} {S : β → Prop} {x : Action α} {f : α → Action β}
    (hx : Keeps Q R x) (hf : ∀ a, R a → Keeps Q S (f a)) : Keeps Q S (x >>= f) := by
  intro s hs
  exact keepsAt_bind (hx s hs) fun a t _ ha ht => hf a ha t ht

theorem keeps_map {α β : Type} {R : α → Prop} {S : β → Prop} {x : Action α} {f : α → β}
    (hx : Keeps Q R x) (hf : ∀ a, R a → S (f a)) : Keeps Q S (f <$> x) := by
  rw [map_eq_pure_bind]
  exact keeps_bind hx fun a ha => keeps_pure (hf a ha)

/-! ## The requests that building comes to -/

section

variable (wiring : Wiring)

mutual

/-- The requests that building the rule again comes to, in order, if the engine is in the state.  Of
a request that fails nothing follows. -/
def requests : Rule → State → List Request
  | .composite operation components, s =>
    requestsEach components s ++
      match (Rule.rebuildEach (request wiring) components s).1 with
      | .ok operands => [⟨operation, operands⟩]
      | .error _ => []
  | _, _ => []

def requestsEach : List Rule → State → List Request
  | [], _ => []
  | rule :: rest, s =>
    requests rule s ++
      match rule.rebuild (request wiring) s with
      | (.ok _, after) => requestsEach rest after
      | (.error _, _) => []

end

end

section

variable {asked : Request → Prop} {R : Rule → Rule → Prop}

/-- Building rules again, one after another: each starts from the state that the one before has
left. -/
theorem keepsAt_rebuildEach {trees : List Rule}
    (htrees : ∀ tree ∈ trees, ∀ s : State, Holds Q s.layers → (∀ r ∈ requests wiring tree s, asked r) →
      KeepsAt Q (R tree) (tree.rebuild (request wiring)) s)
    {s : State} (hs : Holds Q s.layers) (hasked : ∀ r ∈ requestsEach wiring trees s, asked r) :
    KeepsAt Q (List.Forall₂ R trees) (Rule.rebuildEach (request wiring) trees) s := by
  induction trees generalizing s with
  | nil => exact keepsAt_pure .nil hs
  | cons tree rest ih =>
    rw [List.forall_mem_cons] at htrees
    rw [requestsEach, List.forall_mem_append] at hasked
    obtain ⟨hfirst, hrest⟩ := hasked
    rw [Rule.rebuildEach]
    apply keepsAt_bind (htrees.1 s hs hfirst)
    intro first t ht hbuilt hholds
    rw [ht] at hrest
    apply keepsAt_bind (ih htrees.2 hholds hrest)
    intro others u _ hothers hholds
    exact keepsAt_pure (.cons hbuilt hothers) hholds

/-- Building a rule again, by induction on the rule.  On rules of a kind that goes over to components,
what comes out stands in a relation to the rule, if requests and what is no composite keep to it. -/
theorem keepsAt_rebuild {kind : Rule → Prop}
    (hinside : ∀ operation components, kind (.composite operation components) →
      ∀ c ∈ components, kind c)
    (hatom : ∀ rule : Rule, kind rule → rule.isComposite = false → R rule rule)
    (hrequest : ∀ operation components rules s, kind (.composite operation components) →
      List.Forall₂ R components rules → asked ⟨operation, rules⟩ → Holds Q s.layers →
        KeepsAt Q (R (.composite operation components)) (request wiring operation rules) s)
    {tree : Rule} (htree : kind tree) {s : State} (hs : Holds Q s.layers)
    (hasked : ∀ r ∈ requests wiring tree s, asked r) :
    KeepsAt Q (R tree) (tree.rebuild (request wiring)) s := by
  induction tree generalizing s with
  | everything | nothing | pattern p | foreign value => exact keepsAt_pure (hatom _ htree rfl) hs
  | composite operation components ih =>
    rw [requests, List.forall_mem_append] at hasked
    obtain ⟨hbefore, hlast⟩ := hasked
    have hcomponents : ∀ c ∈ components, ∀ t : State, Holds Q t.layers →
        (∀ r ∈ requests wiring c t, asked r) → KeepsAt Q (R c) (c.rebuild (request wiring)) t := by
      intro c hc t ht hinner
      exact ih c hc (hinside operation components htree c hc) ht hinner
    rw [Rule.rebuild]
    apply keepsAt_bind (keepsAt_rebuildEach hcomponents hs hbefore)
    intro rules t ht hrules hholds
    rw [ht] at hlast
    have hr : asked ⟨operation, rules⟩ := hlast _ List.mem_cons_self
    exact hrequest operation components rules t htree hrules hr hholds

end

/-! ## Conditions on rules alone -/

section

variable {P : Rule → Prop} (hbase : wiring.base.Closed P)
include hbase

theorem keeps_request {operation : Operation} {rules : List Rule} (hrules : ∀ x ∈ rules, P x) :
    Keeps (fun _ => P) P (request wiring operation rules) := by
  intro s hs
  refine serve_keeps ?_ ?_ ?_ hs s.journal
  · exact fun r hr => hbase.answer operation rules r hr hrules
  · exact fun _ r _ hr => hr
  · exact fun _ r _ hr => hr

theorem keeps_build (tree : Rule) : Keeps (fun _ => P) P (tree.rebuild (request wiring)) := by
  intro s hs
  have hrequest : ∀ operation (components rules : List Rule) t, True →
      List.Forall₂ (fun _ rule => P rule) components rules → True → Holds (fun _ => P) t.layers →
        KeepsAt (fun _ => P) P (request wiring operation rules) t := by
    intro operation components rules t _ hrules _ hholds
    exact keeps_request hbase (forall_of_forall₂ hrules) t hholds
  exact @keepsAt_rebuild wiring _ (fun _ => True) (fun _ => P) (fun _ => True) (fun _ _ _ _ _ => trivial)
    (fun rule _ => hbase.atom rule) hrequest tree trivial s hs fun _ _ => trivial

/-- Reading a text: a valid one is built, and before an invalid one is given up some rules are. -/
theorem keeps_read (source : String) :
    Keeps (fun _ => P) (fun outcome => ∀ rule, outcome = .ok rule → P rule)
      (read wiring source) := by
  unfold read
  cases hsource : Rule.read source with
  | ok tree =>
    rw [Rule.readWith_of_read _ hsource]
    refine keeps_map (keeps_build hbase tree) fun rule hrule rule' hrule' => ?_
    cases hrule'
    exact hrule
  | error error =>
    obtain ⟨trees, -, hgivesUp⟩ := Rule.readWith_of_read_error hsource
    have hall : Keeps (fun _ => P) (fun _ => True) (Rule.rebuildEach (request wiring) trees) := by
      intro s hs
      have hbuilt : KeepsAt (fun _ => P) (List.Forall₂ (fun _ rule => P rule) trees)
          (Rule.rebuildEach (request wiring) trees) s :=
        keepsAt_rebuildEach (fun tree _ t ht _ => keeps_build hbase tree t ht) hs fun r hr => hr
      exact hbuilt.imp fun _ _ => trivial
    rw [hgivesUp]
    exact keeps_map hall fun _ _ => nofun

end

end Engine

/-! ## Sessions -/

namespace Session

variable {wiring : Engine.Wiring} {P : Rule → Prop}

/-- The operand brings in no composite of its own: it is the answer to an earlier step, or a rule of
which the condition holds. -/
def Term.Within (P : Rule → Prop) : Term → Prop
  | .given rule => P rule
  | .written _ => False
  | .answer _ => True
  | .composite _ _ => False

def Step.Within (P : Rule → Prop) : Step → Prop
  | .combine _ operands => ∀ operand ∈ operands, operand.Within P
  | _ => True

theorem Term.within_mono {Q : Rule → Prop} (hPQ : ∀ rule, P rule → Q rule) {term : Term}
    (h : term.Within P) : term.Within Q := by
  cases term with
  | given rule => exact hPQ rule h
  | written source => exact h
  | answer step => exact h
  | composite operation components => exact h

theorem Step.within_mono {Q : Rule → Prop} (hPQ : ∀ rule, P rule → Q rule) {step : Step}
    (h : step.Within P) : step.Within Q := by
  cases step with
  | combine operation operands => exact fun x hx => Term.within_mono hPQ (h x hx)
  | _ => exact trivial

variable {answers : List (Option Rule)}

/-- What an operand stands for.  A step that gave no rule stands for a foreign value. -/
theorem Term.resolve_within (hatom : ∀ rule : Rule, rule.isComposite = false → P rule)
    (hanswers : ∀ rule, some rule ∈ answers → P rule) {term : Term} (hterm : term.Within P)
    {rule : Rule} (h : term.resolve answers = .ok rule) : P rule := by
  cases term with
  | given given =>
    cases h
    exact hterm
  | written source => exact absurd hterm id
  | composite operation components => exact absurd hterm id
  | answer step =>
    cases h
    cases hstep : answers[step]? with
    | none => exact hatom _ rfl
    | some answer =>
      cases answer with
      | none => exact hatom _ rfl
      | some rule => exact hanswers rule (List.mem_of_getElem? hstep)

theorem Term.resolveList_within (hatom : ∀ rule : Rule, rule.isComposite = false → P rule)
    (hanswers : ∀ rule, some rule ∈ answers → P rule) {terms : List Term}
    (hterms : ∀ term ∈ terms, term.Within P) {rules : List Rule}
    (h : Term.resolveList answers terms = .ok rules) : ∀ x ∈ rules, P x := by
  induction terms generalizing rules with
  | nil =>
    cases h
    exact List.forall_mem_nil _
  | cons term rest ih =>
    rw [Term.resolveList] at h
    obtain ⟨rule, hrule, h⟩ := bind_eq_ok.mp h
    obtain ⟨others, hothers, h⟩ := bind_eq_ok.mp h
    cases pure_eq_ok.mp h
    rw [List.forall_mem_cons] at hterms ⊢
    exact ⟨Term.resolve_within hatom hanswers hterms.1 hrule, ih hterms.2 hothers⟩

theorem Answer.keeps_of_rule?_eq_none {answer : Answer} (h : answer.rule? = none) :
    ∀ rule, answer.rule? = some rule → P rule := by
  intro rule hrule
  rw [h] at hrule
  cases hrule

/-- One step: the rule that it gives satisfies the condition, and so does all that is remembered. -/
theorem Step.run_keeps (hbase : wiring.base.Closed P) {step : Step} (hstep : step.Within P)
    (hanswers : ∀ rule, some rule ∈ answers → P rule) {state : Engine.State}
    (hstate : Engine.Holds (fun _ => P) state.layers) :
    (∀ rule, (step.run wiring answers state).1.rule? = some rule → P rule) ∧
      Engine.Holds (fun _ => P) (step.run wiring answers state).2.layers := by
  cases step with
  | combine operation operands =>
    cases hrules : Term.resolveList answers operands with
    | error fault =>
      simp only [run, hrules]
      exact ⟨Answer.keeps_of_rule?_eq_none rfl, hstate⟩
    | ok rules =>
      have hall := Term.resolveList_within hbase.atom hanswers hstep hrules
      have hrequest : Engine.Keeps _ P (Engine.request wiring operation rules) :=
        Engine.keeps_request hbase hall
      obtain ⟨hanswer, hafter⟩ := hrequest state hstate
      rw [Step.run_combine hrules]
      refine ⟨fun rule hrule => hanswer rule ?_, hafter⟩
      cases houtcome : (Engine.request wiring operation rules state).1 with
      | error fault =>
        rw [houtcome] at hrule
        cases hrule
      | ok answer =>
        rw [houtcome] at hrule
        cases hrule
        rfl
  | parse source =>
    obtain ⟨hanswer, hafter⟩ := Engine.keeps_read hbase source state hstate
    simp only [run]
    revert hanswer hafter
    rcases Engine.read wiring source state with ⟨fault | error | answer, after⟩
    · exact fun _ hafter => ⟨Answer.keeps_of_rule?_eq_none rfl, hafter⟩
    · exact fun _ hafter => ⟨Answer.keeps_of_rule?_eq_none rfl, hafter⟩
    · intro hanswer hafter
      refine ⟨fun rule hrule => ?_, hafter⟩
      cases hrule
      exact hanswer _ rfl _ rfl
  | everything | nothing | pattern p =>
    refine ⟨fun rule hrule => ?_, hstate⟩
    cases hrule
    exact hbase.atom _ rfl
  | clearCaches => exact ⟨Answer.keeps_of_rule?_eq_none rfl, Engine.holds_forget _⟩
  | clearJournal => exact ⟨Answer.keeps_of_rule?_eq_none rfl, hstate⟩
  | journal => exact ⟨Answer.keeps_of_rule?_eq_none rfl, hstate⟩

/-- A whole session, by induction on its steps. -/
theorem runFrom_keeps (hbase : wiring.base.Closed P) {steps : List Step}
    (hsteps : ∀ step ∈ steps, step.Within P) (hanswers : ∀ rule, some rule ∈ answers → P rule)
    {state : Engine.State} (hstate : Engine.Holds (fun _ => P) state.layers) :
    ∀ report ∈ (runFrom wiring answers state steps).1, ∀ rule,
      report.answer.rule? = some rule → P rule := by
  induction steps generalizing answers state with
  | nil => exact nofun
  | cons step rest ih =>
    rw [List.forall_mem_cons] at hsteps
    simp only [runFrom, List.forall_mem_cons]
    obtain ⟨hgiven, hafter⟩ := Step.run_keeps hbase hsteps.1 hanswers hstate
    refine ⟨hgiven, ih hsteps.2 ?_ hafter⟩
    intro rule hrule
    rcases List.mem_append.mp hrule with hrule | hrule
    · exact hanswers rule hrule
    · exact hgiven rule (List.mem_singleton.mp hrule).symm

end Session

end ExclusionAlgebra
