import ExclusionAlgebra.Proofs.Engine.Matching
import ExclusionAlgebra.Proofs.Simplify.Kinds

/-!
# When a memo shows in the answers

A memo finds answers by the digests of the operands, which say nothing about the order of components,
and the base may well answer differently to operands that differ in that order.  A memo then gives
the answer to the variant that came first.

* `Memo.Faithful`, `Remembers`: what a memo holds while a session goes on.
* `alike_of_request`: one request, with the answer of the base beside that of the engine.
* `Session.Step.agrees`, `Session.runFrom_agrees`: one step of a session, and the whole session.
* `Session.Comparable`: the sessions in which a stack with a memo and one without can be compared.
* `Session.agree_of_orderBlind`, `Session.orderBlind_of_agree`: they agree if the order of components
  does not matter to the base, and only then.
-/

namespace ExclusionAlgebra

open Rule

/-! ## One request -/

/-- Answers to rules without foreign values hold none. -/
def Base.KeepsKnown (base : Base) : Prop :=
  ∀ operation rules result, base operation rules = .ok result → (∀ x ∈ rules, x.Known) → result.Known

theorem Base.simplifying_keepsKnown (depth : Nat) : (Base.simplifying depth).KeepsKnown :=
  fun _ _ _ h hrules => Simplify.known_of_combineAll h hrules

namespace Memo

/-- Each entry is the answer to one of the requests, up to the order of components. -/
def Faithful (base : Base) (requests : Request → Prop) (memo : Memo) : Prop :=
  ∀ key rule, (key, rule) ∈ memo.entries → ∃ r, requests r ∧ key = r.key ∧
    ∃ result, r.answer base = .ok result ∧ Alike result rule

end Memo

/-- Requests without foreign values that can be told apart by their keys, up to the order of
components, and to which that order does not matter. -/
structure Separable (base : Base) (requests : Request → Prop) : Prop where
  known : ∀ r, requests r → r.Known
  blind : ∀ r, requests r → r.OrderBlind base
  variant : ∀ r s, requests r → requests s → r.key = s.key → r.Variant s

/-- The engine has one memo, whose entries answer some of the requests. -/
def Remembers (base : Base) (requests : Request → Prop) (state : Engine.State) : Prop :=
  ∃ memo, state = ⟨[.caching memo], .empty⟩ ∧ memo.Faithful base requests

variable {wiring : Engine.Wiring} {requests : Request → Prop}

theorem alike_of_request (hseparable : Separable wiring.base requests) {state after : Engine.State}
    (hstate : Remembers wiring.base requests state) {r s : Request} (hr : requests r)
    (hvariant : r.Variant s) {p c : Rule} (hp : r.answer wiring.base = .ok p)
    (hc : Engine.request wiring s.operation s.operands state = (.ok c, after)) :
    Alike p c ∧ Remembers wiring.base requests after := by
  obtain ⟨memo, rfl, hmemo⟩ := hstate
  have hblind := hseparable.blind r hr
  have hkey := Memo.key_of_known (hvariant.known (hseparable.known r hr))
  unfold Engine.request at hc
  simp only [Engine.serve, hkey] at hc
  cases hfound : memo.find? s.key with
  | some found =>
    -- The entry answers a request with this key, so one that is a variant of `r`.
    rw [hfound] at hc
    cases hc
    obtain ⟨t, ht, hsame, result, hresult, halike⟩ := hmemo _ _ (Memo.mem_of_find? hfound)
    have hrt := hseparable.variant r t hr ht (hvariant.key_eq.trans hsame)
    exact ⟨(hblind r t (.refl r) hrt p result hp hresult).trans halike, memo, rfl, hmemo⟩
  | none =>
    rw [hfound] at hc
    cases hanswer : wiring.base s.operation s.operands with
    | error fault =>
      rw [hanswer] at hc
      cases hc
    | ok answer =>
      rw [hanswer] at hc
      cases hc
      have halike := hblind r s (.refl r) hvariant p c hp hanswer
      refine ⟨halike, _, rfl, ?_⟩
      intro key rule hentry
      rcases List.mem_append.mp hentry with hentry | hentry
      · exact hmemo key rule hentry
      · cases List.mem_singleton.mp hentry
        exact ⟨r, hr, hvariant.key_eq.symm, p, hp, halike⟩

/-! ## Building a rule -/

theorem known_of_rebuildEach {base : Base} {trees ps : List Rule}
    (hbuild : ∀ tree ∈ trees, ∀ p, tree.rebuild base = .ok p → p.Known)
    (hps : rebuildEach base trees = .ok ps) : ∀ p ∈ ps, p.Known := by
  induction trees generalizing ps with
  | nil =>
    cases hps
    exact List.forall_mem_nil _
  | cons tree rest ih =>
    rw [rebuildEach] at hps
    obtain ⟨first, hfirst, hps⟩ := bind_eq_ok.mp hps
    obtain ⟨others, hothers, hps⟩ := bind_eq_ok.mp hps
    cases pure_eq_ok.mp hps
    rw [List.forall_mem_cons] at hbuild ⊢
    exact ⟨hbuild.1 _ hfirst, ih hbuild.2 hothers⟩

theorem known_of_rebuild {base : Base} (hbase : base.KeepsKnown) {tree p : Rule}
    (htree : tree.Known) (hp : tree.rebuild base = .ok p) : p.Known := by
  induction tree generalizing p with
  | composite operation components ih =>
    rw [rebuild] at hp
    rw [known_composite] at htree
    obtain ⟨xs, hxs, hp⟩ := bind_eq_ok.mp hp
    exact hbase _ _ _ hp (known_of_rebuildEach (fun c hc p hcp => ih c hc (htree c hc) hcp) hxs)
  | everything | nothing | pattern q =>
    cases hp
    rfl
  | foreign value => exact absurd htree (not_known_foreign value)

/-- What an engine with a memo gives for a rule that is built again, compared with the base. -/
def BuildsAlike (wiring : Engine.Wiring) (requests : Request → Prop) (tree : Rule) : Prop :=
  ∀ p c state after, Remembers wiring.base requests state →
    (∀ r ∈ tree.requests wiring.base, requests r) → tree.rebuild wiring.base = .ok p →
    (tree.rebuild (Engine.request wiring)) state = (.ok c, after) →
    Alike p c ∧ Remembers wiring.base requests after

theorem alike_of_rebuildEach {trees ps cs : List Rule} {state after : Engine.State}
    (hbuild : ∀ tree ∈ trees, BuildsAlike wiring requests tree)
    (hstate : Remembers wiring.base requests state)
    (hrequests : ∀ r ∈ requestsEach wiring.base trees, requests r)
    (hps : rebuildEach wiring.base trees = .ok ps)
    (hcs : (rebuildEach (Engine.request wiring) trees) state = (.ok cs, after)) :
    List.Forall₂ Alike ps cs ∧ Remembers wiring.base requests after := by
  induction trees generalizing ps cs state with
  | nil =>
    cases hps
    cases hcs
    exact ⟨.nil, hstate⟩
  | cons tree rest ih =>
    rw [rebuildEach] at hps hcs
    obtain ⟨p, hp, hps⟩ := bind_eq_ok.mp hps
    obtain ⟨ps', hps', hps⟩ := bind_eq_ok.mp hps
    cases pure_eq_ok.mp hps
    obtain ⟨c, middle, hc, hcs⟩ := Engine.bind_apply_eq_ok.mp hcs
    obtain ⟨cs', last, hcs', hcs⟩ := Engine.bind_apply_eq_ok.mp hcs
    cases hcs
    rw [requestsEach] at hrequests
    rw [List.forall_mem_cons] at hbuild
    obtain ⟨hpc, hmiddle⟩ := hbuild.1 _ _ _ _ hstate
      (fun r hr => hrequests r (List.mem_append_left _ hr)) hp hc
    obtain ⟨hrest, hlast⟩ := ih hbuild.2 hmiddle
      (fun r hr => hrequests r (List.mem_append_right _ hr)) hps' hcs'
    exact ⟨.cons hpc hrest, hlast⟩

theorem buildsAlike (hseparable : Separable wiring.base requests) (tree : Rule) :
    BuildsAlike wiring requests tree := by
  intro p c state after hstate hrequests hp hc
  induction tree generalizing p c state after with
  | composite operation components ih =>
    rw [rebuild] at hp hc
    obtain ⟨xs, hxs, hp⟩ := bind_eq_ok.mp hp
    obtain ⟨ys, between, hys, hc⟩ := Engine.bind_apply_eq_ok.mp hc
    rw [Rule.requests, hxs] at hrequests
    obtain ⟨halike, hbetween⟩ := alike_of_rebuildEach
      (fun d hd p c state after hstate hrequests => ih d hd p c state after hstate hrequests) hstate
      (fun r hr => hrequests r (List.mem_append_left _ hr)) hxs hys
    have hr : requests ⟨operation, xs⟩ :=
      hrequests _ (List.mem_append_right _ (List.mem_singleton.mpr rfl))
    exact alike_of_request hseparable hbetween (s := ⟨operation, ys⟩) hr ⟨rfl, halike⟩ hp hc
  | everything | nothing | pattern q | foreign value =>
    cases hp
    cases hc
    exact ⟨Alike.refl _, hstate⟩

/-! ## Sessions -/

namespace Session

abbrev AnswersAlike : List (Option Rule) → List (Option Rule) → Prop :=
  List.Forall₂ (Option.Rel Alike)

/-- Operands that use alike answers are alike. -/
theorem Term.alike_of_resolveList {as bs : List (Option Rule)} (h : AnswersAlike as bs)
    (terms : List Term) {xs ys : List Rule} (hxs : Term.resolveList as terms = .ok xs)
    (hys : Term.resolveList bs terms = .ok ys) : List.Forall₂ Alike xs ys := by
  have hcomposite : ∀ operation cs ds, List.Forall₂ Alike cs ds →
      Alike (.composite operation cs) (.composite operation ds) :=
    fun operation cs ds hcd => .composite operation hcd (.refl ds)
  exact (Term.resolveList_matched Alike.refl hcomposite h terms).of_ok hxs hys

def Answer.Returned (answer : Answer) : Prop := ∀ fault, answer ≠ .failed fault

/-- The answers are rules that the equality test calls equal, or the same answer that is none. -/
inductive Answer.Agrees : Answer → Answer → Prop
  | result {p c : Rule} (h : p.equals c = .ok true) : Agrees (.result p) (.result c)
  | other {answer : Answer} (h : answer.rule? = none) : Agrees answer answer

theorem Answer.Agrees.of_alike {p c : Rule} (hp : p.Known) (h : Alike p c) :
    Agrees (.result p) (.result c) :=
  .result ((equals_eq_true_iff hp).mpr h)

theorem Answer.Agrees.rule?_alike {a b : Answer} (h : Agrees a b) :
    Option.Rel Alike a.rule? b.rule? := by
  cases h with
  | result h => exact .some (alike_of_equals h)
  | other h =>
    rw [h]
    exact .none

theorem Answer.returned_ofOutcome {outcome : Except Fault Rule}
    (h : (Answer.ofOutcome outcome).Returned) : ∃ rule, outcome = .ok rule := by
  cases outcome with
  | ok rule => exact ⟨rule, rfl⟩
  | error fault => exact absurd rfl (h fault)

theorem Step.resolved_of_returned {operation : Operation} {operands : List Term}
    {answers : List (Option Rule)} {state : Engine.State}
    (h : ((Step.combine operation operands).run wiring answers state).1.Returned) :
    ∃ rules, Term.resolveList answers operands = .ok rules := by
  cases hrules : Term.resolveList answers operands with
  | ok rules => exact ⟨rules, rfl⟩
  | error fault =>
    simp only [run, hrules] at h
    exact absurd rfl (h fault)

theorem Step.agrees (hbase : wiring.base.KeepsKnown) (hseparable : Separable wiring.base requests)
    {step : Step} (hvalid : step.Valid) {as bs : List (Option Rule)} (hanswers : AnswersAlike as bs)
    {state : Engine.State} (hstate : Remembers wiring.base requests state)
    (hrequests : ∀ r ∈ step.requests wiring.base as, requests r)
    (hplain : (step.run wiring as (.initial [])).1.Returned)
    (hcached : (step.run wiring bs state).1.Returned) :
    (step.run wiring as (.initial [])).1.Agrees (step.run wiring bs state).1 ∧
      Remembers wiring.base requests (step.run wiring bs state).2 := by
  cases step with
  | combine operation operands =>
    obtain ⟨xs, hxs⟩ := Step.resolved_of_returned hplain
    obtain ⟨ys, hys⟩ := Step.resolved_of_returned hcached
    rw [Step.run_combine hxs, Engine.request_plain] at hplain ⊢
    rw [Step.run_combine hys] at hcached ⊢
    rw [Step.requests, hxs] at hrequests
    have hr := hrequests _ (List.mem_singleton.mpr rfl)
    obtain ⟨p, hp⟩ : ∃ p, wiring.base operation xs = .ok p := Answer.returned_ofOutcome hplain
    obtain ⟨c, hc⟩ := Answer.returned_ofOutcome hcached
    have halike := Term.alike_of_resolveList hanswers operands hxs hys
    obtain ⟨hpc, hafter⟩ := alike_of_request hseparable hstate (s := ⟨operation, ys⟩)
      hr ⟨rfl, halike⟩ hp (Prod.ext hc rfl)
    dsimp only
    rw [hp, hc]
    exact ⟨.of_alike (hbase _ _ _ hp (hseparable.known _ hr)) hpc, hafter⟩
  | parse source =>
    obtain ⟨tree, htree⟩ := hvalid
    rw [Step.run_parse htree, Engine.rebuild_plain] at hplain ⊢
    rw [Step.run_parse htree] at hcached ⊢
    rw [Step.requests, htree] at hrequests
    obtain ⟨p, hp⟩ : ∃ p, tree.rebuild wiring.base = .ok p := Answer.returned_ofOutcome hplain
    obtain ⟨c, hc⟩ := Answer.returned_ofOutcome hcached
    obtain ⟨hpc, hafter⟩ := buildsAlike hseparable tree _ _ _ _ hstate hrequests hp (Prod.ext hc rfl)
    dsimp only
    rw [hp, hc]
    exact ⟨.of_alike (known_of_rebuild hbase (known_of_read htree) hp) hpc, hafter⟩
  | clearCaches =>
    obtain ⟨memo, rfl, -⟩ := hstate
    exact ⟨.other rfl, .empty, rfl, nofun⟩
  | clearJournal =>
    obtain ⟨memo, rfl, hmemo⟩ := hstate
    exact ⟨.other rfl, memo, rfl, hmemo⟩
  | journal =>
    obtain ⟨memo, rfl, hmemo⟩ := hstate
    exact ⟨.other rfl, memo, rfl, hmemo⟩
  | everything => exact ⟨.of_alike known_everything .everything, hstate⟩
  | nothing => exact ⟨.of_alike known_nothing .nothing, hstate⟩
  | pattern p => exact ⟨.of_alike (known_pattern p) (.pattern p), hstate⟩

theorem runFrom_agrees (hbase : wiring.base.KeepsKnown)
    (hseparable : Separable wiring.base requests) {steps : List Step}
    (hvalid : ∀ step ∈ steps, step.Valid) {as bs : List (Option Rule)}
    (hanswers : AnswersAlike as bs) {state : Engine.State}
    (hstate : Remembers wiring.base requests state)
    (hrequests : ∀ r ∈ requestsFrom wiring as steps, requests r)
    (hplain : ∀ report ∈ (runFrom wiring as (.initial []) steps).1, report.answer.Returned)
    (hcached : ∀ report ∈ (runFrom wiring bs state steps).1, report.answer.Returned) :
    List.Forall₂ (fun p c => p.answer.Agrees c.answer) (runFrom wiring as (.initial []) steps).1
      (runFrom wiring bs state steps).1 := by
  induction steps generalizing as bs state with
  | nil => exact .nil
  | cons step rest ih =>
    rw [List.forall_mem_cons] at hvalid
    simp only [runFrom, List.forall_mem_cons] at hplain hcached ⊢
    rw [requestsFrom] at hrequests
    have hstep := Step.agrees hbase hseparable hvalid.1 hanswers hstate
      (fun r hr => hrequests r (List.mem_append_left _ hr)) hplain.1 hcached.1
    obtain ⟨hagrees, hafter⟩ := hstep
    rw [Step.run_plain step] at hplain ⊢
    refine .cons hagrees (ih hvalid.2 ?_ hafter ?_ hplain.2 hcached.2)
    · exact List.rel_append hanswers (.cons hagrees.rule?_alike .nil)
    · exact fun r hr => hrequests r (List.mem_append_right _ hr)

end Session

/-! ## When both stacks agree -/

namespace Request

theorem OrderBlind.of_variant {base : Base} {r s : Request} (h : r.OrderBlind base)
    (hvariant : r.Variant s) : s.OrderBlind base :=
  fun t u ht hu => h t u (hvariant.trans ht) (hvariant.trans hu)

end Request

namespace Session

def answers (wiring : Engine.Wiring) (layers : List Layer) (steps : List Step) : List Answer :=
  (run wiring layers steps).map Report.answer

/-- No step of the session fails on the stack. -/
def Returns (wiring : Engine.Wiring) (layers : List Layer) (steps : List Step) : Prop :=
  ∀ answer ∈ answers wiring layers steps, answer.Returned

/-- Step by step, the two stacks give equal rules. -/
def Agree (wiring : Engine.Wiring) (layers others : List Layer) (steps : List Step) : Prop :=
  List.Forall₂ Answer.Agrees (answers wiring layers steps) (answers wiring others steps)

/-- Digests do not collide on the rules that the session's requests mention. -/
def CollisionFree (wiring : Engine.Wiring) (steps : List Step) : Prop :=
  Collisionless fun node => ∃ r ∈ Session.requests wiring steps, r.Mentions node

/-- A session in which the stack with a memo and the stack without can be compared: its texts are
valid, its operands hold no foreign values, no step fails on either stack, and digests do not
collide. -/
structure Comparable (wiring : Engine.Wiring) (steps : List Step) : Prop where
  valid : ∀ step ∈ steps, step.Valid
  known : ∀ r ∈ Session.requests wiring steps, r.Known
  plain : Returns wiring (Engine.Options.layers ⟨false, false⟩) steps
  cached : Returns wiring (Engine.Options.layers ⟨true, false⟩) steps
  apart : CollisionFree wiring steps

/-- A memo does not show in a session whose requests the base answers without regard to the order of
components. -/
theorem agree_of_orderBlind {steps : List Step} (hbase : wiring.base.KeepsKnown)
    (h : Comparable wiring steps)
    (hblind : ∀ r ∈ Session.requests wiring steps, r.OrderBlind wiring.base) :
    Agree wiring (Engine.Options.layers ⟨false, false⟩) (Engine.Options.layers ⟨true, false⟩)
      steps := by
  have hseparable : Separable wiring.base (· ∈ Session.requests wiring steps) :=
    ⟨h.known, hblind, fun r s hr hs => variant_of_key_eq h.apart hr hs (h.known r hr)⟩
  have hagrees := runFrom_agrees hbase hseparable h.valid .nil ⟨.empty, rfl, nofun⟩
    (fun r hr => hr) (List.forall_mem_map.mp h.plain) (List.forall_mem_map.mp h.cached)
  unfold Agree answers
  rw [List.forall₂_map_left_iff, List.forall₂_map_right_iff]
  exact hagrees

def Step.ofRequest (r : Request) : Step := .combine r.operation (r.operands.map Term.given)

theorem resolveList_given (answers : List (Option Rule)) (rules : List Rule) :
    Term.resolveList answers (rules.map Term.given) = .ok rules := by
  induction rules with
  | nil => rfl
  | cons rule rest ih =>
    rw [List.map_cons, Term.resolveList, ih]
    rfl

theorem Step.run_ofRequest (r : Request) (answers : List (Option Rule)) (state : Engine.State) :
    (Step.ofRequest r).run wiring answers state =
      (.ofOutcome (Engine.request wiring r.operation r.operands state).1,
        (Engine.request wiring r.operation r.operands state).2) :=
  run_combine (resolveList_given answers r.operands)

theorem requests_pair (r s : Request) :
    Session.requests wiring [.ofRequest r, .ofRequest s] = [r, s] := by
  simp [Session.requests, requestsFrom, Step.ofRequest, Step.requests, resolveList_given]

theorem run_pair_plain {r s : Request} {a b : Rule} (ha : r.answer wiring.base = .ok a)
    (hb : s.answer wiring.base = .ok b) :
    answers wiring [] [.ofRequest r, .ofRequest s] = [.result a, .result b] := by
  have hfirst : Engine.request wiring r.operation r.operands (.initial []) =
      (.ok a, .initial []) := by
    rw [Engine.request_plain, ← ha]
    rfl
  have hsecond : Engine.request wiring s.operation s.operands (.initial []) =
      (.ok b, .initial []) := by
    rw [Engine.request_plain, ← hb]
    rfl
  simp only [answers, run, runFrom, Step.run_ofRequest, hfirst, hsecond]
  rfl

/-- With a memo, the second of two requests that are variants gets the answer to the first. -/
theorem run_pair_cached {r s : Request} {a : Rule} (hknown : r.Known) (hvariant : r.Variant s)
    (ha : r.answer wiring.base = .ok a) :
    answers wiring [.caching .empty] [.ofRequest r, .ofRequest s] = [.result a, .result a] := by
  have hbase : wiring.base r.operation r.operands = .ok a := ha
  have hfirst : Engine.request wiring r.operation r.operands (.initial [.caching .empty]) =
      (.ok a, .initial [.caching (Memo.empty.insert r.key a)]) := by
    unfold Engine.request Engine.State.initial
    simp only [Engine.serve, Memo.key_of_known hknown, hbase]
    rfl
  have hfound : (Memo.empty.insert r.key a).find? s.key = some a := by
    simp [Memo.empty, Memo.insert, Memo.find?, hvariant.key_eq]
  have hsecond : Engine.request wiring s.operation s.operands
      (.initial [.caching (Memo.empty.insert r.key a)]) =
      (.ok a, .initial [.caching (Memo.empty.insert r.key a)]) := by
    unfold Engine.request Engine.State.initial
    simp only [Engine.serve, Memo.key_of_known (hvariant.known hknown), hfound]
  simp only [answers, run, runFrom, Step.run_ofRequest, hfirst, hsecond]
  rfl

theorem returns_of_results {layers : List Layer} {steps : List Step} {a b : Rule}
    (h : answers wiring layers steps = [.result a, .result b]) : Returns wiring layers steps := by
  intro answer hanswer fault hfault
  rw [h, hfault] at hanswer
  simp at hanswer

theorem comparable_pair {r s t : Request} {a b : Rule} (hknown : r.Known)
    (hfree : Collisionless r.Mentions) (hs : r.Variant s) (ht : r.Variant t)
    (ha : s.answer wiring.base = .ok a) (hb : t.answer wiring.base = .ok b) :
    Comparable wiring [.ofRequest s, .ofRequest t] where
  valid := by simp [Step.ofRequest, Step.Valid]
  known := by
    intro u hu
    rw [requests_pair, List.mem_pair] at hu
    rcases hu with rfl | rfl
    · exact hs.known hknown
    · exact ht.known hknown
  plain := returns_of_results (run_pair_plain ha hb)
  cached := returns_of_results (run_pair_cached (hs.known hknown) (hs.symm.trans ht) ha)
  apart := by
    apply hfree.of_alike
    rintro node ⟨u, hu, hnode⟩
    rw [requests_pair, List.mem_pair] at hu
    rcases hu with rfl | rfl
    · exact hs.exists_mentions hnode
    · exact ht.exists_mentions hnode

/-- A request that both stacks answer alike, whichever variant of it came before, is answered by the
base without regard to the order of components. -/
theorem orderBlind_of_agree {r : Request} (hknown : r.Known) (hfree : Collisionless r.Mentions)
    (hagree : ∀ s t, r.Variant s → r.Variant t → Comparable wiring [.ofRequest s, .ofRequest t] →
      Agree wiring (Engine.Options.layers ⟨false, false⟩) (Engine.Options.layers ⟨true, false⟩)
        [.ofRequest s, .ofRequest t]) :
    r.OrderBlind wiring.base := by
  intro s t hs ht a b ha hb
  have hplain : answers wiring (Engine.Options.layers ⟨false, false⟩) _ = _ := run_pair_plain ha hb
  have hcached : answers wiring (Engine.Options.layers ⟨true, false⟩) _ = _ :=
    run_pair_cached (hs.known hknown) (hs.symm.trans ht) ha
  have hboth := hagree s t hs ht (comparable_pair hknown hfree hs ht ha hb)
  rw [Agree, hplain, hcached] at hboth
  cases hboth with
  | cons _ hrest =>
    cases hrest with
    | cons hsecond _ =>
      cases hsecond with
      | result hequals => exact (alike_of_equals hequals).symm
      | other hnone => cases hnone

/-- **When a memo does not show.** Take any requests.  The stack with a memo and the stack without
give equal rules in all sessions whose requests are among them, up to the order of components, if and
only if the simplifying base answers each of them without regard to that order. -/
theorem agree_iff_orderBlind (depth : Nat) (clock : Nat → String)
    (sink : LogEntry → Except SinkFault Unit) (requests : Request → Prop) :
    (∀ steps : List Step, Comparable ⟨Base.simplifying depth, clock, sink⟩ steps →
      (∀ s ∈ Session.requests ⟨Base.simplifying depth, clock, sink⟩ steps,
        ∃ r, requests r ∧ r.Variant s) →
      Agree ⟨Base.simplifying depth, clock, sink⟩ (Engine.Options.layers ⟨false, false⟩)
        (Engine.Options.layers ⟨true, false⟩) steps) ↔
    ∀ r, requests r → r.Known → Collisionless r.Mentions → r.OrderBlind (Base.simplifying depth) := by
  constructor
  · intro hagree r hr hknown hfree
    refine orderBlind_of_agree hknown hfree fun s t hs ht hpair => hagree _ hpair ?_
    intro u hu
    rw [requests_pair, List.mem_pair] at hu
    rcases hu with rfl | rfl
    · exact ⟨r, hr, hs⟩
    · exact ⟨r, hr, ht⟩
  · intro hblind steps h hrequests
    apply agree_of_orderBlind (Base.simplifying_keepsKnown depth) h
    intro s hs
    obtain ⟨r, hr, hvariant⟩ := hrequests s hs
    refine (hblind r hr (hvariant.symm.known (h.known s hs)) ?_).of_variant hvariant
    apply h.apart.of_alike
    intro node hnode
    obtain ⟨other, hother, halike⟩ := hvariant.symm.exists_mentions hnode
    exact ⟨other, ⟨s, hs, hother⟩, halike⟩

/-- Everything and two modules, united without simplification. -/
def wideFirst : Rule :=
  .composite .anyOf [.pattern ⟨none, none, none⟩, .pattern ⟨none, some "m", none⟩,
    .pattern ⟨none, some "n", none⟩]

def wideLast : Rule :=
  .composite .anyOf [.pattern ⟨none, some "m", none⟩, .pattern ⟨none, some "n", none⟩,
    .pattern ⟨none, none, none⟩]

/-- The digests of the rules that intersecting `wideFirst` with a group mentions. -/
theorem digests_of_wideFirst :
    [Rule.pattern ⟨none, none, none⟩, .pattern ⟨none, some "m", none⟩,
      .pattern ⟨none, some "n", none⟩, .pattern ⟨some "g", none, none⟩, wideFirst].map digest =
    [⟨"0d378c0250d7e757b2fffdd050b0c48379f4ddfa477ed986b039dc0ee5cd723f"⟩,
      ⟨"df6982c7f2f75cd3f690ca8c9d9a7caeb1f652a027078a931e08a1af8aaa2523"⟩,
      ⟨"7bc4ade6181c7f4ab4ef34f3a663171cd485ac144b40c947281db442b3f20de5"⟩,
      ⟨"553154f51391aae29edc8a977ee9adda34c9757369bc9a3c12426d2ca60d5f26"⟩,
      ⟨"5623d192c0219403908910b54a248fd998df34c40b846dc8d1f7df4c4f1211a2"⟩] := by
  decide +kernel

/-- A memo shows: a group is intersected with `wideFirst`, which gives the group, and then with
`wideLast`, which gives a union of the group and its modules unless the memo answers. -/
theorem memo_shows : ¬ ∀ (depth : Nat) (clock : Nat → String)
    (sink : LogEntry → Except SinkFault Unit) (steps : List Step),
    Comparable ⟨Base.simplifying depth, clock, sink⟩ steps →
    Agree ⟨Base.simplifying depth, clock, sink⟩ (Engine.Options.layers ⟨false, false⟩)
      (Engine.Options.layers ⟨true, false⟩) steps := by
  intro hclaim
  have hknown : (Request.mk .allOf [wideFirst, .pattern ⟨some "g", none, none⟩]).Known := by
    simp [Request.Known, wideFirst]
  have hfree : Collisionless
      (Request.mk .allOf [wideFirst, .pattern ⟨some "g", none, none⟩]).Mentions := by
    intro a b ha hb hab
    have hdistinct : ([Rule.pattern ⟨none, none, none⟩, .pattern ⟨none, some "m", none⟩,
        .pattern ⟨none, some "n", none⟩, .pattern ⟨some "g", none, none⟩,
        wideFirst].map digest).Nodup := by
      rw [digests_of_wideFirst]
      decide
    have hlisted : ∀ node,
        (Request.mk .allOf [wideFirst, .pattern ⟨some "g", none, none⟩]).Mentions node →
        node ∈ [Rule.pattern ⟨none, none, none⟩, .pattern ⟨none, some "m", none⟩,
          .pattern ⟨none, some "n", none⟩, .pattern ⟨some "g", none, none⟩, wideFirst] := by
      rintro node ⟨x, hx, hnode⟩
      rcases List.mem_pair.mp hx with rfl | rfl
      · simp only [wideFirst, nodes, nodesIn, List.append_nil, List.cons_append, List.nil_append,
          List.mem_cons, List.not_mem_nil, or_false] at hnode ⊢
        rcases hnode with rfl | rfl | rfl | rfl <;> simp
      · simp only [nodes, List.mem_singleton] at hnode
        simp [hnode]
    rw [List.inj_on_of_nodup_map hdistinct (hlisted a ha) (hlisted b hb) hab]
  have hvariant : (Request.mk .allOf [wideFirst, .pattern ⟨some "g", none, none⟩]).Variant
      (Request.mk .allOf [wideLast, .pattern ⟨some "g", none, none⟩]) := by
    have hwide : Alike wideFirst wideLast :=
      alike_composite.mpr ⟨rfl, .of_perm (fun c _ => Alike.refl c)
        ((List.Perm.swap _ _ _).trans ((List.Perm.swap _ _ _).cons _))⟩
    exact ⟨rfl, .cons hwide (.cons (Alike.refl _) .nil)⟩
  have hblind := orderBlind_of_agree hknown hfree fun s t _ _ hpair =>
    hclaim 2 (fun _ => "") Engine.acceptAll _ hpair
  have halike := hblind _ _ (.refl _) hvariant (.pattern ⟨some "g", none, none⟩)
    (.composite .anyOf [.pattern ⟨some "g", some "m", none⟩, .pattern ⟨some "g", some "n", none⟩,
      .pattern ⟨some "g", none, none⟩]) rfl rfl
  cases halike

end Session

end ExclusionAlgebra
