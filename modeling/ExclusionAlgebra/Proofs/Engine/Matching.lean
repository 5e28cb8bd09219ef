import ExclusionAlgebra.Proofs.Engine.Caching

/-!
# Engines that go together

Two engines are compared by a relation between their states.  They go together if, from related
states, every request gives related rules or the same fault, and leads to related states again; what
they build, what they read and what they answer to a session then stays related as well.

* `Matched`, `Stateful.Matches`: outcomes, and computations with a state, that go together.
* `Stateful.Builders`: two builders that go together on the rules of some kind, with
  `Stateful.Builders.rebuild` for a rule that is built again and `Stateful.Builders.readWith` for a
  text that is read.
* `Session.Term.resolve_matched`: operands that use related answers.
* `Session.Step.run_matched`, `Session.runFrom_matched`: one step of a session, and a whole session.
* `Session.runFrom_invariant`: what every request keeps, a session keeps.
-/

namespace ExclusionAlgebra

/-! ## Outcomes -/

/-- Both outcomes are values, which are related, or both are the same fault. -/
inductive Matched {ε α β : Type} (V : α → β → Prop) : Except ε α → Except ε β → Prop
  | ok {a : α} {b : β} (h : V a b) : Matched V (.ok a) (.ok b)
  | error (fault : ε) : Matched V (.error fault) (.error fault)

namespace Matched

variable {ε α β γ δ : Type} {V : α → β → Prop} {W : γ → δ → Prop}

theorem self {U : α → α → Prop} {x : Except ε α} (h : ∀ a, x = .ok a → U a a) : Matched U x x := by
  cases x with
  | ok a => exact .ok (h a rfl)
  | error fault => exact .error fault

theorem bind {x : Except ε α} {y : Except ε β} {f : α → Except ε γ} {g : β → Except ε δ}
    (h : Matched V x y) (hfg : ∀ a b, V a b → Matched W (f a) (g b)) :
    Matched W (x >>= f) (y >>= g) := by
  cases h with
  | ok h => exact hfg _ _ h
  | error fault => exact .error fault

theorem imp {U : α → β → Prop} {x : Except ε α} {y : Except ε β} (h : Matched V x y)
    (hVU : ∀ a b, V a b → U a b) : Matched U x y := by
  cases h with
  | ok h => exact .ok (hVU _ _ h)
  | error fault => exact .error fault

theorem of_ok {x : Except ε α} {y : Except ε β} {a : α} {b : β} (h : Matched V x y)
    (hx : x = .ok a) (hy : y = .ok b) : V a b := by
  subst hx hy
  cases h
  assumption

theorem eq {x y : Except ε α} (h : Matched Eq x y) : x = y := by
  cases h with
  | ok h => rw [h]
  | error fault => rfl

end Matched

/-- Lists that are related by being the same, with a condition on the members. -/
theorem eq_of_forall₂ {α : Type} {P : α → Prop} {as bs : List α}
    (h : List.Forall₂ (fun a b => a = b ∧ P a) as bs) : as = bs ∧ ∀ a ∈ as, P a := by
  obtain ⟨hall, hsame⟩ := (List.forall₂_and_left _ _).mp (h.imp fun _ _ => And.symm)
  exact ⟨List.forall₂_eq_eq_eq ▸ hsame, hall⟩

/-! ## Computations -/

namespace Stateful

variable {σ τ α β γ δ : Type} {R : σ → τ → Prop} {V : α → β → Prop} {W : γ → δ → Prop}

/-- From related states the two computations give related values or fail with the same fault, and
lead to related states. -/
def Matches (R : σ → τ → Prop) (V : α → β → Prop) (x : Stateful σ α) (y : Stateful τ β) : Prop :=
  ∀ s t, R s t → Matched V (x s).1 (y t).1 ∧ R (x s).2 (y t).2

namespace Matches

theorem pure {a : α} {b : β} (h : V a b) :
    Matches R V (Pure.pure a : Stateful σ α) (Pure.pure b : Stateful τ β) :=
  fun _ _ hst => ⟨.ok h, hst⟩

theorem bind {x : Stateful σ α} {y : Stateful τ β} {f : α → Stateful σ γ} {g : β → Stateful τ δ}
    (hxy : Matches R V x y) (hfg : ∀ a b, V a b → Matches R W (f a) (g b)) :
    Matches R W (x >>= f) (y >>= g) := by
  intro s t hst
  obtain ⟨hvalue, hafter⟩ := hxy s t hst
  rw [Engine.bind_apply, Engine.bind_apply]
  revert hvalue hafter
  rcases x s with ⟨_, s'⟩
  rcases y t with ⟨_, t'⟩
  rintro (hab | fault) hafter
  · exact hfg _ _ hab s' t' hafter
  · exact ⟨.error fault, hafter⟩

theorem map {x : Stateful σ α} {y : Stateful τ β} {f : α → γ} {g : β → δ} (hxy : Matches R V x y)
    (hfg : ∀ a b, V a b → W (f a) (g b)) : Matches R W (f <$> x) (g <$> y) := by
  rw [map_eq_pure_bind, map_eq_pure_bind]
  exact hxy.bind fun a b hab => .pure (hfg a b hab)

theorem imp {U : α → β → Prop} {x : Stateful σ α} {y : Stateful τ β} (h : Matches R V x y)
    (hVU : ∀ a b, V a b → U a b) : Matches R U x y :=
  fun s t hst => ⟨(h s t hst).1.imp hVU, (h s t hst).2⟩

end Matches

/-! ## Builders -/

/-- Two builders that go together on rules of some kind, which goes over to components.  What they
make of the components of a composite is related to these by `L`, and to each other by `V`; then so is
what they make of the composite. -/
structure Builders (R : σ → τ → Prop) (kind : Rule → Prop) (L V : Rule → Rule → Prop)
    (build : Operation → List Rule → Stateful σ Rule)
    (other : Operation → List Rule → Stateful τ Rule) : Prop where
  inside : ∀ operation components, kind (.composite operation components) →
    ∀ c ∈ components, kind c
  atom : ∀ rule : Rule, kind rule → rule.isComposite = false → L rule rule ∧ V rule rule
  request : ∀ operation components as bs, kind (.composite operation components) →
    List.Forall₂ L components as → List.Forall₂ V as bs →
      Matches R (fun a b => L (.composite operation components) a ∧ V a b) (build operation as)
        (other operation bs)

namespace Builders

variable {kind : Rule → Prop} {L V : Rule → Rule → Prop}
  {build : Operation → List Rule → Stateful σ Rule}
  {other : Operation → List Rule → Stateful τ Rule}

theorem rebuildEach_of {trees : List Rule}
    (h : ∀ tree ∈ trees,
      Matches R (fun a b => L tree a ∧ V a b) (tree.rebuild build) (tree.rebuild other)) :
    Matches R (fun as bs => List.Forall₂ L trees as ∧ List.Forall₂ V as bs)
      (Rule.rebuildEach build trees) (Rule.rebuildEach other trees) := by
  induction trees with
  | nil => exact .pure ⟨.nil, .nil⟩
  | cons tree rest ih =>
    rw [List.forall_mem_cons] at h
    rw [Rule.rebuildEach, Rule.rebuildEach]
    refine h.1.bind fun a b hab => ?_
    refine (ih h.2).bind fun as bs hrest => ?_
    exact .pure ⟨.cons hab.1 hrest.1, .cons hab.2 hrest.2⟩

variable (h : Builders R kind L V build other)
include h

/-- A rule that is built again, by induction on the rule. -/
theorem rebuild {tree : Rule} (htree : kind tree) :
    Matches R (fun a b => L tree a ∧ V a b) (tree.rebuild build) (tree.rebuild other) := by
  induction tree with
  | composite operation components ih =>
    have hcomponents := rebuildEach_of fun c hc => ih c hc (h.inside _ _ htree c hc)
    rw [Rule.rebuild, Rule.rebuild]
    exact hcomponents.bind fun as bs hboth => h.request _ _ as bs htree hboth.1 hboth.2
  | everything | nothing | pattern p | foreign value => exact .pure (h.atom _ htree rfl)

theorem rebuildEach {trees : List Rule} (htrees : ∀ tree ∈ trees, kind tree) :
    Matches R (fun as bs => List.Forall₂ L trees as ∧ List.Forall₂ V as bs)
      (Rule.rebuildEach build trees) (Rule.rebuildEach other trees) :=
  rebuildEach_of fun tree htree => h.rebuild (htrees tree htree)

/-- A text that is read.  If it is given up, it is given up with both builders, after both have made the
rules before. -/
theorem readWith (source : String)
    (hkind : ∀ trees, Rule.ComesTo source trees → ∀ tree ∈ trees, kind tree) :
    Matches R (Matched V) (Rule.readWith build source) (Rule.readWith other source) := by
  cases hread : Rule.read source with
  | ok tree =>
    have htree := hkind _ (Rule.comesTo_of_read hread) tree List.mem_cons_self
    rw [Rule.readWith_of_read _ hread, Rule.readWith_of_read _ hread]
    exact (h.rebuild htree).map fun a b hab => .ok hab.2
  | error error =>
    obtain ⟨trees, htrees, hgivesUp⟩ := Rule.readWith_of_read_error hread
    rw [hgivesUp, hgivesUp]
    exact (h.rebuildEach (hkind trees htrees)).map fun _ _ _ => .error error

end Builders

end Stateful

/-! ## Sessions -/

namespace Session

variable {wiring other : Engine.Wiring} {R : Engine.State → Engine.State → Prop}
  {E : Rule → Rule → Prop} {as bs : List (Option Rule)} {s t : Engine.State}

mutual

/-- Operands that use related answers stand for related rules, or both stand for none, if the relation
holds of every rule and itself and goes over from components to composites. -/
theorem Term.resolve_matched (hrefl : ∀ rule, E rule rule)
    (hcomposite : ∀ operation xs ys, List.Forall₂ E xs ys →
      E (.composite operation xs) (.composite operation ys))
    (h : List.Forall₂ (Option.Rel E) as bs) :
    (term : Term) → Matched E (term.resolve as) (term.resolve bs)
  | .given rule => .ok (hrefl rule)
  | .written source => by
    rw [Term.resolve, Term.resolve]
    cases Rule.read source with
    | ok rule => exact .ok (hrefl rule)
    | error error => exact .error _
  | .answer step => by
    rw [Term.resolve, Term.resolve]
    refine .ok ?_
    induction h generalizing step with
    | nil => exact hrefl _
    | cons hab _ ih =>
      cases step with
      | zero =>
        cases hab with
        | some hab => exact hab
        | none => exact hrefl _
      | succ step => exact ih step
  | .composite operation components => by
    rw [Term.resolve, Term.resolve]
    refine (Term.resolveList_matched hrefl hcomposite h components).bind fun xs ys hxy => ?_
    exact .ok (hcomposite operation xs ys hxy)

theorem Term.resolveList_matched (hrefl : ∀ rule, E rule rule)
    (hcomposite : ∀ operation xs ys, List.Forall₂ E xs ys →
      E (.composite operation xs) (.composite operation ys))
    (h : List.Forall₂ (Option.Rel E) as bs) :
    (terms : List Term) →
      Matched (List.Forall₂ E) (Term.resolveList as terms) (Term.resolveList bs terms)
  | [] => .ok .nil
  | term :: rest => by
    rw [Term.resolveList, Term.resolveList]
    refine (Term.resolve_matched hrefl hcomposite h term).bind fun x y hxy => ?_
    refine (Term.resolveList_matched hrefl hcomposite h rest).bind fun xs ys hrest => ?_
    exact .ok (.cons hxy hrest)

end

/-! ### Steps -/

/-- The same answers, with a condition on the rules among them. -/
theorem eq_of_answers {P : Rule → Prop}
    (h : List.Forall₂ (Option.Rel fun a b => a = b ∧ P a) as bs) :
    as = bs ∧ ∀ rule, some rule ∈ as → P rule := by
  have hsame : List.Forall₂ (fun a b => a = b ∧ ∀ rule, a = some rule → P rule) as bs := by
    refine h.imp ?_
    rintro _ _ (⟨rfl, ha⟩ | _)
    · refine ⟨rfl, ?_⟩
      rintro _ ⟨⟩
      exact ha
    · exact ⟨rfl, nofun⟩
  obtain ⟨heq, hall⟩ := eq_of_forall₂ hsame
  exact ⟨heq, fun rule hrule => hall _ hrule rule rfl⟩

/-- The answers are related rules, or the same answer that is none. -/
inductive Answer.Matched (E : Rule → Rule → Prop) : Answer → Answer → Prop
  | result {a b : Rule} (h : E a b) : Matched E (.result a) (.result b)
  | other {answer : Answer} (h : answer.rule? = none) : Matched E answer answer

namespace Answer

theorem Matched.rule? {a b : Answer} (h : a.Matched E b) : Option.Rel E a.rule? b.rule? := by
  cases h with
  | result h => exact .some h
  | other h =>
    rw [h]
    exact .none

theorem Matched.imp {F : Rule → Rule → Prop} {a b : Answer} (h : a.Matched E b)
    (hEF : ∀ x y, E x y → F x y) : a.Matched F b := by
  cases h with
  | result h => exact .result (hEF _ _ h)
  | other h => exact .other h

end Answer

/-- What two engines do with a step goes together. -/
def Step.Matches (wiring other : Engine.Wiring) (R : Engine.State → Engine.State → Prop)
    (E : Rule → Rule → Prop) (as bs : List (Option Rule)) : Step → Prop
  | .combine operation operands =>
    ∃ V : Rule → Rule → Prop,
      ExclusionAlgebra.Matched (List.Forall₂ V) (Term.resolveList as operands)
        (Term.resolveList bs operands) ∧
      ∀ xs ys, Term.resolveList as operands = .ok xs → List.Forall₂ V xs ys →
        Stateful.Matches R E (Engine.request wiring operation xs) (Engine.request other operation ys)
  | .everything => E .everything .everything
  | .nothing => E .nothing .nothing
  | .pattern p => E (.pattern p) (.pattern p)
  | .parse source =>
    Stateful.Matches R (ExclusionAlgebra.Matched E) (Engine.read wiring source)
      (Engine.read other source)
  | .clearCaches => ∀ s t, R s t → R s.clearCaches t.clearCaches
  | .clearJournal => ∀ s t, R s t → R s.clearJournal t.clearJournal
  | .journal => ∀ s t, R s t → s.journal.entries = t.journal.entries

/-- A request on the operands that both engines make of the same answers. -/
theorem Step.matches_combine {operation : Operation} {operands : List Term}
    (h : ∀ rules, Term.resolveList as operands = .ok rules →
      Stateful.Matches R E (Engine.request wiring operation rules)
        (Engine.request other operation rules)) :
    (Step.combine operation operands).Matches wiring other R E as as := by
  refine ⟨Eq, .self fun rules _ => List.forall₂_refl rules, fun xs ys hxs hsame => ?_⟩
  rw [List.forall₂_eq_eq_eq] at hsame
  subst hsame
  exact h xs hxs

theorem Step.run_matched {step : Step} (h : step.Matches wiring other R E as bs) (hst : R s t) :
    (step.run wiring as s).1.Matched E (step.run other bs t).1 ∧
      R (step.run wiring as s).2 (step.run other bs t).2 := by
  cases step with
  | combine operation operands =>
    obtain ⟨V, hoperands, hrequest⟩ := h
    cases hxs : Term.resolveList as operands with
    | error fault =>
      cases hys : Term.resolveList bs operands with
      | ok ys =>
        rw [hxs, hys] at hoperands
        cases hoperands
      | error fault' =>
        rw [hxs, hys] at hoperands
        cases hoperands
        simp only [run, hxs, hys]
        exact ⟨.other rfl, hst⟩
    | ok xs =>
      cases hys : Term.resolveList bs operands with
      | error fault' =>
        rw [hxs, hys] at hoperands
        cases hoperands
      | ok ys =>
        obtain ⟨houtcome, hafter⟩ := hrequest xs ys hxs (hoperands.of_ok hxs hys) s t hst
        rw [run_combine hxs, run_combine hys]
        refine ⟨?_, hafter⟩
        revert houtcome
        generalize (Engine.request wiring operation xs s).1 = a,
          (Engine.request other operation ys t).1 = b
        rintro (hab | fault)
        · exact .result hab
        · exact .other rfl
  | parse source =>
    obtain ⟨hreading, hafter⟩ := h s t hst
    rw [run_parse_eq, run_parse_eq]
    refine ⟨?_, hafter⟩
    revert hreading
    generalize (Engine.read wiring source s).1 = a, (Engine.read other source t).1 = b
    rintro ((hab | error) | fault)
    · exact .result hab
    · exact .other rfl
    · exact .other rfl
  | everything | nothing | pattern p => exact ⟨.result h, hst⟩
  | clearCaches => exact ⟨.other rfl, h s t hst⟩
  | clearJournal => exact ⟨.other rfl, h s t hst⟩
  | journal =>
    refine ⟨?_, hst⟩
    rw [run, run, h s t hst]
    exact .other rfl

/-! ### Whole sessions -/

/-- The condition holds of each step, with the answers before it and the engine that it finds. -/
def Along (wiring : Engine.Wiring) (good : List (Option Rule) → Engine.State → Step → Prop)
    (answers : List (Option Rule)) (state : Engine.State) : List Step → Prop
  | [] => True
  | step :: rest =>
    good answers state step ∧
      Along wiring good (answers ++ [(step.run wiring answers state).1.rule?])
        (step.run wiring answers state).2 rest

theorem along_of_forall {good : List (Option Rule) → Engine.State → Step → Prop} {steps : List Step}
    (h : ∀ step ∈ steps, ∀ answers state, good answers state step) (answers : List (Option Rule))
    (state : Engine.State) : Along wiring good answers state steps := by
  induction steps generalizing answers state with
  | nil => trivial
  | cons step rest ih =>
    rw [List.forall_mem_cons] at h
    exact ⟨h.1 answers state, ih h.2 _ _⟩

theorem Along.and {good fine : List (Option Rule) → Engine.State → Step → Prop} {steps : List Step}
    {answers : List (Option Rule)} {state : Engine.State}
    (h : Along wiring good answers state steps) (h' : Along wiring fine answers state steps) :
    Along wiring (fun answers state step => good answers state step ∧ fine answers state step) answers
      state steps := by
  induction steps generalizing answers state with
  | nil => trivial
  | cons step rest ih => exact ⟨⟨h.1, h'.1⟩, ih h.2 h'.2⟩

/-- The reports are made of related answers and related states. -/
def Report.Matched (R : Engine.State → Engine.State → Prop) (E : Rule → Rule → Prop)
    (p c : Report) : Prop :=
  ∃ a b s t, p = .of a s ∧ c = .of b t ∧ a.Matched E b ∧ R s t

/-- A whole session, by induction on its steps. -/
theorem runFrom_matched {good : List (Option Rule) → Engine.State → Step → Prop}
    (hstep : ∀ as bs s t step, List.Forall₂ (Option.Rel E) as bs → R s t → good as s step →
      step.Matches wiring other R E as bs)
    {steps : List Step} (hanswers : List.Forall₂ (Option.Rel E) as bs) (hst : R s t)
    (hgood : Along wiring good as s steps) :
    List.Forall₂ (Report.Matched R E) (runFrom wiring as s steps).1 (runFrom other bs t steps).1 ∧
      R (runFrom wiring as s steps).2 (runFrom other bs t steps).2 := by
  induction steps generalizing as bs s t with
  | nil => exact ⟨.nil, hst⟩
  | cons step rest ih =>
    obtain ⟨hfirst, hrest⟩ := hgood
    obtain ⟨hanswer, hafter⟩ := Step.run_matched (hstep as bs s t step hanswers hst hfirst) hst
    have hlonger := List.rel_append hanswers (.cons hanswer.rule? .nil)
    obtain ⟨hreports, hlast⟩ := ih hlonger hafter hrest
    exact ⟨.cons ⟨_, _, _, _, rfl, rfl, hanswer, hafter⟩ hreports, hlast⟩

end Session

/-! ## What every request keeps -/

namespace Engine

variable {wiring : Wiring} {I : State → Prop}
  (hrequest : ∀ operation rules s, I s → I (request wiring operation rules s).2)
include hrequest

/-- An engine of which something holds that requests keep goes together with itself.  The answers are
the same, with no condition on the rules among them. -/
theorem matches_kept (operation : Operation) (rules : List Rule) :
    Stateful.Matches (fun s t => s = t ∧ I s) (fun a b => a = b ∧ True)
      (request wiring operation rules) (request wiring operation rules) := by
  rintro s _ ⟨rfl, hI⟩
  exact ⟨.self fun _ _ => ⟨rfl, trivial⟩, rfl, hrequest operation rules s hI⟩

theorem builders_kept :
    Stateful.Builders (fun s t => s = t ∧ I s) (fun _ => True) (fun _ _ => True)
      (fun a b => a = b ∧ True) (request wiring) (request wiring) where
  inside _ _ _ _ _ := trivial
  atom _ _ _ := ⟨trivial, rfl, trivial⟩
  request := by
    intro operation _ as bs _ _ hsame
    obtain ⟨rfl, -⟩ := eq_of_forall₂ hsame
    exact (matches_kept hrequest operation as).imp fun _ _ hab => ⟨trivial, hab⟩

end Engine

namespace Session

/-- What every request keeps goes on to hold through a session, if it also does when memos or the
journal are emptied. -/
theorem runFrom_invariant {wiring : Engine.Wiring} {I : Engine.State → Prop}
    (hrequest : ∀ operation rules s, I s → I (Engine.request wiring operation rules s).2)
    (hcaches : ∀ s, I s → I s.clearCaches) (hjournal : ∀ s, I s → I s.clearJournal)
    (answers : List (Option Rule)) (steps : List Step) {s : Engine.State} (hs : I s) :
    I (runFrom wiring answers s steps).2 := by
  have hstep : ∀ as bs s t (step : Step), List.Forall₂ (Option.Rel fun a b => a = b ∧ True) as bs →
      s = t ∧ I s → True →
        step.Matches wiring wiring (fun s t => s = t ∧ I s) (fun a b => a = b ∧ True) as bs := by
    intro as bs _ _ step hanswers _ _
    obtain ⟨rfl, -⟩ := eq_of_answers hanswers
    cases step with
    | combine operation operands =>
      exact Step.matches_combine fun rules _ => Engine.matches_kept hrequest operation rules
    | parse source => exact (Engine.builders_kept hrequest).readWith source fun _ _ _ _ => trivial
    | everything | nothing | pattern p => exact ⟨rfl, trivial⟩
    | clearCaches =>
      rintro s _ ⟨rfl, hI⟩
      exact ⟨rfl, hcaches s hI⟩
    | clearJournal =>
      rintro s _ ⟨rfl, hI⟩
      exact ⟨rfl, hjournal s hI⟩
    | journal =>
      rintro s _ ⟨rfl, -⟩
      rfl
  have hanswers : List.Forall₂ (Option.Rel fun a b : Rule => a = b ∧ True) answers answers := by
    refine List.forall₂_same.mpr fun answer _ => ?_
    cases answer with
    | none => exact .none
    | some rule => exact .some ⟨rfl, trivial⟩
  obtain ⟨-, -, hlast⟩ := runFrom_matched hstep hanswers ⟨rfl, hs⟩
    (along_of_forall (fun _ _ _ _ => trivial) answers s)
  exact hlast

end Session

end ExclusionAlgebra
