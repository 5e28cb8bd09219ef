import ExclusionAlgebra.Proofs.Engine.Recording

/-!
# What an engine tells of a rule that it builds

An engine that records writes one entry when it builds a composite, behind those of the components.  So
the entries of a rule stand in the order of its composites, whether a memo has answered or not, and each
is of a request to combine what the entries before it tell.  An engine that does not record writes
nothing.

* `Rule.Told`, `Rule.ToldEach`: the entries that building a rule again is told by, and what comes out.
* `Rule.ToldEach.tells`: there is one for each composite, in the order of `Rule.composites`.
* `Engine.Writes`: what a successful action adds to the journal, with a rule for sequences.
* `Engine.writes_request`, `Engine.writes_rebuild`: one request, and a rule that is built again.
-/

namespace ExclusionAlgebra

/-! ## Entries of composites -/

/-- The entry is of the composite: its operation on as many operands as the composite has components. -/
def LogEntry.Tells (entry : LogEntry) (node : Rule) : Prop :=
  ∃ operation components operands result, node = .composite operation components ∧
    operands.length = components.length ∧ entry.Describes ⟨operation, operands⟩ result

namespace Rule

mutual

/-- The entries tell how the rule was built again and what came out: those of its components, then one
entry of the request to combine what these came to.  What is no composite has none and is kept. -/
inductive Told : Rule → List LogEntry → Rule → Prop
  | atom {rule : Rule} (h : rule.isComposite = false) : Told rule [] rule
  | composite {operation : Operation} {components results : List Rule} {inside : List LogEntry}
    {entry : LogEntry} {result : Rule} (hinside : ToldEach components inside results)
    (hentry : entry.Describes ⟨operation, results⟩ result) :
    Told (.composite operation components) (inside ++ [entry]) result

/-- The rules are told one after another. -/
inductive ToldEach : List Rule → List LogEntry → List Rule → Prop
  | nil : ToldEach [] [] []
  | cons {rule result : Rule} {rest results : List Rule} {first others : List LogEntry}
    (hfirst : Told rule first result) (hrest : ToldEach rest others results) :
    ToldEach (rule :: rest) (first ++ others) (result :: results)

end

theorem ToldEach.length_eq {rules results : List Rule} {entries : List LogEntry} :
    ToldEach rules entries results → results.length = rules.length
  | .nil => rfl
  | .cons _ hrest => congrArg (· + 1) hrest.length_eq

mutual

/-- There is one entry for each composite, in the order in which composites are combined. -/
theorem Told.tells {rule result : Rule} {entries : List LogEntry} :
    Told rule entries result →
      List.Forall₂ (fun node entry => entry.Tells node) rule.composites entries
  | .atom h => by
    rw [composites_eq_nil h]
    exact .nil
  | .composite hinside hentry => by
    rw [composites]
    refine List.rel_append hinside.tells (.cons ?_ .nil)
    exact ⟨_, _, _, _, rfl, hinside.length_eq, hentry⟩

theorem ToldEach.tells {rules results : List Rule} {entries : List LogEntry} :
    ToldEach rules entries results →
      List.Forall₂ (fun node entry => entry.Tells node) (compositesIn rules) entries
  | .nil => .nil
  | .cons hfirst hrest => by
    rw [compositesIn]
    exact List.rel_append hfirst.tells hrest.tells

end

end Rule

/-! ## Actions -/

namespace Engine

variable {wiring : Wiring} {traced : Bool}

/-- The engine records before layers that do not, or does not record at all. -/
def Traced (traced : Bool) (layers : List Layer) : Prop :=
  ∃ below, layers = (if traced then [.logging true] else []) ++ below ∧ Silent below

theorem traced_layers (options : Options) : Traced options.journal options.layers := by
  obtain ⟨cache, journal⟩ := options
  refine ⟨if cache then [.caching .empty] else [], rfl, ?_⟩
  cases cache <;> simp [Silent]

/-- If the action returns, the new entries are as they should be for what it returns; an engine that
does not record has none. -/
def Writes {α : Type} (traced : Bool) (T : List LogEntry → α → Prop) (x : Action α) : Prop :=
  ∀ s t a, Traced traced s.layers → x s = (.ok a, t) → Traced traced t.layers ∧
    ∃ new, t.journal.entries = s.journal.entries ++ new ∧ if traced then T new a else new = []

theorem writes_pure {α : Type} {T : List LogEntry → α → Prop} {a : α} (h : T [] a) :
    Writes traced T (pure a : Action α) := by
  rintro s t b hs ⟨⟩
  refine ⟨hs, [], (List.append_nil _).symm, ?_⟩
  cases traced
  · rfl
  · exact h

theorem writes_bind {α β : Type} {T : List LogEntry → α → Prop} {U : α → List LogEntry → β → Prop}
    {V : List LogEntry → β → Prop} {x : Action α} {f : α → Action β} (hx : Writes traced T x)
    (hf : ∀ a, Writes traced (U a) (f a))
    (hV : ∀ a b first second, T first a → U a second b → V (first ++ second) b) :
    Writes traced V (x >>= f) := by
  intro s u b hs h
  obtain ⟨a, t, ha, hb⟩ := bind_apply_eq_ok.mp h
  obtain ⟨ht, first, hfirst, hT⟩ := hx s t a hs ha
  obtain ⟨hu, second, hsecond, hU⟩ := hf a t u b ht hb
  refine ⟨hu, first ++ second, ?_, ?_⟩
  · rw [hsecond, hfirst, List.append_assoc]
  · cases traced with
    | false =>
      rw [show first = [] from hT, show second = [] from hU]
      rfl
    | true => exact hV a b first second hT hU

theorem writes_bind_pure {α β : Type} {T : List LogEntry → α → Prop} {U : List LogEntry → β → Prop}
    {x : Action α} {f : α → β} (hx : Writes traced T x) (hf : ∀ new a, T new a → U new (f a)) :
    Writes traced U (x >>= fun a => pure (f a)) := by
  refine writes_bind hx (U := fun a new b => new = [] ∧ b = f a) (fun a => writes_pure ⟨rfl, rfl⟩) ?_
  rintro a _ first _ hT ⟨rfl, rfl⟩
  rw [List.append_nil]
  exact hf first a hT

/-- A request that returns is recorded once, whoever answers it behind the recording layer. -/
theorem writes_request (operation : Operation) (rules : List Rule) :
    Writes traced (fun new result => ∃ entry : LogEntry, new = [entry] ∧
      entry.Describes ⟨operation, rules⟩ result) (request wiring operation rules) := by
  rintro ⟨layers, journal⟩ t result ⟨below, rfl, hsilent⟩ h
  obtain ⟨hjournal, hafter⟩ := serve_silent wiring operation rules hsilent journal
  cases traced with
  | false =>
    have hserve : serve wiring operation rules below journal = (.ok result, t) := h
    rw [hserve] at hjournal hafter
    exact ⟨⟨t.layers, rfl, hafter⟩, [], by rw [hjournal, List.append_nil], rfl⟩
  | true =>
    have hrecorded : serve wiring operation rules (.logging true :: below) journal =
        (.ok result, t) := h
    obtain ⟨inner, entry, hserve, hdescribes, rfl⟩ := serve_logging_eq_ok hrecorded
    rw [hserve] at hjournal hafter
    refine ⟨⟨inner.layers, rfl, hafter⟩, [entry], ?_, entry, rfl, hdescribes⟩
    rw [← hjournal]
    rfl

theorem writes_rebuildEach {trees : List Rule}
    (htrees : ∀ tree ∈ trees, Writes traced tree.Told (tree.rebuild (request wiring))) :
    Writes traced (Rule.ToldEach trees) (Rule.rebuildEach (request wiring) trees) := by
  induction trees with
  | nil => exact writes_pure .nil
  | cons tree rest ih =>
    rw [List.forall_mem_cons] at htrees
    rw [Rule.rebuildEach]
    refine writes_bind htrees.1 (U := fun first new rules => ∃ others, rules = first :: others ∧
      Rule.ToldEach rest new others) (fun first => ?_) ?_
    · exact writes_bind_pure (ih htrees.2) fun new others hothers => ⟨others, rfl, hothers⟩
    · rintro first _ entries new hfirst ⟨others, rfl, hothers⟩
      exact .cons hfirst hothers

/-- A rule that is built again is told by the new entries, by induction on the rule. -/
theorem writes_rebuild (tree : Rule) :
    Writes traced tree.Told (tree.rebuild (request wiring)) := by
  induction tree with
  | composite operation components ih =>
    rw [Rule.rebuild]
    refine writes_bind (writes_rebuildEach ih) (writes_request operation) ?_
    rintro results result inside _ hinside ⟨entry, rfl, hentry⟩
    exact .composite hinside hentry
  | everything | nothing | pattern p | foreign value => exact writes_pure (.atom rfl)

end Engine

end ExclusionAlgebra
