import ExclusionAlgebra.Proofs.Notation.Runs
import ExclusionAlgebra.Proofs.Returns

/-!
# Reading with a factory

The reader asks a factory for each rule as soon as its text is read.  What characters it passes does
not depend on what the factory gives, so reading a text with any factory comes to reading it as it is
written and making the result again.  A text that cannot be read is given up at the same place with
every factory, after the rules before it have been made.

* `Reader.Reads.run`, `Reader.Fails.run`: given enough nested calls, the reader goes the way of the run
  and asks the factory for the rules that were read, one after another.
* `Rule.read_eq_ok_iff`, `Rule.read_eq_error_iff`: the runs behind what is read.
* `Rule.ComesTo`, `Rule.forall_of_comesTo`: the rules that reading a text comes to; what all atoms have,
  and all composites with at least one component if their components have it, these rules have.
* `Rule.readWith_of_read`, `Rule.readWith_of_read_error`: reading with a builder is building again.
-/

namespace ExclusionAlgebra

/-! ## Sequencing below a factory -/

section

variable {ε α β γ : Type} {m : Type → Type} [Monad m] [LawfulMonad m]

/-- Going on from a computation that cannot fail, in another form. -/
theorem run_bind_of_run {x : ExceptT ε m α} {f : α → ExceptT ε m β} {y : m γ} {g : γ → α}
    (h : x.run = (fun c => .ok (g c)) <$> y) : (x >>= f).run = y >>= fun c => (f (g c)).run := by
  rw [ExceptT.run_bind, h, bind_map_left]

/-- Nothing goes on from a computation that fails. -/
theorem run_bind_of_run_error {x : ExceptT ε m α} {f : α → ExceptT ε m β} {e : ε} {y : m γ}
    (h : x.run = (fun _ => .error e) <$> y) : (x >>= f).run = (fun _ => .error e) <$> y := by
  rw [ExceptT.run_bind, h, bind_map_left]
  exact bind_pure_comp _ _

end

namespace Reader

/-- An atom is a special word or a pattern. -/
theorem atom_cases {text rest : List Char} {r : Rule} (h : atom text = .ok (r, rest)) :
    r = .everything ∨ r = .nothing ∨ ∃ p, r = .pattern p := by
  rcases atom_eq_ok h with ⟨hconstant, -⟩ | ⟨-, p, rfl, -⟩
  · rcases (constant?_cases hconstant).2 with ⟨rfl, -⟩ | ⟨rfl, -⟩
    · exact .inl rfl
    · exact .inr (.inl rfl)
  · exact .inr (.inr ⟨p, rfl⟩)

theorem isComposite_of_atom {text rest : List Char} {r : Rule} (h : atom text = .ok (r, rest)) :
    r.isComposite = false := by
  rcases atom_cases h with rfl | rfl | ⟨p, rfl⟩ <;> rfl

/-! ## The reader goes the way of the run -/

section

variable {m : Type → Type} [Monad m] [LawfulMonad m] (factory : Factory m)

mutual

theorem Reads.run {text rest : List Char} {r : Rule} : ∀ fuel : Nat,
    Reads text r rest → text.length < fuel →
      (rule factory fuel text).run = (fun made => .ok (made, rest)) <$> r.traverse factory
  | 0, _, hfuel => absurd hfuel (Nat.not_lt_zero _)
  | fuel + 1, .atom hopening hatom, hfuel => by
    rw [Rule.traverse_of_not_composite factory (isComposite_of_atom hatom)]
    simp only [rule, hopening, hatom]
    rw [ExceptT.run_bind]
    simp [Except.map]
  | fuel + 1, .composite hopening hitems, hfuel => by
    have hinside := length_of_opening? hopening
    have hrun := hitems.run fuel (by omega)
    simp only [rule, hopening]
    rw [run_bind_of_run hrun, Rule.traverse, map_bind]
    simp [Except.map]

theorem ReadsItems.run {text rest : List Char} {rs : List Rule} : ∀ fuel : Nat,
    ReadsItems text rs rest → text.length + 1 < fuel →
      (items factory fuel text).run = (fun made => .ok (made, rest)) <$> Rule.traverseEach factory rs
  | 0, _, hfuel => absurd hfuel (Nat.not_lt_zero _)
  | fuel + 1, .last hfirst hafter, hfuel => by
    have hrun := hfirst.run fuel (by omega)
    rw [items, run_bind_of_run hrun]
    simp [hafter, Rule.traverseEach]
  | fuel + 1, .more hfirst hafter hothers, hfuel => by
    have hlt := hfirst.length_lt
    have hlength := length_of_skipBlank hafter
    have hrun := hfirst.run fuel (by omega)
    have hrest := hothers.run fuel (by omega)
    rw [items, run_bind_of_run hrun]
    simp [hafter, hrest, Rule.traverseEach, Except.map]

end

mutual

theorem Fails.run {text : List Char} {rs : List Rule} {failure : Failure} : ∀ fuel : Nat,
    Fails text rs failure → text.length < fuel →
      (rule factory fuel text).run = (fun _ => .error failure) <$> Rule.traverseEach factory rs
  | 0, _, hfuel => absurd hfuel (Nat.not_lt_zero _)
  | fuel + 1, .atom hopening hatom, hfuel => by
    simp only [rule, hopening, hatom]
    rw [ExceptT.run_bind]
    simp [Rule.traverseEach]
  | fuel + 1, .inside hopening hitems, hfuel => by
    have hinside := length_of_opening? hopening
    have hrun := hitems.run fuel (by omega)
    simp only [rule, hopening]
    exact run_bind_of_run_error hrun

theorem FailsItems.run {text : List Char} {rs : List Rule} {failure : Failure} : ∀ fuel : Nat,
    FailsItems text rs failure → text.length + 1 < fuel →
      (items factory fuel text).run = (fun _ => .error failure) <$> Rule.traverseEach factory rs
  | 0, _, hfuel => absurd hfuel (Nat.not_lt_zero _)
  | fuel + 1, .first hfirst, hfuel => by
    rw [items]
    exact run_bind_of_run_error (hfirst.run fuel (by omega))
  | fuel + 1, .separator hfirst hcomma hparenthesis, hfuel => by
    rw [items, run_bind_of_run (hfirst.run factory fuel (by omega))]
    dsimp only
    split
    · rename_i heq
      rw [heq] at hcomma
      exact absurd rfl hcomma
    · rename_i heq
      rw [heq] at hparenthesis
      exact absurd rfl hparenthesis
    · simp [Rule.traverseEach]
  | fuel + 1, .later hfirst hafter hothers, hfuel => by
    have hlt := hfirst.length_lt
    have hlength := length_of_skipBlank hafter
    have hrest := hothers.run fuel (by omega)
    rw [items, run_bind_of_run (hfirst.run factory fuel (by omega))]
    simp [hafter, hrest, Rule.traverseEach, Except.map]

end

variable {text : List Char}

theorem ReadsDocument.run {r : Rule} (h : ReadsDocument text r) (fuel : Nat)
    (hfuel : text.length < fuel) :
    (document factory fuel text).run = Except.ok <$> r.traverse factory := by
  obtain ⟨rest, hread, hrest⟩ := h
  rw [document, run_bind_of_run (hread.run factory fuel hfuel)]
  simp [hrest]

theorem FailsDocument.run {rs : List Rule} {failure : Failure} (h : FailsDocument text rs failure)
    (fuel : Nat) (hfuel : text.length < fuel) : (document factory fuel text).run =
      (fun _ => .error failure) <$> Rule.traverseEach factory rs := by
  cases h with
  | inside hfail =>
    rw [document]
    exact run_bind_of_run_error (hfail.run factory fuel hfuel)
  | excess hread hrest =>
    rw [document, run_bind_of_run (hread.run factory fuel hfuel)]
    simp [hrest, Rule.traverseEach]

end

/-- A text is read in one way. -/
theorem ReadsDocument.unique {text : List Char} {r r' : Rule} (h : ReadsDocument text r)
    (h' : ReadsDocument text r') : r = r' := by
  have hrun := h.run .verbatim (text.length + 1) (by omega)
  have hrun' := h'.run .verbatim (text.length + 1) (by omega)
  rw [hrun, Rule.traverse_verbatim, Rule.traverse_verbatim] at hrun'
  exact Except.ok.inj hrun'

/-- A text that is read is not refused. -/
theorem FailsDocument.not_readsDocument {text : List Char} {r : Rule} {rs : List Rule}
    {failure : Failure} (hfail : FailsDocument text rs failure) : ¬ ReadsDocument text r := by
  intro hread
  have hok := hread.run .verbatim (text.length + 1) (by omega)
  have herror := hfail.run .verbatim (text.length + 1) (by omega)
  rw [hok] at herror
  cases herror

/-! ## What all rules that are read have -/

mutual

theorem Reads.forall {P : Rule → Prop} {text rest : List Char} {r : Rule}
    (hatom : ∀ text r rest, Reader.atom text = .ok (r, rest) → P r)
    (hcomposite : ∀ operation components, components ≠ [] → (∀ c ∈ components, P c) →
      P (.composite operation components)) : Reads text r rest → P r
  | .atom _ h => hatom _ _ _ h
  | .composite _ hitems =>
    have hall := hitems.forall hatom hcomposite
    hcomposite _ _ hall.1 hall.2

/-- A composite that is read has at least one component. -/
theorem ReadsItems.forall {P : Rule → Prop} {text rest : List Char} {rs : List Rule}
    (hatom : ∀ text r rest, Reader.atom text = .ok (r, rest) → P r)
    (hcomposite : ∀ operation components, components ≠ [] → (∀ c ∈ components, P c) →
      P (.composite operation components)) : ReadsItems text rs rest → rs ≠ [] ∧ ∀ r ∈ rs, P r
  | .last hfirst _ =>
    ⟨nofun, List.forall_mem_singleton.mpr (hfirst.forall hatom hcomposite)⟩
  | .more hfirst _ hothers =>
    have hall := hothers.forall hatom hcomposite
    ⟨nofun, List.forall_mem_cons.mpr ⟨hfirst.forall hatom hcomposite, hall.2⟩⟩

end

mutual

/-- So has every rule that is read before a text is given up. -/
theorem Fails.forall {P : Rule → Prop} {text : List Char} {rs : List Rule} {failure : Failure}
    (hatom : ∀ text r rest, Reader.atom text = .ok (r, rest) → P r)
    (hcomposite : ∀ operation components, components ≠ [] → (∀ c ∈ components, P c) →
      P (.composite operation components)) : Fails text rs failure → ∀ r ∈ rs, P r
  | .atom _ _ => nofun
  | .inside _ hitems => hitems.forall hatom hcomposite

theorem FailsItems.forall {P : Rule → Prop} {text : List Char} {rs : List Rule} {failure : Failure}
    (hatom : ∀ text r rest, Reader.atom text = .ok (r, rest) → P r)
    (hcomposite : ∀ operation components, components ≠ [] → (∀ c ∈ components, P c) →
      P (.composite operation components)) : FailsItems text rs failure → ∀ r ∈ rs, P r
  | .first hfirst => hfirst.forall hatom hcomposite
  | .separator hfirst _ _ => List.forall_mem_singleton.mpr (hfirst.forall hatom hcomposite)
  | .later hfirst _ hothers =>
    List.forall_mem_cons.mpr ⟨hfirst.forall hatom hcomposite, hothers.forall hatom hcomposite⟩

end

end Reader

namespace Rule

/-! ## Whole texts -/

section

variable {m : Type → Type} [Monad m] [LawfulMonad m] (factory : Factory m) {source : String}

theorem readBy_of_readsDocument {tree : Rule} (h : Reader.ReadsDocument source.toList tree) :
    readBy factory source = Except.ok <$> tree.traverse factory := by
  have hrun := h.run factory (source.toList.length + 2) (by omega)
  simp [readBy, hrun, Except.mapError]

theorem readBy_of_failsDocument {trees : List Rule} {failure : Reader.Failure}
    (h : Reader.FailsDocument source.toList trees failure) : readBy factory source =
      (fun _ => .error (failure.toSyntaxError source.toList)) <$> traverseEach factory trees := by
  have hrun := h.run factory (source.toList.length + 2) (by omega)
  simp [readBy, hrun, Except.mapError]

end

variable {source : String}

theorem read_of_readsDocument {tree : Rule} (h : Reader.ReadsDocument source.toList tree) :
    read source = .ok tree := by
  rw [read, readBy_of_readsDocument _ h, traverse_verbatim]
  rfl

theorem read_of_failsDocument {trees : List Rule} {failure : Reader.Failure}
    (h : Reader.FailsDocument source.toList trees failure) :
    read source = .error (failure.toSyntaxError source.toList) := by
  rw [read, readBy_of_failsDocument _ h]
  rfl

theorem read_eq_ok_iff {tree : Rule} :
    read source = .ok tree ↔ Reader.ReadsDocument source.toList tree := by
  refine ⟨fun h => ?_, read_of_readsDocument⟩
  rcases Reader.reads_or_fails source.toList with ⟨other, hread⟩ | ⟨trees, failure, hfail⟩
  · rw [read_of_readsDocument hread] at h
    cases h
    exact hread
  · rw [read_of_failsDocument hfail] at h
    cases h

theorem read_eq_error_iff {error : SyntaxError} :
    read source = .error error ↔ ∃ trees failure,
      Reader.FailsDocument source.toList trees failure ∧
        error = failure.toSyntaxError source.toList := by
  constructor
  · intro h
    rcases Reader.reads_or_fails source.toList with ⟨tree, hread⟩ | ⟨trees, failure, hfail⟩
    · rw [read_of_readsDocument hread] at h
      cases h
    · rw [read_of_failsDocument hfail] at h
      cases h
      exact ⟨trees, failure, hfail, rfl⟩
  · rintro ⟨trees, failure, hfail, rfl⟩
    exact read_of_failsDocument hfail

/-- Reading the text comes to these rules, from the left: to the rule that it says, or to those that are
read before it is given up. -/
def ComesTo (source : String) (trees : List Rule) : Prop :=
  (∃ tree, Reader.ReadsDocument source.toList tree ∧ trees = [tree]) ∨
    ∃ failure, Reader.FailsDocument source.toList trees failure

theorem comesTo_of_read {tree : Rule} (h : read source = .ok tree) : ComesTo source [tree] :=
  .inl ⟨tree, read_eq_ok_iff.mp h, rfl⟩

/-- What atoms have, and composites with at least one component from their components, every rule
that reading comes to has. -/
theorem forall_of_comesTo {P : Rule → Prop}
    (hatom : ∀ text r rest, Reader.atom text = .ok (r, rest) → P r)
    (hcomposite : ∀ operation components, components ≠ [] → (∀ c ∈ components, P c) →
      P (.composite operation components)) {trees : List Rule} (h : ComesTo source trees) :
    ∀ tree ∈ trees, P tree := by
  rcases h with ⟨tree, ⟨rest, hread, -⟩, rfl⟩ | ⟨failure, hfail⟩
  · exact List.forall_mem_singleton.mpr (hread.forall hatom hcomposite)
  · cases hfail with
    | inside hinside => exact hinside.forall hatom hcomposite
    | excess hread _ => exact List.forall_mem_singleton.mpr (hread.forall hatom hcomposite)

theorem forall_of_read {P : Rule → Prop}
    (hatom : ∀ text r rest, Reader.atom text = .ok (r, rest) → P r)
    (hcomposite : ∀ operation components, components ≠ [] → (∀ c ∈ components, P c) →
      P (.composite operation components)) {tree : Rule} (h : read source = .ok tree) : P tree :=
  forall_of_comesTo hatom hcomposite (comesTo_of_read h) tree List.mem_cons_self

theorem known_of_comesTo {trees : List Rule} (h : ComesTo source trees) :
    ∀ tree ∈ trees, tree.Known := by
  refine forall_of_comesTo ?_ ?_ h
  · intro text r rest hatom
    rcases Reader.atom_cases hatom with rfl | rfl | ⟨p, rfl⟩ <;> rfl
  · intro operation components _ hall
    exact known_composite.mpr hall

theorem known_of_read {tree : Rule} (h : read source = .ok tree) : tree.Known :=
  known_of_comesTo (comesTo_of_read h) tree List.mem_cons_self

/-- A text that is read as it is written is read with any builder: what comes out is the rule, built
again. -/
theorem readWith_of_read {m : Type → Type} [Monad m] [LawfulMonad m]
    (build : Operation → List Rule → m Rule) {tree : Rule} (h : read source = .ok tree) :
    readWith build source = Except.ok <$> tree.rebuild build := by
  rw [readWith, readBy_of_readsDocument _ (read_eq_ok_iff.mp h), traverse_ofCombine]

/-- A text that cannot be read is refused with the same error whatever the builder, which has built
some rules by then. -/
theorem readWith_of_read_error {error : SyntaxError} (h : read source = .error error) :
    ∃ trees : List Rule, ComesTo source trees ∧
      ∀ {m : Type → Type} [Monad m] [LawfulMonad m] (build : Operation → List Rule → m Rule),
        readWith build source = (fun _ => .error error) <$> rebuildEach build trees := by
  obtain ⟨trees, failure, hfail, rfl⟩ := read_eq_error_iff.mp h
  refine ⟨trees, .inr ⟨failure, hfail⟩, fun build => ?_⟩
  rw [readWith, readBy_of_failsDocument _ hfail, traverseEach_ofCombine]

/-- In either case the builder is asked for what reading the text comes to, and nothing else. -/
theorem readWith_of_comesTo {trees : List Rule} (h : ComesTo source trees) :
    ∃ finish : List Rule → Except SyntaxError Rule,
      ∀ {m : Type → Type} [Monad m] [LawfulMonad m] (build : Operation → List Rule → m Rule),
        readWith build source = finish <$> rebuildEach build trees := by
  rcases h with ⟨tree, hread, rfl⟩ | ⟨failure, hfail⟩
  · refine ⟨fun made => .ok (made.headD tree), fun build => ?_⟩
    rw [readWith, readBy_of_readsDocument _ hread, traverse_ofCombine]
    simp [rebuildEach]
  · refine ⟨fun _ => .error (failure.toSyntaxError source.toList), fun build => ?_⟩
    rw [readWith, readBy_of_failsDocument _ hfail, traverseEach_ofCombine]

end Rule

end ExclusionAlgebra
