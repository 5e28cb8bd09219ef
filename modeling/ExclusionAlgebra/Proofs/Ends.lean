import ExclusionAlgebra.Proofs.Returns

/-!
# Computations that end

A computation that is granted a depth ends if from some depth on it comes to one outcome, which may be
a fault.  These lemmas say so of sequences, passes over a list and folds, with a condition on what is
returned and one on the faults.

* `Outcome`: a condition on results and a condition on faults, as a condition on outcomes.
* `Outcome.bind`, `outcome_mapM`, `outcome_foldlM`: computations put together from such.
* `Ends`: from some depth on there is one outcome, of which the condition holds.
* `Ends.bind`, `ends_mapM`, `ends_foldlM`: computations put together from such that end.
* `Ends.holds`: the condition holds of what is returned at any depth.
-/

namespace ExclusionAlgebra

variable {ε α β : Type} {R : α → Prop} {S : β → Prop} {E : ε → Prop}

/-- The one condition holds of what is returned, or the other of the fault. -/
def Outcome (R : α → Prop) (E : ε → Prop) : Except ε α → Prop
  | .ok a => R a
  | .error e => E e

theorem outcome_iff {x : Except ε α} :
    Outcome R E x ↔ (∀ a, x = .ok a → R a) ∧ ∀ e, x = .error e → E e := by
  cases x <;> simp [Outcome]

/-- If no fault satisfies the condition on faults, something is returned. -/
theorem Outcome.exists_ok {x : Except ε α} (h : Outcome R (fun _ => False) x) :
    ∃ a, x = .ok a ∧ R a := by
  cases x with
  | ok a => exact ⟨a, rfl, h⟩
  | error e => exact absurd h id

theorem Outcome.imp {T : α → Prop} {x : Except ε α} (h : Outcome R E x) (hRT : ∀ a, R a → T a) :
    Outcome T E x := by
  cases x with
  | ok a => exact hRT a h
  | error e => exact h

/-- What goes on from a result may count on the condition on results. -/
theorem Outcome.bind {x : Except ε α} {f : α → Except ε β} (hx : Outcome R E x)
    (hf : ∀ a, R a → Outcome S E (f a)) : Outcome S E (x >>= f) := by
  cases x with
  | ok a => exact hf a hx
  | error e => exact hx

theorem outcome_mapM {f : α → Except ε β} {xs : List α} (h : ∀ x ∈ xs, Outcome S E (f x)) :
    Outcome (fun ys => ∀ y ∈ ys, S y) E (xs.mapM f) := by
  induction xs with
  | nil => exact List.forall_mem_nil S
  | cons x rest ih =>
    rw [List.forall_mem_cons] at h
    rw [List.mapM_cons]
    refine h.1.bind fun y hy => ?_
    refine (ih h.2).bind fun ys hys => ?_
    exact List.forall_mem_cons.mpr ⟨hy, hys⟩

theorem outcome_foldlM {f : α → β → Except ε α} {xs : List β} (hxs : ∀ x ∈ xs, S x)
    (hf : ∀ a x, R a → S x → Outcome R E (f a x)) {a : α} (ha : R a) :
    Outcome R E (xs.foldlM f a) := by
  induction xs generalizing a with
  | nil => exact ha
  | cons x rest ih =>
    rw [List.forall_mem_cons] at hxs
    rw [List.foldlM_cons]
    exact (hf a x ha hxs.1).bind fun b hb => ih hxs.2 hb

/-- From some depth on the run comes to one outcome, and the condition holds of it. -/
def Ends {γ : Type} (P : γ → Prop) (run : Nat → γ) : Prop :=
  ∃ outcome, P outcome ∧ ∃ bound, ∀ depth, bound ≤ depth → run depth = outcome

section

variable {γ : Type} {P : γ → Prop} {run : Nat → γ}

theorem ends_iff :
    Ends P run ↔ ∃ outcome, P outcome ∧ ∃ bound, ∀ depth, bound ≤ depth → run depth = outcome :=
  Iff.rfl

theorem ends_const {outcome : γ} (h : P outcome) : Ends P fun _ => outcome :=
  ⟨outcome, h, 0, fun _ _ => rfl⟩

theorem Ends.imp {Q : γ → Prop} (h : Ends P run) (hPQ : ∀ outcome, P outcome → Q outcome) :
    Ends Q run := by
  obtain ⟨outcome, hP, hrun⟩ := h
  exact ⟨outcome, hPQ outcome hP, hrun⟩

/-- It makes no difference whether one more is granted. -/
theorem Ends.of_succ (h : Ends P fun depth => run (depth + 1)) : Ends P run := by
  obtain ⟨outcome, hP, bound, hrun⟩ := h
  refine ⟨outcome, hP, bound + 1, fun depth hdepth => ?_⟩
  have hsucc : depth - 1 + 1 = depth := by omega
  rw [← hsucc]
  exact hrun (depth - 1) (by omega)

end

/-- The condition holds of whatever is returned at some depth, if a greater depth returns it as well. -/
theorem Ends.holds {x : Nat → Except ε α} (h : Ends (Outcome R E) x)
    (hmono : ∀ m n, m ≤ n → ∀ a, x m = .ok a → x n = .ok a) {depth : Nat} {a : α}
    (ha : x depth = .ok a) : R a := by
  obtain ⟨outcome, houtcome, bound, hrun⟩ := h
  have hlast := hrun (max bound depth) (Nat.le_max_left bound depth)
  rw [hmono _ _ (Nat.le_max_right bound depth) a ha] at hlast
  rwa [← hlast] at houtcome

/-- What goes on from a run that ends may count on one outcome of it. -/
theorem Ends.bind {x : Nat → Except ε α} {f : Nat → α → Except ε β} (hx : Ends (Outcome R E) x)
    (hf : ∀ a, R a → Ends (Outcome S E) fun depth => f depth a) :
    Ends (Outcome S E) fun depth => x depth >>= f depth := by
  rw [ends_iff] at hx ⊢
  obtain ⟨outcome, houtcome, first, hrun⟩ := hx
  cases outcome with
  | error e =>
    refine ⟨.error e, houtcome, first, fun depth hdepth => ?_⟩
    rw [hrun depth hdepth]
    rfl
  | ok a =>
    obtain ⟨last, hlast, second, hnext⟩ := ends_iff.mp (hf a houtcome)
    refine ⟨last, hlast, max first second, fun depth hdepth => ?_⟩
    rw [hrun depth (by omega)]
    exact hnext depth (by omega)

theorem ends_mapM {f : Nat → α → Except ε β} {xs : List α}
    (h : ∀ x ∈ xs, Ends (Outcome S E) fun depth => f depth x) :
    Ends (Outcome (fun ys => ys.length = xs.length ∧ ∀ y ∈ ys, S y) E) fun depth =>
      xs.mapM (f depth) := by
  induction xs with
  | nil => exact ends_const ⟨rfl, List.forall_mem_nil S⟩
  | cons x rest ih =>
    rw [List.forall_mem_cons] at h
    simp only [List.mapM_cons]
    refine h.1.bind fun y hy => ?_
    refine (ih h.2).bind fun ys ⟨hlength, hys⟩ => ?_
    exact ends_const ⟨congrArg (· + 1) hlength, List.forall_mem_cons.mpr ⟨hy, hys⟩⟩

theorem ends_foldlM {f : Nat → α → β → Except ε α} {xs : List β} (hxs : ∀ x ∈ xs, S x)
    (hf : ∀ a x, R a → S x → Ends (Outcome R E) fun depth => f depth a x) {a : α} (ha : R a) :
    Ends (Outcome R E) fun depth => xs.foldlM (f depth) a := by
  induction xs generalizing a with
  | nil => exact ends_const ha
  | cons x rest ih =>
    rw [List.forall_mem_cons] at hxs
    simp only [List.foldlM_cons]
    exact (hf a x ha hxs.1).bind fun b hb => ih hxs.2 hb

end ExclusionAlgebra
