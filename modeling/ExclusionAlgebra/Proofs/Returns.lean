import Mathlib.Data.List.Forall2

/-!
# What a computation that may fail returns

Nearly every operation on rules may end in a fault, so nearly every fact about one reads "if it
returns, then".  These lemmas take such a computation apart at its sequencing, its passes over a
list and its folds.

* `bind_eq_ok`, `mapM_eq_ok`, `foldlM_invariant`: what is known of a computation that returns.
* `Approximates`: a computation that may be given up where another one goes on.
-/

namespace ExclusionAlgebra

variable {ε α β : Type}

theorem bind_eq_ok {x : Except ε α} {f : α → Except ε β} {b : β} :
    x >>= f = .ok b ↔ ∃ a, x = .ok a ∧ f a = .ok b := by
  constructor
  · intro h
    cases hx : x with
    | error e => rw [hx] at h; cases h
    | ok a => rw [hx] at h; exact ⟨a, rfl, h⟩
  · rintro ⟨a, rfl, h⟩
    exact h

theorem bind_eq_error {x : Except ε α} {f : α → Except ε β} {e : ε} :
    x >>= f = .error e ↔ x = .error e ∨ ∃ a, x = .ok a ∧ f a = .error e := by
  constructor
  · intro h
    cases x with
    | error e' =>
      cases h
      exact Or.inl rfl
    | ok a => exact Or.inr ⟨a, rfl, h⟩
  · rintro (rfl | ⟨a, rfl, h⟩)
    · rfl
    · exact h

theorem pure_eq_ok {a b : α} : (pure a : Except ε α) = .ok b ↔ a = b := by
  constructor
  · intro h
    cases h
    rfl
  · rintro rfl
    rfl

/-- A pass over a list returns what it returns on the members, in order. -/
theorem mapM_eq_ok {f : α → Except ε β} {xs : List α} {ys : List β} :
    xs.mapM f = .ok ys ↔ List.Forall₂ (fun x y => f x = .ok y) xs ys := by
  induction xs generalizing ys with
  | nil => rw [List.mapM_nil, pure_eq_ok, List.forall₂_nil_left_iff, eq_comm]
  | cons x rest ih =>
    rw [List.mapM_cons, bind_eq_ok, List.forall₂_cons_left_iff]
    constructor
    · rintro ⟨y, hy, h⟩
      obtain ⟨ys', hys, h⟩ := bind_eq_ok.mp h
      cases h
      exact ⟨y, ys', hy, ih.mp hys, rfl⟩
    · rintro ⟨y, ys', hy, hys, rfl⟩
      exact ⟨y, hy, bind_eq_ok.mpr ⟨ys', ih.mpr hys, rfl⟩⟩

theorem exists_of_mapM {f : α → Except ε β} {xs : List α} {ys : List β} (h : xs.mapM f = .ok ys)
    {x : α} (hx : x ∈ xs) : ∃ y, f x = .ok y := by
  have hpairs := mapM_eq_ok.mp h
  clear h
  induction hpairs with
  | nil => cases hx
  | cons hy _ ih =>
    rcases List.mem_cons.mp hx with rfl | hx
    · exact ⟨_, hy⟩
    · exact ih hx

/-- A pass that fails does so with the fault of some member, the first that fails; those before it have
returned. -/
theorem exists_first_of_mapM_eq_error {f : α → Except ε β} {xs : List α} {e : ε}
    (h : xs.mapM f = .error e) :
    ∃ before x after ys, xs = before ++ x :: after ∧ before.mapM f = .ok ys ∧ f x = .error e := by
  induction xs with
  | nil => cases h
  | cons x rest ih =>
    rw [List.mapM_cons, bind_eq_error] at h
    rcases h with h | ⟨y, hy, h⟩
    · exact ⟨[], x, rest, [], rfl, rfl, h⟩
    · rcases bind_eq_error.mp h with h | ⟨ys, -, h⟩
      · obtain ⟨before, x', after, ys, rfl, hys, hx'⟩ := ih h
        exact ⟨x :: before, x', after, y :: ys, rfl, mapM_eq_ok.mpr (.cons hy (mapM_eq_ok.mp hys)), hx'⟩
      · cases h

theorem exists_of_mapM_eq_error {f : α → Except ε β} {xs : List α} {e : ε}
    (h : xs.mapM f = .error e) : ∃ x ∈ xs, f x = .error e := by
  obtain ⟨before, x, after, ys, rfl, -, hx⟩ := exists_first_of_mapM_eq_error h
  exact ⟨x, List.mem_append_right _ List.mem_cons_self, hx⟩

theorem exists_mapM {f : α → Except ε β} {xs : List α} (h : ∀ x ∈ xs, ∃ y, f x = .ok y) :
    ∃ ys, xs.mapM f = .ok ys := by
  induction xs with
  | nil => exact ⟨[], rfl⟩
  | cons x rest ih =>
    rw [List.forall_mem_cons] at h
    obtain ⟨y, hy⟩ := h.1
    obtain ⟨ys, hys⟩ := ih h.2
    exact ⟨y :: ys, mapM_eq_ok.mpr (.cons hy (mapM_eq_ok.mp hys))⟩

theorem forall_of_forall₂ {P : β → Prop} {xs : List α} {ys : List β}
    (h : List.Forall₂ (fun _ y => P y) xs ys) : ∀ y ∈ ys, P y := by
  induction h with
  | nil => exact nofun
  | cons hy _ ih => exact List.forall_mem_cons.mpr ⟨hy, ih⟩

/-- What the members' results have in common, if each has it. -/
theorem forall_of_mapM {f : α → Except ε β} {xs : List α} {ys : List β} {P : β → Prop}
    (h : xs.mapM f = .ok ys) (hP : ∀ x ∈ xs, ∀ y, f x = .ok y → P y) : ∀ y ∈ ys, P y := by
  have hpairs := mapM_eq_ok.mp h
  clear h
  induction hpairs with
  | nil => simp
  | cons hy _ ih =>
    intro y hmem
    rcases List.mem_cons.mp hmem with rfl | hmem
    · exact hP _ List.mem_cons_self _ hy
    · exact ih (fun x hx => hP x (List.mem_cons_of_mem _ hx)) y hmem

/-- An invariant of the accumulator holds at the end of a fold. -/
theorem foldlM_invariant {f : β → α → Except ε β} {P : β → Prop} {xs : List α} {b r : β}
    (h : xs.foldlM f b = .ok r) (hb : P b)
    (hstep : ∀ x ∈ xs, ∀ acc acc', P acc → f acc x = .ok acc' → P acc') : P r := by
  induction xs generalizing b with
  | nil =>
    rw [List.foldlM_nil, pure_eq_ok] at h
    exact h ▸ hb
  | cons x rest ih =>
    rw [List.foldlM_cons, bind_eq_ok] at h
    obtain ⟨acc, hacc, h⟩ := h
    exact ih h (hstep x List.mem_cons_self b acc hb hacc)
      fun x' hx' => hstep x' (List.mem_cons_of_mem _ hx')

/-! ## Computations that are given up -/

/-- The computation is given up for the reason `e`, or the other one comes to the same. -/
def Approximates (e : ε) (x y : Except ε α) : Prop := x = .error e ∨ x = y

namespace Approximates

variable {e : ε}

theorem refl (x : Except ε α) : Approximates e x x := .inr rfl

theorem ok {x y : Except ε α} {a : α} (h : Approximates e x y) (hx : x = .ok a) : y = .ok a := by
  rcases h with hgivenUp | hsame
  · rw [hx] at hgivenUp
    cases hgivenUp
  · rw [← hsame, hx]

theorem bind {x y : Except ε α} {f g : α → Except ε β} (h : Approximates e x y)
    (hfg : ∀ a, Approximates e (f a) (g a)) : Approximates e (x >>= f) (y >>= g) := by
  rcases h with rfl | rfl
  · exact .inl rfl
  · cases x with
    | error fault => exact .inr rfl
    | ok a => exact hfg a

theorem mapM {f g : α → Except ε β} (hfg : ∀ a, Approximates e (f a) (g a)) (xs : List α) :
    Approximates e (xs.mapM f) (xs.mapM g) := by
  induction xs with
  | nil => exact .refl _
  | cons x rest ih =>
    rw [List.mapM_cons, List.mapM_cons]
    exact (hfg x).bind fun y => ih.bind fun ys => .refl _

theorem foldlM {f g : β → α → Except ε β} (hfg : ∀ b a, Approximates e (f b a) (g b a)) (xs : List α)
    (b : β) : Approximates e (xs.foldlM f b) (xs.foldlM g b) := by
  induction xs generalizing b with
  | nil => exact .refl _
  | cons x rest ih =>
    rw [List.foldlM_cons, List.foldlM_cons]
    exact (hfg b x).bind fun acc => ih acc

end Approximates

/-- A computation that keeps its result when it is granted more returns one result only. -/
theorem eq_of_mono {run : Nat → Except ε α} {less more : Nat} {a b : α}
    (hmono : ∀ m n, m ≤ n → ∀ r, run m = .ok r → run n = .ok r) (ha : run less = .ok a)
    (hb : run more = .ok b) : a = b := by
  have hleft := hmono less (max less more) (Nat.le_max_left less more) a ha
  have hright := hmono more (max less more) (Nat.le_max_right less more) b hb
  exact Except.ok.inj (hleft.symm.trans hright)

end ExclusionAlgebra
