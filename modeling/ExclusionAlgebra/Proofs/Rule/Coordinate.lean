import ExclusionAlgebra.Proofs.Rule.Alike

/-!
# Which coordinates a rule leaves out

* `Coordinate`: the group, module and artifact of something that a resolution may leave out.
* `Rule.excludes`: does the rule leave the coordinate out?  Everything and nothing are what their
  names say, a pattern leaves out what agrees with its concrete fields, and a composite what some of
  its components, or all of them, leave out.
* `Rule.Alike.excludes_eq`: the order of components has no influence.
* `Rule.Grounded`: no node is an intersection of nothing.  Such a node leaves everything out by the
  meaning above, and nothing by the convention of `Simplify.fold`.
* `Rule.leavesOut`: does the rule leave the coordinate out by that convention?
* `Rule.leavesOut_eq_excludes`: it makes a difference for intersections of nothing only.
-/

namespace ExclusionAlgebra

/-- Something that a resolution may leave out. -/
structure Coordinate where
  group : String
  module : String
  artifact : Artifact
deriving DecidableEq, Repr

def Pattern.admits (p : Pattern) (k : Coordinate) : Bool :=
  p.group.all (· = k.group) && p.module.all (· = k.module) && p.artifact.all (· = k.artifact)

def Operation.verdict : Operation → List Bool → Bool
  | .anyOf, answers => answers.any id
  | .allOf, answers => answers.all id

def Operation.both (operation : Operation) (a b : Bool) : Bool := operation.verdict [a, b]

namespace Rule

mutual

/-- Does the rule leave the coordinate out?  A foreign value leaves nothing out. -/
def excludes (k : Coordinate) : Rule → Bool
  | .everything => true
  | .nothing => false
  | .pattern p => p.admits k
  | .composite operation components => operation.verdict (excludesEach k components)
  | .foreign _ => false

def excludesEach (k : Coordinate) : List Rule → List Bool
  | [] => []
  | rule :: rest => excludes k rule :: excludesEach k rest

end

variable {k : Coordinate}

theorem excludesEach_eq_map (components : List Rule) :
    excludesEach k components = components.map (excludes k) := by
  induction components with
  | nil => rfl
  | cons c rest ih => rw [excludesEach, ih, List.map_cons]

theorem excludes_composite (operation : Operation) (components : List Rule) :
    excludes k (.composite operation components) = operation.verdict (components.map (excludes k)) := by
  rw [excludes, excludesEach_eq_map]

end Rule

/-! ## Answers combined -/

namespace Operation

variable {operation : Operation}

theorem both_self (a : Bool) : operation.both a a = a := by
  cases operation <;> cases a <;> rfl

theorem both_comm (a b : Bool) : operation.both a b = operation.both b a := by
  cases operation <;> cases a <;> cases b <;> rfl

@[simp]
theorem verdict_singleton (a : Bool) : operation.verdict [a] = a := by
  cases operation <;> simp [verdict]

theorem verdict_cons (a : Bool) (answers : List Bool) :
    operation.verdict (a :: answers) = operation.both a (operation.verdict answers) := by
  cases operation <;> simp [verdict, both]

theorem verdict_both_cons (a b : Bool) (answers : List Bool) :
    operation.verdict (operation.both a b :: answers) = operation.verdict (a :: b :: answers) := by
  cases operation <;> simp [verdict, both, Bool.or_assoc, Bool.and_assoc]

theorem verdict_append_singleton (answers : List Bool) (a : Bool) :
    operation.verdict (answers ++ [a]) = operation.both (operation.verdict answers) a := by
  cases operation <;> simp [verdict, both]

/-- An answer that is among the answers adds nothing to them. -/
theorem both_verdict_of_mem {answers : List Bool} {a : Bool} (h : a ∈ answers) :
    operation.both (operation.verdict answers) a = operation.verdict answers := by
  cases operation <;> cases a <;> simp_all [verdict, both]

theorem both_verdict_dual (answers : List Bool) (a : Bool) :
    operation.both (operation.dual.verdict answers) a =
      operation.dual.verdict (answers.map fun b => operation.both b a) := by
  cases operation <;> cases a <;> simp [verdict, both, dual]

theorem verdict_perm {as bs : List Bool} (h : as.Perm bs) : operation.verdict as = operation.verdict bs := by
  cases operation with
  | anyOf => exact h.any_eq
  | allOf => exact h.all_eq

/-- More answers that are yes never turn a verdict into no. -/
theorem both_mono {a b c d : Bool} (hac : a = true → c = true) (hbd : b = true → d = true)
    (h : operation.both a b = true) : operation.both c d = true := by
  cases operation with
  | anyOf =>
    simp only [both, verdict, List.any_cons, List.any_nil, Bool.or_false, id, Bool.or_eq_true] at h ⊢
    exact h.imp hac hbd
  | allOf =>
    simp only [both, verdict, List.all_cons, List.all_nil, Bool.and_true, id, Bool.and_eq_true] at h ⊢
    exact h.imp hac hbd

theorem verdict_mono {as bs : List Bool} (h : List.Forall₂ (fun a b => a = true → b = true) as bs)
    (hverdict : operation.verdict as = true) : operation.verdict bs = true := by
  induction h with
  | nil => exact hverdict
  | cons hab _ ih =>
    rw [verdict_cons] at hverdict ⊢
    exact both_mono hab ih hverdict

end Operation

namespace Rule

variable {k : Coordinate}

/-- Rules that differ in the order of components leave out the same coordinates. -/
theorem Alike.excludes_eq {a b : Rule} (h : Alike a b) : a.excludes k = b.excludes k :=
  h.value_eq excludes_composite fun _ _ _ => Operation.verdict_perm

/-! ## Intersections of nothing -/

/-- No node is an intersection without components. -/
def Grounded (rule : Rule) : Prop := rule.Everywhere (· ≠ .composite .allOf [])

theorem grounded_composite {operation : Operation} {components : List Rule} :
    Grounded (.composite operation components) ↔
      (operation = .allOf → components ≠ []) ∧ ∀ c ∈ components, c.Grounded := by
  unfold Grounded
  rw [everywhere_composite]
  apply and_congr_left
  intro _
  simp

theorem grounded_pattern (p : Pattern) : Grounded (.pattern p) := by simp [Grounded]

theorem grounded_nothing : Grounded .nothing := by simp [Grounded]

end Rule

/-! ## The convention for composites without components -/

/-- The verdict on the answers, if there are any. -/
def Operation.ruling (operation : Operation) (answers : List Bool) : Bool :=
  !answers.isEmpty && operation.verdict answers

namespace Operation

variable {operation : Operation} {answers others : List Bool}

theorem ruling_eq_verdict (h : answers ≠ []) : operation.ruling answers = operation.verdict answers := by
  cases answers with
  | nil => exact absurd rfl h
  | cons a rest => rfl

theorem ruling_perm (h : answers.Perm others) : operation.ruling answers = operation.ruling others := by
  rw [ruling, ruling, h.isEmpty_eq, verdict_perm h]

end Operation

namespace Rule

mutual

/-- Does the rule leave the coordinate out, if a composite without components leaves nothing out? -/
def leavesOut (k : Coordinate) : Rule → Bool
  | .everything => true
  | .nothing => false
  | .pattern p => p.admits k
  | .composite operation components => operation.ruling (leavesOutEach k components)
  | .foreign _ => false

def leavesOutEach (k : Coordinate) : List Rule → List Bool
  | [] => []
  | rule :: rest => leavesOut k rule :: leavesOutEach k rest

end

variable {k : Coordinate}

theorem leavesOutEach_eq_map (components : List Rule) :
    leavesOutEach k components = components.map (leavesOut k) := by
  induction components with
  | nil => rfl
  | cons c rest ih => rw [leavesOutEach, ih, List.map_cons]

theorem leavesOut_composite (operation : Operation) (components : List Rule) :
    leavesOut k (.composite operation components) =
      operation.ruling (components.map (leavesOut k)) := by
  rw [leavesOut, leavesOutEach_eq_map]

theorem leavesOut_nil (operation : Operation) : leavesOut k (.composite operation []) = false := by
  rw [leavesOut_composite]
  rfl

theorem leavesOut_composite_of_ne_nil (operation : Operation) {components : List Rule}
    (h : components ≠ []) :
    leavesOut k (.composite operation components) =
      operation.verdict (components.map (leavesOut k)) := by
  rw [leavesOut_composite, Operation.ruling_eq_verdict (by simpa using h)]

theorem Alike.leavesOut_eq {a b : Rule} (h : Alike a b) : a.leavesOut k = b.leavesOut k :=
  h.value_eq leavesOut_composite fun _ _ _ => Operation.ruling_perm

/-- The convention makes a difference for intersections of nothing only. -/
theorem leavesOut_eq_excludes {rule : Rule} (h : rule.Grounded) :
    rule.leavesOut k = rule.excludes k := by
  induction rule with
  | composite f cs ih =>
    obtain ⟨hne, hcs⟩ := grounded_composite.mp h
    have hmap : cs.map (leavesOut k) = cs.map (excludes k) :=
      List.map_congr_left fun c hc => ih c hc (hcs c hc)
    by_cases hnil : cs = []
    · subst hnil
      cases f with
      | anyOf => rfl
      | allOf => exact absurd rfl (hne rfl)
    · rw [leavesOut_composite_of_ne_nil f hnil, hmap, excludes_composite]
  | everything | nothing | pattern p | foreign value => rfl

end Rule

end ExclusionAlgebra
