import ExclusionAlgebra.Proofs.Rule.Equality

/-!
# Faults on foreign values

Comparing rules and taking their digests can fail for one reason only: a foreign value was come upon.
It stands inside one of the rules that were looked at.

* `Fault.Inside`: the fault names a foreign value inside one of the rules.
* `Rule.inside_of_hash`, `Rule.inside_of_equals`, `Rule.inside_of_contains`: digests, the test for
  equality and the search among components fail so and not otherwise.
-/

namespace ExclusionAlgebra

open Rule

/-- The fault is a foreign value that stands inside one of the rules. -/
def Fault.Inside (rules : List Rule) (fault : Fault) : Prop :=
  ∃ value, fault = .foreign value ∧ ∃ rule ∈ rules, .foreign value ∈ rule.nodes

namespace Fault.Inside

variable {fault : Fault} {rules : List Rule}

theorem of_mem {rule : Rule} (hrule : rule ∈ rules) (h : fault.Inside [rule]) :
    fault.Inside rules := by
  obtain ⟨value, rfl, other, hother, hvalue⟩ := h
  rw [List.mem_singleton.mp hother] at hvalue
  exact ⟨value, rfl, rule, hrule, hvalue⟩

theorem exists_mem (h : fault.Inside rules) : ∃ rule ∈ rules, fault.Inside [rule] := by
  obtain ⟨value, rfl, rule, hrule, hvalue⟩ := h
  exact ⟨rule, hrule, value, rfl, rule, List.mem_singleton_self rule, hvalue⟩

theorem of_component {operation : Operation} {components : List Rule}
    (h : fault.Inside components) : fault.Inside [.composite operation components] := by
  obtain ⟨value, rfl, rule, hrule, hvalue⟩ := h
  exact ⟨value, rfl, _, List.mem_singleton_self _, mem_nodes_composite.mpr (Or.inr ⟨rule, hrule, hvalue⟩)⟩

theorem foreign (value : Foreign) : Fault.Inside [.foreign value] (.foreign value) :=
  ⟨value, rfl, _, List.mem_singleton_self _, self_mem_nodes _⟩

/-- There is nothing to come upon in rules without foreign values. -/
theorem not_known (h : fault.Inside rules) : ¬ ∀ rule ∈ rules, rule.Known := by
  obtain ⟨value, rfl, rule, hrule, hvalue⟩ := h
  intro hknown
  have hnone := hknown rule hrule
  clear hrule hknown
  induction rule with
  | everything | nothing | pattern p => simp [nodes] at hvalue
  | foreign other => exact not_known_foreign other hnone
  | composite operation components ih =>
    rcases mem_nodes_composite.mp hvalue with hvalue | ⟨c, hc, hvalue⟩
    · cases hvalue
    · exact ih c hc hvalue (known_composite.mp hnone c hc)

end Fault.Inside

namespace Rule

variable {fault : Fault}

theorem foreign_mem_nodes_of_firstForeign? {rule : Rule} {value : Foreign}
    (h : rule.firstForeign? = some value) : .foreign value ∈ rule.nodes := by
  induction rule with
  | everything | nothing | pattern p => cases h
  | foreign other =>
    cases h
    exact self_mem_nodes _
  | composite operation components ih =>
    rw [firstForeign?] at h
    refine mem_nodes_composite.mpr (Or.inr ?_)
    induction components with
    | nil => cases h
    | cons c rest ihrest =>
      rw [firstForeignIn?] at h
      rw [List.forall_mem_cons] at ih
      cases hc : c.firstForeign? with
      | some first =>
        rw [hc, Option.some_or] at h
        cases h
        exact ⟨c, List.mem_cons_self, ih.1 hc⟩
      | none =>
        rw [hc, Option.none_or] at h
        obtain ⟨d, hd, hvalue⟩ := ihrest ih.2 h
        exact ⟨d, List.mem_cons_of_mem _ hd, hvalue⟩

/-- Every foreign value inside some of the rules counts, but the first is named. -/
theorem exists_firstForeignIn? {rules : List Rule}
    (h : ∃ rule ∈ rules, ∃ value, .foreign value ∈ rule.nodes) :
    ∃ value, firstForeignIn? rules = some value := by
  obtain ⟨rule, hrule, value, hvalue⟩ := h
  have hinside : Fault.Inside rules (.foreign value) := ⟨value, rfl, rule, hrule, hvalue⟩
  refine Option.ne_none_iff_exists'.mp fun hnone => ?_
  exact hinside.not_known (firstForeignIn?_eq_none.mp hnone)

theorem hash_of_firstForeign? {rule : Rule} {value : Foreign} (h : rule.firstForeign? = some value) :
    rule.hash = .error (.foreign value) := by
  rw [hash, check, h]
  rfl

/-- Digests are taken from the left, so the first foreign value is the one that is come upon. -/
theorem mapM_hash_of_firstForeignIn? {rules : List Rule} {value : Foreign}
    (h : firstForeignIn? rules = some value) : rules.mapM hash = .error (.foreign value) := by
  induction rules with
  | nil => cases h
  | cons rule rest ih =>
    rw [firstForeignIn?] at h
    rw [List.mapM_cons]
    cases hfirst : rule.firstForeign? with
    | some first =>
      rw [hfirst, Option.some_or] at h
      cases h
      rw [hash_of_firstForeign? hfirst]
      rfl
    | none =>
      rw [hfirst, Option.none_or] at h
      rw [hash_eq_ok hfirst, ih h]
      rfl

theorem inside_of_hash {rule : Rule} (h : rule.hash = .error fault) : fault.Inside [rule] := by
  rcases bind_eq_error.mp h with hcheck | ⟨_, _, hdigest⟩
  · unfold check at hcheck
    cases hfirst : rule.firstForeign? with
    | none =>
      rw [hfirst] at hcheck
      cases hcheck
    | some value =>
      rw [hfirst] at hcheck
      cases hcheck
      exact ⟨value, rfl, rule, List.mem_singleton_self rule, foreign_mem_nodes_of_firstForeign? hfirst⟩
  · cases hdigest

theorem exists_of_takeFirst?_eq_error {α : Type} {test : α → Except Fault Bool} {xs : List α}
    (h : takeFirst? test xs = .error fault) : ∃ x ∈ xs, test x = .error fault := by
  induction xs with
  | nil => cases h
  | cons x rest ih =>
    rw [takeFirst?] at h
    rcases bind_eq_error.mp h with hx | ⟨hit, -, h⟩
    · exact ⟨x, List.mem_cons_self, hx⟩
    · cases hit with
      | true => cases h
      | false =>
        rcases bind_eq_error.mp h with hrest | ⟨left, -, h⟩
        · obtain ⟨y, hy, hfault⟩ := ih hrest
          exact ⟨y, List.mem_cons_of_mem _ hy, hfault⟩
        · cases h

theorem exists_of_pairOff_eq_error {cs ds : List Rule} (h : pairOff cs ds = .error fault) :
    ∃ c ∈ cs, ∃ d, c.equals d = .error fault := by
  induction cs generalizing ds with
  | nil => cases h
  | cons c rest ih =>
    rw [pairOff] at h
    rcases bind_eq_error.mp h with htake | ⟨found, -, h⟩
    · obtain ⟨d, -, hfault⟩ := exists_of_takeFirst?_eq_error htake
      exact ⟨c, List.mem_cons_self, d, hfault⟩
    · cases found with
      | none => cases h
      | some left =>
        obtain ⟨c', hc', hfault⟩ := ih h
        exact ⟨c', List.mem_cons_of_mem _ hc', hfault⟩

/-- The test for equality comes upon foreign values of its left operand only. -/
theorem inside_of_equals {a b : Rule} (h : a.equals b = .error fault) : fault.Inside [a] := by
  induction a generalizing b with
  | everything | nothing | pattern p => cases b <;> cases h
  | foreign value =>
    have hfault : fault = .foreign value := by
      cases b with
      | foreign other =>
        rw [equals] at h
        split at h
        · cases h
        · cases h
          rfl
      | _ =>
        cases h
        rfl
    rw [hfault]
    exact .foreign value
  | composite operation components ih =>
    cases b with
    | composite other ds =>
      rw [equals_composite] at h
      split at h
      · obtain ⟨c, hc, d, hfault⟩ := exists_of_pairOff_eq_error h
        exact (Fault.Inside.of_mem hc (ih c hc hfault)).of_component
      · cases h
    | _ => cases h

theorem inside_of_contains {cs : List Rule} {x : Rule} (h : contains cs x = .error fault) :
    fault.Inside cs := by
  induction cs with
  | nil => cases h
  | cons c rest ih =>
    unfold contains at h
    rw [List.anyM] at h
    rcases bind_eq_error.mp h with hc | ⟨hit, -, h⟩
    · exact .of_mem List.mem_cons_self (inside_of_equals hc)
    · cases hit with
      | true => cases h
      | false =>
        obtain ⟨d, hd, hfault⟩ := (ih h).exists_mem
        exact .of_mem (List.mem_cons_of_mem _ hd) hfault

end Rule

end ExclusionAlgebra
