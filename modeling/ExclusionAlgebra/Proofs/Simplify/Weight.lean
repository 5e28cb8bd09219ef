import Mathlib.Algebra.GroupWithZero.Nat
import Mathlib.Algebra.Order.BigOperators.Group.List
import ExclusionAlgebra.Proofs.Simplify.Returning

/-!
# How large simplified unions and intersections are

Distribution copies the operand that is not taken apart into every part.  The weight of a rule counts
the singletons and patterns in it, so a union weighs what its components do together.  The parts of an
intersection of unions then weigh no more than the product, and combining them adds nothing.

* `Rule.weight`: how many of the rules inside a rule are no composites.
* `Rule.one_le_weight`: the weight is not zero if no composite without components is inside.
* `Simplify.weight_of_law`: one combination, given those inside it.
* `Simplify.combineAll_weight_le`: the weight of a union is at most the sum of the weights, that of an
  intersection at most their product.
-/

namespace ExclusionAlgebra

namespace Rule

/-- How many of the rule and the rules inside it are no composites. -/
def weight (rule : Rule) : Nat := rule.nodes.countP fun node => !node.isComposite

@[simp]
theorem weight_everything : weight .everything = 1 := rfl

@[simp]
theorem weight_nothing : weight .nothing = 1 := rfl

@[simp]
theorem weight_pattern (p : Pattern) : weight (.pattern p) = 1 := rfl

@[simp]
theorem weight_foreign (value : Foreign) : weight (.foreign value) = 1 := rfl

@[simp]
theorem weight_composite (operation : Operation) (components : List Rule) :
    weight (.composite operation components) = (components.map weight).sum := by
  rw [weight, nodes, List.countP_cons_of_neg (by simp [isComposite]), nodesIn_eq_flatMap,
    List.countP_flatMap]
  rfl

/-- No node is an intersection or a composite without components. -/
def Solid (rule : Rule) : Prop := rule.IntersectionFree ∧ rule.Filled

theorem one_le_weight {rule : Rule} (h : rule.Filled) : 1 ≤ rule.weight := by
  induction rule with
  | everything | nothing | pattern p | foreign value => exact le_refl 1
  | composite operation components ih =>
    obtain ⟨hne, hall⟩ := filled_composite.mp h
    obtain ⟨first, rest, rfl⟩ := List.exists_cons_of_ne_nil hne
    have hfirst := ih first List.mem_cons_self (hall first List.mem_cons_self)
    rw [weight_composite, List.map_cons, List.sum_cons]
    omega

end Rule

/-- The sum or the product, as the operation has it. -/
def Operation.total : Operation → List Nat → Nat
  | .anyOf, weights => weights.sum
  | .allOf, weights => weights.prod

namespace Simplify

open Rule

variable {again : Operation → Rule → Rule → Except Fault Rule} {f : Operation} {a b x r : Rule}
  {cs : List Rule}

theorem kept_solid : Kept Solid := kept_intersectionFree.and kept_filled

/-! ## Totals -/

theorem total_pair_le {m n : Nat} (hn : 1 ≤ n) : m ≤ f.total [m, n] := by
  cases f with
  | anyOf => simp [Operation.total]
  | allOf => simpa [Operation.total] using Nat.le_mul_of_pos_right m hn

theorem total_comm (m n : Nat) : f.total [m, n] = f.total [n, m] := by
  cases f with
  | anyOf => simp [Operation.total, Nat.add_comm]
  | allOf => simp [Operation.total, Nat.mul_comm]

theorem Faces.total_weight {inner : Operation} (h : Faces a b inner cs x) :
    f.total [a.weight, b.weight] = f.total [(composite inner cs).weight, x.weight] := by
  rcases h.operands with ⟨rfl, rfl⟩ | ⟨rfl, rfl⟩
  · rfl
  · exact total_comm _ _

/-- The first two can be put together before the others. -/
theorem total_le_of_le {m n k : Nat} {rest : List Nat} (h : k ≤ f.total [m, n]) :
    f.total (k :: rest) ≤ f.total (m :: n :: rest) := by
  cases f with
  | anyOf =>
    simp only [Operation.total, List.sum_cons, List.sum_nil, Nat.add_zero] at h ⊢
    omega
  | allOf =>
    simp only [Operation.total, List.prod_cons, List.prod_nil, Nat.mul_one] at h ⊢
    rw [← Nat.mul_assoc]
    exact Nat.mul_le_mul_right _ h

/-! ## One combination -/

theorem weight_ofPatterns_le (p q : Pattern) : (ofPatterns f p q).weight ≤ f.total [1, 1] := by
  cases f with
  | anyOf =>
    rw [ofPatterns_anyOf]
    split
    · simp [Operation.total]
    · split <;> simp [Operation.total]
  | allOf =>
    rw [ofPatterns_allOf]
    cases p.meet? q <;> simp [Operation.total]

theorem weight_of_adjoin (h : adjoin f cs x = .ok r) :
    r.weight ≤ (composite f cs).weight + x.weight := by
  rcases adjoin_cases h with ⟨rfl, -⟩ | ⟨rfl, -⟩
  · exact Nat.le_add_right _ _
  · simp

/-- The weights of the parts, if each is at most that of its component times that of the operand that is
copied. -/
theorem sum_weight_parts_le {parts : List Rule}
    (h : List.Forall₂ (fun c part => part.weight ≤ c.weight * x.weight) cs parts) :
    (parts.map weight).sum ≤ (cs.map weight).sum * x.weight := by
  induction h with
  | nil => simp
  | cons hpart _ ih =>
    rw [List.map_cons, List.sum_cons, List.map_cons, List.sum_cons, Nat.add_mul]
    exact Nat.add_le_add hpart ih

/-- The weight of what a fold gives, if each combination in it keeps to the total of its operands. -/
theorem weight_of_foldlM {pair : Rule → Rule → Except Fault Rule}
    (hpair : ∀ a b r, pair a b = .ok r → a.Solid → b.Solid →
      r.Solid ∧ r.weight ≤ f.total [a.weight, b.weight])
    {rules : List Rule} (h : rules.foldlM pair a = .ok r) (ha : a.Solid)
    (hrules : ∀ rule ∈ rules, rule.Solid) : r.weight ≤ f.total (a.weight :: rules.map weight) := by
  induction rules generalizing a with
  | nil =>
    cases pure_eq_ok.mp h
    cases f <;> simp [Operation.total]
  | cons next rest ih =>
    rw [List.forall_mem_cons] at hrules
    rw [List.foldlM_cons] at h
    obtain ⟨acc, hacc, h⟩ := bind_eq_ok.mp h
    obtain ⟨hsolid, hle⟩ := hpair a next acc hacc ha hrules.1
    exact (ih h hsolid hrules.2).trans (total_le_of_le hle)

theorem weight_of_fold {pair : Rule → Rule → Except Fault Rule}
    (hpair : ∀ a b r, pair a b = .ok r → a.Solid → b.Solid →
      r.Solid ∧ r.weight ≤ f.total [a.weight, b.weight])
    {rules : List Rule} (hne : rules ≠ []) (h : fold pair rules = .ok r)
    (hrules : ∀ rule ∈ rules, rule.Solid) : r.weight ≤ f.total (rules.map weight) := by
  obtain ⟨first, rest, rfl⟩ := List.exists_cons_of_ne_nil hne
  rw [List.forall_mem_cons] at hrules
  exact weight_of_foldlM hpair h hrules.1 hrules.2

section

variable (hagain : ∀ f a b r, again f a b = .ok r → a.Solid → b.Solid →
  r.Solid ∧ r.weight ≤ f.total [a.weight, b.weight])
include hagain

/-- An intersection that is distributed: the operand is copied once for each component. -/
theorem weight_of_distribution {parts : List Rule} (hcs : (composite .anyOf cs).Solid) (hx : x.Solid)
    (hparts : (cs.mapM fun c => again .allOf c x) = .ok parts)
    (hfold : fold (again .anyOf) parts = .ok r) :
    r.weight ≤ (composite .anyOf cs).weight * x.weight := by
  have hcomponents := kept_solid.component _ _ hcs
  have hsolid : ∀ part ∈ parts, part.Solid := forall_of_mapM hparts fun c hc part hpart =>
    (hagain _ _ _ _ hpart (hcomponents c hc) hx).1
  have hpairs := (List.forall₂_and_left _ _).mpr ⟨hcomponents, mapM_eq_ok.mp hparts⟩
  have hweights : List.Forall₂ (fun c part => part.weight ≤ c.weight * x.weight) cs parts := by
    refine hpairs.imp fun c part hpart => ?_
    simpa [Operation.total] using (hagain _ _ _ _ hpart.2 hpart.1 hx).2
  have hne : parts ≠ [] := by
    rintro rfl
    cases hweights
    exact (filled_composite.mp hcs.2).1 rfl
  calc
    r.weight ≤ (parts.map weight).sum := weight_of_fold (hagain .anyOf) hne hfold hsolid
    _ ≤ (cs.map weight).sum * x.weight := sum_weight_parts_le hweights
    _ = (composite .anyOf cs).weight * x.weight := by rw [weight_composite]

/-- One combination.  Where one of the operands is the result, the other one weighs something. -/
theorem weight_of_law (h : Law again f a b r) (ha : a.Solid) (hb : b.Solid) :
    r.weight ≤ f.total [a.weight, b.weight] := by
  cases h with
  | same => exact total_pair_le (one_le_weight hb.2)
  | takeLeft => exact total_pair_le (one_le_weight hb.2)
  | takeRight =>
    rw [total_comm]
    exact total_pair_le (one_le_weight ha.2)
  | patterns => exact weight_ofPatterns_le _ _
  | join _ hf hadjoin =>
    cases hf.eq_anyOf ha.1 hb.1
    rw [hf.total_weight]
    simpa [Operation.total] using weight_of_adjoin hadjoin
  | absorption _ hf => cases hf.eq_anyOf ha.1 hb.1
  | distribution hf hparts hfold =>
    have hinner := hf.eq_anyOf ha.1 hb.1
    obtain ⟨hcs, hx⟩ := hf.forall_operands ha hb
    cases f with
    | anyOf => cases hinner
    | allOf =>
      rw [hf.total_weight]
      simpa [Operation.total] using weight_of_distribution hagain hcs hx hparts hfold

end

theorem weight_of_combine (depth : Nat) : ∀ f a b r, combine depth f a b = .ok r → a.Solid →
    b.Solid → r.Solid ∧ r.weight ≤ f.total [a.weight, b.weight] := by
  apply combine_induction
  intro again hagain f a b r hlaw ha hb
  have hkeeps : ∀ f a b r, again f a b = .ok r → a.Solid → b.Solid → r.Solid :=
    fun f a b r h ha hb => (hagain f a b r h ha hb).1
  exact ⟨kept_solid.of_law hkeeps hlaw ha hb, weight_of_law hagain hlaw ha hb⟩

/-! ## Lists of rules -/

/-- **Simplified rules do not outgrow their operands.** Take rules in which there are no intersections
and no composites without components.  The union of two weighs at most as much as both together, their
intersection at most the product of their weights; and so it is for the sum and the product over any
list of such rules, at least one.  If they hold no foreign values, the list has a union and an
intersection from some depth on. -/
theorem combineAll_weight_le :
    (∀ a b : Rule, a.Solid → b.Solid → ∀ depth r,
      (combineAll depth .anyOf [a, b] = .ok r → r.weight ≤ a.weight + b.weight) ∧
        (combineAll depth .allOf [a, b] = .ok r → r.weight ≤ a.weight * b.weight)) ∧
    ∀ rules : List Rule, rules ≠ [] → (∀ rule ∈ rules, rule.Solid) →
      (∀ depth r,
        (combineAll depth .anyOf rules = .ok r → r.weight ≤ (rules.map weight).sum) ∧
          (combineAll depth .allOf rules = .ok r → r.weight ≤ (rules.map weight).prod)) ∧
      ((∀ rule ∈ rules, rule.Known) → ∃ bound united met, ∀ depth, bound ≤ depth →
        combineAll depth .anyOf rules = .ok united ∧ combineAll depth .allOf rules = .ok met) := by
  have hlist : ∀ rules : List Rule, rules ≠ [] → (∀ rule ∈ rules, rule.Solid) →
      ∀ depth f r, combineAll depth f rules = .ok r → r.weight ≤ f.total (rules.map weight) :=
    fun rules hne hrules depth f r h => weight_of_fold (weight_of_combine depth f) hne h hrules
  refine ⟨fun a b ha hb depth r => ?_, fun rules hne hrules => ⟨fun depth r => ⟨?_, ?_⟩, ?_⟩⟩
  · have hpair : ∀ rule ∈ [a, b], rule.Solid :=
      List.forall_mem_cons.mpr ⟨ha, List.forall_mem_singleton.mpr hb⟩
    have hle := hlist [a, b] (List.cons_ne_nil a [b]) hpair depth
    exact ⟨fun h => by simpa [Operation.total] using hle .anyOf r h,
      fun h => by simpa [Operation.total] using hle .allOf r h⟩
  · exact hlist rules hne hrules depth .anyOf r
  · exact hlist rules hne hrules depth .allOf r
  · intro hknown
    have hunions : ∀ rule ∈ rules, Unions (fun _ => False) rule := fun rule hrule =>
      .of_known (hrules rule hrule).1 (hknown rule hrule)
    obtain ⟨outcome, hunited, first, hunites⟩ := ends_combineAll .anyOf hunions
    obtain ⟨united, rfl, -⟩ := hunited.exists_ok
    obtain ⟨outcome, hmet, second, hmeets⟩ := ends_combineAll .allOf hunions
    obtain ⟨met, rfl, -⟩ := hmet.exists_ok
    refine ⟨max first second, united, met, fun depth hdepth => ⟨?_, ?_⟩⟩
    · exact hunites depth (by omega)
    · exact hmeets depth (by omega)

/-- A union with a union of one component and a singleton in it. -/
def modulesOrAll : Rule :=
  .composite .anyOf [.composite .anyOf [.pattern ⟨none, some "m", none⟩],
    .pattern ⟨none, some "n", none⟩, .everything]

/-- United with a group and intersected with it, the three keep their weight.  With a repeat the list
gives the same intersection, and the bound is not reached. -/
theorem weight_of_modulesOrAll :
    ∃ group united met, group = Rule.pattern ⟨some "g", none, none⟩ ∧ modulesOrAll.Solid ∧
      group.Solid ∧ modulesOrAll.Known ∧ group.Known ∧
      combineAll 3 .anyOf [modulesOrAll, group] = .ok united ∧
      combineAll 3 .allOf [modulesOrAll, group] = .ok met ∧
      united.weight = 4 ∧ united.weight ≤ modulesOrAll.weight + group.weight ∧
      met.weight = 3 ∧ met.weight ≤ modulesOrAll.weight * group.weight ∧
      ∃ bound, ∀ depth, bound ≤ depth →
        combineAll depth .allOf [modulesOrAll, modulesOrAll, group] = .ok met ∧
          met.weight ≤ ([modulesOrAll, modulesOrAll, group].map weight).prod := by
  have hmodules : modulesOrAll.Solid := by simp [modulesOrAll, Solid, IntersectionFree, Filled]
  have hgroup : (Rule.pattern ⟨some "g", none, none⟩).Solid := by simp [Solid, IntersectionFree, Filled]
  have hunited : combineAll 3 .anyOf [modulesOrAll, .pattern ⟨some "g", none, none⟩] =
      .ok (.composite .anyOf [.composite .anyOf [.pattern ⟨none, some "m", none⟩],
        .pattern ⟨none, some "n", none⟩, .everything, .pattern ⟨some "g", none, none⟩]) := rfl
  have hmet : combineAll 3 .allOf [modulesOrAll, .pattern ⟨some "g", none, none⟩] =
      .ok (.composite .anyOf [.pattern ⟨some "g", some "m", none⟩,
        .pattern ⟨some "g", some "n", none⟩, .pattern ⟨some "g", none, none⟩]) := rfl
  have hrepeat : combineAll 3 .allOf
      [modulesOrAll, modulesOrAll, .pattern ⟨some "g", none, none⟩] =
      .ok (.composite .anyOf [.pattern ⟨some "g", some "m", none⟩,
        .pattern ⟨some "g", some "n", none⟩, .pattern ⟨some "g", none, none⟩]) := rfl
  obtain ⟨hpair, hlist⟩ := combineAll_weight_le
  obtain ⟨hweights, hreturns⟩ := hlist [modulesOrAll, modulesOrAll, .pattern ⟨some "g", none, none⟩]
    (List.cons_ne_nil _ _) (by simp [hmodules, hgroup])
  obtain ⟨bound, united, met, hruns⟩ := hreturns (by decide)
  cases combineAll_unique (hruns bound le_rfl).2 hrepeat
  refine ⟨_, _, _, rfl, hmodules, hgroup, by decide, rfl, hunited, hmet, rfl, ?_, rfl, ?_, bound, ?_⟩
  · exact (hpair _ _ hmodules hgroup 3 _).1 hunited
  · exact (hpair _ _ hmodules hgroup 3 _).2 hmet
  · exact fun depth hdepth => ⟨(hruns depth hdepth).2, (hweights 3 _).2 hrepeat⟩

end Simplify

end ExclusionAlgebra
