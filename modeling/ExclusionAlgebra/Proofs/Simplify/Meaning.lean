import ExclusionAlgebra.Proofs.Simplify.Laws
import ExclusionAlgebra.Proofs.Rule.Coordinate

/-!
# Simplification preserves the meaning of rules

Each law of `Simplify.Law` gives a rule that leaves out a coordinate exactly when the combined
operands do.  Distribution hands rules to further combinations that may be larger than the operands,
so the induction is on the granted depth.

* `Simplify.excludes_of_law`: one combination, given the meaning of those inside it.
* `Simplify.excludes_of_combine`: two rules.
* `Simplify.excludes_of_fold`: lists of rules.

No operand may hold an intersection of nothing: distributing over one gives `nothing`, by the
convention for empty lists, though as an intersection it leaves everything out.
-/

namespace ExclusionAlgebra

namespace Simplify

open Rule

/-- The rule holds no empty intersection and answers as the operands do together. -/
def Means (operation : Operation) (a b r : Rule) : Prop :=
  r.Grounded ∧ ∀ k, r.excludes k = operation.both (a.excludes k) (b.excludes k)

def KeepsMeaning (again : Operation → Rule → Rule → Except Fault Rule) : Prop :=
  ∀ f a b r, again f a b = .ok r → a.Grounded → b.Grounded → Means f a b r

variable {again : Operation → Rule → Rule → Except Fault Rule} {operation : Operation}

theorem Means.comm {a b r : Rule} (h : Means operation a b r) : Means operation b a r :=
  ⟨h.1, fun k => by rw [h.2 k, Operation.both_comm]⟩

theorem grounded_ofPatterns (p q : Pattern) : (ofPatterns operation p q).Grounded :=
  of_ofPatterns (fun r _ => grounded_pattern r) grounded_nothing fun _ _ => by
    simp [grounded_composite, grounded_pattern]

/-- A pattern that covers another leaves out all that the other does. -/
theorem admits_of_covers {p q : Pattern} (h : p.covers q = true) {k : Coordinate}
    (hq : q.admits k = true) : p.admits k = true := by
  simp only [Pattern.covers, Bool.and_eq_true, Option.isSome_iff_exists, decide_eq_true_eq,
    Option.isNone_iff_eq_none] at h
  obtain ⟨⟨⟨⟨⟨g, hg⟩, hsame⟩, hmodule⟩, hartifact⟩, -⟩ := h
  simp only [Pattern.admits, Bool.and_eq_true] at hq ⊢
  rw [hsame, hmodule, hartifact]
  exact ⟨⟨hq.1.1, rfl⟩, rfl⟩

/-- A field that both fields admit admits the values that both admit, and if there is no such field
there is no such value. -/
theorem all_meetField? {α : Type} [DecidableEq α] (x y : Option α) (v : α) :
    (x.all (· = v) && y.all (· = v)) =
      match Pattern.meetField? x y with
      | some z => z.all (· = v)
      | none => false := by
  cases x with
  | none => cases y <;> simp [Pattern.meetField?]
  | some a =>
    cases y with
    | none => simp [Pattern.meetField?]
    | some b =>
      by_cases hab : a = b
      · subst hab
        simp [Pattern.meetField?]
      · simp only [Pattern.meetField?, hab, if_false, Option.all_some]
        by_cases hav : a = v
        · subst hav
          simp [Ne.symm hab]
        · simp [hav]

theorem admits_meet? (p q : Pattern) (k : Coordinate) :
    (p.admits k && q.admits k) = ((p.meet? q).elim false fun r => r.admits k) := by
  have hg := all_meetField? p.group q.group k.group
  have hm := all_meetField? p.module q.module k.module
  have ha := all_meetField? p.artifact q.artifact k.artifact
  have hregroup : (p.admits k && q.admits k) =
      ((p.group.all (· = k.group) && q.group.all (· = k.group)) &&
        (p.module.all (· = k.module) && q.module.all (· = k.module)) &&
        (p.artifact.all (· = k.artifact) && q.artifact.all (· = k.artifact))) := by
    simp only [Pattern.admits]
    ac_rfl
  rw [hregroup, hg, hm, ha]
  unfold Pattern.meet?
  cases Pattern.meetField? p.group q.group with
  | none => rfl
  | some g =>
    cases Pattern.meetField? p.module q.module with
    | none => simp
    | some m => cases Pattern.meetField? p.artifact q.artifact <;> simp [Pattern.admits]

theorem excludes_ofPatterns (p q : Pattern) (k : Coordinate) :
    (ofPatterns operation p q).excludes k = operation.both (p.admits k) (q.admits k) := by
  cases operation with
  | anyOf =>
    rw [ofPatterns_anyOf]
    split
    · rename_i hcovers
      cases hq : q.admits k with
      | false => simp [excludes, Operation.both, Operation.verdict]
      | true => simp [excludes, admits_of_covers hcovers hq, Operation.both, Operation.verdict]
    · split
      · rename_i hcovers
        cases hp : p.admits k with
        | false => simp [excludes, Operation.both, Operation.verdict]
        | true => simp [excludes, admits_of_covers hcovers hp, Operation.both, Operation.verdict]
      · rw [excludes_composite]
        rfl
  | allOf =>
    have hboth : Operation.both .allOf (p.admits k) (q.admits k) = (p.admits k && q.admits k) := by
      simp [Operation.both, Operation.verdict]
    rw [hboth, admits_meet?, ofPatterns_allOf]
    cases p.meet? q <;> rfl

/-- Adding a component to a composite combines it with the composite. -/
theorem means_of_adjoin {cs : List Rule} {x r : Rule} (h : adjoin operation cs x = .ok r)
    (hcs : (composite operation cs).Grounded) (hx : x.Grounded) :
    Means operation (.composite operation cs) x r := by
  rcases adjoin_cases h with ⟨rfl, c, hc, hcx⟩ | ⟨rfl, _⟩
  · refine ⟨hcs, fun k => ?_⟩
    have hmem : x.excludes k ∈ cs.map (excludes k) :=
      List.mem_map.mpr ⟨c, hc, hcx.excludes_eq⟩
    rw [excludes_composite, Operation.both_verdict_of_mem hmem]
  · rw [grounded_composite] at hcs
    refine ⟨grounded_composite.mpr ⟨by simp, ?_⟩, fun k => ?_⟩
    · intro c hc
      rcases List.mem_append.mp hc with hc | hc
      · exact hcs.2 c hc
      · rw [List.mem_singleton.mp hc]
        exact hx
    · rw [excludes_composite, excludes_composite, List.map_append, List.map_singleton,
        Operation.verdict_append_singleton]

/-- Folding means what the operation says of the members together. -/
theorem excludes_of_fold {pair : Rule → Rule → Except Fault Rule} {rules : List Rule} {r : Rule}
    (hpair : ∀ a b r, pair a b = .ok r → a.Grounded → b.Grounded → Means operation a b r)
    (h : fold pair rules = .ok r) (hne : rules ≠ []) (hrules : ∀ rule ∈ rules, rule.Grounded) :
    r.Grounded ∧ ∀ k, r.excludes k = operation.verdict (rules.map (excludes k)) := by
  obtain ⟨first, rest, rfl⟩ := List.exists_cons_of_ne_nil hne
  rw [List.forall_mem_cons] at hrules
  obtain ⟨hfirst, hrest⟩ := hrules
  rw [fold_cons] at h
  clear hne
  induction rest generalizing first with
  | nil =>
    cases pure_eq_ok.mp h
    exact ⟨hfirst, fun k => by simp⟩
  | cons next rest ih =>
    rw [List.foldlM_cons] at h
    obtain ⟨acc, hacc, h⟩ := bind_eq_ok.mp h
    rw [List.forall_mem_cons] at hrest
    obtain ⟨hground, hmeans⟩ := hpair _ _ _ hacc hfirst hrest.1
    obtain ⟨hr, hverdict⟩ := ih acc h hground hrest.2
    refine ⟨hr, fun k => ?_⟩
    rw [hverdict k, List.map_cons, hmeans k, Operation.verdict_both_cons, List.map_cons, List.map_cons]

/-- Distribution: the parts, combined by the inner operation, answer as the composite and the rule
do together. -/
theorem means_of_distribution (hagain : KeepsMeaning again) {cs parts : List Rule} {x r : Rule}
    (hparts : (cs.mapM fun c => again operation c x) = .ok parts)
    (hfold : fold (again operation.dual) parts = .ok r)
    (hground : (composite operation.dual cs).Grounded) (hx : x.Grounded) :
    Means operation (.composite operation.dual cs) x r := by
  obtain ⟨hne, hcs⟩ := grounded_composite.mp hground
  have hpairs := (List.forall₂_and_left _ _).mpr ⟨hcs, mapM_eq_ok.mp hparts⟩
  have hmeans : List.Forall₂ (fun c part => Means operation c x part) cs parts :=
    hpairs.imp fun c part hc => hagain _ _ _ _ hc.2 hc.1 hx
  have hanswers : ∀ k, parts.map (excludes k) =
      (cs.map (excludes k)).map fun answer => operation.both answer (x.excludes k) := by
    intro k
    clear hfold hparts hpairs hground hne hcs
    induction hmeans with
    | nil => rfl
    | cons hc _ ih => rw [List.map_cons, ih, hc.2 k, List.map_cons, List.map_cons]
  by_cases hnil : parts = []
  · -- Without components there are no parts, and the result is the rule for the empty list.
    subst hnil
    cases hmeans
    cases hfold
    refine ⟨grounded_nothing, fun k => ?_⟩
    rw [excludes_composite, Operation.both_verdict_dual, ← hanswers k]
    cases operation with
    | anyOf => exact absurd rfl (hne rfl)
    | allOf => rfl
  · have hall : ∀ part ∈ parts, part.Grounded := by
      refine forall_of_mapM hparts ?_
      intro c hc part hpart
      exact (hagain _ _ _ _ hpart (hcs c hc) hx).1
    obtain ⟨hr, hverdict⟩ := excludes_of_fold (hagain _) hfold hnil hall
    refine ⟨hr, fun k => ?_⟩
    rw [hverdict k, hanswers k, excludes_composite, Operation.both_verdict_dual]

theorem Means.of_faces {a b x r : Rule} {inner : Operation} {cs : List Rule}
    (hf : Faces a b inner cs x) (h : Means operation (.composite inner cs) x r) :
    Means operation a b r := by
  rcases hf.operands with ⟨rfl, rfl⟩ | ⟨rfl, rfl⟩
  · exact h
  · exact h.comm

/-- An operand that absorbs the other one, or faces a neutral one, answers for both, by any reading in
which `everything` leaves everything out and `nothing` leaves nothing out. -/
theorem both_of_takeLeft {answer : Rule → Bool} {a b : Rule} (heverything : answer .everything = true)
    (hnothing : answer .nothing = false)
    (h : operation.absorbedBy a = true ∨ operation.ignores b = true) :
    operation.both (answer a) (answer b) = answer a := by
  rw [absorbedBy_iff, ignores_iff] at h
  rcases h with (⟨rfl, rfl⟩ | ⟨rfl, rfl⟩) | (⟨rfl, rfl⟩ | ⟨rfl, rfl⟩)
  · simp [Operation.both, Operation.verdict, heverything]
  · simp [Operation.both, Operation.verdict, hnothing]
  · simp [Operation.both, Operation.verdict, hnothing]
  · simp [Operation.both, Operation.verdict, heverything]

theorem excludes_of_takeLeft {a b : Rule}
    (h : operation.absorbedBy a = true ∨ operation.ignores b = true) (k : Coordinate) :
    operation.both (a.excludes k) (b.excludes k) = a.excludes k :=
  both_of_takeLeft rfl rfl h

/-- An intersection leaves out nothing that a component does not leave out. -/
theorem excludes_of_component {cs : List Rule} {x : Rule} (h : ∃ c ∈ cs, Alike c x) (k : Coordinate) :
    Operation.anyOf.both ((composite .allOf cs).excludes k) (x.excludes k) = x.excludes k := by
  obtain ⟨c, hc, hcx⟩ := h
  rw [excludes_composite, ← hcx.excludes_eq]
  cases hanswer : c.excludes k with
  | true => simp [Operation.both, Operation.verdict]
  | false =>
    have hmem : false ∈ cs.map (excludes k) := List.mem_map.mpr ⟨c, hc, hanswer⟩
    simp only [Operation.both, Operation.verdict, List.any_cons, List.any_nil, Bool.or_false, id]
    exact List.all_eq_false.mpr ⟨false, hmem, by simp⟩

/-- Whatever law gives the result, it leaves out what the operands together leave out. -/
theorem excludes_of_law (hagain : KeepsMeaning again) {a b r : Rule} (h : Law again operation a b r)
    (ha : a.Grounded) (hb : b.Grounded) : Means operation a b r := by
  cases h with
  | same halike =>
    exact ⟨ha, fun k => by rw [← halike.excludes_eq, Operation.both_self]⟩
  | takeLeft h => exact ⟨ha, fun k => (excludes_of_takeLeft h k).symm⟩
  | takeRight h =>
    exact Means.comm ⟨hb, fun k => (excludes_of_takeLeft h k).symm⟩
  | @patterns p q _ => exact ⟨grounded_ofPatterns p q, fun k => excludes_ofPatterns p q k⟩
  | join _ hf h =>
    obtain ⟨hcs, hx⟩ := hf.forall_operands ha hb
    exact .of_faces hf (means_of_adjoin h hcs hx)
  | absorption hop hf h =>
    subst hop
    obtain ⟨hcs, hx⟩ := hf.forall_operands ha hb
    exact .of_faces hf ⟨hx, fun k => (excludes_of_component h k).symm⟩
  | distribution hf hparts hfold =>
    obtain ⟨hcs, hx⟩ := hf.forall_operands ha hb
    exact .of_faces hf (means_of_distribution hagain hparts hfold hcs hx)

/-- Two rules combined at any depth leave out what they leave out together. -/
theorem excludes_of_combine (depth : Nat) : KeepsMeaning (combine depth) :=
  combine_induction (fun _ hagain _ _ _ _ h => excludes_of_law hagain h) depth

/-- **Simplification preserves meaning.** What rules without empty intersections are simplified to,
under either operation, leaves out a coordinate exactly when some of the rules do, or all of them. -/
theorem combineAll_excludes_iff {depth : Nat} {operation : Operation} {rules : List Rule}
    {result : Rule} (hne : rules ≠ []) (hrules : ∀ rule ∈ rules, rule.Grounded)
    (h : combineAll depth operation rules = .ok result) (k : Coordinate) :
    result.excludes k = true ↔
      match operation with
      | .anyOf => ∃ rule ∈ rules, rule.excludes k = true
      | .allOf => ∀ rule ∈ rules, rule.excludes k = true := by
  obtain ⟨_, hverdict⟩ := excludes_of_fold (excludes_of_combine depth operation) h hne hrules
  rw [hverdict k]
  cases operation <;> simp [Operation.verdict]

/-- Two modules met by a group: the union is distributed and its parts are united again. -/
theorem excludes_modules_of_group :
    ∃ result, combineAll 3 .allOf [.composite .anyOf [.pattern ⟨none, some "m", none⟩,
        .pattern ⟨none, some "n", none⟩], .pattern ⟨some "g", none, none⟩] = .ok result ∧
      ∀ k, result.excludes k = true ↔
        ∀ rule ∈ [Rule.composite .anyOf [.pattern ⟨none, some "m", none⟩,
          .pattern ⟨none, some "n", none⟩], .pattern ⟨some "g", none, none⟩],
          rule.excludes k = true := by
  have hrun : combineAll 3 .allOf [.composite .anyOf [.pattern ⟨none, some "m", none⟩,
        .pattern ⟨none, some "n", none⟩], .pattern ⟨some "g", none, none⟩] =
      .ok (.composite .anyOf [.pattern ⟨some "g", some "m", none⟩,
        .pattern ⟨some "g", some "n", none⟩]) := rfl
  refine ⟨_, hrun, fun k => combineAll_excludes_iff (by simp) ?_ hrun k⟩
  simp [grounded_composite, grounded_pattern]

end Simplify

end ExclusionAlgebra
