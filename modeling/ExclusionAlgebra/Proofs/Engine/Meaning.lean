import ExclusionAlgebra.Proofs.Engine.Keeping
import ExclusionAlgebra.Proofs.Simplify.Meaning

/-!
# What an engine gives means what it was asked for

The answer in a memo was given to a request whose operands have the digests of the present ones.  Where
digests do not collide, those operands differ in the order of components only, which has no influence
on the coordinates that they leave out.  So a rule that is built again by an engine leaves out what it
did before, whichever of its composites were found in a memo.

* `Rule.SameMeaning`: a rule that leaves out the same coordinates.
* `Engine.Answered`: each entry of a memo means what one of the requests asks for.
* `Engine.keepsAt_request`, `Engine.keepsAt_rebuild_sameMeaning`: one request, and a rule that is
  built again.
-/

namespace ExclusionAlgebra

open Rule

/-- The result holds no empty intersection and leaves out what the rule does. -/
structure Rule.SameMeaning (rule result : Rule) : Prop where
  grounded : result.Grounded
  excludes : ∀ k, result.excludes k = rule.excludes k

namespace Rule.SameMeaning

theorem refl {rule : Rule} (h : rule.Grounded) : SameMeaning rule rule := ⟨h, fun _ => rfl⟩

theorem trans {a b c : Rule} (hab : SameMeaning a b) (hbc : SameMeaning b c) : SameMeaning a c :=
  ⟨hbc.grounded, fun k => (hbc.excludes k).trans (hab.excludes k)⟩

/-- Replacing the components of a composite. -/
theorem composite {operation : Operation} {components results : List Rule}
    (h : (Rule.composite operation components).Grounded)
    (hresults : List.Forall₂ SameMeaning components results) :
    SameMeaning (.composite operation components) (.composite operation results) := by
  obtain ⟨hne, -⟩ := grounded_composite.mp h
  have hanswers : ∀ k, results.map (Rule.excludes k) = components.map (Rule.excludes k) := by
    intro k
    clear h hne
    induction hresults with
    | nil => rfl
    | cons hc _ ih => rw [List.map_cons, List.map_cons, hc.excludes k, ih]
  have hgrounded : ∀ x ∈ results, x.Grounded :=
    forall_of_forall₂ (hresults.imp fun _ _ hc => hc.grounded)
  refine ⟨grounded_composite.mpr ⟨?_, hgrounded⟩, fun k => ?_⟩
  · rintro hall rfl
    cases hresults
    exact hne hall rfl
  · rw [excludes_composite, excludes_composite, hanswers k]

end Rule.SameMeaning

/-- What the base answers means what it was asked for, unless that holds an empty intersection. -/
def Base.KeepsMeaning (base : Base) : Prop :=
  ∀ operation rules result, base operation rules = .ok result →
    (composite operation rules).Grounded → SameMeaning (.composite operation rules) result

/-- The union of nothing is nothing, and that is what simplification gives for the empty list. -/
theorem Base.simplifying_keepsMeaning (depth : Nat) : (Base.simplifying depth).KeepsMeaning := by
  intro operation rules result hanswer hground
  obtain ⟨hnonempty, hrules⟩ := grounded_composite.mp hground
  by_cases hne : rules = []
  · subst hne
    cases hanswer
    refine ⟨grounded_nothing, fun k => ?_⟩
    cases operation with
    | anyOf => rfl
    | allOf => exact absurd rfl (hnonempty rfl)
  · obtain ⟨hresult, hverdict⟩ :=
      Simplify.excludes_of_fold (Simplify.excludes_of_combine depth operation) hanswer hne hrules
    refine ⟨hresult, fun k => ?_⟩
    rw [hverdict k, excludes_composite]

theorem Request.Variant.excludes_eq {r s : Request} (h : r.Variant s) (k : Coordinate) :
    (composite r.operation r.operands).excludes k = (composite s.operation s.operands).excludes k := by
  have halike : Alike (.composite r.operation r.operands) (.composite s.operation s.operands) := by
    rw [h.operation]
    exact .composite _ h.operands (.refl _)
  exact halike.excludes_eq

namespace Engine

variable {wiring : Wiring} {asked : Request → Prop}

/-- The entry under the key means what one of the requests asks for, which has that key. -/
def Answered (asked : Request → Prop) (key : Memo.Key) (rule : Rule) : Prop :=
  ∃ r, asked r ∧ r.Known ∧ key = r.key ∧ SameMeaning (.composite r.operation r.operands) rule

variable (hbase : wiring.base.KeepsMeaning)
  (hfree : Collisionless fun node => ∃ r, asked r ∧ r.Mentions node)
include hbase hfree

/-- One request: what is found in a memo was the answer to a variant. -/
theorem keepsAt_request {r : Request} (hr : asked r)
    (hground : (composite r.operation r.operands).Grounded) {s : State}
    (hs : Holds (Answered asked) s.layers) :
    KeepsAt (Answered asked) (SameMeaning (.composite r.operation r.operands))
      (request wiring r.operation r.operands) s := by
  refine serve_keeps ?_ ?_ ?_ hs s.journal
  · intro result hanswer
    exact hbase _ _ _ hanswer hground
  · rintro key result hkey ⟨earlier, hearlier, hknown, hsame, hmeans⟩
    obtain ⟨-, rfl⟩ := Memo.known_of_key hkey
    have hvariant := variant_of_key_eq hfree hearlier hr hknown hsame.symm
    exact ⟨hmeans.grounded, fun k => (hmeans.excludes k).trans (hvariant.excludes_eq k)⟩
  · intro key result hkey hmeans
    obtain ⟨hknown, rfl⟩ := Memo.known_of_key hkey
    exact ⟨r, hr, hknown, rfl, hmeans⟩

/-- A rule that is built again means what it did, whatever was found in a memo. -/
theorem keepsAt_rebuild_sameMeaning {tree : Rule} (htree : tree.Grounded) {s : State}
    (hs : Holds (Answered asked) s.layers) (hasked : ∀ r ∈ requests wiring tree s, asked r) :
    KeepsAt (Answered asked) (SameMeaning tree) (tree.rebuild (request wiring)) s := by
  refine keepsAt_rebuild ?_ (fun _ hrule _ => .refl hrule) ?_ htree hs hasked
  · intro operation components hground
    exact (grounded_composite.mp hground).2
  · intro operation components rules t hground hrules hr hholds
    have hsame := SameMeaning.composite hground hrules
    apply (keepsAt_request hbase hfree hr hsame.grounded hholds).imp
    exact fun _ => hsame.trans

end Engine

end ExclusionAlgebra
