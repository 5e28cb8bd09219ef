import Mathlib.Data.List.Perm.Basic
import ExclusionAlgebra.Proofs.Rule.Nodes

/-!
# Rules that differ in the order of components

* `Paired`: two lists whose members can be paired off.
* `Rule.Alike`: the same singleton, the same pattern, or composites of one operation whose
  components can be paired off, each with an alike one of its own.
* `Rule.Alike.refl`, `Rule.Alike.symm`, `Rule.Alike.trans`: it is an equivalence.
* `Rule.Alike.value_eq`: what does not depend on the order of components is the same for alike rules.
* `Paired.cancel`: over an equivalence, any choice of a partner can be completed.
* `Rule.Alike.length_nodes_eq`, `Rule.length_nodes_lt_of_mem`: alike rules have equally many nodes, a
  component has fewer than the composite.
-/

namespace ExclusionAlgebra

/-! ## Lists that can be paired off -/

section

variable {α : Type} {R : α → α → Prop}

/-- The second list can be put in an order in which it agrees with the first member by member. -/
def Paired (R : α → α → Prop) (cs ds : List α) : Prop :=
  ∃ es, List.Forall₂ R cs es ∧ es.Perm ds

namespace Paired

theorem length_eq {cs ds : List α} (h : Paired R cs ds) : cs.length = ds.length := by
  obtain ⟨es, hes, hperm⟩ := h
  exact hes.length_eq.trans hperm.length_eq

theorem of_perm {cs ds : List α} (hR : ∀ c ∈ cs, R c c) (h : cs.Perm ds) : Paired R cs ds :=
  ⟨cs, List.forall₂_same.mpr hR, h⟩

theorem perm_right {cs ds es : List α} (h : Paired R cs ds) (hperm : ds.Perm es) :
    Paired R cs es := by
  obtain ⟨fs, hfs, hp⟩ := h
  exact ⟨fs, hfs, hp.trans hperm⟩

theorem cons {c d : α} {cs ds : List α} (hcd : R c d) (h : Paired R cs ds) :
    Paired R (c :: cs) (d :: ds) := by
  obtain ⟨es, hes, hperm⟩ := h
  exact ⟨d :: es, .cons hcd hes, hperm.cons d⟩

theorem exists_of_mem_right {cs ds : List α} {d : α} (h : Paired R cs ds) (hd : d ∈ ds) :
    ∃ c ∈ cs, R c d := by
  obtain ⟨es, hes, hperm⟩ := h
  have hd := hperm.mem_iff.mpr hd
  clear hperm
  induction hes with
  | nil => cases hd
  | cons hcd _ ih =>
    rcases List.mem_cons.mp hd with rfl | hd
    · exact ⟨_, List.mem_cons_self, hcd⟩
    · obtain ⟨c, hc, hcd⟩ := ih hd
      exact ⟨c, List.mem_cons_of_mem _ hc, hcd⟩

theorem symm {cs ds : List α} (hR : ∀ c ∈ cs, ∀ d, R c d → R d c) (h : Paired R cs ds) :
    Paired R ds cs := by
  obtain ⟨es, hes, hperm⟩ := h
  have hback : List.Forall₂ R es cs := by
    refine List.Forall₂.flip ?_
    exact ((List.forall₂_and_left _ _).mpr ⟨hR, hes⟩).imp fun c d h => h.1 d h.2
  obtain ⟨fs, hfs, hp⟩ := List.perm_comp_forall₂ hperm.symm hback
  exact ⟨fs, hfs, hp⟩

theorem trans {cs ds es : List α} (hR : ∀ c ∈ cs, ∀ d e, R c d → R d e → R c e)
    (h₁ : Paired R cs ds) (h₂ : Paired R ds es) : Paired R cs es := by
  obtain ⟨fs, hfs, hp⟩ := h₁
  obtain ⟨gs, hgs, hq⟩ := h₂
  obtain ⟨ks, hks, hr⟩ := List.perm_comp_forall₂ hp hgs
  refine ⟨ks, ?_, hr.trans hq⟩
  have hboth := (List.forall₂_and_left _ _).mpr ⟨hR, hfs⟩
  clear hp hr hfs hR
  induction hboth generalizing ks with
  | nil => cases hks; exact .nil
  | cons hab _ ih =>
    cases hks with
    | cons hbc hrest => exact .cons (hab.1 _ _ hab.2 hbc) (ih _ hrest)

/-- Over an equivalence it does not matter which partner the first member takes: the others can
still be paired off.  The member that would have taken this partner takes the one left over. -/
theorem cancel [DecidableEq α] {c d : α} {cs ds rest : List α} (hrefl : ∀ a, R a a)
    (hsymm : ∀ a b, R a b → R b a) (htrans : ∀ a b c, R a b → R b c → R a c)
    (h : Paired R (c :: cs) ds) (hcd : R c d) (hds : ds.Perm (d :: rest)) :
    Paired R cs rest := by
  obtain ⟨_, hes, hperm⟩ := h
  cases hes with
  | @cons _ e _ es hce hes =>
    have hall : (e :: es).Perm (d :: rest) := hperm.trans hds
    by_cases hed : e = d
    · subst hed
      exact ⟨es, hes, hall.cons_inv⟩
    · have hd : d ∈ es := by
        have hmem := hall.mem_iff.mpr List.mem_cons_self
        exact (List.mem_cons.mp hmem).resolve_left (Ne.symm hed)
      have hes' : es.Perm (d :: es.erase d) := List.perm_cons_erase hd
      have hrest : (e :: es.erase d).Perm rest := by
        have hswap : (d :: e :: es.erase d).Perm (d :: rest) :=
          ((List.Perm.swap e d _).trans (hes'.symm.cons e)).trans hall
        exact hswap.cons_inv
      have hde : R d e := htrans d c e (hsymm c d hcd) hce
      have hexchange : Paired R (d :: es.erase d) (e :: es.erase d) :=
        cons hde (of_perm (fun a _ => hrefl a) (.refl _))
      have hcs : Paired R cs (d :: es.erase d) := perm_right ⟨es, hes, .refl _⟩ hes'
      exact (hcs.trans (fun a _ => htrans a) hexchange).perm_right hrest

end Paired

end

namespace Rule

/-! ## The relation -/

/-- Two rules are alike when they are built in the same way up to the order of components. -/
inductive Alike : Rule → Rule → Prop
  | everything : Alike .everything .everything
  | nothing : Alike .nothing .nothing
  | pattern (p : Pattern) : Alike (.pattern p) (.pattern p)
  | composite (operation : Operation) {cs ds es : List Rule} :
    List.Forall₂ Alike cs es → es.Perm ds → Alike (.composite operation cs) (.composite operation ds)
  | foreign (value : Foreign) : Alike (.foreign value) (.foreign value)

theorem alike_composite {f g : Operation} {cs ds : List Rule} :
    Alike (.composite f cs) (.composite g ds) ↔ f = g ∧ Paired Alike cs ds := by
  constructor
  · rintro (_ | _ | _ | ⟨_, hes, hperm⟩)
    exact ⟨rfl, _, hes, hperm⟩
  · rintro ⟨rfl, es, hes, hperm⟩
    exact .composite f hes hperm

namespace Alike

theorem refl (a : Rule) : Alike a a := by
  induction a with
  | everything => exact .everything
  | nothing => exact .nothing
  | pattern p => exact .pattern p
  | composite f cs ih => exact alike_composite.mpr ⟨rfl, Paired.of_perm ih (.refl _)⟩
  | foreign value => exact .foreign value

theorem symm {a b : Rule} (h : Alike a b) : Alike b a := by
  induction a generalizing b with
  | everything => cases h; exact .everything
  | nothing => cases h; exact .nothing
  | pattern p => cases h; exact .pattern p
  | composite f cs ih =>
    cases h with
    | composite _ hes hperm =>
      exact alike_composite.mpr ⟨rfl, Paired.symm (fun c hc d => ih c hc) ⟨_, hes, hperm⟩⟩
  | foreign value => cases h; exact .foreign value

theorem trans {a b c : Rule} (hab : Alike a b) (hbc : Alike b c) : Alike a c := by
  induction a generalizing b c with
  | everything => cases hab; exact hbc
  | nothing => cases hab; exact hbc
  | pattern p => cases hab; exact hbc
  | composite f cs ih =>
    cases hab with
    | composite _ hes hperm =>
      cases hbc with
      | composite _ hes' hperm' =>
        refine alike_composite.mpr ⟨rfl, ?_⟩
        exact Paired.trans (fun c hc d e => ih c hc) ⟨_, hes, hperm⟩ ⟨_, hes', hperm'⟩
  | foreign value => cases hab; exact hbc

theorem known {a b : Rule} (h : Alike a b) (ha : a.Known) : b.Known := by
  induction a generalizing b with
  | everything => cases h; exact ha
  | nothing => cases h; exact ha
  | pattern p => cases h; exact ha
  | composite f cs ih =>
    cases h with
    | composite _ hes hperm =>
      rw [known_composite] at ha ⊢
      intro d hd
      obtain ⟨c, hc, hcd⟩ := Paired.exists_of_mem_right ⟨_, hes, hperm⟩ hd
      exact ih c hc hcd (ha c hc)
  | foreign value => cases h; exact ha

/-- What is computed of a composite from its operation and from what is computed of its components,
without regard to their order, is the same for alike rules. -/
theorem value_eq {β : Type} {value : Rule → β} {combined : Operation → List β → β}
    (hcomposite : ∀ f cs, value (.composite f cs) = combined f (cs.map value))
    (hperm : ∀ f xs ys, xs.Perm ys → combined f xs = combined f ys) {a b : Rule} (h : Alike a b) :
    value a = value b := by
  induction a generalizing b with
  | composite f cs ih =>
    cases h with
    | @composite _ _ ds es hes hperm' =>
      have hmap : cs.map value = es.map value := by
        clear hperm'
        induction hes with
        | nil => rfl
        | cons hce _ ihes =>
          rw [List.forall_mem_cons] at ih
          rw [List.map_cons, List.map_cons, ih.1 hce, ihes ih.2]
      rw [hcomposite, hcomposite, hmap]
      exact hperm f _ _ (hperm'.map value)
  | everything | nothing | pattern p | foreign value =>
    cases h
    rfl

end Alike

/-! ## Lists of alike rules -/

theorem forall₂_alike_symm {xs ys : List Rule} (h : List.Forall₂ Alike xs ys) :
    List.Forall₂ Alike ys xs :=
  (h.imp fun _ _ => Alike.symm).flip

theorem forall₂_alike_trans {xs ys zs : List Rule} (h₁ : List.Forall₂ Alike xs ys)
    (h₂ : List.Forall₂ Alike ys zs) : List.Forall₂ Alike xs zs := by
  induction h₁ generalizing zs with
  | nil => exact h₂
  | cons hxy _ ih =>
    cases h₂ with
    | cons hyz hrest => exact .cons (hxy.trans hyz) (ih hrest)

theorem exists_alike_of_mem {xs ys : List Rule} (h : List.Forall₂ Alike xs ys) {y : Rule}
    (hy : y ∈ ys) : ∃ x ∈ xs, Alike x y :=
  Paired.exists_of_mem_right ⟨ys, h, .refl _⟩ hy

theorem known_of_forall₂ {xs ys : List Rule} (h : List.Forall₂ Alike xs ys)
    (hxs : ∀ x ∈ xs, x.Known) : ∀ y ∈ ys, y.Known := by
  intro y hy
  obtain ⟨x, hx, hxy⟩ := exists_alike_of_mem h hy
  exact hxy.known (hxs x hx)

/-- Each rule inside a rule has an alike one inside every alike rule. -/
theorem Alike.exists_mem_nodes {a b : Rule} (h : Alike a b) {node : Rule} (hnode : node ∈ b.nodes) :
    ∃ other ∈ a.nodes, Alike other node := by
  induction a generalizing b with
  | composite f cs ih =>
    cases h with
    | @composite _ _ ds es hes hperm =>
      rcases mem_nodes_composite.mp hnode with rfl | ⟨d, hd, hnode⟩
      · exact ⟨_, self_mem_nodes _, .composite f hes hperm⟩
      · obtain ⟨c, hc, hcd⟩ := Paired.exists_of_mem_right ⟨es, hes, hperm⟩ hd
        obtain ⟨other, hother, halike⟩ := ih c hc hcd hnode
        exact ⟨other, mem_nodes_composite.mpr (Or.inr ⟨c, hc, hother⟩), halike⟩
  | everything | nothing | pattern p | foreign value =>
    cases h
    exact ⟨node, hnode, refl node⟩

/-! ## Size -/

theorem nodesIn_eq_flatMap (cs : List Rule) : nodesIn cs = cs.flatMap nodes := by
  induction cs with
  | nil => rfl
  | cons c rest ih => rw [nodesIn, ih, List.flatMap_cons]

theorem Alike.length_nodes_eq {a b : Rule} (h : Alike a b) : a.nodes.length = b.nodes.length := by
  have hcomposite : ∀ (f : Operation) (cs : List Rule),
      (Rule.composite f cs).nodes.length = (cs.map fun c => c.nodes.length).sum + 1 := by
    intro f cs
    rw [nodes, List.length_cons, nodesIn_eq_flatMap, List.length_flatMap]
  have hperm : ∀ (_ : Operation) (xs ys : List Nat), xs.Perm ys → xs.sum + 1 = ys.sum + 1 :=
    fun _ _ _ h => congrArg Nat.succ h.sum_nat
  exact @value_eq Nat (fun rule => rule.nodes.length) _ hcomposite hperm a b h

theorem length_nodes_lt_of_mem {operation : Operation} {cs : List Rule} {c : Rule} (hc : c ∈ cs) :
    c.nodes.length < (composite operation cs).nodes.length := by
  obtain ⟨before, after, rfl⟩ := List.append_of_mem hc
  simp only [nodes, nodesIn_eq_flatMap, List.length_cons, List.flatMap_append, List.flatMap_cons,
    List.length_append]
  omega

end Rule

end ExclusionAlgebra
