import ExclusionAlgebra.Proofs.Digest.Order
import ExclusionAlgebra.Proofs.Rule.Equality
import ExclusionAlgebra.Proofs.Text.Quoted

/-!
# What digests tell apart

The canonical text of a rule determines the rule up to the order of components, as far as digests
determine canonical texts.

* `Rule.Alike.canonical_eq`, `Rule.Alike.digest_eq`: rules that differ in the order of components
  have one canonical text.
* `Rule.Collisionless`: on the rules that satisfy a condition, digests determine canonical texts.
* `Rule.alike_of_digest_eq`: then they determine the rules up to the order of components.
* `Rule.hash_agrees_with_equals`: so digests and the test for equality agree.
-/

namespace ExclusionAlgebra

/-! ## Canonical texts are self-delimiting -/

theorem Operation.length_name (operation : Operation) : operation.name.toList.length = 5 := by
  cases operation <;> simp [name]

theorem Operation.name_append_inj {f g : Operation} {x y : List Char}
    (h : f.name.toList ++ x = g.name.toList ++ y) : f = g ∧ x = y := by
  obtain ⟨hname, hxy⟩ := List.append_inj h (f.length_name.trans g.length_name.symm)
  refine ⟨?_, hxy⟩
  cases f <;> cases g <;> simp [name] at hname ⊢

namespace Canonical

theorem text_append_inj {a b : Option String} {x y : List Char} (h : text a ++ x = text b ++ y) :
    a = b ∧ x = y := by
  cases a with
  | none =>
    cases b with
    | none => exact ⟨rfl, List.append_cancel_left h⟩
    | some v => cases h
  | some u =>
    cases b with
    | none => cases h
    | some v =>
      obtain ⟨huv, hxy⟩ := Text.quote_append_inj h
      exact ⟨congrArg some (String.toList_inj.mp huv), hxy⟩

theorem artifact_append_inj {a b : Option Artifact} {x y : List Char}
    (h : artifact a ++ x = artifact b ++ y) : a = b ∧ x = y := by
  cases a with
  | none =>
    cases b with
    | none => exact ⟨rfl, List.append_cancel_left h⟩
    | some v => cases h
  | some u =>
    cases b with
    | none => cases h
    | some v =>
      simp only [artifact, object, field, commaJoined, List.cons_append, List.append_assoc,
        List.cons.injEq, true_and, List.append_cancel_left_eq] at h
      obtain ⟨hextension, hname⟩ := text_append_inj h
      simp only [List.cons.injEq, true_and, List.append_cancel_left_eq] at hname
      obtain ⟨hname, hxy⟩ := text_append_inj hname
      cases u
      cases v
      cases hextension
      cases hname
      exact ⟨rfl, (List.cons.inj hxy).2⟩

theorem pattern_inj {p q : Pattern} (h : pattern p = pattern q) : p = q := by
  simp only [pattern, object, field, commaJoined, List.append_assoc, List.cons_append,
    List.cons.injEq, true_and, List.append_cancel_left_eq] at h
  obtain ⟨hartifact, hrest⟩ := artifact_append_inj h
  simp only [List.cons.injEq, true_and, List.append_cancel_left_eq] at hrest
  obtain ⟨hgroup, hrest⟩ := text_append_inj hrest
  simp only [List.cons.injEq, true_and, List.append_cancel_left_eq] at hrest
  obtain ⟨hmodule, -⟩ := text_append_inj hrest
  cases p
  cases q
  cases hartifact
  cases hgroup
  cases hmodule
  rfl

theorem hex_inj {a b : Digest} (h : some a.hex = some b.hex) : a = b := by
  cases a
  cases b
  cases h
  rfl

/-- The texts of a list of digests, up to the closing bracket. -/
theorem digests_append_inj {as bs : List Digest} {x y : List Char}
    (h : commaJoined (as.map fun d => text (some d.hex)) ++ ']' :: x =
      commaJoined (bs.map fun d => text (some d.hex)) ++ ']' :: y) : as = bs ∧ x = y := by
  induction as generalizing bs with
  | nil =>
    cases bs with
    | nil => exact ⟨rfl, (List.cons.inj h).2⟩
    | cons b bs => cases bs <;> cases h
  | cons a as ih =>
    cases bs with
    | nil => cases as <;> cases h
    | cons b bs =>
      -- Behind the first text stands a bracket if it is the last, and a comma if not.
      cases as with
      | nil =>
        cases bs with
        | nil =>
          simp only [List.map_cons, commaJoined, List.map_nil] at h
          obtain ⟨hab, hxy⟩ := text_append_inj h
          exact ⟨by rw [hex_inj hab], (List.cons.inj hxy).2⟩
        | cons b' bs =>
          simp only [List.map_cons, commaJoined, List.append_assoc, List.map_nil] at h
          cases (text_append_inj h).2
      | cons a' as =>
        cases bs with
        | nil =>
          simp only [List.map_cons, commaJoined, List.append_assoc, List.map_nil] at h
          cases (text_append_inj h).2
        | cons b' bs =>
          simp only [List.map_cons, commaJoined, List.append_assoc, List.cons_append] at h
          obtain ⟨hab, hrest⟩ := text_append_inj h
          have hbehind : commaJoined ((a' :: as).map fun d => text (some d.hex)) ++ ']' :: x =
              commaJoined ((b' :: bs).map fun d => text (some d.hex)) ++ ']' :: y :=
            (List.cons.inj hrest).2
          obtain ⟨hall, hxy⟩ := ih hbehind
          exact ⟨by rw [hex_inj hab, hall], hxy⟩

theorem composite_inj {f g : Operation} {as bs : List Digest}
    (h : composite f as = composite g bs) : f = g ∧ as.Perm bs := by
  simp only [composite, object, field, array, commaJoined, List.append_assoc, List.cons_append,
    List.cons.injEq, true_and, List.append_cancel_left_eq, List.nil_append] at h
  obtain ⟨hsorted, hrest⟩ := digests_append_inj h
  simp only [List.cons.injEq, true_and, List.append_cancel_left_eq] at hrest
  obtain ⟨hname, -⟩ := text_append_inj hrest
  refine ⟨?_, Digest.sort_eq_sort_iff.mp hsorted⟩
  cases f <;> cases g <;> simp [Operation.name] at hname ⊢

end Canonical

namespace Rule

theorem digests_eq_map (rules : List Rule) : digests rules = rules.map digest := by
  induction rules with
  | nil => rfl
  | cons rule rest ih =>
    rw [digests, ih]
    rfl

theorem canonical_composite (operation : Operation) (components : List Rule) :
    canonical (.composite operation components) =
      Canonical.composite operation (components.map digest) := by
  rw [canonical, digests_eq_map]

theorem digest_composite (operation : Operation) (components : List Rule) :
    digest (.composite operation components) =
      Digest.ofText (Canonical.composite operation (components.map digest)) := by
  rw [digest, canonical_composite]

/-! ## Alike rules have one digest -/

theorem Alike.canonical_eq {a b : Rule} (h : Alike a b) : a.canonical = b.canonical := by
  have hcomposite : ∀ f cs, canonical (.composite f cs) =
      Canonical.composite f ((cs.map canonical).map Digest.ofText) := by
    intro f cs
    rw [canonical_composite, List.map_map]
    rfl
  have hperm : ∀ (f : Operation) (xs ys : List (List Char)), xs.Perm ys →
      Canonical.composite f (xs.map Digest.ofText) = Canonical.composite f (ys.map Digest.ofText) := by
    intro f xs ys hperm
    have hsorted := Digest.sort_eq_sort_iff.mpr (hperm.map Digest.ofText)
    rw [Canonical.composite, hsorted, ← Canonical.composite]
  exact @value_eq _ canonical (fun f texts => Canonical.composite f (texts.map Digest.ofText))
    hcomposite hperm a b h

theorem Alike.digest_eq {a b : Rule} (h : Alike a b) : a.digest = b.digest :=
  congrArg Digest.ofText h.canonical_eq

theorem map_digest_eq {xs ys : List Rule} (h : List.Forall₂ Alike xs ys) :
    xs.map digest = ys.map digest := by
  induction h with
  | nil => rfl
  | cons hxy _ ih => rw [List.map_cons, List.map_cons, hxy.digest_eq, ih]

/-! ## Rules with one digest are alike -/

/-- Digests determine canonical texts, as far as the rules that satisfy the condition go. -/
def Collisionless (P : Rule → Prop) : Prop :=
  ∀ a b, P a → P b → a.digest = b.digest → a.canonical = b.canonical

variable {P : Rule → Prop}

/-- Digests that do not collide on some rules do not collide on rules that are alike to them. -/
theorem Collisionless.of_alike {P Q : Rule → Prop} (h : Collisionless P)
    (hQ : ∀ node, Q node → ∃ other, P other ∧ Alike other node) : Collisionless Q := by
  intro a b ha hb hab
  obtain ⟨a', ha', haa'⟩ := hQ a ha
  obtain ⟨b', hb', hbb'⟩ := hQ b hb
  have hdigest : a'.digest = b'.digest := by
    rw [haa'.digest_eq, hab, hbb'.digest_eq]
  rw [← haa'.canonical_eq, h a' b' ha' hb' hdigest, hbb'.canonical_eq]

/-- Composites whose components have the same digests, in some order. -/
theorem alike_composite_of_perm {f : Operation} {cs ds : List Rule}
    (hcs : ∀ c ∈ cs, ∀ d ∈ ds, c.digest = d.digest → Alike c d)
    (hperm : (cs.map digest).Perm (ds.map digest)) :
    Alike (.composite f cs) (.composite f ds) := by
  have hds : List.Forall₂ (fun value d => value = digest d) (ds.map digest) ds := by
    rw [List.forall₂_map_left_iff]
    exact List.forall₂_same.mpr fun _ _ => rfl
  obtain ⟨es, hes, horder⟩ := List.perm_comp_forall₂ hperm hds
  rw [List.forall₂_map_left_iff] at hes
  refine alike_composite.mpr ⟨rfl, es, ?_, horder⟩
  have hmem : ∀ e ∈ es, e ∈ ds := fun e => horder.mem_iff.mp
  clear hds hperm horder
  induction hes with
  | nil => exact .nil
  | cons hce _ ih =>
    refine .cons (hcs _ List.mem_cons_self _ (hmem _ List.mem_cons_self) hce) (ih ?_ ?_)
    · exact fun c hc => hcs c (List.mem_cons_of_mem _ hc)
    · exact fun e he => hmem e (List.mem_cons_of_mem _ he)

/-- The first letter of the first field of the canonical text.  Of a foreign value, whose text is no
object, it is the third letter. -/
def initial : Rule → Char
  | .pattern _ => 'a'
  | .composite _ _ => 'c'
  | .foreign _ => 'l'
  | _ => 'k'

theorem canonical_third (rule : Rule) : rule.canonical[2]? = some rule.initial := by
  cases rule with
  | composite f cs =>
    rw [canonical_composite]
    rfl
  | _ => rfl

theorem initial_eq_of_canonical_eq {a b : Rule} (h : a.canonical = b.canonical) :
    a.initial = b.initial := by
  have hthird := canonical_third a
  rw [h, canonical_third b] at hthird
  exact (Option.some.inj hthird).symm

theorem canonical_everything_ne_nothing : canonical .everything ≠ canonical .nothing := by
  decide

/-- Where digests determine canonical texts, they determine rules up to the order of components. -/
theorem alike_of_digest_eq (hP : Collisionless P) {a b : Rule} (ha : a.Known)
    (haP : a.Everywhere P) (hbP : b.Everywhere P) (h : a.digest = b.digest) : Alike a b := by
  induction a generalizing b with
  | everything =>
    have hcanonical := hP _ b (haP _ (self_mem_nodes _)) (hbP _ (self_mem_nodes b)) h
    have hinitial := initial_eq_of_canonical_eq hcanonical
    cases b with
    | everything => exact .everything
    | nothing => exact absurd hcanonical canonical_everything_ne_nothing
    | _ => simp [initial] at hinitial
  | nothing =>
    have hcanonical := hP _ b (haP _ (self_mem_nodes _)) (hbP _ (self_mem_nodes b)) h
    have hinitial := initial_eq_of_canonical_eq hcanonical
    cases b with
    | everything => exact absurd hcanonical.symm canonical_everything_ne_nothing
    | nothing => exact .nothing
    | _ => simp [initial] at hinitial
  | pattern p =>
    have hcanonical := hP _ b (haP _ (self_mem_nodes _)) (hbP _ (self_mem_nodes b)) h
    have hinitial := initial_eq_of_canonical_eq hcanonical
    cases b with
    | pattern q => exact Canonical.pattern_inj hcanonical ▸ Alike.pattern p
    | _ => simp [initial] at hinitial
  | composite f cs ih =>
    have hcanonical := hP _ b (haP _ (self_mem_nodes _)) (hbP _ (self_mem_nodes b)) h
    have hinitial := initial_eq_of_canonical_eq hcanonical
    cases b with
    | composite g ds =>
      rw [canonical_composite, canonical_composite] at hcanonical
      obtain ⟨rfl, hperm⟩ := Canonical.composite_inj hcanonical
      rw [known_composite] at ha
      rw [everywhere_composite] at haP hbP
      refine alike_composite_of_perm (fun c hc d hd hcd => ?_) hperm
      exact ih c hc (ha c hc) (haP.2 c hc) (hbP.2 d hd) hcd
    | _ => simp [initial] at hinitial
  | foreign value => exact absurd ha (not_known_foreign value)

/-! ## Digests and the test for equality -/

/-- Two rules have one digest: both are hashed, to the same value. -/
def SameHash (a b : Rule) : Prop := ∃ digest, a.hash = .ok digest ∧ b.hash = .ok digest

theorem sameHash_of_alike {a b : Rule} (ha : a.Known) (h : Alike a b) : SameHash a b := by
  have hb : b.hash = .ok b.digest := hash_eq_ok (h.known ha)
  rw [← h.digest_eq] at hb
  exact ⟨a.digest, hash_eq_ok ha, hb⟩

theorem known_of_sameHash {a b : Rule} (h : SameHash a b) :
    a.Known ∧ b.Known ∧ a.digest = b.digest := by
  obtain ⟨digest, hahash, hbhash⟩ := h
  obtain ⟨ha, hadigest⟩ := known_of_hash hahash
  obtain ⟨hb, hbdigest⟩ := known_of_hash hbhash
  exact ⟨ha, hb, hadigest.symm.trans hbdigest⟩

/-- **Digests and equality agree.** Rules without foreign values that the test calls equal have one
digest; and rules with one digest are called equal, if digests do not collide on the rules inside
them. -/
theorem hash_agrees_with_equals {a b : Rule} (ha : a.Known) :
    (a.equals b = .ok true → SameHash a b) ∧
      (Collisionless (fun node => node ∈ a.nodes ∨ node ∈ b.nodes) → SameHash a b →
        a.equals b = .ok true) := by
  constructor
  · intro hequals
    exact sameHash_of_alike ha (alike_of_equals hequals)
  · intro hfree hsame
    obtain ⟨-, -, hdigest⟩ := known_of_sameHash hsame
    have halike : Alike a b :=
      alike_of_digest_eq hfree ha (fun _ => Or.inl) (fun _ => Or.inr) hdigest
    exact (equals_eq_true_iff ha).mpr halike

/-- Rules with digests of their own do not collide. -/
theorem collisionless_of_nodup {rules : List Rule} (h : (rules.map digest).Nodup) :
    Collisionless (· ∈ rules) := by
  intro a b ha hb hab
  rw [List.inj_on_of_nodup_map h ha hb hab]

/-- A module and a group, united without simplification. -/
def moduleThenGroup : Rule :=
  .composite .anyOf [.pattern ⟨some "a", some "m", none⟩, .pattern ⟨some "b", none, none⟩]

def groupThenModule : Rule :=
  .composite .anyOf [.pattern ⟨some "b", none, none⟩, .pattern ⟨some "a", some "m", none⟩]

theorem hash_agrees_on_swapped :
    moduleThenGroup.Known ∧ moduleThenGroup ≠ groupThenModule ∧
      SameHash moduleThenGroup groupThenModule ∧
      Collisionless (fun node => node ∈ moduleThenGroup.nodes ∨ node ∈ groupThenModule.nodes) ∧
      moduleThenGroup.equals groupThenModule = .ok true := by
  have hknown : moduleThenGroup.Known := by decide
  have hne : moduleThenGroup ≠ groupThenModule := by decide
  have halike : Alike moduleThenGroup groupThenModule :=
    alike_composite.mpr ⟨rfl, .of_perm (fun c _ => Alike.refl c) (.swap _ _ _)⟩
  have hdistinct : (moduleThenGroup.nodes.map digest).Nodup := by decide +kernel
  have hfree : Collisionless
      (fun node => node ∈ moduleThenGroup.nodes ∨ node ∈ groupThenModule.nodes) := by
    apply (collisionless_of_nodup hdistinct).of_alike
    rintro node (hnode | hnode)
    · exact ⟨node, hnode, Alike.refl node⟩
    · exact halike.exists_mem_nodes hnode
  have hagrees := @hash_agrees_with_equals moduleThenGroup groupThenModule hknown
  have hsame : SameHash moduleThenGroup groupThenModule := hagrees.1 rfl
  exact ⟨hknown, hne, hsame, hfree, hagrees.2 hfree hsame⟩

end Rule

end ExclusionAlgebra
