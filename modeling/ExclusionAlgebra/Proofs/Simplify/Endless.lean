import ExclusionAlgebra.Proofs.Rule.Fingerprint
import ExclusionAlgebra.Proofs.Simplify.Kinds

/-!
# Simplification without end

Distribution asks for further combinations, of rules that it has built itself.  A combination that
returns at some depth has had an answer to each of them, so that combinations which ask for one another
in a circle return at no depth.

* `Simplify.Distributes`: a combination that is distributed over the components of one operand;
  `Simplify.returns_or_distributes`: any other returns by itself.
* `Simplify.Combination`, `Simplify.Asks`: a combination, and the combinations that it asks for.
* `Simplify.run_of_asks`, `Simplify.run_ne_ok_of_endless`: it returns only if all of them do.
* `Simplify.not_exists_combineAll`: two rules without foreign values that are intersected at no depth.
-/

namespace ExclusionAlgebra

namespace Simplify

open Rule

variable {f : Operation} {a b x : Rule} {cs : List Rule}

/-! ## One combination -/

/-- The combination is distributed over the components of one operand. -/
structure Distributes (f : Operation) (a b : Rule) (cs : List Rule) (x : Rule) : Prop where
  differ : ¬ Alike a b
  faces : Faces a b f.dual cs x
  kept : f = .anyOf → ∀ c ∈ cs, ¬ Alike c x

theorem dual_ne (f : Operation) : f ≠ f.dual := by
  cases f <;> nofun

theorem step_of_distributes {again : Operation → Rule → Rule → Except Fault Rule} (ha : a.Known)
    (hb : b.Known) (h : Distributes f a b cs x) :
    step again f a b = (cs.mapM fun c => again f c x) >>= fold (again f.dual) := by
  have hcs : ∀ c ∈ cs, c.Known := known_composite.mp (h.faces.forall_operands ha hb).1
  have hkept : (if f = .anyOf then contains cs x else pure false) = .ok false := by
    split
    · rename_i hany
      exact (contains_eq_false_iff hcs).mpr (h.kept hany)
    · rfl
  rw [step_of_faces ha hb h.differ h.faces, merge_of_ne (dual_ne f), hkept]
  rfl

theorem step_of_absorbed {again : Operation → Rule → Rule → Except Fault Rule} (ha : a.Known)
    (hb : b.Known) (hne : ¬ Alike a b) (hf : Faces a b .allOf cs x) (hmem : ∃ c ∈ cs, Alike c x) :
    step again .anyOf a b = .ok x := by
  have hop : Operation.anyOf ≠ .allOf := dual_ne .anyOf
  have hcs : ∀ c ∈ cs, c.Known := known_composite.mp (hf.forall_operands ha hb).1
  rw [step_of_faces ha hb hne hf, merge_of_ne hop, if_pos rfl, (contains_eq_true_iff hcs).mpr hmem]
  rfl

/-- A composite that is taken apart takes the other operand in, or is it absorbed, or distributed
over. -/
theorem returns_or_distributes_of_faces {inner : Operation} (ha : a.Known) (hb : b.Known)
    (hne : ¬ Alike a b) (hf : Faces a b inner cs x) :
    (∀ again, ∃ r, step again f a b = .ok r) ∨ ∃ cs x, Distributes f a b cs x := by
  have hcs : ∀ c ∈ cs, c.Known := known_composite.mp (hf.forall_operands ha hb).1
  obtain ⟨answer, hanswer⟩ := exists_contains hcs x
  by_cases hop : f = inner
  · subst hop
    left
    intro again
    rw [step_of_faces ha hb hne hf, merge, if_pos rfl, adjoin, hanswer]
    cases answer <;> exact ⟨_, rfl⟩
  · cases eq_dual_of_ne hop
    by_cases habsorbed : f = .anyOf ∧ answer = true
    · obtain ⟨rfl, rfl⟩ := habsorbed
      refine Or.inl fun again => ⟨x, ?_⟩
      rw [step_of_faces ha hb hne hf, merge_of_ne hop, if_pos rfl, hanswer]
      rfl
    · refine Or.inr ⟨cs, x, hne, hf, fun hany => ?_⟩
      rw [← contains_eq_false_iff hcs, hanswer]
      simpa [hany] using habsorbed

/-- A combination returns by itself, or is distributed. -/
theorem returns_or_distributes (ha : a.Known) (hb : b.Known) :
    (∀ again, ∃ r, step again f a b = .ok r) ∨ ∃ cs x, Distributes f a b cs x := by
  by_cases halike : Alike a b
  · exact Or.inl fun again => ⟨a, step_of_alike ha halike⟩
  · cases a with
    | everything => exact Or.inl fun again => by cases f <;> cases b <;> exact ⟨_, rfl⟩
    | nothing => exact Or.inl fun again => by cases f <;> cases b <;> exact ⟨_, rfl⟩
    | foreign value => exact absurd ha (not_known_foreign value)
    | pattern p =>
      cases b with
      | everything | nothing => exact Or.inl fun again => by cases f <;> exact ⟨_, rfl⟩
      | foreign value => exact absurd hb (not_known_foreign value)
      | pattern q =>
        refine Or.inl fun again => ⟨_, step_of_patterns ?_⟩
        rintro rfl
        exact halike (Alike.refl _)
      | composite g ds => exact returns_or_distributes_of_faces ha hb halike (.patternLeft p g ds)
    | composite g ds =>
      cases b with
      | everything | nothing => exact Or.inl fun again => by cases f <;> exact ⟨_, rfl⟩
      | foreign value => exact absurd hb (not_known_foreign value)
      | pattern q => exact returns_or_distributes_of_faces ha hb halike (.patternRight q g ds)
      | composite k es =>
        cases hle : (composite g ds).digest.le (composite k es).digest with
        | true => exact returns_or_distributes_of_faces ha hb halike (.inOrder hle)
        | false => exact returns_or_distributes_of_faces ha hb halike (.swapped hle)

/-! ## The combinations that a combination asks for -/

structure Combination where
  operation : Operation
  left : Rule
  right : Rule

namespace Combination

def run (depth : Nat) (c : Combination) : Except Fault Rule :=
  combine depth c.operation c.left c.right

def Known (c : Combination) : Prop := c.left.Known ∧ c.right.Known

end Combination

/-- What a distributed combination asks for: each component with the other operand, and, once the
components have returned their parts, the parts folded so far with the next part. -/
inductive Asks : Combination → Combination → Prop
  | component {f : Operation} {a b x c : Rule} {cs : List Rule} (h : Distributes f a b cs x)
    (hc : c ∈ cs) : Asks ⟨f, a, b⟩ ⟨f, c, x⟩
  | fold {f : Operation} {a b x acc next : Rule} {cs before after : List Rule} {depth : Nat}
    (h : Distributes f a b cs x)
    (hparts : (cs.mapM fun c => combine depth f c x) = .ok (before ++ next :: after))
    (hne : before ≠ []) (hacc : combineAll depth f.dual before = .ok acc) :
    Asks ⟨f, a, b⟩ ⟨f.dual, acc, next⟩

theorem known_of_asks {c d : Combination} (h : Asks c d) (hc : c.Known) : d.Known := by
  obtain ⟨ha, hb⟩ := hc
  cases h with
  | component h hmem =>
    obtain ⟨hcs, hx⟩ := h.faces.forall_operands ha hb
    exact ⟨known_composite.mp hcs _ hmem, hx⟩
  | fold h hparts _ hacc =>
    obtain ⟨hcs, hx⟩ := h.faces.forall_operands ha hb
    have hall := forall_of_mapM hparts fun c hc part hpart =>
      known_of_combine _ _ _ _ _ hpart (known_composite.mp hcs c hc) hx
    rw [List.forall_mem_append, List.forall_mem_cons] at hall
    exact ⟨known_of_combineAll hacc hall.1, hall.2.1⟩

/-! ## It returns only if they do -/

/-- A fold that returns has folded each first part of its list and gone on from there. -/
theorem exists_of_fold_append {pair : Rule → Rule → Except Fault Rule} {before after : List Rule}
    {next r : Rule} (hne : before ≠ []) (h : fold pair (before ++ next :: after) = .ok r) :
    ∃ acc part, fold pair before = .ok acc ∧ pair acc next = .ok part := by
  obtain ⟨first, rest, rfl⟩ := List.exists_cons_of_ne_nil hne
  rw [fold_append] at h
  obtain ⟨acc, hacc, h⟩ := bind_eq_ok.mp h
  rw [List.foldlM_cons] at h
  obtain ⟨part, hpart, -⟩ := bind_eq_ok.mp h
  exact ⟨acc, part, hacc, hpart⟩

/-- The parts of a distribution do not depend on the depth. -/
theorem parts_unique {depth more : Nat} {parts others : List Rule}
    (hparts : (cs.mapM fun c => combine depth f c x) = .ok parts)
    (hothers : (cs.mapM fun c => combine more f c x) = .ok others) : parts = others := by
  have hmono : ∀ m n, m ≤ n → ∀ ps, (cs.mapM fun c => combine m f c x) = .ok ps →
      (cs.mapM fun c => combine n f c x) = .ok ps :=
    fun _ _ hle _ => (Approximates.mapM (fun c => approximates_combine hle f c x) cs).ok
  exact eq_of_mono hmono hparts hothers

theorem run_of_asks {c d : Combination} (hasks : Asks c d) (hc : c.Known) {depth : Nat} {r : Rule}
    (h : c.run (depth + 1) = .ok r) : ∃ s, d.run depth = .ok s := by
  obtain ⟨ha, hb⟩ := hc
  cases hasks with
  | component hdist hmem =>
    have hstep : step (combine depth) _ _ _ = .ok r := h
    rw [step_of_distributes ha hb hdist] at hstep
    obtain ⟨parts, hparts, -⟩ := bind_eq_ok.mp hstep
    exact exists_of_mapM hparts hmem
  | fold hdist hparts hne hacc =>
    have hstep : step (combine depth) _ _ _ = .ok r := h
    rw [step_of_distributes ha hb hdist] at hstep
    obtain ⟨parts, hparts', hfold⟩ := bind_eq_ok.mp hstep
    cases parts_unique hparts hparts'
    obtain ⟨acc', part, hacc', hpart⟩ := exists_of_fold_append hne hfold
    cases combineAll_unique hacc hacc'
    exact ⟨part, hpart⟩

/-- A set of combinations in which each asks for another returns at no depth. -/
theorem run_ne_ok_of_endless {S : Combination → Prop} (hS : ∀ c, S c → ∃ d, S d ∧ Asks c d)
    {depth : Nat} {c : Combination} (hc : S c) (hknown : c.Known) (r : Rule) :
    c.run depth ≠ .ok r := by
  induction depth generalizing c r with
  | zero => exact nofun
  | succ depth ih =>
    intro h
    obtain ⟨d, hd, hasks⟩ := hS c hc
    obtain ⟨s, hs⟩ := run_of_asks hasks hknown h
    exact ih hd (known_of_asks hasks hknown) s hs

/-! ## An endless combination

Written with `E` for `everything` and `p` for a module, `all(any(E))` meets `any(E, p)`.  The parts of
this intersection are `all(any(E))` and `all(any(E), p)`, and the parts of their union are
`any(E, all(any(E)))` and `any(E, p)`.  When these are intersected, the first component of the first
is dropped and the second is `all(any(E))`, which meets `any(E, p)` again. -/

namespace Endless

def plain : Rule := .pattern ⟨some "a", some "m", none⟩

def inner : Rule := .composite .anyOf [.everything]

def wrapped : Rule := .composite .allOf [inner]

def pair : Rule := .composite .anyOf [.everything, plain]

def narrowed : Rule := .composite .allOf [inner, plain]

def widened : Rule := .composite .anyOf [.everything, wrapped]

/-- The order of the digests decides which operand is taken apart. -/
theorem digests_order : inner.digest.le wrapped.digest = true ∧
    wrapped.digest.le pair.digest = false ∧ wrapped.digest.le narrowed.digest = false ∧
    widened.digest.le pair.digest = true := by
  have heverything : Rule.everything.digest =
      ⟨"dac9c4ca9e8556df727342dd9d0e4c507ef5924d9004ff09a2e956578174622d"⟩ := by
    decide +kernel
  have hplain : plain.digest =
      ⟨"f81f5ed288c6788357fafa69eabee9ee5b2e2093ba230d98bf2bad05d2aa9c86"⟩ := by
    decide +kernel
  have hinner : inner.digest =
      ⟨"66e8905428f8089304c18591c3301e5c7cb5ab567bbafa0e1520087a7a214d10"⟩ := by
    rw [inner, digest_composite, List.map_singleton, heverything]
    decide +kernel
  have hwrapped : wrapped.digest =
      ⟨"cb6b755dea890938205e1fe7a3539060c19e500af4cf7fb6cdb24d1804cb2ccb"⟩ := by
    rw [wrapped, digest_composite, List.map_singleton, hinner]
    decide +kernel
  have hpair : pair.digest =
      ⟨"c170742fa68ae38574a4e50854f6558317a239fe25648ee5f46f3fdecd33976e"⟩ := by
    rw [pair, digest_composite, List.map_cons, List.map_singleton, heverything, hplain]
    decide +kernel
  have hnarrowed : narrowed.digest =
      ⟨"15371b8b5165b370cd66e21c88b51676d400f3c1b7a4989507b703c1d70b8037"⟩ := by
    rw [narrowed, digest_composite, List.map_cons, List.map_singleton, hinner, hplain]
    decide +kernel
  have hwidened : widened.digest =
      ⟨"600afad058ac66733d76b56a50c5dc1e50beb5031948145edfa1cb632b64fc1d"⟩ := by
    rw [widened, digest_composite, List.map_cons, List.map_singleton, heverything, hwrapped]
    decide +kernel
  rw [hinner, hwrapped, hpair, hnarrowed, hwidened]
  decide

theorem known_inner : inner.Known := by decide

theorem known_wrapped : wrapped.Known := by decide

theorem known_pair : pair.Known := by decide

theorem not_alike_inner_wrapped : ¬ Alike inner wrapped := by
  intro halike
  cases (alike_composite.mp halike).1

/-- The intersection of `all(any(E))` and `any(E, p)` asks for the union of its parts. -/
theorem asks_union : Asks ⟨.allOf, wrapped, pair⟩ ⟨.anyOf, wrapped, narrowed⟩ := by
  have hdist : Distributes .allOf wrapped pair [.everything, plain] wrapped :=
    ⟨nofun, .swapped digests_order.2.1, nofun⟩
  have hparts : ([Rule.everything, plain].mapM fun c => combine 1 .allOf c wrapped) =
      .ok ([wrapped] ++ [narrowed]) := rfl
  have hacc : combineAll 1 .anyOf [wrapped] = .ok wrapped := rfl
  exact .fold hdist hparts nofun hacc

/-- The union of `all(any(E))` and `all(any(E), p)` asks for the intersection of its parts. -/
theorem asks_intersection : Asks ⟨.anyOf, wrapped, narrowed⟩ ⟨.allOf, widened, pair⟩ := by
  obtain ⟨hinner, -, horder, -⟩ := digests_order
  have hdist : Distributes .anyOf wrapped narrowed [inner, plain] wrapped := by
    refine ⟨?_, .swapped horder, fun _ c hc halike => ?_⟩
    · intro halike
      have hlength := (alike_composite.mp halike).2.length_eq
      cases hlength
    · rcases List.mem_pair.mp hc with rfl | rfl
      · cases halike
      · cases halike
  have hfaces : Faces inner wrapped .anyOf [.everything] wrapped := .inOrder hinner
  have hstep : step (combine 1) .anyOf inner wrapped =
      merge (combine 1) .anyOf .anyOf [.everything] wrapped :=
    step_of_faces known_inner known_wrapped not_alike_inner_wrapped hfaces
  have hwidened : combine 2 .anyOf inner wrapped = .ok widened := hstep.trans rfl
  have hpair : combine 2 .anyOf plain wrapped = .ok pair := rfl
  have hparts : ([inner, plain].mapM fun c => combine 2 .anyOf c wrapped) =
      .ok ([widened] ++ [pair]) := mapM_eq_ok.mpr (.cons hwidened (.cons hpair .nil))
  have hacc : combineAll 2 .allOf [widened] = .ok widened := rfl
  exact .fold hdist hparts nofun hacc

/-- The intersection of `any(E, all(any(E)))` and `any(E, p)` asks for the one that began. -/
theorem asks_again : Asks ⟨.allOf, widened, pair⟩ ⟨.allOf, wrapped, pair⟩ := by
  have horder : widened.digest.le pair.digest = true := digests_order.2.2.2
  have hdist : Distributes .allOf widened pair [.everything, wrapped] pair := by
    refine ⟨?_, .inOrder horder, nofun⟩
    intro halike
    obtain ⟨c, hc, hplain⟩ := (alike_composite.mp halike).2.exists_of_mem_right
      (List.mem_cons_of_mem _ List.mem_cons_self)
    rcases List.mem_pair.mp hc with rfl | rfl
    · cases hplain
    · cases hplain
  exact .component hdist (List.mem_cons_of_mem _ List.mem_cons_self)

end Endless

/-- Simplification does not end on all rules without foreign values: `all(any(everything))` and
`any(everything, a:m)` are intersected at no depth. -/
theorem not_exists_combineAll : ¬ ∀ (operation : Operation) (a b : Rule), a.Known → b.Known →
    ∃ depth result, combineAll depth operation [a, b] = .ok result := by
  intro hclaim
  obtain ⟨depth, result, hrun⟩ :=
    hclaim .allOf Endless.wrapped Endless.pair Endless.known_wrapped Endless.known_pair
  rw [combineAll_pair] at hrun
  have hendless : ∀ c, (c = ⟨.allOf, Endless.wrapped, Endless.pair⟩ ∨
      c = ⟨.anyOf, Endless.wrapped, Endless.narrowed⟩ ∨
      c = ⟨.allOf, Endless.widened, Endless.pair⟩) →
      ∃ d, (d = ⟨.allOf, Endless.wrapped, Endless.pair⟩ ∨
        d = ⟨.anyOf, Endless.wrapped, Endless.narrowed⟩ ∨
        d = ⟨.allOf, Endless.widened, Endless.pair⟩) ∧ Asks c d := by
    rintro c (rfl | rfl | rfl)
    · exact ⟨_, Or.inr (Or.inl rfl), Endless.asks_union⟩
    · exact ⟨_, Or.inr (Or.inr rfl), Endless.asks_intersection⟩
    · exact ⟨_, Or.inl rfl, Endless.asks_again⟩
  exact run_ne_ok_of_endless hendless (Or.inl rfl) ⟨Endless.known_wrapped, Endless.known_pair⟩
    result hrun

end Simplify

end ExclusionAlgebra
