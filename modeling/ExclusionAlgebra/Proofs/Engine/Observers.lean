import ExclusionAlgebra.Proofs.Engine.Entries
import ExclusionAlgebra.Proofs.Engine.Keeping
import ExclusionAlgebra.Proofs.Engine.Transparency

/-!
# Layers that only look on

A recording or forwarding layer lets requests and answers pass.  As long as everything can be written
down, a stack of layers answers as its memos alone would, wherever the other layers stand.

* `Engine.memos`, `Memo.consult`: the memos of a stack, and a request that is put to them alone.
* `Engine.serve_eq_consult`: the stack answers as its memos do, by induction on the layers.
* `Engine.SameMemos`, `Engine.builders_sameMemos`: engines that have the same memos go together.
* `Session.run_unobserved`: so do their sessions.
-/

namespace ExclusionAlgebra

/-! ## Memos alone -/

/-- A request to memos, each with the others behind it: the first that holds the key answers.  Else
what is behind them all does, and a rule is taken in on its way by all that it passes. -/
def Memo.consult (key : Memo.Key) (behind : Except Fault Rule) :
    List Memo → Except Fault Rule × List Memo
  | [] => (behind, [])
  | memo :: below =>
    match memo.find? key with
    | some found => (.ok found, memo :: below)
    | none =>
      match consult key behind below with
      | (.error fault, after) => (.error fault, memo :: after)
      | (.ok rule, after) => (.ok rule, memo.insert key rule :: after)

namespace Engine

/-- The memos among the layers, outermost first. -/
def memos : List Layer → List Memo
  | [] => []
  | .caching memo :: below => memo :: memos below
  | .logging _ :: below => memos below
  | .forwarding :: below => memos below

theorem mem_memos {layers : List Layer} {memo : Memo} :
    memo ∈ memos layers ↔ .caching memo ∈ layers := by
  induction layers with
  | nil => simp [memos]
  | cons layer below ih => cases layer <;> simp [memos, ih]

theorem memos_forget (layers : List Layer) :
    memos (layers.map Layer.forget) = (memos layers).map fun _ => .empty := by
  induction layers with
  | nil => rfl
  | cons layer below ih => cases layer <;> simp [memos, Layer.forget, ih]

theorem cacheSizes_eq (s : State) : s.cacheSizes = (memos s.layers).map Memo.size := by
  obtain ⟨layers, journal⟩ := s
  unfold State.cacheSizes
  induction layers with
  | nil => rfl
  | cons layer below ih => cases layer <;> simpa [memos] using ih

theorem holds_of_memos_eq {Q : Memo.Key → Rule → Prop} {layers others : List Layer}
    (hmemos : memos layers = memos others) (h : Holds Q layers) : Holds Q others := by
  intro memo hmemo
  rw [← mem_memos, ← hmemos, mem_memos] at hmemo
  exact h memo hmemo

/-! ## One request -/

variable {wiring other : Wiring} {r : Request}

/-- A request on rules without foreign values brings none in, neither in its answer nor in a memo. -/
theorem serve_known (hbase : wiring.base.KeepsKnown) (hr : r.Known) {layers : List Layer}
    (hlayers : Holds (fun _ => Rule.Known) layers) (journal : Journal) :
    (∀ c, (serve wiring r.operation r.operands layers journal).1 = .ok c → c.Known) ∧
      Holds (fun _ => Rule.Known) (serve wiring r.operation r.operands layers journal).2.layers := by
  refine serve_keeps ?_ ?_ ?_ hlayers journal
  · exact fun c hc => hbase r.operation r.operands c hc hr
  · exact fun _ c _ hc => hc
  · exact fun _ c _ hc => hc

/-- By induction on the layers: those that only look on change neither the answer nor a memo. -/
theorem serve_eq_consult (hbase : wiring.base.KeepsKnown)
    (hsink : ∀ entry, wiring.sink entry = .ok ()) (hr : r.Known) {layers : List Layer}
    (hlayers : Holds (fun _ => Rule.Known) layers) (journal : Journal) :
    ((serve wiring r.operation r.operands layers journal).1,
        memos (serve wiring r.operation r.operands layers journal).2.layers) =
      Memo.consult r.key (r.answer wiring.base) (memos layers) := by
  induction layers with
  | nil => rfl
  | cons layer below ih =>
    cases layer with
    | forwarding => exact ih (holds_forwarding.mp hlayers)
    | logging kept =>
      have hbelow := holds_logging.mp hlayers
      obtain ⟨hknown, -⟩ := serve_known hbase hr hbelow journal
      rw [memos, ← ih hbelow, serve]
      revert hknown
      rcases serve wiring r.operation r.operands below journal with ⟨fault | result, after⟩
      · exact fun _ => rfl
      · intro hknown
        have hrecord : (record wiring kept r.operation r.operands result after.journal).1 = .ok () :=
          record_of_known hsink hr (hknown result rfl)
        dsimp only
        rw [hrecord]
        rfl
    | caching memo =>
      obtain ⟨-, hbelow⟩ := holds_caching.mp hlayers
      rw [memos, Memo.consult, ← ih hbelow, serve, Memo.key_of_known hr]
      dsimp only
      cases memo.find? r.key with
      | some found => rfl
      | none =>
        rcases serve wiring r.operation r.operands below journal with ⟨fault | result, after⟩ <;> rfl

/-! ## Engines with the same memos -/

/-- The two engines have the same memos, which hold no foreign values. -/
structure SameMemos (s t : State) : Prop where
  memos : memos s.layers = memos t.layers
  known : Holds (fun _ => Rule.Known) s.layers

theorem SameMemos.clearCaches {s t : State} (h : SameMemos s t) :
    SameMemos s.clearCaches t.clearCaches := by
  refine ⟨?_, holds_forget _⟩
  simp only [State.clearCaches, memos_forget, h.memos]

theorem SameMemos.cacheSizes {s t : State} (h : SameMemos s t) : s.cacheSizes = t.cacheSizes := by
  rw [cacheSizes_eq, cacheSizes_eq, h.memos]

section

variable (hbases : wiring.base = other.base) (hbase : wiring.base.KeepsKnown)
  (hsink : ∀ entry, wiring.sink entry = .ok ()) (hother : ∀ entry, other.sink entry = .ok ())
include hbases hbase hsink hother

theorem request_sameMemos (hr : r.Known) :
    Stateful.Matches SameMemos (fun a b => a = b ∧ a.Known)
      (request wiring r.operation r.operands) (request other r.operation r.operands) := by
  intro s t h
  have hleft := serve_eq_consult hbase hsink hr h.known s.journal
  have hright := serve_eq_consult (hbases ▸ hbase) hother hr (holds_of_memos_eq h.memos h.known)
    t.journal
  rw [← hbases, ← h.memos, ← hleft] at hright
  obtain ⟨hanswer, hmemos⟩ := Prod.ext_iff.mp hright
  obtain ⟨hknown, hafter⟩ := serve_known hbase hr h.known s.journal
  refine ⟨?_, hmemos.symm, hafter⟩
  unfold request
  rw [hanswer]
  revert hknown
  cases (serve wiring r.operation r.operands s.layers s.journal).1 with
  | error fault => exact fun _ => .error fault
  | ok result => exact fun hknown => .ok ⟨rfl, hknown result rfl⟩

theorem builders_sameMemos :
    Stateful.Builders SameMemos Rule.Known (fun _ _ => True) (fun a b => a = b ∧ a.Known)
      (request wiring) (request other) where
  inside _ _ hknown := Rule.known_composite.mp hknown
  atom rule hknown _ := ⟨trivial, rfl, hknown⟩
  request := by
    intro operation components as bs _ _ hsame
    obtain ⟨rfl, hknown⟩ := eq_of_forall₂ hsame
    have hr : Request.Known ⟨operation, as⟩ := hknown
    exact (request_sameMemos hbases hbase hsink hother hr).imp fun _ _ hab => ⟨trivial, hab⟩

end

end Engine

theorem Base.verbatim_keepsKnown : Base.verbatim.KeepsKnown := by
  rintro operation rules _ ⟨⟩ hrules
  exact Rule.known_composite.mpr hrules

/-! ## Sessions -/

namespace Session

variable {wiring other : Engine.Wiring}

/-- What the step requests to combine holds no foreign values. -/
def Step.OperandsKnown (answers : List (Option Rule)) : Step → Prop
  | .combine _ operands =>
    ∀ rules, Term.resolveList answers operands = .ok rules → ∀ x ∈ rules, x.Known
  | _ => True

theorem Answer.Matched.eq {P : Rule → Prop} {a b : Answer}
    (h : a.Matched (fun x y => x = y ∧ P x) b) : a = b := by
  cases h with
  | result h => rw [h.1]
  | other _ => rfl

/-- One step on engines that have the same memos. -/
theorem Step.matches_sameMemos (hbases : wiring.base = other.base) (hbase : wiring.base.KeepsKnown)
    (hsink : ∀ entry, wiring.sink entry = .ok ()) (hother : ∀ entry, other.sink entry = .ok ())
    {as bs : List (Option Rule)}
    (hanswers : List.Forall₂ (Option.Rel fun a b => a = b ∧ a.Known) as bs) {step : Step}
    (hquiet : step ≠ .journal) (hoperands : step.OperandsKnown as) :
    step.Matches wiring other Engine.SameMemos (fun a b => a = b ∧ a.Known) as bs := by
  obtain ⟨rfl, -⟩ := eq_of_answers hanswers
  cases step with
  | combine operation operands =>
    refine Step.matches_combine fun rules hrules => ?_
    have hr : Request.Known ⟨operation, rules⟩ := hoperands rules hrules
    exact Engine.request_sameMemos hbases hbase hsink hother hr
  | parse source =>
    have hbuilders := Engine.builders_sameMemos hbases hbase hsink hother
    exact hbuilders.readWith source fun trees htrees => Rule.known_of_comesTo htrees
  | everything | nothing | pattern p => exact ⟨rfl, rfl⟩
  | clearCaches => exact fun _ _ => Engine.SameMemos.clearCaches
  | clearJournal => exact fun _ _ h => ⟨h.memos, h.known⟩
  | journal => exact absurd rfl hquiet

/-- **Observing layers do not show.** Take two stacks over one base, with the same memos but with any
recording and forwarding layers between them.  In a session whose requests hold no foreign values, and
that does not look into the journal, every step has the same answer or the same fault on both stacks,
and leaves memos of the same sizes.  Faults of the base are no exception. -/
theorem run_unobserved (hbases : wiring.base = other.base) (hbase : wiring.base.KeepsKnown)
    (hsink : ∀ entry, wiring.sink entry = .ok ()) (hother : ∀ entry, other.sink entry = .ok ())
    {layers others : List Layer} (hmemos : Engine.memos layers = Engine.memos others)
    (hknown : Engine.Holds (fun _ => Rule.Known) layers) {steps : List Step}
    (hsteps : ∀ step ∈ steps, step ≠ .journal)
    (hoperands : Along wiring (fun answers _ step => step.OperandsKnown answers) []
      (.initial layers) steps) :
    (run wiring layers steps).map (fun report => (report.answer, report.cacheSizes)) =
      (run other others steps).map fun report => (report.answer, report.cacheSizes) := by
  have hstep : ∀ as bs s t (step : Step),
      List.Forall₂ (Option.Rel fun a b => a = b ∧ a.Known) as bs → Engine.SameMemos s t →
        step ≠ .journal ∧ step.OperandsKnown as →
          step.Matches wiring other Engine.SameMemos (fun a b => a = b ∧ a.Known) as bs := by
    rintro as bs s t step hanswers - ⟨hquiet, hoperandsKnown⟩
    exact Step.matches_sameMemos hbases hbase hsink hother hanswers hquiet hoperandsKnown
  have hgood := (along_of_forall (fun step hmem _ _ => hsteps step hmem) [] _).and hoperands
  have hst : Engine.SameMemos (.initial layers) (.initial others) := ⟨hmemos, hknown⟩
  obtain ⟨hreports, -⟩ := runFrom_matched hstep .nil hst hgood
  rw [← List.forall₂_eq_eq_eq, List.forall₂_map_left_iff, List.forall₂_map_right_iff]
  refine hreports.imp ?_
  rintro _ _ ⟨a, b, s, t, rfl, rfl, hab, hst⟩
  exact Prod.ext hab.eq hst.cacheSizes

/-- A pattern that is used again, a text that is read, and requests before and after the memos are
emptied, of which the last goes too deep. -/
def repeatedPattern : List Step :=
  [.pattern ⟨some "g", none, none⟩, .combine .allOf [.answer 0, .given .everything],
    .parse "any(a, all(b, c))", .clearCaches,
    .combine .allOf [.answer 0, .composite .anyOf [.answer 0, .given .nothing]]]

/-- Two memos, with layers around them and without. -/
theorem run_unobserved_two_memos :
    let wiring : Engine.Wiring := ⟨Base.simplifying 1, fun n => toString n, Engine.acceptAll⟩
    let other : Engine.Wiring := ⟨Base.simplifying 1, fun _ => "", Engine.acceptAll⟩
    let layers : List Layer := [.logging true, .caching .empty, .forwarding, .logging false,
      .caching .empty, .logging true]
    let others : List Layer := [.caching .empty, .forwarding, .caching .empty]
    (run wiring layers repeatedPattern).map (fun report => (report.answer, report.cacheSizes)) =
      (run other others repeatedPattern).map fun report => (report.answer, report.cacheSizes) := by
  intro wiring other layers others
  have hknown : Engine.Holds (fun _ => Rule.Known) layers := by
    simp [layers, Engine.Holds, Memo.empty]
  have hsteps : ∀ step ∈ repeatedPattern, step ≠ .journal := by simp [repeatedPattern]
  -- The other answers do not matter.
  have hfirst : ∀ rest, Step.OperandsKnown (some (.pattern ⟨some "g", none, none⟩) :: rest)
      (.combine .allOf [.answer 0, .given .everything]) := by
    rintro rest _ ⟨⟩ x hx
    rcases List.mem_pair.mp hx with rfl | rfl <;> rfl
  have hlast : ∀ rest, Step.OperandsKnown (some (.pattern ⟨some "g", none, none⟩) :: rest)
      (.combine .allOf [.answer 0, .composite .anyOf [.answer 0, .given .nothing]]) := by
    rintro rest _ ⟨⟩ x hx
    rcases List.mem_pair.mp hx with rfl | rfl <;> rfl
  have hoperands : Along wiring (fun answers _ step => step.OperandsKnown answers) []
      (.initial layers) repeatedPattern :=
    ⟨trivial, hfirst [], trivial, trivial, hlast _, trivial⟩
  have hbases : wiring.base = other.base := rfl
  have hbase : wiring.base.KeepsKnown := Base.simplifying_keepsKnown 1
  have hmemos : Engine.memos layers = Engine.memos others := rfl
  exact run_unobserved hbases hbase (fun _ => rfl) (fun _ => rfl) hmemos hknown hsteps hoperands

end Session

end ExclusionAlgebra
