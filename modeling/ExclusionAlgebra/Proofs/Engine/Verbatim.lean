import ExclusionAlgebra.Proofs.Engine.Exchanges
import ExclusionAlgebra.Proofs.Engine.Observers

/-!
# Memos over a base that keeps what it is given

A memo answers a request with what it took in for another whose operands have the same digests.  Over
the base that keeps what it is given that is the same composite up to the order of components, as far
as digests tell rules apart; and what differs in that order only goes on to be requested, remembered
and found in the same way.

* `Base.Answers`: a memo's entry answers one of the requests, up to the order of components.
* `Engine.serve_alike`, `Engine.exists_serve`: one request to an engine of any layers.
* `Engine.BesidePlain`, `Engine.builders_besidePlain`: such an engine beside one without layers.
* `Engine.rebuild_watch`: the requests for the composites of a rule are listed.
* `Session.answers_alike_verbatim`: whole sessions.
-/

namespace ExclusionAlgebra

open Rule

/-! ## One request -/

/-- The rule is what the base answers to one of the requests with this key, up to the order of
components. -/
def Base.Answers (base : Base) (asked : Request → Prop) (key : Memo.Key) (rule : Rule) : Prop :=
  ∃ r, asked r ∧ key = r.key ∧ ∃ result, r.answer base = .ok result ∧ Alike result rule

theorem Memo.exists_consult (key : Memo.Key) (rule : Rule) (memos : List Memo) :
    ∃ answer, (Memo.consult key (.ok rule) memos).1 = .ok answer := by
  induction memos with
  | nil => exact ⟨rule, rfl⟩
  | cons memo below ih =>
    rw [Memo.consult]
    cases memo.find? key with
    | some found => exact ⟨found, rfl⟩
    | none =>
      obtain ⟨answer, hanswer⟩ := ih
      revert hanswer
      rcases Memo.consult key (.ok rule) below with ⟨_, after⟩
      rintro ⟨⟩
      exact ⟨answer, rfl⟩

theorem Request.Variant.alike {r s : Request} (h : r.Variant s) :
    Alike (.composite r.operation r.operands) (.composite s.operation s.operands) := by
  rw [h.operation]
  exact .composite s.operation h.operands (.refl _)

/-- Where digests do not collide, requests can be told apart, and the order of components does not
matter to this base. -/
theorem separable_verbatim {asked : Request → Prop} (hknown : ∀ r, asked r → r.Known)
    (hfree : Collisionless fun node => ∃ r, asked r ∧ r.Mentions node) :
    Separable .verbatim asked where
  known := hknown
  blind := by
    rintro r - s t hs ht _ _ ⟨⟩ ⟨⟩
    exact (hs.symm.trans ht).alike
  variant r s hr hs := variant_of_key_eq hfree hr hs (hknown r hr)

namespace Engine

variable {wiring : Wiring} {asked : Request → Prop}

/-- What a stack of layers gives for a request is what the base answers to a variant of it, up to the
order of components. -/
theorem serve_alike (hseparable : Separable wiring.base asked) {r s : Request} (hr : asked r)
    (hvariant : r.Variant s) {p : Rule} (hp : r.answer wiring.base = .ok p) {layers : List Layer}
    (hlayers : Holds (wiring.base.Answers asked) layers) (journal : Journal) :
    (∀ c, (serve wiring s.operation s.operands layers journal).1 = .ok c → Alike p c) ∧
      Holds (wiring.base.Answers asked)
        (serve wiring s.operation s.operands layers journal).2.layers := by
  have hblind := hseparable.blind r hr
  have hkey : ∀ key, Memo.key s.operation s.operands = .ok key → key = r.key := by
    intro key hkey
    rw [(Memo.known_of_key hkey).2, hvariant.key_eq]
  refine serve_keeps ?_ ?_ ?_ hlayers journal
  · intro c hc
    exact hblind r s (.refl r) hvariant p c hp hc
  · -- The entry answers a request with this key, so one that is a variant of `r`.
    rintro key c hserved ⟨q, hq, hsame, result, hresult, halike⟩
    have hrq := hseparable.variant r q hr hq ((hkey key hserved).symm.trans hsame)
    exact (hblind r q (.refl r) hrq p result hp hresult).trans halike
  · intro key c hserved hc
    exact ⟨r, hr, hkey key hserved, p, hp, hc⟩

/-- A request that the base answers returns through any layers. -/
theorem exists_serve (hbase : wiring.base.KeepsKnown) (hsink : ∀ entry, wiring.sink entry = .ok ())
    {r : Request} (hr : r.Known) {p : Rule} (hp : r.answer wiring.base = .ok p)
    {layers : List Layer} (hlayers : Holds (fun _ => Rule.Known) layers) (journal : Journal) :
    ∃ c, (serve wiring r.operation r.operands layers journal).1 = .ok c := by
  have hserve := serve_eq_consult hbase hsink hr hlayers journal
  rw [hp] at hserve
  obtain ⟨answer, hanswer⟩ := Memo.exists_consult r.key p (memos layers)
  exact ⟨answer, (congrArg Prod.fst hserve).trans hanswer⟩

/-! ## Beside an engine without layers -/

/-- The first engine has no layers.  What the second remembers answers some of the requests. -/
structure BesidePlain (base : Base) (asked : Request → Prop) (s t : State) : Prop where
  plain : s = .initial []
  answers : Holds (base.Answers asked) t.layers

theorem BesidePlain.known {base : Base} (hbase : base.KeepsKnown) (hseparable : Separable base asked)
    {s t : State} (h : BesidePlain base asked s t) : Holds (fun _ => Rule.Known) t.layers := by
  intro memo hmemo key rule hentry
  obtain ⟨q, hq, -, result, hresult, halike⟩ := h.answers memo hmemo key rule hentry
  exact halike.known (hbase q.operation q.operands result hresult (hseparable.known q hq))

section

variable (hbase : wiring.base = .verbatim) (hsink : ∀ entry, wiring.sink entry = .ok ())
  (hseparable : Separable wiring.base asked)
include hbase hsink hseparable

/-- The same request, up to the order of components, to both engines.  The one without layers gives the
composite. -/
theorem request_besidePlain {r s : Request} (hr : asked r) (hvariant : r.Variant s) :
    Stateful.Matches (BesidePlain wiring.base asked)
      (fun a b => a = .composite r.operation r.operands ∧ a.Known ∧ Alike a b)
      (request wiring r.operation r.operands) (request wiring s.operation s.operands) := by
  rintro _ t ⟨rfl, hanswers⟩
  have hkeeps : wiring.base.KeepsKnown := hbase ▸ Base.verbatim_keepsKnown
  have hanswer (q : Request) : q.answer wiring.base = .ok (.composite q.operation q.operands) := by
    rw [Request.answer, hbase]
    rfl
  have hknown := hseparable.known r hr
  obtain ⟨halike, hafter⟩ := serve_alike hseparable hr hvariant (hanswer r) hanswers t.journal
  obtain ⟨c, hc⟩ := exists_serve hkeeps hsink (hvariant.known hknown) (hanswer s)
    (BesidePlain.known hkeeps hseparable ⟨rfl, hanswers⟩) t.journal
  refine ⟨?_, rfl, hafter⟩
  have hplain : (request wiring r.operation r.operands (.initial [])).1 =
      .ok (.composite r.operation r.operands) := hanswer r
  rw [hplain, request, hc]
  exact .ok ⟨rfl, known_composite.mpr hknown, halike c hc⟩

/-- Both engines build rules again whose composites are among the requests. -/
theorem builders_besidePlain :
    Stateful.Builders (BesidePlain wiring.base asked)
      (fun tree => tree.Known ∧ ∀ operation components,
        .composite operation components ∈ tree.composites → asked ⟨operation, components⟩)
      (fun tree a => a = tree) (fun a b => a.Known ∧ Alike a b) (request wiring)
      (request wiring) where
  inside := by
    rintro operation components ⟨hknown, hrequests⟩ c hc
    refine ⟨known_composite.mp hknown c hc, fun f cs hinside => hrequests f cs ?_⟩
    rw [composites]
    exact List.mem_append_left _ (mem_compositesIn.mpr ⟨c, hc, hinside⟩)
  atom rule hrule _ := ⟨rfl, hrule.1, Alike.refl rule⟩
  request := by
    rintro operation components as bs ⟨-, hrequests⟩ hsame hboth
    have has : as = components := by
      rw [← List.forall₂_eq_eq_eq]
      exact hsame.flip
    subst has
    have hr : asked ⟨operation, as⟩ := by
      refine hrequests operation as ?_
      rw [composites]
      exact List.mem_append_right _ List.mem_cons_self
    have hvariant : Request.Variant ⟨operation, as⟩ ⟨operation, bs⟩ :=
      ⟨rfl, hboth.imp fun _ _ h => h.2⟩
    exact request_besidePlain hbase hsink hseparable hr hvariant

end

/-! ## The requests of an engine without layers -/

/-- The action gives the value and changes nothing, and the composites among the rules are listed. -/
def Lists {α : Type} (x : Stateful (List Exchange × State) α) (a : α) (rules : List Rule) : Prop :=
  ∀ past, ∃ more, x (past, .initial []) = (.ok a, past ++ more, .initial []) ∧
    ∀ operation components, .composite operation components ∈ rules →
      ∃ exchange ∈ more, exchange.request = ⟨operation, components⟩

theorem lists_pure {α : Type} (a : α) : Lists (pure a) a [] :=
  fun past => ⟨[], by rw [List.append_nil]; rfl, nofun⟩

theorem Lists.bind {α β : Type} {x : Stateful (List Exchange × State) α}
    {f : α → Stateful (List Exchange × State) β} {a : α} {b : β} {rules others : List Rule}
    (hx : Lists x a rules) (hf : Lists (f a) b others) : Lists (x >>= f) b (rules ++ others) := by
  intro past
  obtain ⟨more, hrun, hmore⟩ := hx past
  obtain ⟨last, hnext, hlast⟩ := hf (past ++ more)
  refine ⟨more ++ last, ?_, fun operation components hmem => ?_⟩
  · rw [bind_apply, hrun]
    dsimp only
    rw [hnext, List.append_assoc]
  · rcases List.mem_append.mp hmem with hmem | hmem
    · obtain ⟨exchange, hexchange, heq⟩ := hmore operation components hmem
      exact ⟨exchange, List.mem_append_left _ hexchange, heq⟩
    · obtain ⟨exchange, hexchange, heq⟩ := hlast operation components hmem
      exact ⟨exchange, List.mem_append_right _ hexchange, heq⟩

theorem rebuildEach_watch_of {trees : List Rule}
    (h : ∀ tree ∈ trees, Lists (tree.rebuild (watch wiring)) tree tree.composites) :
    Lists (Rule.rebuildEach (watch wiring) trees) trees (compositesIn trees) := by
  induction trees with
  | nil => exact lists_pure []
  | cons tree rest ih =>
    rw [List.forall_mem_cons] at h
    rw [Rule.rebuildEach, compositesIn, ← List.append_nil (compositesIn rest)]
    exact h.1.bind ((ih h.2).bind (lists_pure (tree :: rest)))

section

variable (hbase : wiring.base = .verbatim)
include hbase

theorem watch_verbatim (operation : Operation) (rules : List Rule) :
    Lists (watch wiring operation rules) (.composite operation rules)
      [.composite operation rules] := by
  intro past
  refine ⟨[exchange wiring operation rules (.initial [])], ?_, ?_⟩
  · unfold watch
    dsimp only
    rw [request_plain, hbase]
    rfl
  · rintro f cs hmem
    cases List.mem_singleton.mp hmem
    exact ⟨_, List.mem_cons_self, rfl⟩

/-- A rule is built again as it was, and every composite in it is requested. -/
theorem rebuild_watch (tree : Rule) : Lists (tree.rebuild (watch wiring)) tree tree.composites := by
  induction tree with
  | composite operation components ih =>
    rw [Rule.rebuild, composites]
    exact (rebuildEach_watch_of ih).bind (watch_verbatim hbase operation components)
  | everything | nothing | pattern p | foreign value => exact lists_pure _

/-- So is every composite that reading a text comes to, also if the text is given up. -/
theorem exists_exchange_of_comesTo {source : String} {trees : List Rule} (h : ComesTo source trees)
    {tree : Rule} (htree : tree ∈ trees) {operation : Operation} {components : List Rule}
    (hinside : .composite operation components ∈ tree.composites) (answers : List (Option Rule)) :
    ∃ exchange ∈ (Session.Step.parse source).exchanges wiring answers (.initial []),
      exchange.request = ⟨operation, components⟩ := by
  obtain ⟨finish, hreading⟩ := readWith_of_comesTo h
  obtain ⟨more, hrun, hlisted⟩ := rebuildEach_watch_of (fun c _ => rebuild_watch hbase c) []
  have hexchanges : (Session.Step.parse source).exchanges wiring answers (.initial []) = more := by
    rw [Session.Step.exchanges, hreading, map_eq_pure_bind, bind_apply, hrun]
    rfl
  rw [hexchanges]
  exact hlisted operation components (mem_compositesIn.mpr ⟨tree, htree, hinside⟩)

end

end Engine

/-! ## Sessions -/

namespace Session

variable {wiring : Engine.Wiring} {asked : Request → Prop}

/-- One step, with and without layers. -/
theorem Step.matches_besidePlain (hbase : wiring.base = .verbatim)
    (hsink : ∀ entry, wiring.sink entry = .ok ()) (hseparable : Separable wiring.base asked)
    {as bs : List (Option Rule)}
    (hanswers : List.Forall₂ (Option.Rel fun a b => a.Known ∧ Alike a b) as bs) {step : Step}
    (hquiet : step ≠ .journal) (hoperands : step.OperandsKnown as)
    (hrequests : ∀ exchange ∈ step.exchanges wiring as (.initial []),
      exchange.request.Known → asked exchange.request) :
    step.Matches wiring wiring (Engine.BesidePlain wiring.base asked)
      (fun a b => a.Known ∧ Alike a b) as bs := by
  cases step with
  | combine operation operands =>
    have halike : List.Forall₂ (Option.Rel Alike) as bs := by
      refine hanswers.imp ?_
      rintro _ _ (⟨-, hab⟩ | _)
      · exact .some hab
      · exact .none
    have hcomposite : ∀ f xs ys, List.Forall₂ Alike xs ys → Alike (.composite f xs) (.composite f ys) :=
      fun f xs ys hxy => .composite f hxy (.refl ys)
    refine ⟨Alike, Term.resolveList_matched Alike.refl hcomposite halike operands, ?_⟩
    intro xs ys hxs hxy
    have hexchanges : (Step.combine operation operands).exchanges wiring as (.initial []) =
        [Engine.exchange wiring operation xs (.initial [])] := by
      simp only [exchanges, hxs]
    rw [hexchanges, List.forall_mem_singleton] at hrequests
    have hr : asked ⟨operation, xs⟩ := hrequests (hoperands xs hxs)
    have hvariant : Request.Variant ⟨operation, xs⟩ ⟨operation, ys⟩ := ⟨rfl, hxy⟩
    exact (Engine.request_besidePlain hbase hsink hseparable hr hvariant).imp fun _ _ hab => hab.2
  | parse source =>
    have hbuilders := Engine.builders_besidePlain hbase hsink hseparable
    refine hbuilders.readWith source fun trees htrees tree htree => ?_
    have hknown := Rule.known_of_comesTo htrees tree htree
    refine ⟨hknown, fun operation components hinside => ?_⟩
    obtain ⟨exchange, hexchange, hsame⟩ :=
      Engine.exists_exchange_of_comesTo hbase htrees htree hinside as
    have hinner : Rule.Known (.composite operation components) := known_of_mem_composites hknown hinside
    have hr := hrequests exchange hexchange
    rw [hsame] at hr
    exact hr (known_composite.mp hinner)
  | everything => exact ⟨known_everything, .everything⟩
  | nothing => exact ⟨known_nothing, .nothing⟩
  | pattern p => exact ⟨known_pattern p, .pattern p⟩
  | clearCaches =>
    rintro _ t ⟨rfl, -⟩
    exact ⟨rfl, Engine.holds_forget _⟩
  | clearJournal =>
    rintro _ t ⟨rfl, hanswers⟩
    exact ⟨rfl, hanswers⟩
  | journal => exact absurd rfl hquiet

/-! ### Failures -/

end Session

/-- The fault is that a text cannot be read. -/
def Fault.Unread (fault : Fault) : Prop :=
  ∃ source error, fault = .malformed source error ∧ Rule.read source = .error error

namespace Session

mutual

/-- The only operands that stand for no rule are texts that cannot be read, or have such in them. -/
theorem Term.unread_of_resolve {answers : List (Option Rule)} {fault : Fault} :
    (term : Term) → term.resolve answers = .error fault → fault.Unread
  | .given rule, h => by cases h
  | .written source, h => by
    rw [Term.resolve] at h
    cases hread : Rule.read source with
    | ok rule =>
      rw [hread] at h
      cases h
    | error error =>
      rw [hread] at h
      cases h
      exact ⟨source, error, rfl, hread⟩
  | .answer step, h => by cases h
  | .composite operation components, h => by
    rw [Term.resolve] at h
    rcases bind_eq_error.mp h with h | ⟨rules, -, h⟩
    · exact Term.unread_of_resolveList components h
    · cases h

theorem Term.unread_of_resolveList {answers : List (Option Rule)} {fault : Fault} :
    (terms : List Term) → Term.resolveList answers terms = .error fault → fault.Unread
  | [], h => by cases h
  | term :: rest, h => by
    rw [Term.resolveList] at h
    rcases bind_eq_error.mp h with h | ⟨rule, -, h⟩
    · exact Term.unread_of_resolve term h
    · rcases bind_eq_error.mp h with h | ⟨rules, -, h⟩
      · exact Term.unread_of_resolveList rest h
      · cases h

end

theorem rebuild_verbatim (tree : Rule) : tree.rebuild Base.verbatim = .ok tree := by
  induction tree with
  | composite operation components ih => exact rebuild_composite_eq_self ih rfl
  | _ => rfl

theorem readWith_verbatim (source : String) :
    Rule.readWith Base.verbatim source = .ok (Rule.read source) := by
  cases hread : Rule.read source with
  | ok tree =>
    rw [readWith_of_read _ hread, rebuild_verbatim]
    rfl
  | error error =>
    obtain ⟨trees, -, hgivesUp⟩ := readWith_of_read_error hread
    have htrees : rebuildEach Base.verbatim trees = .ok trees :=
      rebuildEach_eq_self fun tree _ => rebuild_verbatim tree
    rw [hgivesUp, htrees]
    rfl

/-- Without layers no request fails. -/
theorem Step.unread_of_failed (hbase : wiring.base = .verbatim) {answers : List (Option Rule)}
    {step : Step} {fault : Fault}
    (h : (step.run wiring answers (.initial [])).1 = .failed fault) : fault.Unread := by
  cases step with
  | combine operation operands =>
    cases hrules : Term.resolveList answers operands with
    | error fault' =>
      simp only [run, hrules] at h
      cases h
      exact Term.unread_of_resolveList operands hrules
    | ok rules =>
      rw [run_combine hrules, Engine.request_plain, hbase] at h
      cases h
  | parse source =>
    rw [run_parse_eq, Engine.read_plain, hbase, readWith_verbatim] at h
    dsimp only at h
    cases hread : Rule.read source with
    | ok rule =>
      rw [hread] at h
      cases h
    | error error =>
      rw [hread] at h
      cases h
  | everything | nothing | pattern p | clearCaches | clearJournal | journal => cases h

theorem unread_of_failed (hbase : wiring.base = .verbatim) {steps : List Step}
    {answers : List (Option Rule)} {fault : Fault}
    (h : ∃ report ∈ (runFrom wiring answers (.initial []) steps).1, report.answer = .failed fault) :
    fault.Unread := by
  induction steps generalizing answers with
  | nil =>
    obtain ⟨report, hreport, -⟩ := h
    cases hreport
  | cons step rest ih =>
    obtain ⟨report, hreport, hfailed⟩ := h
    rw [runFrom] at hreport
    rcases List.mem_cons.mp hreport with rfl | hreport
    · exact Step.unread_of_failed hbase hfailed
    · rw [Step.run_plain step] at hreport
      exact ih ⟨report, hreport, hfailed⟩

/-! ### Whole sessions -/

/-- Along a session its own exchanges satisfy what all of them do. -/
theorem along_exchanges {P : Exchange → Prop} {steps : List Step} {answers : List (Option Rule)}
    {state : Engine.State} (h : ∀ exchange ∈ exchangesFrom wiring answers state steps, P exchange) :
    Along wiring (fun answers state step => ∀ exchange ∈ step.exchanges wiring answers state, P exchange)
      answers state steps := by
  induction steps generalizing answers state with
  | nil => trivial
  | cons step rest ih =>
    rw [exchangesFrom, List.forall_mem_append] at h
    exact ⟨h.1, ih h.2⟩

/-- A whole session, with and without layers. -/
theorem answers_besidePlain (hbase : wiring.base = .verbatim)
    (hsink : ∀ entry, wiring.sink entry = .ok ()) (hseparable : Separable wiring.base asked)
    {layers : List Layer} (hempty : ∀ memo, .caching memo ∈ layers → memo = .empty)
    {steps : List Step} (hsteps : ∀ step ∈ steps, step ≠ .journal)
    (hoperands : Along wiring (fun answers _ step => step.OperandsKnown answers) [] (.initial []) steps)
    (hrequests : ∀ exchange ∈ exchanges wiring [] steps,
      exchange.request.Known → asked exchange.request) :
    List.Forall₂ (Answer.Matched fun p c => p.Known ∧ Alike p c) (answers wiring [] steps)
      (answers wiring layers steps) := by
  have hstep : ∀ as bs s t (step : Step),
      List.Forall₂ (Option.Rel fun a b => a.Known ∧ Alike a b) as bs →
        Engine.BesidePlain wiring.base asked s t →
          (step ≠ .journal ∧ step.OperandsKnown as ∧ ∀ exchange ∈ step.exchanges wiring as s,
            exchange.request.Known → asked exchange.request) →
          step.Matches wiring wiring (Engine.BesidePlain wiring.base asked)
            (fun a b => a.Known ∧ Alike a b) as bs := by
    rintro as bs s t step hanswers hst ⟨hquiet, hknown, hlisted⟩
    rw [hst.plain] at hlisted
    exact Step.matches_besidePlain hbase hsink hseparable hanswers hquiet hknown hlisted
  have hstart : Engine.BesidePlain wiring.base asked (.initial []) (.initial layers) := by
    refine ⟨rfl, fun memo hmemo => ?_⟩
    rw [hempty memo hmemo]
    exact nofun
  have hgood := (along_of_forall (fun step hmem _ _ => hsteps step hmem) [] _).and
    (hoperands.and (along_exchanges hrequests))
  obtain ⟨hreports, -⟩ := runFrom_matched hstep .nil hstart hgood
  unfold answers
  rw [List.forall₂_map_left_iff, List.forall₂_map_right_iff]
  refine hreports.imp ?_
  rintro _ _ ⟨a, b, s, t, rfl, rfl, hab, -⟩
  exact hab

/-- **Memos over the base that keeps what it is given do not show.** Take any stack of layers with empty
memos over this base, and a session that does not look into the journal and whose requests hold no
foreign values.  If digests do not collide on the rules that the session's requests mention when there
are no layers, then every step has the same answer with the layers as without, but for the order of
components: the rules are called equal and have one digest.  No step fails but on a text among its
operands that cannot be read. -/
theorem answers_alike_verbatim (hbase : wiring.base = .verbatim)
    (hsink : ∀ entry, wiring.sink entry = .ok ()) {layers : List Layer}
    (hempty : ∀ memo, .caching memo ∈ layers → memo = .empty) {steps : List Step}
    (hsteps : ∀ step ∈ steps, step ≠ .journal)
    (hoperands : Along wiring (fun answers _ step => step.OperandsKnown answers) [] (.initial []) steps)
    (hfree : Collisionless fun node =>
      ∃ exchange ∈ exchanges wiring [] steps, exchange.request.Mentions node) :
    List.Forall₂ (Answer.Matched fun p c => p.equals c = .ok true ∧ SameHash p c)
        (answers wiring [] steps) (answers wiring layers steps) ∧
      ∀ fault, .failed fault ∈ answers wiring [] steps → fault.Unread := by
  let asked (r : Request) : Prop :=
    r.Known ∧ ∃ exchange ∈ exchanges wiring [] steps, exchange.request = r
  have hapart : Collisionless fun node => ∃ r, asked r ∧ r.Mentions node := by
    apply hfree.of_alike
    rintro node ⟨_, ⟨-, exchange, hexchange, rfl⟩, hnode⟩
    exact ⟨node, ⟨exchange, hexchange, hnode⟩, Alike.refl node⟩
  have hseparable : Separable wiring.base asked :=
    hbase ▸ separable_verbatim (fun _ hr => hr.1) hapart
  have halike := answers_besidePlain hbase hsink hseparable hempty hsteps hoperands
    fun exchange hexchange hknown => ⟨hknown, exchange, hexchange, rfl⟩
  constructor
  · refine halike.imp fun a b hab => hab.imp ?_
    rintro p c ⟨hp, hpc⟩
    exact ⟨(equals_eq_true_iff hp).mpr hpc, sameHash_of_alike hp hpc⟩
  · intro fault hfault
    obtain ⟨report, hreport, hanswer⟩ := List.mem_map.mp hfault
    exact unread_of_failed hbase ⟨report, hreport, hanswer⟩

/-- A union and the same with its components swapped, each intersected with nothing else, and the second
answer united with nothing else. -/
def swappedSteps : List Step :=
  [.combine .allOf [.given moduleThenGroup], .combine .allOf [.given groupThenModule],
    .combine .anyOf [.answer 1], .clearCaches, .parse "all(any(a:m, b), c", .everything]

def verbatimWiring : Engine.Wiring := ⟨Base.verbatim, fun n => toString n, Engine.acceptAll⟩

theorem requests_of_swappedSteps :
    (exchanges verbatimWiring [] swappedSteps).map
        (fun exchange => (exchange.request.operation, exchange.request.operands)) =
      [(.allOf, [moduleThenGroup]), (.allOf, [groupThenModule]),
        (.anyOf, [.composite .allOf [groupThenModule]]),
        (.anyOf, [.pattern ⟨some "a", some "m", none⟩, .pattern ⟨some "b", none, none⟩])] := by
  decide +kernel

/-- Up to the order of components, the requests mention four rules. -/
theorem collisionless_of_swappedSteps : Collisionless fun node =>
    ∃ exchange ∈ exchanges verbatimWiring [] swappedSteps, exchange.request.Mentions node := by
  have hdistinct : ((Rule.composite .allOf [moduleThenGroup]).nodes.map digest).Nodup := by
    decide +kernel
  have hswapped : Alike moduleThenGroup groupThenModule :=
    alike_composite.mpr ⟨rfl, .of_perm (fun c _ => Alike.refl c) (.swap _ _ _)⟩
  have hwrapped : Alike (.composite .allOf [moduleThenGroup]) (.composite .allOf [groupThenModule]) :=
    .composite .allOf (.cons hswapped .nil) (.refl _)
  have hinside : ∀ node ∈ moduleThenGroup.nodes,
      node ∈ (Rule.composite .allOf [moduleThenGroup]).nodes :=
    fun node hnode => mem_nodes_composite.mpr (.inr ⟨_, List.mem_cons_self, hnode⟩)
  apply (collisionless_of_nodup hdistinct).of_alike
  rintro node ⟨exchange, hexchange, x, hx, hnode⟩
  have hlisted := List.mem_map_of_mem
    (f := fun exchange => (exchange.request.operation, exchange.request.operands)) hexchange
  rw [requests_of_swappedSteps] at hlisted
  simp only [List.mem_cons, List.not_mem_nil, or_false, Prod.mk.injEq] at hlisted
  rcases hlisted with ⟨-, hoperands⟩ | ⟨-, hoperands⟩ | ⟨-, hoperands⟩ | ⟨-, hoperands⟩
  · rw [hoperands] at hx
    cases List.mem_singleton.mp hx
    exact ⟨node, hinside node hnode, Alike.refl node⟩
  · rw [hoperands] at hx
    cases List.mem_singleton.mp hx
    obtain ⟨other, hother, halike⟩ := hswapped.exists_mem_nodes hnode
    exact ⟨other, hinside other hother, halike⟩
  · rw [hoperands] at hx
    cases List.mem_singleton.mp hx
    exact hwrapped.exists_mem_nodes hnode
  · rw [hoperands] at hx
    refine ⟨node, hinside node (mem_nodes_composite.mpr (.inr ⟨x, hx, hnode⟩)), Alike.refl node⟩

/-- Two memos with other layers around them.  The second answer is the first, whose components stand in
the other order, and so is what it is united to. -/
theorem answers_alike_swappedSteps :
    let layers : List Layer :=
      [.logging true, .caching .empty, .forwarding, .caching .empty, .logging false]
    (∀ step ∈ swappedSteps, step ≠ .journal) ∧
    Along verbatimWiring (fun answers _ step => step.OperandsKnown answers) [] (.initial [])
      swappedSteps ∧
    (Collisionless fun node =>
      ∃ exchange ∈ exchanges verbatimWiring [] swappedSteps, exchange.request.Mentions node) ∧
    List.Forall₂ (Answer.Matched fun p c => p.equals c = .ok true ∧ SameHash p c)
        (answers verbatimWiring [] swappedSteps) (answers verbatimWiring layers swappedSteps) ∧
      ∀ fault, .failed fault ∈ answers verbatimWiring [] swappedSteps → fault.Unread := by
  intro layers
  have hempty : ∀ memo, .caching memo ∈ layers → memo = .empty := by simp [layers]
  have hsteps : ∀ step ∈ swappedSteps, step ≠ .journal := by simp [swappedSteps]
  have hoperands : Along verbatimWiring (fun answers _ step => step.OperandsKnown answers) []
      (.initial []) swappedSteps := by
    refine ⟨?_, ?_, ?_, trivial, trivial, trivial, trivial⟩
    all_goals
      rintro rules ⟨⟩ x hx
      rw [List.mem_singleton.mp hx]
      decide
  exact ⟨hsteps, hoperands, collisionless_of_swappedSteps, answers_alike_verbatim rfl (fun _ => rfl)
    hempty hsteps hoperands collisionless_of_swappedSteps⟩

end Session

end ExclusionAlgebra
