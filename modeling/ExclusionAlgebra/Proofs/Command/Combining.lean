import ExclusionAlgebra.Proofs.Command.Arguments
import ExclusionAlgebra.Proofs.Command.Printing
import ExclusionAlgebra.Proofs.Engine.Depth

/-!
# Running a command line that combines rules

What such a run prints depends on what its engine answers; what it traces, on the journal.  So all that
is known of engines that combine written rules shows at the command line.

* `Run.ofArguments_of_answer`, `Run.output_ending_eq`: a run, by the answer of its engine.
* `Run.ofArguments_of_le`: a run that does not end unexpectedly is the run at every greater depth.
* `Run.combining_all_or_nothing`: two lines, or nothing but the first error.
* `Run.tracing_shows_requests`: a trace has a line for each request and changes nothing else.
-/

namespace ExclusionAlgebra

open Rule Terminal

namespace Run

variable {world : World} {arguments sources : List String} {operation : Operation} {flags : Flags}

/-! ## A run by the answer of its engine -/

/-- The engine's options under the settings. -/
def engineOptions (settings : Settings) : Engine.Options :=
  { cache := settings.cache, journal := settings.trace }

/-- What a run shows of an answer, wherever the trace goes. -/
structure Shown where
  output : String
  report : String
  ending : Ending

/-- The answer is printed, or the fault is reported; an abort shows nothing. -/
def shown (coloured : Bool) (answer : Except Fault Rule) : Except String Shown :=
  match answer >>= printed coloured with
  | .ok output => .ok ⟨output, "", .finished⟩
  | .error fault => (reported coloured fault).map fun report => ⟨"", report.1, report.2⟩

theorem shown_of_printed {coloured : Bool} {result : Rule} {output : String}
    (h : printed coloured result = .ok output) :
    shown coloured (.ok result) = .ok ⟨output, "", .finished⟩ := by
  have hbind : (Except.ok result >>= printed coloured) = .ok output := h
  rw [shown, hbind]

theorem shown_malformed (coloured : Bool) (source : String) (error : SyntaxError) :
    shown coloured (.error (.malformed source error)) =
      .ok ⟨"", line (Terminal.paint coloured .red (malformedText source [(error.position, error.message)])),
        .malformed⟩ := rfl

theorem ofArguments_of_answer {answer : Except Fault Rule} {after : Engine.State}
    (harguments : Invocation.ofArguments arguments = .ok (.combine operation flags sources))
    (h : Engine.combineWritten (wiring world) operation sources
      (.initial (engineOptions (.resolve flags world.environment)).layers) = (answer, after)) :
    ofArguments world arguments = (shown world.coloured answer).map fun shown =>
      close world.traceTarget (after.journal.entries.map (LogEntry.trace world.coloured)) shown.output
        shown.report shown.ending := by
  have haction : action world (.combine operation flags sources)
      (.initial (engineOptions (.resolve flags world.environment)).layers) = (answer, after) := h
  dsimp only [engineOptions] at haction
  rw [ofArguments, harguments]
  dsimp only [command, Run.flags]
  rw [haction, shown]
  dsimp only
  cases answer >>= printed world.coloured with
  | ok output => rfl
  | error fault =>
    dsimp only
    cases reported world.coloured fault <;> rfl

/-- The output and the ending depend on the answer only, and not on the journal or where it goes. -/
theorem output_ending_eq (world : World)
    (harguments : Invocation.ofArguments arguments = .ok (.combine operation flags sources)) :
    (ofArguments world arguments).map (fun run => (run.output, run.ending)) =
      (shown world.coloured (Engine.combineWritten (wiring world) operation sources
        (.initial (engineOptions (.resolve flags world.environment)).layers)).1).map
          fun shown => (shown.output, shown.ending) := by
  rcases hrun : Engine.combineWritten (wiring world) operation sources
    (.initial (engineOptions (.resolve flags world.environment)).layers) with ⟨answer, after⟩
  rw [ofArguments_of_answer harguments hrun]
  cases shown world.coloured answer with
  | error text => rfl
  | ok shown => cases htarget : world.traceTarget <;> simp [Except.map, close]

theorem wiring_of_depth (world : World) (depth : Nat) :
    wiring { world with depth := depth } = Engine.simplifying world.clock
      (fun entry => world.admits (entry.trace world.coloured)) depth := rfl

/-- A run that does not end unexpectedly is the run at every greater depth. -/
theorem ofArguments_of_le {depth more : Nat} (hle : depth ≤ more)
    (harguments : Invocation.ofArguments arguments = .ok (.combine operation flags sources)) {run : Run}
    (h : ofArguments { world with depth := depth } arguments = .ok run)
    (hending : run.ending ≠ .unexpected) : ofArguments { world with depth := more } arguments = .ok run := by
  have hdeeper := @Engine.approximates_combineWritten world.clock
    (fun entry => world.admits (entry.trace world.coloured)) depth more hle operation sources
    (.initial (engineOptions (.resolve flags world.environment)).layers)
  rw [← wiring_of_depth, ← wiring_of_depth] at hdeeper
  rcases hrun : Engine.combineWritten (wiring { world with depth := depth }) operation sources
    (.initial (engineOptions (.resolve flags world.environment)).layers) with ⟨answer, after⟩
  rw [hrun] at hdeeper
  have hfirst := ofArguments_of_answer harguments hrun
  rcases hdeeper with hgivenUp | hsame
  · -- Then the run has reported that, and has ended unexpectedly.
    obtain rfl : answer = .error .tooDeep := hgivenUp
    have hreport : run = close world.traceTarget (after.journal.entries.map (LogEntry.trace world.coloured))
        "" (line (paint world.coloured .red ("Unexpected error: " ++ overflowText))) .unexpected :=
      Except.ok.inj (h.symm.trans hfirst)
    refine absurd ?_ hending
    rw [hreport]
    cases htarget : world.traceTarget <;> rfl
  · rw [ofArguments_of_answer harguments hsame.symm, ← h, hfirst]

/-- What an engine writes down on the way has trace lines that show it. -/
theorem shows_of_combineWritten (hclock : ∀ n, Clear (world.clock n)) {depth : Nat}
    {answer : Except Fault Rule} {after : Engine.State} {options : Engine.Options}
    (h : Engine.combineWritten (wiring { world with depth := depth }) operation sources
      (.initial options.layers) = (answer, after)) :
    ∀ entry ∈ after.journal.entries, Shows world.coloured (entry.trace world.coloured) entry.text := by
  have hlegible := @Engine.legible_of_combineWritten world.clock
    (fun entry => world.admits (entry.trace world.coloured)) depth operation sources options
  rw [← wiring_of_depth, h] at hlegible
  exact fun entry hentry => entry.shows_trace world.coloured hclock (hlegible entry hentry)

theorem forall₂_shows_trace {coloured : Bool} {entries : List LogEntry}
    (h : ∀ entry ∈ entries, Shows coloured (entry.trace coloured) entry.text) :
    List.Forall₂ (fun entry line => Shows coloured line entry.text) entries
      (entries.map (LogEntry.trace coloured)) := by
  rw [List.forall₂_map_right_iff, List.forall₂_same]
  exact h

/-- Texts that can all be read have a run that shows their combination, from some depth on. -/
theorem exists_run_of_read (world : World)
    (harguments : Invocation.ofArguments arguments = .ok (.combine operation flags sources))
    (hadmits : ∀ text, world.admits text = .ok ()) (hclock : ∀ n, Clear (world.clock n))
    {trees : List Rule} (htrees : sources.mapM Rule.read = .ok trees) :
    ∃ (result : Rule) (text : String) (digest : Digest) (after : Engine.State) (run : Run) (bound : Nat),
      result.format = .ok text ∧ result.hash = .ok digest ∧
      Shows world.coloured (paint world.coloured (resultInk text) text) text ∧
      Shows world.coloured (paint world.coloured .muted ("hash " ++ digest.hex)) ("hash " ++ digest.hex) ∧
      (if (Settings.resolve flags world.environment).trace then
        (Rule.composite operation trees).Told after.journal.entries result
        else after.journal.entries = []) ∧
      (∀ entry ∈ after.journal.entries, Shows world.coloured (entry.trace world.coloured) entry.text) ∧
      run.Leaves world.traceTarget (lines world.coloured text digest)
        (after.journal.entries.map (LogEntry.trace world.coloured)) [] ⟨0, none⟩ ∧
      ∀ depth, bound ≤ depth →
        (Engine.combineWritten (wiring { world with depth := depth }) operation sources
          (.initial (engineOptions (.resolve flags world.environment)).layers)).1 = .ok result ∧
        ofArguments { world with depth := depth } arguments = .ok run := by
  have hsink : ∀ entry : LogEntry, world.admits (entry.trace world.coloured) = .ok () :=
    fun entry => hadmits _
  obtain ⟨result, after, hexpressible, htold, bound, hreturns⟩ := @Engine.exists_told_of_read
    world.clock _ hsink (engineOptions (.resolve flags world.environment)) _ _ htrees operation
  obtain ⟨text, digest, hformat, hhash, hprinted, hfirst, hsecond⟩ :=
    exists_printed world.coloured hexpressible
  simp only [← wiring_of_depth] at hreturns
  have hshows := shows_of_combineWritten hclock (hreturns bound (Nat.le_refl bound))
  refine ⟨result, text, digest, after, _, bound, hformat, hhash, hfirst, hsecond, htold, hshows,
    leaves_close .., fun depth hdepth => ?_⟩
  have hanswer := hreturns depth hdepth
  refine ⟨congrArg Prod.fst hanswer, ?_⟩
  rw [ofArguments_of_answer harguments hanswer, shown_of_printed hprinted]
  rfl

/-! ## All or nothing -/

/-- **Combining is all or nothing.** Take a command line that asks to combine texts, any environment, a
clock whose readings have no control characters, and a receiver that takes every trace line.  From some
depth on there is one run, as follows.  If all the texts can be read, it has left two lines of output,
which show what the engine answers and its digest, and no report, and has ended with status 0.  Otherwise
it has left no output, and one line of report, which shows the error of the first text that cannot be
read, and has ended with status 2 and the code for notation.  Trace lines show entries of the engine: in
the first case those of the composites in the texts and of the answer; in the second those of the
composites in the texts before the error and of those that are closed in that text before it, and no
others. -/
theorem combining_all_or_nothing
    (harguments : Invocation.ofArguments arguments = .ok (.combine operation flags sources))
    (hadmits : ∀ text, world.admits text = .ok ()) (hclock : ∀ n, Clear (world.clock n)) :
    ((∀ source ∈ sources, ∃ tree, Rule.read source = .ok tree) →
      ∃ trees result text digest entries first second trace run bound,
        sources.mapM Rule.read = .ok trees ∧ result.format = .ok text ∧ result.hash = .ok digest ∧
        Shows world.coloured first text ∧ Shows world.coloured second ("hash " ++ digest.hex) ∧
        (if (Settings.resolve flags world.environment).trace then
          (Rule.composite operation trees).Told entries result else entries = []) ∧
        List.Forall₂ (fun entry line => Shows world.coloured line entry.text) entries trace ∧
        run.Leaves world.traceTarget [first, second] trace [] ⟨0, none⟩ ∧
        ∀ depth, bound ≤ depth →
          (Engine.combineWritten (wiring { world with depth := depth }) operation sources
            (.initial (engineOptions (.resolve flags world.environment)).layers)).1 = .ok result ∧
          ofArguments { world with depth := depth } arguments = .ok run) ∧
    ((¬ ∀ source ∈ sources, ∃ tree, Rule.read source = .ok tree) →
      ∃ before source after error trees heads entries report trace run bound,
        sources = before ++ source :: after ∧ before.mapM Rule.read = .ok trees ∧
        Rule.read source = .error error ∧
        Shows world.coloured report ("Invalid exclusion notation " ++
          String.ofList (Text.quote source.toList) ++ ": " ++ error.message ++ " at " ++
            toString error.position) ∧
        Notation.Closes [] (source.toList.take error.position) (compositesIn heads) ∧
        (if (Settings.resolve flags world.environment).trace then
          ∃ results, ToldEach (trees ++ heads) entries results else entries = []) ∧
        List.Forall₂ (fun entry line => Shows world.coloured line entry.text) entries trace ∧
        run.Leaves world.traceTarget [] trace [report] ⟨2, some "exclusions.notation"⟩ ∧
        ∀ depth, bound ≤ depth → ofArguments { world with depth := depth } arguments = .ok run) := by
  have hsink : ∀ entry : LogEntry, world.admits (entry.trace world.coloured) = .ok () :=
    fun entry => hadmits _
  constructor
  · intro hvalid
    obtain ⟨trees, htrees⟩ := exists_mapM hvalid
    obtain ⟨result, text, digest, after, run, bound, hformat, hhash, hfirst, hsecond, htold, hshows,
      hleaves, hruns⟩ := exists_run_of_read world harguments hadmits hclock htrees
    exact ⟨trees, result, text, digest, after.journal.entries, _, _, _, run, bound, htrees, hformat,
      hhash, hfirst, hsecond, htold, forall₂_shows_trace hshows, hleaves, hruns⟩
  · intro hinvalid
    cases hread : sources.mapM Rule.read with
    | ok trees => exact absurd (fun source => exists_of_mapM hread) hinvalid
    | error error =>
      obtain ⟨before, source, after, trees, rfl, hbefore, herror⟩ :=
        exists_first_of_mapM_eq_error hread
      obtain ⟨heads, last, hcloses, htold, bound, hrefused⟩ := @Engine.exists_told_of_first_error
        world.clock _ hsink (engineOptions (.resolve flags world.environment)) before after _ _ _
        hbefore herror operation
      simp only [← wiring_of_depth] at hrefused
      have hshows := shows_of_combineWritten hclock (hrefused bound (Nat.le_refl bound))
      refine ⟨before, source, after, error, trees, heads, last.journal.entries, _, _, _, bound, rfl,
        hbefore, herror, shows_report world.coloured source error, hcloses, htold,
        forall₂_shows_trace hshows, leaves_close .., fun depth hdepth => ?_⟩
      rw [ofArguments_of_answer harguments (hrefused depth hdepth), shown_malformed]
      rfl

/-- A run at one depth is the run that there is from some depth on. -/
theorem eq_of_runs (harguments : Invocation.ofArguments arguments = .ok (.combine operation flags sources))
    {run other : Run} {bound depth : Nat}
    (hruns : ∀ more, bound ≤ more → ofArguments { world with depth := more } arguments = .ok run)
    (hother : ofArguments { world with depth := depth } arguments = .ok other)
    (hending : other.ending ≠ .unexpected) : run = other := by
  have hdeeper := ofArguments_of_le (Nat.le_max_right bound depth) harguments hother hending
  exact Except.ok.inj ((hruns _ (Nat.le_max_left bound depth)).symm.trans hdeeper)

/-- No variables, no colours, a clock that shows a second more each time, and a receiver that takes every
trace line. -/
def plainWorld : World :=
  ⟨fun _ => none, false, fun n => Instant.text (1000 * n), .receiver, fun _ => .ok (), 0⟩

def terminalWorld : World := { plainWorld with coloured := true, traceTarget := .standardError }

def modulesInGroup : List String := ["any(*:m, *:n)", "g"]

def unclosedSecond : List String := ["any(*:m, *:n)", "all(c, d", "any(e, f)"]

def modulesInGroupRun : Run :=
  ⟨"\x1b[38;2;242;242;236many(g:m, g:n)\x1b[39m\n\x1b[38;2;102;102;102mhash " ++
    "053d96bb4257fe740f12ae6223f57ed735d6eb6d97f020692feca9a04a43e8de\x1b[39m\n", "", [], ⟨0, none⟩⟩

def unclosedSecondRun : Run :=
  ⟨"", "1970-01-01T00:00:00.000Z anyOf(*:m, *:n) → any(*:m, *:n)\n" ++
    "Invalid exclusion notation \"all(c, d\": Expected ',' or ')' at 8\n", [],
    ⟨2, some "exclusions.notation"⟩⟩

/-- Two texts are intersected on a terminal, and three united, of which the second lacks its last
parenthesis: the run reports that, and its trace tells of the first text only. -/
theorem combining_modulesInGroup_unclosedSecond :
    let whole := "intersect" :: "--" :: modulesInGroup
    let unclosed := "union" :: "--trace" :: "--" :: unclosedSecond
    Invocation.ofArguments whole = .ok (.combine .allOf .none modulesInGroup) ∧
    Invocation.ofArguments unclosed = .ok (.combine .anyOf ⟨some true, none⟩ unclosedSecond) ∧
    (∀ text, plainWorld.admits text = .ok ()) ∧ (∀ n, Clear (plainWorld.clock n)) ∧
    (∀ source ∈ modulesInGroup, ∃ tree, Rule.read source = .ok tree) ∧
    (¬ ∀ source ∈ unclosedSecond, ∃ tree, Rule.read source = .ok tree) ∧
    ∃ bound, ∀ depth, bound ≤ depth →
      ofArguments { terminalWorld with depth := depth } whole = .ok modulesInGroupRun ∧
      ofArguments { plainWorld with traceTarget := .standardError, depth := depth } unclosed =
        .ok unclosedSecondRun := by
  intro whole unclosed
  have hwhole : Invocation.ofArguments whole = .ok (.combine .allOf .none modulesInGroup) :=
    @Invocation.ofArguments_combine [] modulesInGroup .allOf (by decide) (by decide)
  have hunclosed : Invocation.ofArguments unclosed =
      .ok (.combine .anyOf ⟨some true, none⟩ unclosedSecond) :=
    @Invocation.ofArguments_combine ["--trace"] unclosedSecond .anyOf (by decide) (by decide)
  have hadmits : ∀ text, plainWorld.admits text = .ok () := fun _ => rfl
  have hclock : ∀ n, Clear (plainWorld.clock n) := fun n => Instant.clear_text (1000 * n)
  have hvalid : ∀ source ∈ modulesInGroup, ∃ tree, Rule.read source = .ok tree := by
    have hread : modulesInGroup.mapM Rule.read = .ok [Engine.eitherModule, Engine.wholeGroup] := by
      decide +kernel
    exact fun source => exists_of_mapM hread
  have hinvalid : ¬ ∀ source ∈ unclosedSecond, ∃ tree, Rule.read source = .ok tree := by
    intro hall
    obtain ⟨tree, htree⟩ := hall "all(c, d" (by decide)
    have hrefused : Rule.read "all(c, d" = .error ⟨8, .separator⟩ := by decide +kernel
    rw [hrefused] at htree
    cases htree
  refine ⟨hwhole, hunclosed, hadmits, hclock, hvalid, hinvalid, ?_⟩
  obtain ⟨_, _, _, _, _, _, _, _, run, bound, -, -, -, -, -, -, -, -, hruns⟩ :=
    (@combining_all_or_nothing terminalWorld _ _ _ _ hwhole hadmits hclock).1 hvalid
  obtain ⟨_, _, _, _, _, _, _, _, _, other, more, -, -, -, -, -, -, -, -, hothers⟩ :=
    (@combining_all_or_nothing { plainWorld with traceTarget := .standardError } _ _ _ _ hunclosed hadmits
      hclock).2 hinvalid
  obtain rfl : run = modulesInGroupRun := by
    have hshallow : ofArguments { terminalWorld with depth := 3 } whole = .ok modulesInGroupRun := by
      decide +kernel
    exact eq_of_runs hwhole (fun depth hdepth => (hruns depth hdepth).2) hshallow nofun
  obtain rfl : other = unclosedSecondRun := by
    have hshallow : ofArguments { plainWorld with traceTarget := .standardError, depth := 3 } unclosed =
        .ok unclosedSecondRun := by
      decide +kernel
    exact eq_of_runs hunclosed hothers hshallow nofun
  refine ⟨max bound more, fun depth hdepth => ⟨?_, ?_⟩⟩
  · exact (hruns depth (Nat.le_trans (Nat.le_max_left bound more) hdepth)).2
  · exact hothers depth (Nat.le_trans (Nat.le_max_right bound more) hdepth)

/-! ## Traced and untraced runs -/

/-- Whether the engine records has no influence on its answer, whatever the texts and the depth. -/
theorem answer_of_cache (world : World) (hadmits : ∀ text, world.admits text = .ok ())
    (operation : Operation) (sources : List String) (cache journal other : Bool) :
    (Engine.combineWritten (wiring world) operation sources
      (.initial (Engine.Options.layers ⟨cache, journal⟩))).1 =
    (Engine.combineWritten (wiring world) operation sources
      (.initial (Engine.Options.layers ⟨cache, other⟩))).1 := by
  have hmemos : Engine.memos (Engine.Options.layers ⟨cache, journal⟩) =
      Engine.memos (Engine.Options.layers ⟨cache, other⟩) := by
    cases cache <;> cases journal <;> cases other <;> rfl
  have hsame : Engine.SameMemos (.initial (Engine.Options.layers ⟨cache, journal⟩))
      (.initial (Engine.Options.layers ⟨cache, other⟩)) := ⟨hmemos, Engine.holds_layers _⟩
  have hsink : ∀ entry, (wiring world).sink entry = .ok () := fun entry => hadmits _
  have hmatched := (Engine.combineWritten_sameMemos rfl (Base.simplifying_keepsKnown world.depth) hsink
    hsink operation sources _ _ hsame).1
  exact (hmatched.imp fun _ _ hab => hab.1).eq

/-- **A trace shows the requests and changes nothing else.** Take two command lines that ask to combine
the same texts, the one with tracing and the other without, with a memo both or neither, a clock whose
readings have no control characters, and a receiver that takes every trace line.  At every depth the two
runs have the same output and the same ending.  If all the texts can be read, then from some depth on
there is one run of each.  Both have left the same two lines of output and no report, and have ended with
status 0.  The one has left no trace.  The trace of the other has one line for each composite in the
texts, in the order of the texts and within a text each behind those inside of it, and then one line for
the combination of what the texts came to, which ends in the first line of output. -/
theorem tracing_shows_requests {environment : Environment} {others : List String} {quiet : Flags}
    {cache : Bool}
    (harguments : Invocation.ofArguments arguments = .ok (.combine operation flags sources))
    (hothers : Invocation.ofArguments others = .ok (.combine operation quiet sources))
    (htraced : Settings.resolve flags world.environment = ⟨true, cache⟩)
    (hquiet : Settings.resolve quiet environment = ⟨false, cache⟩)
    (hadmits : ∀ text, world.admits text = .ok ()) (hclock : ∀ n, Clear (world.clock n))
    (hvalid : ∀ source ∈ sources, ∃ tree, Rule.read source = .ok tree) :
    (∀ depth, (ofArguments { world with depth := depth } arguments).map
        (fun run => (run.output, run.ending)) =
      (ofArguments { world with environment := environment, depth := depth } others).map
        (fun run => (run.output, run.ending))) ∧
    ∃ trees told, ∃ last : LogEntry, ∃ results result first second requests front run silent bound,
      sources.mapM Rule.read = .ok trees ∧
      List.Forall₂ (fun node entry => entry.Tells node) (compositesIn trees) told ∧
      ToldEach trees told results ∧ last.Describes ⟨operation, results⟩ result ∧
      Shows world.coloured first last.result ∧
      Shows world.coloured second ("hash " ++ last.digest.hex) ∧
      List.Forall₂ (fun entry line => Shows world.coloured line entry.text) told requests ∧
      Shows world.coloured (front ++ first) last.text ∧
      run.Leaves world.traceTarget [first, second] (requests ++ [front ++ first]) [] ⟨0, none⟩ ∧
      silent.Leaves world.traceTarget [first, second] [] [] ⟨0, none⟩ ∧
      ∀ depth, bound ≤ depth →
        ofArguments { world with depth := depth } arguments = .ok run ∧
        ofArguments { world with environment := environment, depth := depth } others = .ok silent := by
  -- at each depth the two answers are one
  have hanswers : ∀ depth,
      (Engine.combineWritten (wiring { world with depth := depth }) operation sources
        (.initial (engineOptions (.resolve flags world.environment)).layers)).1 =
      (Engine.combineWritten (wiring { world with depth := depth }) operation sources
        (.initial (engineOptions (.resolve quiet environment)).layers)).1 := by
    intro depth
    rw [htraced, hquiet]
    exact answer_of_cache { world with depth := depth } hadmits operation sources cache true false
  constructor
  · intro depth
    have htracing := output_ending_eq { world with depth := depth } harguments
    have hsilent := output_ending_eq { world with environment := environment, depth := depth } hothers
    rw [htracing, hsilent]
    exact congrArg (fun answer => (shown world.coloured answer).map _) (hanswers depth)
  · obtain ⟨trees, htrees⟩ := exists_mapM hvalid
    obtain ⟨result, text, digest, after, run, bound, hformat, hhash, hfirst, hsecond, htold, hshows,
      hleaves, hruns⟩ := exists_run_of_read world harguments hadmits hclock htrees
    obtain ⟨result', text', digest', after', silent, bound', hformat', hhash', -, -, hnone, -, hsilent,
      hruns'⟩ := exists_run_of_read { world with environment := environment } hothers hadmits hclock htrees
    rw [htraced] at htold
    rw [hquiet] at hnone
    have hdeep : bound ≤ max bound bound' ∧ bound' ≤ max bound bound' :=
      ⟨Nat.le_max_left .., Nat.le_max_right ..⟩
    obtain rfl : result = result' :=
      Except.ok.inj ((hruns _ hdeep.1).1.symm.trans ((hanswers _).trans (hruns' _ hdeep.2).1))
    obtain rfl : text = text' := Except.ok.inj (hformat.symm.trans hformat')
    obtain rfl : digest = digest' := Except.ok.inj (hhash.symm.trans hhash')
    rw [show after'.journal.entries = [] from hnone] at hsilent
    generalize after.journal.entries = entries at htold hshows hleaves
    obtain _ | @⟨_, _, results, told, last, _, htold, hlast⟩ := htold
    · contradiction
    obtain rfl : text = last.result := Except.ok.inj (hformat.symm.trans hlast.written)
    obtain rfl : digest = last.digest := Except.ok.inj (hhash.symm.trans hlast.digest)
    obtain ⟨front, hfront⟩ := last.exists_trace_eq_append world.coloured
    rw [List.forall_mem_append, List.forall_mem_singleton, hfront] at hshows
    rw [List.map_append, List.map_singleton, hfront] at hleaves
    refine ⟨trees, told, last, results, result, _, _, _, front, run, silent, max bound bound', htrees,
      htold.tells, htold, hlast, hfirst, hsecond, forall₂_shows_trace hshows.1, hshows.2, hleaves,
      hsilent, fun depth hdepth => ⟨?_, ?_⟩⟩
    · exact (hruns depth (hdeep.1.trans hdepth)).2
    · exact (hruns' depth (hdeep.2.trans hdepth)).2

def tracingEnvironment : Environment := fun name =>
  if name = Settings.traceVariable then some "yes" else none

def repeatedText : List String := ["all(any(*:m, *:n), g)", "all(any(*:m, *:n), g)"]

def repeatedTextRun : Run :=
  ⟨"any(g:m, g:n)\nhash 053d96bb4257fe740f12ae6223f57ed735d6eb6d97f020692feca9a04a43e8de\n", "",
    ["1970-01-01T00:00:00.000Z anyOf(*:m, *:n) → any(*:m, *:n)",
      "1970-01-01T00:00:01.000Z allOf(any(*:m, *:n), g:*) → any(g:m, g:n)",
      "1970-01-01T00:00:02.000Z anyOf(*:m, *:n) → any(*:m, *:n)",
      "1970-01-01T00:00:03.000Z allOf(any(*:m, *:n), g:*) → any(g:m, g:n)",
      "1970-01-01T00:00:04.000Z anyOf(any(g:m, g:n), any(g:m, g:n)) → any(g:m, g:n)"], ⟨0, none⟩⟩

/-- The memo answers the requests of the second text, which are shown all the same.  The other run is
told to be quiet where the environment asks for a trace. -/
theorem tracing_shows_repeatedText :
    let arguments := "union" :: "--trace" :: "--" :: repeatedText
    let others := "union" :: "--no-trace" :: "--" :: repeatedText
    Invocation.ofArguments arguments = .ok (.combine .anyOf ⟨some true, none⟩ repeatedText) ∧
    Invocation.ofArguments others = .ok (.combine .anyOf ⟨some false, none⟩ repeatedText) ∧
    Settings.resolve ⟨some true, none⟩ plainWorld.environment = ⟨true, true⟩ ∧
    Settings.resolve ⟨some false, none⟩ tracingEnvironment = ⟨false, true⟩ ∧
    (∀ text, plainWorld.admits text = .ok ()) ∧ (∀ n, Clear (plainWorld.clock n)) ∧
    (∀ source ∈ repeatedText, ∃ tree, Rule.read source = .ok tree) ∧
    ∃ bound, ∀ depth, bound ≤ depth →
      ofArguments { plainWorld with depth := depth } arguments = .ok repeatedTextRun ∧
      ofArguments { plainWorld with environment := tracingEnvironment, depth := depth } others =
        .ok { repeatedTextRun with trace := [] } := by
  intro arguments others
  have harguments : Invocation.ofArguments arguments =
      .ok (.combine .anyOf ⟨some true, none⟩ repeatedText) :=
    @Invocation.ofArguments_combine ["--trace"] repeatedText .anyOf (by decide) (by decide)
  have hothers : Invocation.ofArguments others =
      .ok (.combine .anyOf ⟨some false, none⟩ repeatedText) :=
    @Invocation.ofArguments_combine ["--no-trace"] repeatedText .anyOf (by decide) (by decide)
  have htraced : Settings.resolve ⟨some true, none⟩ plainWorld.environment = ⟨true, true⟩ := rfl
  have hquiet : Settings.resolve ⟨some false, none⟩ tracingEnvironment = ⟨false, true⟩ := by decide
  have hadmits : ∀ text, plainWorld.admits text = .ok () := fun _ => rfl
  have hclock : ∀ n, Clear (plainWorld.clock n) := fun n => Instant.clear_text (1000 * n)
  have hread : Rule.read "all(any(*:m, *:n), g)" =
      .ok (.composite .allOf [Engine.eitherModule, Engine.wholeGroup]) := by
    decide +kernel
  have hvalid : ∀ source ∈ repeatedText, ∃ tree, Rule.read source = .ok tree := by
    rw [repeatedText, List.forall_mem_cons, List.forall_mem_singleton]
    exact ⟨⟨_, hread⟩, ⟨_, hread⟩⟩
  refine ⟨harguments, hothers, htraced, hquiet, hadmits, hclock, hvalid, ?_⟩
  obtain ⟨-, _, _, _, _, _, _, _, _, _, run, silent, bound, -, -, -, -, -, -, -, -, hleaves, hsilent,
    hruns⟩ := tracing_shows_requests harguments hothers htraced hquiet hadmits hclock hvalid
  obtain rfl : run = repeatedTextRun := by
    have hshallow : ofArguments { plainWorld with depth := 2 } arguments = .ok repeatedTextRun := by
      decide +kernel
    exact eq_of_runs harguments (fun depth hdepth => (hruns depth hdepth).1) hshallow nofun
  -- What the other run has left is known from this one.
  obtain rfl : silent = { repeatedTextRun with trace := [] } := by
    have houtput : silent.output = repeatedTextRun.output := hsilent.output.trans hleaves.output.symm
    have herrors : silent.errors = "" := hsilent.errors
    have htrace : silent.trace = [] := hsilent.trace
    have hending : silent.ending = ⟨0, none⟩ := hsilent.ending
    obtain ⟨output, errors, trace, ending⟩ := silent
    subst houtput herrors htrace hending
    rfl
  exact ⟨bound, hruns⟩

end Run

end ExclusionAlgebra
