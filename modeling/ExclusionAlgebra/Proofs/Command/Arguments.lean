import ExclusionAlgebra.Command.Arguments

/-!
# Command lines for any rules

Behind `--` every argument is a rule, whatever it looks like.  So any rules that are at least one can be
handed to a command that combines them, with any of its options (`Invocation.ofArguments_combine`).
-/

namespace ExclusionAlgebra

/-- The command that combines by the operation. -/
def Operation.command : Operation → String
  | .anyOf => "union"
  | .allOf => "intersect"

section

variable {option : String} {options rules : List String}

theorem combineOption_cases (h : (combineOption option).isSome) :
    option = "--cache" ∨ option = "--no-cache" ∨ option = "--trace" ∨ option = "--no-trace" := by
  unfold combineOption traceOption at h
  split at h
  · exact Or.inl rfl
  · exact Or.inr (Or.inl rfl)
  · split at h
    · exact Or.inr (Or.inr (Or.inl rfl))
    · exact Or.inr (Or.inr (Or.inr rfl))
    · cases h

/-- To the program itself the options of a command are unknown ones. -/
theorem foreign_of_combineOption (h : (combineOption option).isSome) :
    option ≠ "--" ∧ versionOption option = none ∧ isOption option = true := by
  rcases combineOption_cases h with rfl | rfl | rfl | rfl <;> decide

/-- Behind an unknown option nothing is an operand of the program any more. -/
theorem scan_diverted (h : ∀ option ∈ options, (combineOption option).isSome) :
    scan versionOption true (options ++ "--" :: rules) = ⟨[], [], options ++ "--" :: rules⟩ := by
  induction options with
  | nil => rfl
  | cons option rest ih =>
    rw [List.forall_mem_cons] at h
    obtain ⟨hseparator, hversion, hoption⟩ := foreign_of_combineOption h.1
    simp [scan, hseparator, hversion, ih h.2]

theorem scan_combineOption (h : ∀ option ∈ options, (combineOption option).isSome) :
    scan combineOption false (options ++ "--" :: rules) =
      ⟨options.filterMap combineOption, rules, []⟩ := by
  induction options with
  | nil => rfl
  | cons option rest ih =>
    rw [List.forall_mem_cons] at h
    obtain ⟨hseparator, -, -⟩ := foreign_of_combineOption h.1
    obtain ⟨flag, hflag⟩ := Option.isSome_iff_exists.mp h.1
    simp [scan, hseparator, hflag, ih h.2]

/-- What the program makes of its arguments: without options the rules are its operands already, with
options they are left to the command. -/
theorem scan_command (operation : Operation) (h : ∀ option ∈ options, (combineOption option).isSome) :
    scan versionOption false (operation.command :: (options ++ "--" :: rules)) =
      if options = [] then ⟨[], operation.command :: rules, []⟩
      else ⟨[], [operation.command], options ++ "--" :: rules⟩ := by
  have hcommand : operation.command ≠ "--" ∧ versionOption operation.command = none ∧
      isOption operation.command = false := by
    cases operation <;> decide
  obtain ⟨hseparator, hversion, hoperand⟩ := hcommand
  cases options with
  | nil => simp [scan, hseparator, hversion, hoperand]
  | cons option rest =>
    rw [List.forall_mem_cons] at h
    obtain ⟨hseparator', hversion', hoption⟩ := foreign_of_combineOption h.1
    simp [scan, hseparator, hversion, hoperand, hseparator', hversion', hoption, scan_diverted h.2]

theorem combineCommand_of_scan (operation : Operation) {operands pending : List String}
    {flags : List FlagOption} (hscan : scan combineOption false pending = ⟨flags, rules, []⟩)
    (hrules : operands ++ rules ≠ []) :
    combineCommand operation operands pending =
      .ok (.combine operation (Flags.ofOptions flags) (operands ++ rules)) := by
  obtain ⟨first, others, hsplit⟩ := List.exists_cons_of_ne_nil hrules
  simp only [combineCommand, commandArguments, hscan, hsplit]
  rfl

theorem ofArguments_of_scan {operation : Operation} {arguments operands pending : List String}
    (hscan : scan versionOption false arguments = ⟨[], operation.command :: operands, pending⟩) :
    Invocation.ofArguments arguments = combineCommand operation operands pending := by
  unfold Invocation.ofArguments
  rw [hscan]
  cases operation <;> rfl

/-- A command line of a command, its options, `--`, and rules asks for just that combination. -/
theorem Invocation.ofArguments_combine (operation : Operation)
    (hoptions : ∀ option ∈ options, (combineOption option).isSome) (hrules : rules ≠ []) :
    Invocation.ofArguments (operation.command :: (options ++ "--" :: rules)) =
      .ok (.combine operation (Flags.ofOptions (options.filterMap combineOption)) rules) := by
  have hscan := @scan_command options rules operation hoptions
  by_cases hnone : options = []
  · subst hnone
    rw [if_pos rfl] at hscan
    rw [ofArguments_of_scan hscan]
    have hempty : scan combineOption false [] = ⟨[], [], []⟩ := rfl
    have hcommand := combineCommand_of_scan operation hempty ((List.append_nil rules).symm ▸ hrules)
    rwa [List.append_nil] at hcommand
  · rw [if_neg hnone] at hscan
    rw [ofArguments_of_scan hscan]
    exact combineCommand_of_scan operation (scan_combineOption hoptions) hrules

end

end ExclusionAlgebra
