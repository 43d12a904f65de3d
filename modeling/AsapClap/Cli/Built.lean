import AsapClap.Cli

/-!
# AsapClap.Cli.Built

What a CLI looks like that comes out of `CliBuilder::Build`: `Built` is what the calls of a
builder keep, `release` and `finished` what `Build` makes of their commands.
-/

namespace AsapClap

variable {V : Type}

open CliBuilder

/-! ## Calls -/

/-- The commands of a CLI that is being built are those of the user, `version` and `help`. -/
structure Built (calls : List (Call V)) (cli : Cli V) : Prop where
  activeCommand : cli.activeCommand = none
  ovm : cli.ovm = ∅
  commands : ∀ c ∈ cli.commands,
    .withCommand c ∈ calls ∨ c = Cli.versionCommand ∨ ∃ programName, c = Cli.helpCommand programName
  help : .withHelpCommand ∈ calls →
    cli.hasHelpCommand = true ∧ ∃ programName, Cli.helpCommand programName ∈ cli.commands

theorem Cli.mem_withCommand {cli : Cli V} {command c : Command (Any V)} :
    c ∈ (cli.withCommand command).commands ↔ c = command ∨ c ∈ cli.commands := by
  rw [Cli.withCommand]
  split <;> simp [or_comm]

/-- Every call keeps what is known of the CLI. -/
theorem Built.call {calls : List (Call V)} {cli : Cli V} (h : Built calls cli)
    (next : Call V) : Built (calls ++ [next]) (CliBuilder.call cli next) := by
  have hkeep : ∀ c ∈ cli.commands, .withCommand c ∈ calls ++ [next] ∨ c = Cli.versionCommand ∨
      ∃ programName, c = Cli.helpCommand programName :=
    fun c hc => (h.commands c hc).imp_left fun hmem => List.mem_append_left _ hmem
  have hhelp : .withHelpCommand ∈ calls ++ [next] → next ≠ .withHelpCommand →
      .withHelpCommand ∈ calls := by
    intro hmem hne
    obtain hmem | hmem := List.mem_append.mp hmem
    · exact hmem
    · exact absurd (List.mem_singleton.mp hmem).symm hne
  cases next with
  | version _ | programName _ | about _ =>
      exact ⟨h.activeCommand, h.ovm, hkeep, fun hmem => h.help (hhelp hmem (by simp))⟩
  | withCommand command =>
      refine ⟨?_, ?_, fun c hc => ?_, fun hmem => ?_⟩
      · rw [CliBuilder.call, Cli.withCommand]
        split <;> exact h.activeCommand
      · rw [CliBuilder.call, Cli.withCommand]
        split <;> exact h.ovm
      · obtain rfl | hc := Cli.mem_withCommand.mp hc
        · exact .inl (by simp)
        · exact hkeep c hc
      · obtain ⟨hhas, programName, hcommand⟩ := h.help (hhelp hmem (by simp))
        refine ⟨?_, programName, Cli.mem_withCommand.mpr (.inr hcommand)⟩
        rw [CliBuilder.call, Cli.withCommand]
        split <;> exact hhas
  | withVersionCommand =>
      refine ⟨h.activeCommand, h.ovm, fun c hc => ?_, fun hmem => ?_⟩
      · obtain hc | hc := List.mem_append.mp hc
        · exact hkeep c hc
        · exact .inr (.inl (List.mem_singleton.mp hc))
      · obtain ⟨hhas, programName, hcommand⟩ := h.help (hhelp hmem (by simp))
        exact ⟨hhas, programName, List.mem_append_left _ hcommand⟩
  | withHelpCommand =>
      refine ⟨h.activeCommand, h.ovm, fun c hc => ?_, fun _ => ⟨rfl, cli.programName, by
        simp [CliBuilder.call, Cli.enableHelpCommand]⟩⟩
      obtain hc | hc := List.mem_append.mp hc
      · exact hkeep c hc
      · exact .inr (.inr ⟨_, List.mem_singleton.mp hc⟩)

/-- What the calls of a builder lead to. -/
theorem built_foldl (calls : List (Call V)) : Built calls (calls.foldl call {}) := by
  induction calls using List.reverseRecOn with
  | nil => exact ⟨rfl, rfl, by simp, by simp⟩
  | append_singleton calls next ih =>
      rw [List.foldl_append]
      exact ih.call next

/-! ## Build -/

/-- What `Build` makes of a command of a CLI that has the command `help` or `version`. -/
def finished (cli : Cli V) (command : Command (Any V)) : Command (Any V) :=
  { upgrade cli command with hasParentCli := true }

/-- A default command cannot be created for a CLI without one. -/
theorem new_default_error (programName : String) :
    ∃ message, (Command.new programName [Command.default] : Except String (Command V)) =
      .error message := by
  refine ⟨_, dif_neg ?_⟩
  simp [Command.default]

/-- What `Build` makes of a command. -/
def release (cli : Cli V) (command : Command (Any V)) : Command (Any V) :=
  { (if cli.hasHelpCommand ∨ cli.hasVersionCommand then upgrade cli command else command) with
    hasParentCli := true }

theorem release_of_upgrades {cli : Cli V}
    (h : cli.hasHelpCommand = true ∨ cli.hasVersionCommand = true) :
    release cli = finished cli := by
  funext c
  simp only [release, finished, if_pos h]

theorem release_of_not {cli : Cli V}
    (h : ¬ (cli.hasHelpCommand = true ∨ cli.hasVersionCommand = true)) :
    release cli = fun c => { c with hasParentCli := true } := by
  funext c
  simp only [release, if_neg h]

/-- `Build` upgrades what the user gave, and throws if it has to create the default command
itself. -/
theorem build_eq_ok_iff {calls : List (Call V)} {base cli : Cli V}
    (hbase : calls.foldl call {} = base) :
    build calls = .ok cli ↔
      (base.hasHelpCommand = true ∨ base.hasVersionCommand = true →
        base.commands.any Command.isDefault = true) ∧
      cli = { base with commands := base.commands.map (release base) } := by
  rw [build, hbase, setUp]
  by_cases hup : base.hasHelpCommand = true ∨ base.hasVersionCommand = true
  · rw [if_pos hup, release_of_upgrades hup]
    cases hdefault : base.commands.any Command.isDefault with
    | true =>
        simp only [if_true, ok_bind, pure_eq_ok, Except.ok.injEq, List.map_map, implies_true,
          true_and]
        exact eq_comm
    | false =>
        obtain ⟨message, hnew⟩ := new_default_error (V := Any V) base.programName
        simp [hnew, hup]
  · rw [if_neg hup, release_of_not hup]
    simp only [ok_bind, pure_eq_ok, Except.ok.injEq, hup, false_implies, true_and]
    exact eq_comm

/-- What is built has parsed nothing yet. -/
theorem fresh_of_build {calls : List (Call V)} {cli : Cli V} (h : build calls = .ok cli) :
    cli.activeCommand = none ∧ cli.ovm = ∅ := by
  obtain ⟨-, rfl⟩ := (build_eq_ok_iff rfl).mp h
  exact ⟨(built_foldl calls).activeCommand, (built_foldl calls).ovm⟩

/-- A CLI with the command `help` is built only with a default command of the user's, and
every command is upgraded. -/
theorem build_ok {calls : List (Call V)} {cli : Cli V} (hhelp : .withHelpCommand ∈ calls)
    (h : build calls = .ok cli) :
    (calls.foldl call {}).commands.any Command.isDefault = true ∧
      cli = { calls.foldl call {} with
        commands := (calls.foldl call {}).commands.map (finished (calls.foldl call {})) } := by
  have hhas := ((built_foldl calls).help hhelp).1
  obtain ⟨hdefault, hcli⟩ := (build_eq_ok_iff rfl).mp h
  rw [release_of_upgrades (.inl hhas)] at hcli
  exact ⟨hdefault (.inl hhas), hcli⟩

section

variable {cli : Cli V} {c : Command (Any V)}

@[simp] theorem path_withOption (option : ClapOption (Any V)) :
    (c.withOption option).path = c.path := by
  rw [Command.withOption]
  split <;> rfl

@[simp] theorem path_finished : (finished cli c).path = c.path := by
  simp only [finished, upgrade, addHelpOptionToCommand, addVersionOptionToCommand]
  split <;> split <;> simp

@[simp] theorem isDefault_finished : (finished cli c).isDefault = c.isDefault := by
  rw [Bool.eq_iff_iff, Command.isDefault_iff, Command.isDefault_iff, path_finished]

/-- A command other than the default one gets the option `help`, in front of its own. -/
theorem finished_of_not_isDefault (hhelp : cli.hasHelpCommand = true)
    (h : c.isDefault = false) :
    finished cli c = { c with
      options := helpOption cli.programName :: c.options
      optionsInGroups := false :: c.optionsInGroups
      hasParentCli := true } := by
  have hkey : (helpOption cli.programName : ClapOption (Any V)).key = Command.help := rfl
  have hadd : addHelpOptionToCommand cli c = { c with
      options := helpOption cli.programName :: c.options
      optionsInGroups := false :: c.optionsInGroups } := by
    rw [addHelpOptionToCommand, Command.withOption, if_pos (.inl hkey)]
  have hnot : (addHelpOptionToCommand cli c).isDefault = false := by
    rw [hadd]
    exact h
  have hupgrade : upgrade cli c = addHelpOptionToCommand cli c := by
    simp [upgrade, hhelp, hnot]
  exact congrArg (fun c : Command (Any V) => { c with hasParentCli := true }) (hupgrade.trans hadd)

end

end AsapClap
