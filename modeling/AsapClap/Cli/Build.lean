import AsapClap.Cli.Built

/-!
# AsapClap.Cli.Build

When `CliBuilder::Build` returns, and what it then has established: `Arranged` is what the
calls of a builder keep of the order of the commands, `Established` what is promised of the
CLI that `Build` returns.
-/

namespace AsapClap

variable {V : Type}

open CliBuilder

/-! ## Calls -/

/-- The default commands are the user's, and stand in front. -/
structure Arranged (calls : List (Call V)) (cli : Cli V) : Prop where
  hasHelpCommand : cli.hasHelpCommand = true ↔ .withHelpCommand ∈ calls
  hasVersionCommand : cli.hasVersionCommand = true ↔ .withVersionCommand ∈ calls
  mem_commands : ∀ c, c.isDefault = true → (c ∈ cli.commands ↔ .withCommand c ∈ calls)
  pairwise : cli.commands.Pairwise fun c c' => c'.isDefault = true → c.isDefault = true

theorem isDefault_versionCommand : (Cli.versionCommand : Command (Any V)).isDefault = false := rfl

theorem isDefault_helpCommand (programName : String) :
    (Cli.helpCommand programName : Command (Any V)).isDefault = false := rfl

/-- A command that is not a default one may come last. -/
theorem pairwise_append_singleton {commands : List (Command V)} {command : Command V}
    (h : commands.Pairwise fun c c' => c'.isDefault = true → c.isDefault = true)
    (hcommand : command.isDefault = false) :
    (commands ++ [command]).Pairwise fun c c' => c'.isDefault = true → c.isDefault = true := by
  rw [List.pairwise_append]
  refine ⟨h, by simp, fun c _ c' hc' hdefault => ?_⟩
  rw [List.mem_singleton.mp hc', hcommand] at hdefault
  cases hdefault

/-- Every call keeps the arrangement. -/
theorem Arranged.call {calls : List (Call V)} {cli : Cli V} (h : Arranged calls cli)
    (next : Call V) : Arranged (calls ++ [next]) (CliBuilder.call cli next) := by
  have hne : ∀ {command : Command (Any V)} {c : Command (Any V)}, command.isDefault = false →
      c.isDefault = true → c ≠ command := by
    intro command c hcommand hdefault hc
    rw [hc, hcommand] at hdefault
    cases hdefault
  cases next with
  | version _ | programName _ | about _ =>
      exact ⟨by simpa [CliBuilder.call] using h.hasHelpCommand,
        by simpa [CliBuilder.call] using h.hasVersionCommand,
        fun c hc => by simpa [CliBuilder.call] using h.mem_commands c hc, h.pairwise⟩
  | withCommand command =>
      have hmem : ∀ c, c.isDefault = true → (c ∈ (cli.withCommand command).commands ↔
          .withCommand c ∈ calls ++ [.withCommand command]) := by
        intro c hc
        rw [Cli.mem_withCommand, h.mem_commands c hc]
        simp [or_comm]
      refine ⟨?_, ?_, hmem, ?_⟩ <;> rw [CliBuilder.call, Cli.withCommand] <;>
        split
      · simpa using h.hasHelpCommand
      · simpa using h.hasHelpCommand
      · simpa using h.hasVersionCommand
      · simpa using h.hasVersionCommand
      · next hdefault =>
        exact List.pairwise_cons.mpr ⟨fun _ _ _ => hdefault, h.pairwise⟩
      · next hdefault =>
        exact pairwise_append_singleton h.pairwise (Bool.eq_false_iff.mpr hdefault)
  | withVersionCommand =>
      refine ⟨by simpa [CliBuilder.call, Cli.enableVersionCommand] using h.hasHelpCommand,
        by simp [CliBuilder.call, Cli.enableVersionCommand],
        fun c hc => ?_, pairwise_append_singleton h.pairwise isDefault_versionCommand⟩
      simp [CliBuilder.call, Cli.enableVersionCommand, hne isDefault_versionCommand hc,
        h.mem_commands c hc]
  | withHelpCommand =>
      refine ⟨by simp [CliBuilder.call, Cli.enableHelpCommand],
        by simpa [CliBuilder.call, Cli.enableHelpCommand] using h.hasVersionCommand,
        fun c hc => ?_, pairwise_append_singleton h.pairwise (isDefault_helpCommand _)⟩
      simp [CliBuilder.call, Cli.enableHelpCommand, hne (isDefault_helpCommand _) hc,
        h.mem_commands c hc]

/-- How the calls of a builder arrange the commands. -/
theorem arranged_foldl (calls : List (Call V)) : Arranged calls (calls.foldl call {}) := by
  induction calls using List.reverseRecOn with
  | nil => exact ⟨by simp, by simp, by simp, .nil⟩
  | append_singleton calls next ih =>
      rw [List.foldl_append]
      exact ih.call next

/-! ## Build -/

/-- `WithHelpCommand` or `WithVersionCommand` was called. -/
def Upgrades (calls : List (Call V)) : Prop :=
  .withHelpCommand ∈ calls ∨ .withVersionCommand ∈ calls

/-- The user has given a default command. -/
def GivesDefault (calls : List (Call V)) : Prop :=
  ∃ c, .withCommand c ∈ calls ∧ c.isDefault = true

theorem givesDefault_iff {calls : List (Call V)} {cli : Cli V} (h : Arranged calls cli) :
    GivesDefault calls ↔ cli.commands.any Command.isDefault = true := by
  rw [List.any_eq_true]
  constructor
  · rintro ⟨c, hc, hdefault⟩
    exact ⟨c, (h.mem_commands c hdefault).mpr hc, hdefault⟩
  · rintro ⟨c, hc, hdefault⟩
    exact ⟨c, (h.mem_commands c hdefault).mp hc, hdefault⟩

/-- With a default command there, the first command is one. -/
theorem Arranged.exists_first {calls : List (Call V)} {cli : Cli V} (h : Arranged calls cli)
    (hdefault : cli.commands.any Command.isDefault = true) :
    ∃ c cs, cli.commands = c :: cs ∧ c.isDefault = true := by
  obtain ⟨c', hc', hdefault⟩ := List.any_eq_true.mp hdefault
  cases hcommands : cli.commands with
  | nil =>
      rw [hcommands] at hc'
      cases hc'
  | cons c cs =>
      have hpairwise := hcommands ▸ h.pairwise
      rw [hcommands] at hc'
      obtain rfl | hc' := List.mem_cons.mp hc'
      · exact ⟨c', cs, rfl, hdefault⟩
      · exact ⟨c, cs, rfl, (List.pairwise_cons.mp hpairwise).1 c' hc' hdefault⟩

/-- Whether `Build` returns. -/
theorem exists_build_iff (calls : List (Call V)) :
    (∃ cli, build calls = .ok cli) ↔ (Upgrades calls → GivesDefault calls) := by
  have harranged := arranged_foldl calls
  rw [givesDefault_iff harranged, Upgrades, ← harranged.hasHelpCommand,
    ← harranged.hasVersionCommand]
  simp only [build_eq_ok_iff rfl, exists_and_left, exists_eq, and_true]

/-! ## What is promised of the CLI -/

/-- The command is `user`, with options added in front of its own. -/
structure Extends (command user : Command (Any V)) : Prop where
  about : command.about = user.about
  path : command.path = user.path
  options : user.options <:+ command.options
  groups : command.groups = user.groups
  positionalArgs : command.positionalArgs = user.positionalArgs

/-- Under both names the command has an option with this key. -/
def Resolves (command : Command (Any V)) (shortName longName key : String) : Prop :=
  (∃ o, command.findShortOption shortName = some o ∧ o.key = key) ∧
    ∃ o, command.findLongOption longName = some o ∧ o.key = key

/-- What `Build` establishes. -/
structure Established (calls : List (Call V)) (cli : Cli V) : Prop where
  first : Upgrades calls → ∃ c cs, cli.commands = c :: cs ∧ c.isDefault = true ∧
    (GivesDefault calls → ∃ user, .withCommand user ∈ calls ∧ Extends c user)
  help : .withHelpCommand ∈ calls → ∀ c ∈ cli.commands, Resolves c "h" "help" Command.help
  version : .withVersionCommand ∈ calls → ∀ c ∈ cli.commands, c.isDefault = true →
    Resolves c "v" "version" Command.version
  parent : ∀ c ∈ cli.commands, c.hasParentCli = true

section

variable {cli : Cli V} {c : Command (Any V)}

/-- An option `help` or `version` goes in front. -/
theorem withOption_front {option : ClapOption (Any V)}
    (h : option.key = Command.help ∨ option.key = Command.version) :
    c.withOption option = { c with
      options := option :: c.options, optionsInGroups := false :: c.optionsInGroups } :=
  if_pos h

theorem resolves_withOption {option : ClapOption (Any V)} {key : String}
    (h : option.key = Command.help ∨ option.key = Command.version) (hkey : option.key = key) :
    Resolves (c.withOption option) option.shortName option.longName key := by
  rw [withOption_front h]
  exact ⟨⟨option, by simp [Command.findShortOption], hkey⟩,
    option, by simp [Command.findLongOption], hkey⟩

/-- An option in front whose names are others hides nothing. -/
theorem Resolves.withOption {option : ClapOption (Any V)} {shortName longName key : String}
    (hfront : option.key = Command.help ∨ option.key = Command.version)
    (h : Resolves c shortName longName key) (hshort : option.shortName ≠ shortName)
    (hlong : option.longName ≠ longName) :
    Resolves (c.withOption option) shortName longName key := by
  rw [withOption_front hfront]
  simpa [Resolves, Command.findShortOption, Command.findLongOption, hshort, hlong] using h

theorem Extends.withOption {user : Command (Any V)} {option : ClapOption (Any V)}
    (hfront : option.key = Command.help ∨ option.key = Command.version)
    (h : Extends c user) : Extends (c.withOption option) user := by
  rw [withOption_front hfront]
  exact { h with options := h.options.trans (List.suffix_cons _ _) }

theorem extends_upgrade : Extends (upgrade cli c) c := by
  have hrefl : Extends c c := ⟨rfl, rfl, List.suffix_refl _, rfl, rfl⟩
  simp only [upgrade]
  split <;> split
  · exact (hrefl.withOption (.inl rfl)).withOption (.inr rfl)
  · exact hrefl.withOption (.inl rfl)
  · exact hrefl.withOption (.inr rfl)
  · exact hrefl

theorem extends_release : Extends (release cli c) c := by
  have hupgrade : Extends (upgrade cli c) c := extends_upgrade
  rw [release]
  split
  · exact { hupgrade with }
  · exact ⟨rfl, rfl, List.suffix_refl _, rfl, rfl⟩

@[simp] theorem isDefault_release : (release cli c).isDefault = c.isDefault := by
  rw [Bool.eq_iff_iff, Command.isDefault_iff, Command.isDefault_iff, extends_release.path]

theorem resolves_help (hhelp : cli.hasHelpCommand = true) :
    Resolves (release cli c) "h" "help" Command.help := by
  have hadd : Resolves (addHelpOptionToCommand cli c) "h" "help" Command.help :=
    resolves_withOption (.inl rfl) rfl
  rw [release_of_upgrades (.inl hhelp)]
  change Resolves (upgrade cli c) "h" "help" Command.help
  simp only [upgrade, hhelp, if_true]
  split
  · exact hadd.withOption (.inr rfl) (by simp [versionOption]) (by simp [versionOption])
  · exact hadd

theorem resolves_version (hversion : cli.hasVersionCommand = true)
    (hdefault : (release cli c).isDefault = true) :
    Resolves (release cli c) "v" "version" Command.version := by
  rw [isDefault_release] at hdefault
  have hadd : (addHelpOptionToCommand cli c).isDefault = c.isDefault := by
    rw [Bool.eq_iff_iff, Command.isDefault_iff, Command.isDefault_iff, addHelpOptionToCommand,
      path_withOption]
  rw [release_of_upgrades (.inr hversion)]
  change Resolves (upgrade cli c) "v" "version" Command.version
  simp only [upgrade]
  rw [if_pos]
  · exact resolves_withOption (.inr rfl) rfl
  · refine ⟨?_, hversion⟩
    split
    · exact hadd.trans hdefault
    · exact hdefault

end

/-- Whatever `Build` returns is as promised. -/
theorem established_of_build {calls : List (Call V)} {cli : Cli V} (h : build calls = .ok cli) :
    Established calls cli := by
  have harranged := arranged_foldl calls
  generalize hbase : calls.foldl call {} = base at harranged
  obtain ⟨hdefault, rfl⟩ := (build_eq_ok_iff hbase).mp h
  refine ⟨fun hup => ?_, fun hhelp c hc => ?_, fun hversion c hc hcdefault => ?_, fun c hc => ?_⟩
  · rw [Upgrades, ← harranged.hasHelpCommand, ← harranged.hasVersionCommand] at hup
    obtain ⟨user, users, hcommands, huser⟩ := harranged.exists_first (hdefault hup)
    refine ⟨release base user, users.map (release base), by rw [hcommands, List.map_cons],
      isDefault_release.trans huser, fun _ => ⟨user, ?_, extends_release⟩⟩
    exact (harranged.mem_commands user huser).mp (by simp [hcommands])
  · obtain ⟨user, -, rfl⟩ := List.mem_map.mp hc
    exact resolves_help (harranged.hasHelpCommand.mpr hhelp)
  · obtain ⟨user, -, rfl⟩ := List.mem_map.mp hc
    exact resolves_version (harranged.hasVersionCommand.mpr hversion) hcdefault
  · obtain ⟨user, -, rfl⟩ := List.mem_map.mp hc
    rfl

/-- `Build` returns and establishes what it promises exactly when the user has given a default
command, or neither `help` nor `version` is enabled. -/
theorem builds_iff (calls : List (Call V)) :
    (∃ cli, build calls = .ok cli ∧ Established calls cli) ↔
      (Upgrades calls → GivesDefault calls) := by
  rw [← exists_build_iff]
  constructor
  · rintro ⟨cli, hbuild, -⟩
    exact ⟨cli, hbuild⟩
  · rintro ⟨cli, hbuild⟩
    exact ⟨cli, hbuild, established_of_build hbuild⟩

/-- A CLI with the command `help` and no command of the user's is not built: the default
command it should get has two segments in its path. -/
theorem not_builds_help :
    ¬ ∃ cli : Cli Unit,
      build [.withHelpCommand] = .ok cli ∧ Established [.withHelpCommand] cli := by
  rintro ⟨cli, hbuild, -⟩
  cases hbuild

end AsapClap
