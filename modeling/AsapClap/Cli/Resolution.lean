import AsapClap.Cli.Answers
import AsapClap.Parser.Naming

/-!
# AsapClap.Cli.Resolution

The ways a CLI looks up a command: `InitialState` and `PrintDefaultCommand` take the first
default command, `IdentifyCommandState` the last one; at a path, `IdentifyCommandState` takes
the last command and `HandleHelpCommand` the first.  They agree as long as the first command
at a path is the last one.

What `help` is given to look up is left for it only if no other path goes on with the line; its
runs are followed to what they print.
-/

namespace AsapClap

open CliBuilder LongestPrefix Tokenizer

variable {V : Type} {b : Build} {wrap : Wrapping}

/-- The token is handled by leaving the current state for this one, with this data. -/
def Parser.Leaves (b : Build) (cfg : Parser.Config V) (state : Parser.State)
    (d : Parser.Data V) : Prop :=
  ∃ hasData, (Parser.machine b).depart cfg.state cfg.token cfg.data =
    .ok (.enters state hasData d)

/-! ## Lookups -/

namespace Cli

/-- The command that `PrintDefaultCommand` prints. -/
def shownDefault (cli : Cli V) : Option (Command (Any V)) := cli.commands.find? Command.isDefault

/-- The command that `HandleHelpCommand` finds at a path. -/
def shownAt (cli : Cli V) (path : List String) : Option (Command (Any V)) :=
  cli.commands.find? fun command => command.path = path

/-- The command whose help `HandleHelpCommand` prints behind a parse with this result. -/
def explained (cli : Cli V) (context : CommandLineContext (Any V)) : Option (Command (Any V)) :=
  context.activeCommand.bind fun active =>
    if context.ovm.hasOption "help" then some active
    else if active.pathAsString = "help" then
      (context.ovm.valuesOf? ClapOption.keyRest).bind fun values =>
        (values.mapM fun (value : OptionValue (Any V)) => value.value.text?).bind cli.shownAt
    else none

/-- What is written for it. -/
def helpOf (wrap : Wrapping) (cli : Cli V) (command : Command (Any V)) : Except Fault Page := do
  let text ← command.print wrap cli.parent 80
  return { out := text }

/-- A run of `Parse` on these arguments handles a token in this configuration. -/
def Reaches (b : Build) (cli : Cli V) (arguments : Arguments) (cfg : Parser.Config (Any V)) :
    Prop :=
  Parser.Reachable b (cli.named arguments).context cli.commands (cli.unifyFirst arguments.args) cfg

/-- `Parse` on these arguments gets to the command `help`, which finds the command and writes its
help. -/
def Explains (b : Build) (wrap : Wrapping) (cli : Cli V) (arguments : Arguments)
    (command : Command (Any V)) : Prop :=
  ∃ help result, Parser.Parses b (cli.named arguments).context cli.commands
      (cli.unifyFirst arguments.args) (.returned true result) ∧
    result.activeCommand = some help ∧ IsHelp help ∧
    cli.explained result.toCommandLineContext = some command ∧
    cli.Answers b wrap arguments ((cli.named arguments).helpOf wrap command)

/-- All lookups find the same command. -/
structure ResolvesAlike (b : Build) (wrap : Wrapping) (calls : List (Call V)) (cli : Cli V) :
    Prop where
  /-- `InitialState`, when it goes straight to the options -/
  straight : ∀ arguments cfg, cli.Reaches b arguments cfg → cfg.state = .initialState →
    ∀ state d, Parser.Leaves b cfg state d → state ≠ .identifyCommandState →
      d.context.activeCommand = cli.shownDefault
  /-- `IdentifyCommandState`, when it falls back -/
  fallsBack : ∀ arguments cfg, cli.Reaches b arguments cfg → cfg.state = .identifyCommandState →
    cfg.data.lastMatchedCommand = none → ∀ state d, Parser.Leaves b cfg state d →
      d.context.activeCommand = cli.shownDefault
  /-- `IdentifyCommandState`, when the path of a command is typed -/
  selects : ∀ arguments cfg, cli.Reaches b arguments cfg → cfg.state = .identifyCommandState →
    (∃ command ∈ cli.commands, command.path = cfg.data.pathSegments) →
    ∀ state d, Parser.Leaves b cfg state d →
      d.context.activeCommand = cli.shownAt cfg.data.pathSegments
  /-- and `help` with the path behind it explains the command that it selects -/
  explains : .withHelpCommand ∈ calls → ∀ arguments cfg, cli.Reaches b arguments cfg →
    cfg.state = .identifyCommandState →
    (∃ command ∈ cli.commands, command.path = cfg.data.pathSegments) →
    ∀ state d, Parser.Leaves b cfg state d → ∀ command, d.context.activeCommand = some command →
      ∀ arguments' : Arguments, arguments'.args = Command.help :: cfg.data.pathSegments →
        cli.Explains b wrap arguments' command

end Cli

/-- The first of the commands at this path is the last one. -/
def OneAt (commands : List (Command V)) (path : List String) : Prop :=
  (commands.filter fun c => c.path = path).head? =
    (commands.filter fun c => c.path = path).getLast?

/-- No path that can be typed is given to several commands; nor is the empty one, if something
can be typed that falls back on the default command. -/
structure Unambiguous (commands : List (Command V)) : Prop where
  paths : ∀ path, (∀ s ∈ path, tokenize s = [(.value, s)]) → OneAt commands path
  defaults : ∀ s, tokenize s = [(.value, s)] → (∃ c ∈ commands, [s] <+: c.path) →
    (∀ c ∈ commands, c.path ≠ [s]) → OneAt commands [Command.default]

/-- The command `help` is the one that `WithHelpCommand` adds, and no path goes on from `help` with
the first segment of a path that can be typed. -/
structure HelpApart (commands : List (Command (Any V))) : Prop where
  own : ∃ help, lastAt Command.path commands [Command.help] = some help ∧ IsHelp help
  apart : ∀ c ∈ commands, (∀ s ∈ c.path, tokenize s = [(.value, s)]) →
    ∀ segment ∈ c.path.head?, ∀ c' ∈ commands, ¬ [Command.help, segment] <+: c'.path

namespace Cli

/-! ## What is printed -/

section

variable {cli : Cli V} {context : CommandLineContext (Any V)} {c : Command (Any V)}
  {path : List String}

/-- The command `help` explains the command found at the path it is given. -/
theorem explained_of_path (hactive : context.activeCommand = some c)
    (hpath : c.path = [Command.help]) (hoption : context.ovm.hasOption "help" = false)
    (hrest : context.ovm.valuesOf? ClapOption.keyRest =
      some (path.map fun token => ⟨.text token, token, true⟩)) :
    cli.explained context = cli.shownAt path := by
  have hname : c.pathAsString = "help" := by simp [Command.pathAsString, hpath, Command.help]
  rw [explained, hactive, Option.bind_some, if_neg (by simp [hoption]), if_pos hname, hrest,
    Option.bind_some, mapM_text?, Option.bind_some]

/-- The command `help` alone explains none. -/
theorem explained_of_no_values (hactive : context.activeCommand = some c)
    (hnone : ∀ k, context.ovm.hasOption k = false) : cli.explained context = none := by
  have hrest : context.ovm.valuesOf? ClapOption.keyRest = none := by
    rw [OptionValuesMap.valuesOf?, if_neg (by rw [← OptionValuesMap.hasOption, hnone]; simp)]
  simp [explained, hactive, hnone, hrest]

/-- The page of `help` is the help of the command that is found. -/
theorem helpPage_of_shownAt (hne : path ≠ []) (hshown : cli.shownAt path = some c) :
    cli.helpPage wrap path = cli.helpOf wrap c := by
  have hfind : (cli.commands.find? fun command => command.path = path) = some c := hshown
  rw [helpPage, if_neg hne, hfind, helpOf]

theorem path_of_shownAt (hshown : cli.shownAt path = some c) : c.path = path := by
  simpa using List.find?_some hshown

end

/-! ## The list of commands -/

section

variable {cli : Cli V} {path : List String}

theorem isDefault_eq (c : Command V) : c.isDefault = decide (c.path = [Command.default]) := by
  rw [Bool.eq_iff_iff, Command.isDefault_iff, decide_eq_true_eq]
  rfl

theorem shownDefault_eq : cli.shownDefault = cli.shownAt [Command.default] := by
  rw [shownDefault, shownAt]
  congr 1
  funext c
  exact isDefault_eq c

theorem lastDefault_eq (commands : List (Command V)) :
    Parser.lastDefault commands = lastAt Command.path commands [Command.default] := by
  rw [Parser.lastDefault, lastAt]
  congr 2
  funext c
  exact isDefault_eq c

/-- The first and the last command at a path. -/
theorem shownAt_eq_lastAt_iff :
    cli.shownAt path = lastAt Command.path cli.commands path ↔ OneAt cli.commands path := by
  rw [shownAt, lastAt, ← List.head?_filter, OneAt]

end

/-! ## Runs -/

section

variable {cli : Cli V} {arguments : Arguments} {cfg : Parser.Config (Any V)}
  {state : Parser.State} {d : Parser.Data (Any V)}

/-- What a run knows before it has chosen a command. -/
theorem undecided_of_reaches (h : cli.Reaches b arguments cfg)
    (hstate : cfg.state ≠ .dashDashState) :
    ∃ phase context tokens, cfg.Matches phase context tokens ∧
      ∀ typed, phase.typed = some typed →
        context = Parser.initial (cli.named arguments).context cli.commands ∧
          typed.map (Prod.mk .value) ++ tokens = delivered (cli.unifyFirst arguments.args) :=
  (Parser.undecided_of_reachable h).resolve_right hstate

/-- `InitialState` goes on with the default command that is printed. -/
theorem activeCommand_of_initialState (hactive : cli.activeCommand = none)
    (h : cli.Reaches b arguments cfg) (hstate : cfg.state = .initialState)
    (hleaves : Parser.Leaves b cfg state d) : d.context.activeCommand = cli.shownDefault := by
  obtain ⟨phase, context, tokens, hmatches, hknown⟩ :=
    undecided_of_reaches h (by simp [hstate])
  have hphase : phase = .start := by
    have hsame := hmatches.state.symm.trans hstate
    cases phase <;> cases hsame
    rfl
  subst hphase
  obtain ⟨rfl, -⟩ := hknown [] rfl
  obtain ⟨hasData, hdepart⟩ := hleaves
  rw [hmatches.state, hmatches.data] at hdepart
  have hcontext := Parser.depart_initialState hdepart
  have hnone : (cli.named arguments).context.activeCommand = none := hactive
  rw [hcontext, Parser.initial_activeCommand, hnone, Option.or_none]
  rfl

/-- `IdentifyCommandState` goes on with the last command at the longest path it has typed, or
else with the last default command. -/
theorem activeCommand_of_identifyCommandState (h : cli.Reaches b arguments cfg)
    (hstate : cfg.state = .identifyCommandState) :
    ∃ typed, typed ≠ [] ∧ (∀ s ∈ typed, tokenize s = [(.value, s)]) ∧
      candidates Command.path cli.commands typed ≠ [] ∧ cfg.data.pathSegments = typed ∧
      cfg.data.lastMatchedCommand = longest Command.path cli.commands typed ∧
      ∀ state d, Parser.Leaves b cfg state d → d.context.activeCommand =
        (longest Command.path cli.commands typed).or (Parser.lastDefault cli.commands) := by
  obtain ⟨phase, context, tokens, hmatches, hknown⟩ :=
    undecided_of_reaches h (by simp [hstate])
  have hphase : ∃ typed, phase = .naming typed := by
    have hsame := hmatches.state.symm.trans hstate
    cases phase with
    | naming typed => exact ⟨typed, rfl⟩
    | _ => cases hsame
  obtain ⟨typed, rfl⟩ := hphase
  obtain ⟨rfl, htokens⟩ := hknown typed rfl
  obtain ⟨-, htyped, hcandidates⟩ := id hmatches.wf
  have hcommands := Parser.initial_commands (cli.named arguments).context cli.commands
  rw [hcommands] at hcandidates
  have hlast : cfg.data.lastMatchedCommand = longest Command.path
      (Parser.initial (cli.named arguments).context cli.commands).commands typed := by
    rw [hmatches.data]
    rfl
  rw [hcommands] at hlast
  refine ⟨typed, htyped, tokenize_of_values htokens, hcandidates, ?_, hlast, ?_⟩
  · rw [hmatches.data]
    rfl
  · intro state d hleaves
    obtain ⟨hasData, hdepart⟩ := hleaves
    rw [hmatches.state, hmatches.data] at hdepart
    have hactive := Parser.depart_identifyCommandState hmatches.wf hdepart
    rwa [hcommands] at hactive

/-- Values typed as far as there are commands whose path goes on like that, and nothing else,
leave `IdentifyCommandState` for the command they select. -/
theorem exists_leaves (arguments : Arguments) {command : Command (Any V)}
    (hne : arguments.args ≠ [])
    (hvalues : ∀ s ∈ arguments.args, tokenize s = [(.value, s)])
    (hcandidates : candidates Command.path cli.commands arguments.args ≠ [])
    (hcommand : (longest Command.path cli.commands arguments.args).or
      (Parser.lastDefault cli.commands) = some command) :
    ∃ cfg state d, cli.Reaches b arguments cfg ∧ cfg.state = .identifyCommandState ∧
      cfg.data.pathSegments = arguments.args ∧ Parser.Leaves b cfg state d := by
  have hunify : cli.unifyFirst arguments.args = arguments.args := by
    obtain ⟨first, rest, hargs⟩ := List.exists_cons_of_ne_nil hne
    rw [hargs]
    exact Addressed.unifyFirst_of_value (hvalues first (by simp [hargs])) rest
  have htokens : arguments.args.map (Prod.mk .value) ++ [] =
      delivered (cli.unifyFirst arguments.args) := by
    have hdelivered := Parser.delivered_values_append hvalues []
    rw [List.append_nil] at hdelivered
    rw [hunify, hdelivered, delivered_nil]
  have hnaming : ∃ cfg, cli.Reaches b arguments cfg ∧ cfg.Matches (.naming arguments.args)
      (Parser.initial (cli.named arguments).context cli.commands) [] :=
    Parser.exists_naming hne htokens hcandidates
  obtain ⟨cfg, hreach, hmatches⟩ := hnaming
  have hcommands := Parser.initial_commands (cli.named arguments).context cli.commands
  have htoken : cfg.token.1 = .endOfInput := hmatches.delivers
  have hvalue : cfg.token.1 ≠ .value := by simp [htoken]
  obtain ⟨state, d, hdepart⟩ := Parser.exists_depart_identifyCommandState (b := b) hmatches.wf
    hvalue (hcommands.symm ▸ hcommand)
  refine ⟨cfg, state, d, hreach, hmatches.state, ?_, true, ?_⟩
  · rw [hmatches.data]
    rfl
  · rw [hmatches.state, hmatches.data]
    exact hdepart

end

/-! ## Agreement -/

section

variable {calls : List (Call V)} {cli : Cli V} {c : Command (Any V)}

theorem oneAt_of_forall_ne {commands : List (Command V)} {path : List String}
    (h : ∀ c ∈ commands, c.path ≠ path) : OneAt commands path := by
  have hnil : (commands.filter fun c => c.path = path) = [] := by
    rw [List.filter_eq_nil_iff]
    intro c hc
    simpa using h c hc
  simp [OneAt, hnil]

/-- A path that can be typed selects the last command at it. -/
theorem exists_leaves_of_path (b : Build) (hc : c ∈ cli.commands)
    (hvalues : ∀ s ∈ c.path, tokenize s = [(.value, s)]) :
    ∃ arguments cfg state d command, cli.Reaches b arguments cfg ∧
      cfg.state = .identifyCommandState ∧ cfg.data.pathSegments = c.path ∧
      Parser.Leaves b cfg state d ∧ d.context.activeCommand = some command ∧
      lastAt Command.path cli.commands c.path = some command := by
  obtain ⟨command, -, -, hlast⟩ := exists_lastAt ⟨c, hc, rfl⟩
  have hlong := longest_of_lastAt hlast
  have hcandidates : candidates Command.path cli.commands c.path ≠ [] :=
    List.ne_nil_of_mem (mem_candidates.mpr ⟨hc, List.prefix_rfl⟩)
  obtain ⟨cfg, state, d, hreach, hstate, hsegments, hleaves⟩ :=
    exists_leaves (b := b) ⟨"prog", c.path, by decide⟩ c.path_ne_nil hvalues hcandidates
      (by rw [hlong]; rfl)
  obtain ⟨typed, -, -, -, htyped, -, hactive⟩ :=
    activeCommand_of_identifyCommandState hreach hstate
  obtain rfl : c.path = typed := hsegments.symm.trans htyped
  refine ⟨_, cfg, state, d, command, hreach, hstate, hsegments, hleaves, ?_, hlast⟩
  rw [hactive state d hleaves, hlong, Option.some_or]

/-- At a path that can be typed, with lookups that agree, there is one command. -/
theorem oneAt_of_selects (h : ResolvesAlike b wrap calls cli) {path : List String}
    (hvalues : ∀ s ∈ path, tokenize s = [(.value, s)]) : OneAt cli.commands path := by
  by_cases hall : ∀ c ∈ cli.commands, c.path ≠ path
  · exact oneAt_of_forall_ne hall
  · obtain ⟨c, hc, rfl⟩ : ∃ c ∈ cli.commands, c.path = path := by simpa using hall
    obtain ⟨arguments, cfg, state, d, command, hreach, hstate, hsegments, hleaves, hactive, hlast⟩ :=
      exists_leaves_of_path b hc hvalues
    have hshown := h.selects _ cfg hreach hstate ⟨c, hc, hsegments.symm⟩ state d hleaves
    rw [hactive, hsegments, ← hlast] at hshown
    exact shownAt_eq_lastAt_iff.mp hshown.symm

/-- With lookups that agree, there is one default command to fall back on. -/
theorem oneAt_of_fallsBack (h : ResolvesAlike b wrap calls cli) {s : String}
    (hvalue : tokenize s = [(.value, s)]) (hpath : ∃ c ∈ cli.commands, [s] <+: c.path)
    (hnone : ∀ c ∈ cli.commands, c.path ≠ [s]) : OneAt cli.commands [Command.default] := by
  by_cases hall : ∀ c ∈ cli.commands, c.path ≠ [Command.default]
  · exact oneAt_of_forall_ne hall
  · obtain ⟨c, hc, hdefault⟩ : ∃ c ∈ cli.commands, c.path = [Command.default] := by simpa using hall
    obtain ⟨c', hc', hpre⟩ := hpath
    have hcandidates : candidates Command.path cli.commands [s] ≠ [] :=
      List.ne_nil_of_mem (mem_candidates.mpr ⟨hc', hpre⟩)
    have hlong : longest Command.path cli.commands [s] = none := by
      rw [longest_eq_none]
      intro c₁ hc₁ hpre₁
      have hlen : c₁.path = [s] :=
        hpre₁.eq_of_length_le (List.length_pos_of_ne_nil c₁.path_ne_nil)
      exact hnone c₁ hc₁ hlen
    obtain ⟨command, -, -, hlast⟩ := exists_lastAt ⟨c, hc, hdefault⟩
    rw [← lastDefault_eq] at hlast
    obtain ⟨cfg, state, d, hreach, hstate, hsegments, hleaves⟩ :=
      exists_leaves (b := b) ⟨"prog", [s], by decide⟩ (by simp)
        (by simpa using hvalue) hcandidates (by rw [hlong]; exact hlast)
    obtain ⟨typed, -, -, -, htyped, hmatched, hactive⟩ :=
      activeCommand_of_identifyCommandState hreach hstate
    obtain rfl : [s] = typed := hsegments.symm.trans htyped
    have hshown := h.fallsBack _ cfg hreach hstate (hmatched.trans hlong) state d hleaves
    rw [hactive state d hleaves, hlong, Option.none_or, lastDefault_eq, shownDefault_eq] at hshown
    exact shownAt_eq_lastAt_iff.mp hshown.symm

theorem unambiguous_of_resolvesAlike (h : ResolvesAlike b wrap calls cli) :
    Unambiguous cli.commands where
  paths := fun _ hvalues => oneAt_of_selects h hvalues
  defaults := fun _ hvalue hpath hnone => oneAt_of_fallsBack h hvalue hpath hnone

/-! ## The command `help` -/

/-- What `help` explains is the first command at the path behind it. -/
theorem explains_of_helpApart (hbuild : build calls = .ok cli) (h : HelpApart cli.commands)
    {path : List String} (hvalues : ∀ s ∈ path, tokenize s = [(.value, s)])
    (hshown : cli.shownAt path = some c) {arguments : Arguments}
    (hargs : arguments.args = Command.help :: path) : cli.Explains b wrap arguments c := by
  obtain ⟨help, hlast, hhelp⟩ := h.own
  have hpath := path_of_shownAt hshown
  have hne : path ≠ [] := hpath ▸ c.path_ne_nil
  have hunify : cli.unifyFirst arguments.args = Command.help :: path := by
    rw [hargs]
    exact Addressed.unifyFirst_of_value (by decide) path
  have hapart : ∀ word ∈ path.head?, ∀ a ∈ cli.commands, ¬ [Command.help, word] <+: a.path := by
    subst hpath
    exact h.apart c (List.mem_of_find?_eq_some hshown) hvalues
  obtain ⟨entry, hpass, hactive, hovm, hout, herr, hpos⟩ := pass_segment (b := b) hbuild hunify
    (List.forall_mem_cons.mpr ⟨by decide, hvalues⟩) hlast hapart
  obtain ⟨hhelpPath, name, hoptions, hpositional⟩ := id hhelp
  obtain ⟨result, hsettle, hoption, hrest⟩ := settle_help (b := b) hoptions hpositional hactive
    hovm (by rwa [hpos])
  rw [hpos] at hrest
  obtain ⟨hresult, -, -⟩ := quiet_of_settle hsettle hactive hout herr
  have hanswers : cli.Answers b wrap arguments ((cli.named arguments).helpPage wrap path) :=
    answers_of_isHelp hbuild hlast hhelp hapart hvalues hunify
  have hpage : (cli.named arguments).helpPage wrap path =
      (cli.named arguments).helpOf wrap c := helpPage_of_shownAt hne hshown
  rw [hpage] at hanswers
  exact ⟨help, result, Parser.parses_true_iff.mpr ⟨entry, hpass, hsettle⟩, hresult, hhelp,
    (explained_of_path hresult hhelpPath hoption hrest).trans hshown, hanswers⟩

/-- A run that gets to the command `help` has selected it as the last one at its path. -/
theorem lastAt_of_explains (hbuild : build calls = .ok cli) {arguments : Arguments}
    (h : cli.Explains b wrap arguments c) :
    ∃ help entry result,
      Parser.pass b (cli.named arguments).context cli.commands (cli.unifyFirst arguments.args) =
        .ok entry ∧
      Parser.FinalState.settle b entry = .ok (.terminate, result) ∧
      IsHelp help ∧ lastAt Command.path cli.commands [Command.help] = some help ∧
      longest Command.path cli.commands
        (Parser.leadingValues (delivered (cli.unifyFirst arguments.args))) = some help ∧
      cli.explained result.toCommandLineContext = some c := by
  obtain ⟨help, result, hparses, hactive, hhelp, hexplained, -⟩ := h
  obtain ⟨entry, hpass, hsettle⟩ := Parser.parses_true_iff.mp hparses
  obtain ⟨c', hentry⟩ := Parser.entry_of_pass hpass
  rw [Parser.FinalState.settle_frame hsettle, hentry.activeCommand] at hactive
  obtain rfl : c' = help := Option.some.inj hactive
  have hnot : c'.isDefault = false := by
    rw [isDefault_eq, hhelp.1]
    decide
  have hchosen := hentry.chosen
  have hcommands := Parser.initial_commands (cli.named arguments).context cli.commands
  have hfresh : (cli.named arguments).context.activeCommand = none := (fresh_of_build hbuild).1
  rw [Parser.chosen, Parser.initial_activeCommand, hfresh, Option.or_none, hcommands] at hchosen
  have hlong : longest Command.path cli.commands
      (Parser.leadingValues (delivered (cli.unifyFirst arguments.args))) = some c' := by
    split at hchosen
    · have hdefault := List.find?_some hchosen
      simp [hnot] at hdefault
    · obtain hlong | ⟨-, hdefault⟩ := Option.or_eq_some_iff.mp hchosen
      · exact hlong
      · rw [lastDefault_eq] at hdefault
        have hpath := (lastAt_eq_some.mp hdefault).1
        rw [hhelp.1] at hpath
        exact absurd hpath (by decide)
  have hlast := (longest_eq_some.mp hlong).2.2
  rw [hhelp.1] at hlast
  exact ⟨c', entry, result, hpass, hsettle, hhelp, hlast, hlong, hexplained⟩

/-- What `help` explains has the words behind it as its path. -/
theorem path_of_explained {help : Command (Any V)} {entry result : ParserContext (Any V)}
    (hhelp : IsHelp help) (hactive : entry.activeCommand = some help) (hovm : entry.ovm = ∅)
    (hsettle : Parser.FinalState.settle b entry = .ok (.terminate, result))
    (hexplained : cli.explained result.toCommandLineContext = some c) :
    c.path = entry.positionalTokens := by
  have hresult : result.activeCommand = some help := by
    rw [Parser.FinalState.settle_frame hsettle]
    exact hactive
  by_cases hnil : entry.positionalTokens = []
  · obtain ⟨result', hsettle', hnone⟩ := hhelp.undemanding.settle (b := b) hactive hovm hnil
    cases hsettle.symm.trans hsettle'
    rw [explained_of_no_values hresult hnone] at hexplained
    cases hexplained
  · obtain ⟨hhelpPath, name, hoptions, hpositional⟩ := hhelp
    obtain ⟨result', hsettle', hoption, hrest⟩ := settle_help (b := b) hoptions hpositional hactive
      hovm hnil
    cases hsettle.symm.trans hsettle'
    rw [explained_of_path hresult hhelpPath hoption hrest] at hexplained
    exact path_of_shownAt hexplained

/-- A path that goes on from `help` takes words away from it. -/
theorem not_explains_of_prefix (hbuild : build calls = .ok cli) {path : List String}
    {segment : String} {arguments : Arguments}
    (hvalues : ∀ s ∈ path, tokenize s = [(.value, s)]) (hsegment : segment ∈ path.head?)
    (hgoesOn : ∃ c' ∈ cli.commands, [Command.help, segment] <+: c'.path) (hpath : c.path = path)
    (hargs : arguments.args = Command.help :: path) : ¬ cli.Explains b wrap arguments c := by
  intro h
  obtain ⟨help, entry, result, hpass, hsettle, hhelp, -, hlong, hexplained⟩ :=
    lastAt_of_explains hbuild h
  have hline : ∀ s ∈ Command.help :: path, tokenize s = [(.value, s)] :=
    List.forall_mem_cons.mpr ⟨by decide, hvalues⟩
  have hunify : cli.unifyFirst arguments.args = Command.help :: path := by
    rw [hargs]
    exact Addressed.unifyFirst_of_value (by decide) path
  have hdelivered : delivered (Command.help :: path) =
      (Command.help :: path).map (Prod.mk .value) := by
    simpa using Parser.delivered_values_append hline []
  rw [hunify, hdelivered, Parser.leadingValues_values] at hlong
  obtain ⟨entry', hpass', hactive, hovm, -, -, hpos⟩ := pass_values (b := b) hbuild hunify hline
    hlong
  cases hpass.symm.trans hpass'
  -- the segment is probed as well, so that less than the path is left
  obtain ⟨c', hc', hpre⟩ := hgoesOn
  obtain ⟨rest, rfl⟩ : ∃ rest, path = segment :: rest := by
    cases path with
    | nil => cases hsegment
    | cons first rest =>
        cases hsegment
        exact ⟨rest, rfl⟩
  have hprobe : [Command.help, segment] <+:
      probe Command.path cli.commands (Command.help :: segment :: rest) :=
    (prefix_probe_iff ⟨rest, rfl⟩ (by simp)).mpr
      (List.ne_nil_of_mem (mem_candidates.mpr ⟨hc', hpre⟩))
  have hshort : entry.positionalTokens.length < (segment :: rest).length := by
    have hlen := hprobe.length_le
    rw [hpos, List.length_drop]
    simp only [List.length_cons, List.length_nil] at hlen ⊢
    omega
  have hwords := path_of_explained hhelp hactive hovm hsettle hexplained
  rw [← hwords, hpath] at hshort
  exact lt_irrefl _ hshort

theorem helpApart_of_resolvesAlike (hbuild : build calls = .ok cli)
    (hhelp : .withHelpCommand ∈ calls) (h : ResolvesAlike b wrap calls cli) :
    HelpApart cli.commands := by
  -- a path that can be typed is explained by `help`
  have hexplains : ∀ c ∈ cli.commands, (∀ s ∈ c.path, tokenize s = [(.value, s)]) →
      ∃ command, command.path = c.path ∧ cli.Explains b wrap
        ⟨"prog", Command.help :: c.path, by decide⟩ command := by
    intro c hc hvalues
    obtain ⟨arguments, cfg, state, d, command, hreach, hstate, hsegments, hleaves, hactive, hlast⟩ :=
      exists_leaves_of_path b hc hvalues
    exact ⟨command, (lastAt_eq_some.mp hlast).1, h.explains hhelp arguments cfg hreach hstate
      ⟨c, hc, hsegments.symm⟩ state d hleaves command hactive _ (by rw [hsegments])⟩
  constructor
  · obtain ⟨a, ha, hpath⟩ := exists_help hbuild hhelp
    obtain ⟨command, -, hexplained⟩ := hexplains a ha (by
      rw [hpath, List.forall_mem_singleton]
      decide)
    obtain ⟨help, entry, result, -, -, hisHelp, hlast, -⟩ := lastAt_of_explains hbuild hexplained
    exact ⟨help, hlast, hisHelp⟩
  · intro c hc hvalues segment hsegment c' hc' hpre
    obtain ⟨command, hpath, hexplained⟩ := hexplains c hc hvalues
    exact not_explains_of_prefix hbuild hvalues hsegment ⟨c', hc', hpre⟩ hpath rfl hexplained

end

end Cli

/-- Commands with different paths are one at each path. -/
theorem oneAt_of_pairwise {commands : List (Command V)} (path : List String)
    (h : commands.Pairwise fun c c' => c.path ≠ c'.path) : OneAt commands path := by
  have hfilter := h.filter fun c => c.path = path
  have hpath : ∀ c ∈ commands.filter fun c => c.path = path, c.path = path := by
    intro c hc
    simpa using (List.mem_filter.mp hc).2
  rw [OneAt]
  generalize commands.filter (fun c => c.path = path) = found at hfilter hpath
  match found with
  | [] | [_] => rfl
  | c :: c' :: rest =>
    refine absurd ?_ ((List.pairwise_cons.mp hfilter).1 c' (by simp))
    rw [hpath c (by simp), hpath c' (by simp)]

/-- `rm`, for a file -/
def removeFile : Command (Any Nat) where
  path := ["rm"]
  about := "Remove a file"
  path_ne_nil := by decide
  path_valid := by decide

/-- `rm`, for a directory -/
def removeDirectory : Command (Any Nat) := { removeFile with about := "Remove a directory" }

/-- `help rm`, a command of the user's -/
def helpRemove : Command (Any Nat) where
  path := [Command.help, "rm"]
  path_ne_nil := by decide
  path_valid := by decide

/-- A CLI with a default command, with `rm` and these commands, and with the command `help`. -/
def removeCalls (others : List (Command (Any Nat))) : List (Call Nat) :=
  (.plainDefault :: removeFile :: others).map .withCommand ++ [.withHelpCommand]

def removeCli (others : List (Command (Any Nat))) : Cli Nat :=
  let cli := (removeCalls others).foldl call {}
  { cli with commands := cli.commands.map (release cli) }

end AsapClap
