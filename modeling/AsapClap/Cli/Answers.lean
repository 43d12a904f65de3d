import AsapClap.Cli.Help
import AsapClap.Cli.Lookup

/-!
# AsapClap.Cli.Answers

What the commands `version` and `help` of a built CLI answer, by each of their names: the line of
the version; the help of the command whose path stands behind `help`, whichever it is; what there
is to say where no command has that path; and the default command with a list of all the others
where nothing stands behind it.

Users may register commands of their own, also several with one path and paths that begin with
`version`.  What they must leave alone is the path of the command `version` and all paths that
begin with `help`.
-/

namespace AsapClap

open CliBuilder AsapClap.Parser AsapClap.Tokenizer LongestPrefix

variable {V : Type} {b : Build} {wrap : Wrapping}

/-! ## Answers -/

/-- What a run writes to `out_` and to `err_`. -/
structure Page where
  out : String
  err : String := ""

namespace Cli

/-- What the command `help` says about a path. -/
def helpPage (wrap : Wrapping) (cli : Cli V) (commandPath : List String) : Except Fault Page :=
  if commandPath = [] then do
    let text ← cli.printDefaultCommand wrap 80
    return { out := text ++ cli.printCommands wrap 80 }
  else match cli.commands.find? fun command => command.path = commandPath with
    | some command => do
        let text ← command.print wrap cli.parent 80
        return { out := text }
    | none => .ok
        { out := cli.tryHelp ++ "\n"
          err := "The path `" ++ " ".intercalate commandPath ++
            "` does not correspond to a known command.\n" }

/-- What the command `version` says. -/
def versionPage (cli : Cli V) : Page :=
  { out := cli.programName ++ " version " ++ cli.version ++ "\n\n" }

/-- What was written in a context. -/
def page (context : CommandLineContext (Any V)) : Page := { out := context.out, err := context.err }

/-- `Parse` on these arguments returns, having written the page; where printing it goes wrong, so
does `Parse`. -/
def Answers (b : Build) (wrap : Wrapping) (cli : Cli V) (arguments : Arguments) :
    Except Fault Page → Prop
  | .ok answer => ∃ context, cli.Parses b wrap arguments (.returned context) ∧ page context = answer
  | .error fault => cli.Parses b wrap arguments (.faulted fault)

variable {cli : Cli V} {arguments : Arguments}

/-- Behind a parse that succeeds, the answer is what `respond` writes. -/
theorem answers_of_settle (wrap : Wrapping) {entry result : ParserContext (Any V)}
    (hpass : pass b (cli.named arguments).context cli.commands (cli.unifyFirst arguments.args) =
      .ok entry)
    (hsettle : FinalState.settle b entry = .ok (.terminate, result)) :
    cli.Answers b wrap arguments
      (((cli.named arguments).respond wrap result.toCommandLineContext).map page) := by
  have hparses := parses_true_iff.mpr ⟨entry, hpass, hsettle⟩
  cases hrespond : (cli.named arguments).respond wrap result.toCommandLineContext with
  | error fault => exact ⟨_, hparses, by rw [Cli.conclude, hrespond]⟩
  | ok context => exact ⟨context, ⟨_, hparses, by rw [Cli.conclude, hrespond]⟩, rfl⟩

end Cli

/-! ## Commands that ask for nothing -/

/-- A command that can be given alone, and stores nothing then. -/
structure Undemanding (c : Command (Any V)) : Prop where
  optional : ∀ o ∈ c.options ++ c.positionalArgs, o.valueSemantic.isSome ∧ o.isRequired = false
  default : ∀ o ∈ c.options ++ c.positionalArgs, o.default? = none
  rest : ∀ o ∈ c.positionalArgs, o.isPositionalRest = true

theorem Undemanding.settle {c : Command (Any V)} {entry : ParserContext (Any V)}
    (h : Undemanding c) (hactive : entry.activeCommand = some c) (hovm : entry.ovm = ∅)
    (hpos : entry.positionalTokens = []) :
    ∃ result, FinalState.settle b entry = .ok (.terminate, result) ∧
      ∀ k, result.ovm.hasOption k = false := by
  obtain ⟨result, hsettle⟩ := (exists_settle_of_nil (b := b) hactive hpos).mpr
    ⟨h.rest, .of_forall h.optional⟩
  obtain ⟨c', ps, hactive', hassigned, -, hvalues, -⟩ := FinalState.settle_terminate hsettle
  obtain rfl := Option.some.inj (hactive.symm.trans hactive')
  have hnone : assigned c.positionalArgs [] = some [] := by
    simp [assigned, takePositionals_of_rest h.rest]
  rw [hpos, hnone] at hassigned
  obtain rfl := Option.some.inj hassigned
  refine ⟨result, hsettle, fun k => ?_⟩
  rw [OptionValuesMap.hasOption_eq_false_iff, hvalues, firstDefault_eq_none h.default,
    orDefault_none, hovm]
  rfl

/-! ## The CLI -/

section

variable {calls : List (Call V)} {cli : Cli V} {c : Command (Any V)}

/-- Calls leave the commands that there are. -/
theorem mem_call_of_mem (next : Call V) (h : c ∈ cli.commands) :
    c ∈ (call cli next).commands := by
  cases next with
  | version _ | programName _ | about _ => exact h
  | withCommand command => exact Cli.mem_withCommand.mpr (.inr h)
  | withVersionCommand | withHelpCommand => exact List.mem_append_left _ h

theorem mem_foldl_call (calls : List (Call V)) (h : c ∈ cli.commands) :
    c ∈ (calls.foldl call cli).commands := by
  induction calls generalizing cli with
  | nil => exact h
  | cons next calls ih => exact ih (mem_call_of_mem next h)

/-- The command `version` is where it was asked for. -/
theorem versionCommand_mem (h : .withVersionCommand ∈ calls) :
    Cli.versionCommand ∈ (calls.foldl call {}).commands := by
  obtain ⟨before, behind, rfl⟩ := List.append_of_mem h
  rw [List.foldl_append]
  exact mem_foldl_call behind (by simp [CliBuilder.call, Cli.enableVersionCommand])

/-- What is built holds the commands of the builder, with the options that `Build` adds. -/
theorem mem_commands_of_build (h : build calls = .ok cli) :
    c ∈ cli.commands ↔
      ∃ c₀ ∈ (calls.foldl call {}).commands, release (calls.foldl call {}) c₀ = c := by
  obtain ⟨-, hcli⟩ := (build_eq_ok_iff rfl).mp h
  rw [hcli]
  exact List.mem_map

/-- What is built has parsed nothing yet. -/
theorem initial_of_build (h : build calls = .ok cli) (arguments : Arguments) :
    ∃ activeCommand, initial (cli.named arguments).context cli.commands =
      { programName := (cli.named arguments).programName, commands := cli.commands,
        activeCommand } := by
  obtain ⟨activeCommand, hinitial⟩ :=
    Parser.initial_eq (cli.named arguments).context cli.commands
  refine ⟨activeCommand, hinitial.trans ?_⟩
  obtain ⟨-, rfl⟩ := (build_eq_ok_iff rfl).mp h
  simp [ParserContext.new, Cli.context, Cli.named, (built_foldl calls).ovm]

/-- A line of values that goes on from the path of a command selects it, and what is behind the
values probed is left for its positional arguments. -/
theorem pass_values {arguments : Arguments} {values : List String} {a : Command (Any V)}
    (h : build calls = .ok cli) (hargs : cli.unifyFirst arguments.args = values)
    (hvalues : ∀ s ∈ values, tokenize s = [(.value, s)])
    (hlong : longest Command.path cli.commands values = some a) :
    ∃ entry, pass b (cli.named arguments).context cli.commands (cli.unifyFirst arguments.args) =
        .ok entry ∧
      entry.activeCommand = some a ∧ entry.ovm = ∅ ∧ entry.out = "" ∧ entry.err = "" ∧
      entry.positionalTokens = values.drop (probe Command.path cli.commands values).length := by
  have hdelivered : delivered values = values.map (Prod.mk .value) := by
    simpa using delivered_values_append hvalues []
  obtain ⟨activeCommand, hinitial⟩ := initial_of_build h arguments
  have hlong' : longest Command.path cli.commands
      (leadingValues (values.map (Prod.mk .value))) = some a := by
    rw [leadingValues_values, hlong]
  rw [Parser.pass, hargs, hdelivered, ← initial, hinitial, scan_start_of_longest hlong', probed,
    leadingValues_values, ← List.map_drop, scan_ready_values]
  exact ⟨_, rfl, rfl, rfl, rfl, rfl, rfl⟩

/-- Where some command has a path, one of them is the last. -/
theorem exists_lastAt {path : List String} (hmem : ∃ a ∈ cli.commands, a.path = path) :
    ∃ a ∈ cli.commands, a.path = path ∧ lastAt Command.path cli.commands path = some a := by
  obtain ⟨a₀, ha₀, hpath₀⟩ := hmem
  cases hlast : lastAt Command.path cli.commands path with
  | none => exact absurd hpath₀ (lastAt_eq_none.mp hlast a₀ ha₀)
  | some a =>
      obtain ⟨hpath, before, after, hsplit, -⟩ := lastAt_eq_some.mp hlast
      exact ⟨a, by simp [hsplit], hpath, rfl⟩

/-- The command at the path of one segment is selected by every line that begins with the segment,
unless another path goes on with the line. -/
theorem longest_of_segment {segment : String} {words : List String}
    (hlast : lastAt Command.path cli.commands [segment] = some c)
    (hapart : ∀ word ∈ words.head?, ∀ a ∈ cli.commands, ¬ [segment, word] <+: a.path) :
    longest Command.path cli.commands (segment :: words) = some c := by
  obtain ⟨hpath, -⟩ := lastAt_eq_some.mp hlast
  refine longest_eq_some.mpr ⟨by rw [hpath]; exact ⟨words, rfl⟩, fun x hx hpre => ?_, by rwa [hpath]⟩
  obtain hnil | ⟨rest, hrest, hpre⟩ := List.prefix_cons_iff.mp hpre
  · exact absurd hnil x.path_ne_nil
  · cases rest with
    | nil => rw [hrest, hpath]
    | cons word rest =>
        obtain ⟨words', rfl⟩ := hpre
        exact absurd ⟨rest, hrest.symm⟩ (hapart word rfl x hx)

/-- Of such a line the segment alone is probed. -/
theorem probe_of_segment {segment : String} {words : List String}
    (hmem : ∃ a ∈ cli.commands, a.path = [segment])
    (hapart : ∀ word ∈ words.head?, ∀ a ∈ cli.commands, ¬ [segment, word] <+: a.path) :
    probe Command.path cli.commands (segment :: words) = [segment] := by
  obtain ⟨a₀, ha₀, hpath₀⟩ := hmem
  have hsegment : candidates Command.path cli.commands ([] ++ [segment]) ≠ [] :=
    List.ne_nil_of_mem (mem_candidates.mpr ⟨ha₀, by rw [hpath₀]; exact List.prefix_rfl⟩)
  rw [probe, probeFrom, if_neg hsegment]
  cases words with
  | nil => rfl
  | cons word words =>
      have hnone : candidates Command.path cli.commands ([] ++ [segment] ++ [word]) = [] := by
        rw [List.eq_nil_iff_forall_not_mem]
        intro a ha
        obtain ⟨hmem, hpre⟩ := mem_candidates.mp ha
        exact hapart word rfl a hmem hpre
      rw [probeFrom, if_pos hnone]
      rfl

/-- What stands at the path of the command `version` is that command, and asks for nothing. -/
theorem undemanding_version (h : build calls = .ok cli)
    (hother : ∀ c, .withCommand c ∈ calls → c.path ≠ [Command.version]) (hmem : c ∈ cli.commands)
    (hpath : c.path = [Command.version]) : Undemanding c := by
  obtain ⟨c₀, hmem₀, rfl⟩ := (mem_commands_of_build h).mp hmem
  rw [extends_release.path] at hpath
  obtain huser | rfl | ⟨name, rfl⟩ := (built_foldl calls).commands c₀ hmem₀
  · exact absurd hpath (hother c₀ huser)
  · have hargs : (release (calls.foldl call {}) Cli.versionCommand).positionalArgs = [] :=
      extends_release.positionalArgs
    have hoptions : ∀ o ∈ (release (calls.foldl call {}) Cli.versionCommand).options,
        o = helpOption (calls.foldl call {}).programName := by
      intro o ho
      rw [options_release, List.mem_append, mem_inserted] at ho
      obtain (⟨hdefault, -⟩ | ⟨-, rfl⟩) | ho := ho
      · simp [isDefault_versionCommand] at hdefault
      · rfl
      · cases ho
    constructor
    · rw [hargs, List.append_nil]
      intro o ho
      rw [hoptions o ho]
      exact ⟨rfl, rfl⟩
    · rw [hargs, List.append_nil]
      intro o ho
      rw [hoptions o ho]
      rfl
    · simp [hargs]
  · have hne : [Command.help] ≠ [Command.version] := by decide
    exact absurd hpath hne

/-- The command that `WithHelpCommand` adds, as `Build` leaves it. -/
def IsHelp (c : Command (Any V)) : Prop :=
  c.path = [Command.help] ∧
    ∃ name, c.options = [helpOption name] ∧ c.positionalArgs = [Cli.segments]

/-- What stands at the path of the command `help` is that command. -/
theorem help_of_path (h : build calls = .ok cli) (hhelp : .withHelpCommand ∈ calls)
    (hother : ∀ c, .withCommand c ∈ calls → c.path.head? ≠ some Command.help)
    (hmem : c ∈ cli.commands) (hhead : c.path.head? = some Command.help) : IsHelp c := by
  have hhas := ((built_foldl calls).help hhelp).1
  obtain ⟨c₀, hmem₀, rfl⟩ := (mem_commands_of_build h).mp hmem
  rw [IsHelp]
  rw [extends_release.path] at hhead ⊢
  obtain huser | rfl | ⟨name, rfl⟩ := (built_foldl calls).commands c₀ hmem₀
  · exact absurd hhead (hother c₀ huser)
  · simp [Cli.versionCommand, Command.version, Command.help] at hhead
  · rw [release_of_upgrades (.inl hhas), finished_of_not_isDefault hhas rfl]
    exact ⟨rfl, _, rfl, rfl⟩

/-- A CLI that was built with the command `help` has a command at its path. -/
theorem exists_help (h : build calls = .ok cli) (hhelp : .withHelpCommand ∈ calls) :
    ∃ a ∈ cli.commands, a.path = [Command.help] := by
  obtain ⟨-, name, hcommand⟩ := (built_foldl calls).help hhelp
  exact ⟨_, (mem_commands_of_build h).mpr ⟨_, hcommand, rfl⟩, extends_release.path⟩

theorem IsHelp.undemanding (h : IsHelp c) : Undemanding c := by
  obtain ⟨-, name, hoptions, hargs⟩ := h
  have hmem : ∀ o ∈ c.options ++ c.positionalArgs, o = helpOption name ∨ o = Cli.segments := by
    simp [hoptions, hargs]
  constructor
  · rintro o ho
    rcases hmem o ho with rfl | rfl <;> exact ⟨rfl, rfl⟩
  · rintro o ho
    rcases hmem o ho with rfl | rfl <;> rfl
  · rw [hargs]
    exact List.forall_mem_singleton.mpr rfl

/-- The values behind the command of one segment are left for it, unless another path goes on with
the line. -/
theorem pass_segment {arguments : Arguments} {segment : String} {words : List String}
    (h : build calls = .ok cli) (hargs : cli.unifyFirst arguments.args = segment :: words)
    (hvalues : ∀ s ∈ segment :: words, tokenize s = [(.value, s)])
    (hlast : lastAt Command.path cli.commands [segment] = some c)
    (hapart : ∀ word ∈ words.head?, ∀ a ∈ cli.commands, ¬ [segment, word] <+: a.path) :
    ∃ entry, pass b (cli.named arguments).context cli.commands (cli.unifyFirst arguments.args) =
        .ok entry ∧
      entry.activeCommand = some c ∧ entry.ovm = ∅ ∧ entry.out = "" ∧ entry.err = "" ∧
      entry.positionalTokens = words := by
  obtain ⟨hpath, before, after, hsplit, -⟩ := lastAt_eq_some.mp hlast
  have hmem : ∃ a ∈ cli.commands, a.path = [segment] := ⟨c, by simp [hsplit], hpath⟩
  have hlong := longest_of_segment hlast hapart
  obtain ⟨entry, hpass, hactive, hovm, hout, herr, hpos⟩ := pass_values (b := b) h hargs hvalues
    hlong
  rw [probe_of_segment hmem hapart] at hpos
  exact ⟨entry, hpass, hactive, hovm, hout, herr, hpos⟩

/-- The name of the command stands for it, and with it the two options. -/
theorem unifyFirst_version (hhas : cli.hasVersionCommand = true) {form : String}
    (hform : form ∈ [Command.version, Command.versionLong, Command.versionShort])
    (words : List String) : cli.unifyFirst (form :: words) = Command.version :: words := by
  have hcases : form = Command.version ∨ form = Command.versionLong ∨
      form = Command.versionShort := by simpa using hform
  obtain rfl | rfl | rfl := hcases
  · exact Addressed.unifyFirst_of_value (by decide) words
  · simp [Cli.unifyFirst, hhas]
  · simp [Cli.unifyFirst, hhas]

theorem unifyFirst_help (hhas : cli.hasHelpCommand = true) {form : String}
    (hform : form ∈ [Command.help, Command.helpLong, Command.helpShort]) (words : List String) :
    cli.unifyFirst (form :: words) = Command.help :: words := by
  have hcases : form = Command.help ∨ form = Command.helpLong ∨ form = Command.helpShort := by
    simpa using hform
  obtain rfl | rfl | rfl := hcases
  · exact Addressed.unifyFirst_of_value (by decide) words
  · simp [Cli.unifyFirst, hhas, Command.helpLong, Command.versionShort, Command.versionLong]
  · simp [Cli.unifyFirst, hhas, Command.helpShort, Command.versionShort, Command.versionLong]

end

/-! ## Its own commands -/

section

variable {cli : Cli V} {c : Command (Any V)} {arguments : Arguments}

/-- The command `version` writes the line of the version. -/
theorem respond_of_version {context : CommandLineContext (Any V)}
    (hactive : context.activeCommand = some c) (hpath : c.path = [Command.version])
    (hoption : context.ovm.hasOption "help" = false) :
    cli.respond wrap context = .ok (cli.handleVersionCommand context) := by
  have hname : c.pathAsString = "version" := by
    simp [Command.pathAsString, hpath, Command.version]
  have hne : "version" ≠ "help" := by decide
  rw [Cli.respond, hactive, deref_some, ok_bind, hname, hoption]
  simp [hne, pure_eq_ok]

/-- The command `help` alone writes about the default command and lists the others. -/
theorem respond_of_help_alone {context : CommandLineContext (Any V)}
    (hactive : context.activeCommand = some c) (hpath : c.path = [Command.help])
    (hovm : ∀ k, context.ovm.hasOption k = false) (hout : context.out = "")
    (herr : context.err = "") :
    (cli.respond wrap context).map Cli.page = cli.helpPage wrap [] := by
  have hname : c.pathAsString = "help" := by simp [Command.pathAsString, hpath, Command.help]
  have hrest : context.ovm.valuesOf? ClapOption.keyRest = none := by
    rw [OptionValuesMap.valuesOf?, if_neg (by rw [← OptionValuesMap.hasOption, hovm]; simp)]
  cases hprint : cli.printDefaultCommand wrap 80 <;>
    simp [Cli.helpPage, Cli.respond, Cli.handleHelpCommand, hactive, hname, hovm, hrest, hprint,
      pure_eq_ok, Cli.page, hout, herr, Except.map, Bind.bind, Except.bind]

/-- The answer to a path, as a page. -/
theorem map_page_answer {context : CommandLineContext (Any V)} {commandPath : List String}
    (hne : commandPath ≠ []) (hout : context.out = "") (herr : context.err = "") :
    (cli.answer wrap commandPath context).map Cli.page = cli.helpPage wrap commandPath := by
  rw [Cli.answer, Cli.helpPage, if_neg hne]
  cases cli.commands.find? fun command => command.path = commandPath with
  | none => simp [Except.map, Cli.page, hout, herr]
  | some command =>
      cases hprint : command.print wrap cli.parent 80 <;>
        simp [hprint, Except.map, Bind.bind, Except.bind, Cli.page, hout, herr, pure_eq_ok]

/-- What the commands `version` and `help` of a built CLI answer. -/
structure AnswersOwn (b : Build) (wrap : Wrapping) (calls : List (Call V)) (cli : Cli V) :
    Prop where
  /-- unless a command of the user's has its path, `version` writes the line of the version -/
  version : .withVersionCommand ∈ calls →
    (∀ c, .withCommand c ∈ calls → c.path ≠ [Command.version]) →
    ∀ form ∈ [Command.version, Command.versionLong, Command.versionShort],
      ∀ arguments : Arguments, arguments.args = [form] →
        cli.Answers b wrap arguments (.ok (cli.named arguments).versionPage)
  /-- unless the path of a command of the user's begins with it, `help` answers to every path -/
  help : .withHelpCommand ∈ calls →
    (∀ c, .withCommand c ∈ calls → c.path.head? ≠ some Command.help) →
    ∀ form ∈ [Command.help, Command.helpLong, Command.helpShort], ∀ words : List String,
      (∀ word ∈ words, tokenize word = [(.value, word)]) →
      ∀ arguments : Arguments, arguments.args = form :: words →
        cli.Answers b wrap arguments ((cli.named arguments).helpPage wrap words)

variable {calls : List (Call V)}

/-- The last state writes nothing where it succeeds. -/
theorem quiet_of_settle {entry result : ParserContext (Any V)}
    (hsettle : FinalState.settle b entry = .ok (.terminate, result))
    (hactive : entry.activeCommand = some c) (hout : entry.out = "") (herr : entry.err = "") :
    result.activeCommand = some c ∧ result.out = "" ∧ result.err = "" := by
  have hframe := FinalState.settle_frame hsettle
  exact ⟨by rw [hframe, hactive], by rw [hframe, hout], by rw [hframe, herr]⟩

theorem answers_version (h : build calls = .ok cli) (hversion : .withVersionCommand ∈ calls)
    (hother : ∀ c, .withCommand c ∈ calls → c.path ≠ [Command.version])
    (hargs : cli.unifyFirst arguments.args = [Command.version]) :
    cli.Answers b wrap arguments (.ok (cli.named arguments).versionPage) := by
  obtain ⟨a, ha, hpath, hlast⟩ := exists_lastAt
    ⟨_, (mem_commands_of_build h).mpr ⟨_, versionCommand_mem hversion, rfl⟩, extends_release.path⟩
  obtain ⟨entry, hpass, hactive, hovm, hout, herr, hpos⟩ := pass_segment (b := b) h hargs
    (List.forall_mem_singleton.mpr (by decide)) hlast (by simp)
  obtain ⟨result, hsettle, hnone⟩ :=
    (undemanding_version h hother ha hpath).settle (b := b) hactive hovm hpos
  obtain ⟨hresult, hout', herr'⟩ := quiet_of_settle hsettle hactive hout herr
  have hanswers := Cli.answers_of_settle wrap hpass hsettle
  rw [respond_of_version hresult hpath (hnone _)] at hanswers
  convert hanswers using 1
  simp [Except.map, Cli.page, Cli.handleVersionCommand, Cli.versionPage, hout', herr',
    String.append_assoc]

/-- What the command `help` is asked is what stands behind it. -/
theorem answers_of_isHelp {words : List String} (h : build calls = .ok cli)
    (hlast : lastAt Command.path cli.commands [Command.help] = some c) (hhelp : IsHelp c)
    (hapart : ∀ word ∈ words.head?, ∀ a ∈ cli.commands, ¬ [Command.help, word] <+: a.path)
    (hwords : ∀ word ∈ words, tokenize word = [(.value, word)])
    (hargs : cli.unifyFirst arguments.args = Command.help :: words) :
    cli.Answers b wrap arguments ((cli.named arguments).helpPage wrap words) := by
  obtain ⟨entry, hpass, hactive, hovm, hout, herr, hpos⟩ := pass_segment (b := b) h hargs
    (List.forall_mem_cons.mpr ⟨by decide, hwords⟩) hlast hapart
  by_cases hnil : words = []
  · obtain ⟨result, hsettle, hnone⟩ :=
      hhelp.undemanding.settle (b := b) hactive hovm (hpos.trans hnil)
    obtain ⟨hresult, hout', herr'⟩ := quiet_of_settle hsettle hactive hout herr
    have hanswers := Cli.answers_of_settle wrap hpass hsettle
    rwa [respond_of_help_alone hresult hhelp.1 hnone hout' herr', ← hnil] at hanswers
  · obtain ⟨hpath, name, hoptions, hpositional⟩ := hhelp
    obtain ⟨result, hsettle, hoption, hvalues⟩ := settle_help (b := b) hoptions hpositional hactive
      hovm (by rwa [hpos])
    obtain ⟨hresult, hout', herr'⟩ := quiet_of_settle hsettle hactive hout herr
    rw [hpos] at hvalues
    have hanswers := Cli.answers_of_settle wrap hpass hsettle
    rwa [respond_of_help hresult hpath hoption hvalues, map_page_answer hnil hout' herr']
      at hanswers

theorem answers_help {words : List String} (h : build calls = .ok cli)
    (hhelp : .withHelpCommand ∈ calls)
    (hother : ∀ c, .withCommand c ∈ calls → c.path.head? ≠ some Command.help)
    (hwords : ∀ word ∈ words, tokenize word = [(.value, word)])
    (hargs : cli.unifyFirst arguments.args = Command.help :: words) :
    cli.Answers b wrap arguments ((cli.named arguments).helpPage wrap words) := by
  have honly : ∀ a ∈ cli.commands, a.path.head? = some Command.help → IsHelp a :=
    fun a ha hhead => help_of_path h hhelp hother ha hhead
  obtain ⟨a, ha, hpath, hlast⟩ := exists_lastAt (exists_help h hhelp)
  refine answers_of_isHelp h hlast (honly a ha (by rw [hpath]; rfl)) ?_ hwords hargs
  rintro word - x hx ⟨rest, hrest⟩
  have hpath := (honly x hx (by rw [← hrest]; rfl)).1
  simp [← hrest] at hpath

/-- **Its own commands**: by each of their names, the commands `version` and `help` of every CLI
that is built answer as they should. -/
theorem builtin_commands_answer (h : build calls = .ok cli) : AnswersOwn b wrap calls cli where
  version := by
    intro hversion hother form hform arguments hargs
    have hhas : cli.hasVersionCommand = true := by
      obtain ⟨-, rfl⟩ := (build_eq_ok_iff rfl).mp h
      exact (arranged_foldl calls).hasVersionCommand.mpr hversion
    exact answers_version h hversion hother (by rw [hargs, unifyFirst_version hhas hform])
  help := by
    intro hhelp hother form hform words hwords arguments hargs
    have hhas : cli.hasHelpCommand = true := by
      obtain ⟨-, rfl⟩ := (build_eq_ok_iff rfl).mp h
      exact (arranged_foldl calls).hasHelpCommand.mpr hhelp
    exact answers_help h hhelp hother hwords (by rw [hargs, unifyFirst_help hhas hform])

end

/-- The calls for a CLI with nothing but a default command of the user's. -/
def clockCalls : List (Call Nat) :=
  [.version "2.1", .withCommand .plainDefault, .withVersionCommand, .withHelpCommand]

def calledClock : Cli Nat := clockCalls.foldl CliBuilder.call {}

def clock : Cli Nat :=
  { calledClock with commands := calledClock.commands.map (finished calledClock) }

/-- `clock -v` and `clock --help wind`. -/
theorem builtin_commands_answer_clock :
    (∃ context, clock.Parses .debug oneLine
        { programName := "clock", args := ["-v"], programName_ne := by decide }
        (.returned context) ∧
      Cli.page context = { out := "clock version 2.1\n\n" }) ∧
    ∃ context, clock.Parses .debug oneLine
        { programName := "clock", args := ["--help", "wind"], programName_ne := by decide }
        (.returned context) ∧
      Cli.page context =
        { out := "Try 'clock --help' for more information.\n"
          err := "The path `wind` does not correspond to a known command.\n" } := by
  have hbuild : build clockCalls = .ok clock := rfl
  have hown : AnswersOwn .debug oneLine clockCalls clock := builtin_commands_answer hbuild
  have hother : ∀ c, .withCommand c ∈ clockCalls → c = Command.plainDefault := by
    simp [clockCalls]
  constructor
  · exact hown.version (by simp [clockCalls]) (fun c hc => by rw [hother c hc]; decide) _
      (by simp [Command.versionShort]) _ rfl
  · exact hown.help (by simp [clockCalls]) (fun c hc => by rw [hother c hc]; decide) _
      (by simp [Command.helpLong]) ["wind"] (List.forall_mem_singleton.mpr (by decide)) _ rfl

end AsapClap
