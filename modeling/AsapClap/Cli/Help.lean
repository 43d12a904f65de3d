import AsapClap.Cli.Built
import AsapClap.Parser.Faults
import AsapClap.Parser.Lines

/-!
# AsapClap.Cli.Help

Whether help works for a command: by the option `--help` or `-h` behind its path, and by the
command `help` in front of it.

The option leads through the checks of the command itself, which ask for its required options
and take tokens for its positional arguments; the command `help` leads through its own.
-/

namespace AsapClap

open CliBuilder AsapClap.Parser AsapClap.Tokenizer LongestPrefix

variable {V : Type} {b : Build} {wrap : Wrapping}

namespace Cli

/-- `Parse` on these arguments returns, having printed the help of the command. -/
def PrintsHelp (b : Build) (wrap : Wrapping) (cli : Cli V) (c : Command (Any V))
    (arguments : Arguments) : Prop :=
  ∃ context text, cli.Parses b wrap arguments (.returned context) ∧
    c.print wrap (cli.named arguments).parent 80 = .ok text ∧ context.out = text

/-- The documented ways to the help of a command. -/
structure HelpWorks (b : Build) (wrap : Wrapping) (cli : Cli V) (c : Command (Any V))
    (programName : String) (programName_ne : programName ≠ "") : Prop where
  longOption : cli.PrintsHelp b wrap c
    { programName, args := c.path ++ [Command.helpLong], programName_ne }
  shortOption : cli.PrintsHelp b wrap c
    { programName, args := c.path ++ [Command.helpShort], programName_ne }
  command : cli.PrintsHelp b wrap c
    { programName, args := Command.help :: c.path, programName_ne }

end Cli

/-- A command of a CLI with the command `help` that a command line can name. -/
structure Addressed (calls : List (Call V)) (cli : Cli V) (c : Command (Any V)) : Prop where
  helpCommand : .withHelpCommand ∈ calls
  built : build calls = .ok cli
  mem : c ∈ cli.commands
  not_default : c.isDefault = false
  unique : ∀ c' ∈ cli.commands, c'.path = c.path → c' = c
  segments : ∀ s ∈ c.path, tokenize s = [(.value, s)]
  others : ∀ c', .withCommand c' ∈ calls → c'.path ≠ c.path → c'.path.head? ≠ some Command.help

/-! ## When help works -/

/-- `FinalState` has nothing to object to what is stored for the options. -/
structure Satisfied (c : Command (Any V)) (ovm : OptionValuesMap (Any V)) : Prop where
  asks : ¬ AsksNull (c.options ++ c.positionalArgs) ovm
  lacks : ¬ Lacks (c.options ++ c.positionalArgs) ovm

/-- What `--help` stores. -/
def helpGiven : OptionValuesMap (Any V) :=
  (∅ : OptionValuesMap (Any V)).storeValue "help" ⟨.flag true, "true", false⟩

/-- A command at `help help … help` shows its help for its path with one more `help`, which
is positional. -/
structure AnswersHelp (c : Command (Any V)) : Prop where
  path : ∀ s ∈ c.path, s = Command.help
  rest : ∃ rest, lastRest c.positionalArgs = some rest ∧ rest.valueSemantic.isSome ∧
    Satisfied c ((∅ : OptionValuesMap (Any V)).storeAll
      ([(rest, Command.help)].filterMap positionalEntry))
  default : (firstDefault c.options "help").isSome

/-- The options of the command have value semantics, its positional arguments are `Rest`,
and nothing required is lacking; a path that begins with `help help` is a case of its own. -/
structure ShowsHelp (c : Command (Any V)) : Prop where
  semantics : ∀ o ∈ c.options, o.valueSemantic.isSome
  restOnly : ∀ o ∈ c.positionalArgs, o.isPositionalRest = true
  satisfied : Satisfied c helpGiven
  answers : [Command.help, Command.help] <+: c.path → AnswersHelp c

/-- Where nothing is required and everything has value semantics, there is nothing to
object to. -/
theorem Satisfied.of_forall {c : Command (Any V)} {ovm : OptionValuesMap (Any V)}
    (h : ∀ o ∈ c.options ++ c.positionalArgs, o.valueSemantic.isSome ∧ o.isRequired = false) :
    Satisfied c ovm where
  asks := by
    rintro ⟨before, option, behind, hsplit, hsem, -⟩
    simpa [hsem] using (h option (by simp [hsplit])).1
  lacks := by
    rintro ⟨before, option, behind, hsplit, hrequired, -⟩
    simpa [hrequired] using (h option (by simp [hsplit])).2

/-! ## Results of the parser -/

section

variable {cli : Cli V} {c : Command (Any V)} {arguments : Arguments}

/-- What is printed, from the pass on. -/
theorem printsHelp_iff {entry : ParserContext (Any V)}
    (hpass : pass b (cli.named arguments).context cli.commands (cli.unifyFirst arguments.args) =
      .ok entry) :
    cli.PrintsHelp b wrap c arguments ↔
      ∃ result, FinalState.settle b entry = .ok (.terminate, result) ∧
        ∃ context, (cli.named arguments).respond wrap result.toCommandLineContext = .ok context ∧
          c.print wrap (cli.named arguments).parent 80 = .ok context.out := by
  constructor
  · rintro ⟨context, text, ⟨result, hparses, hconclude⟩, hprint, rfl⟩
    match result with
    | .faulted fault => cases hconclude
    | .returned false result => cases hconclude
    | .returned true result =>
        obtain ⟨entry', hpass', hsettle⟩ := parses_true_iff.mp hparses
        obtain rfl : entry = entry' := by simpa [hpass] using hpass'
        refine ⟨result, hsettle, context, ?_, hprint⟩
        rw [Cli.conclude] at hconclude
        split at hconclude <;> cases hconclude
        assumption
  · rintro ⟨result, hsettle, context, hrespond, hprint⟩
    refine ⟨context, _, ⟨_, parses_true_iff.mpr ⟨entry, hpass, hsettle⟩, ?_⟩, hprint, rfl⟩
    rw [Cli.conclude, hrespond]

/-- With a value for the option `help`, the help of the active command is printed. -/
theorem respond_of_option {context : CommandLineContext (Any V)}
    (hactive : context.activeCommand = some c) (hhelp : context.ovm.hasOption "help" = true) :
    cli.respond wrap context = (do
      let text ← c.print wrap cli.parent 80
      return { context with out := context.out ++ text }) := by
  simp [Cli.respond, Cli.handleHelpCommand, hactive, hhelp]

/-- What goes through the checks with a value for the option `help` prints the help. -/
theorem printsHelp_of_hasOption {entry result : ParserContext (Any V)} {text : String}
    (hpass : pass b (cli.named arguments).context cli.commands (cli.unifyFirst arguments.args) =
      .ok entry) (hactive : entry.activeCommand = some c) (hout : entry.out = "")
    (hsettle : FinalState.settle b entry = .ok (.terminate, result))
    (hhelp : result.ovm.hasOption "help" = true)
    (hprint : c.print wrap (cli.named arguments).parent 80 = .ok text) :
    cli.PrintsHelp b wrap c arguments := by
  have hframe := FinalState.settle_frame hsettle
  have hresult : result.activeCommand = some c := by rw [hframe, hactive]
  have hout' : result.out = "" := by rw [hframe, hout]
  refine (printsHelp_iff hpass).mpr ⟨result, hsettle,
    { result.toCommandLineContext with out := result.out ++ text }, ?_, ?_⟩
  · rw [respond_of_option hresult hhelp, hprint]
    rfl
  · simpa [hout'] using hprint

/-- `Rest` arguments take every token there is, or there is none to take them. -/
theorem assigned_of_rest {args : List (ClapOption (Any V))}
    (hrest : ∀ o ∈ args, o.isPositionalRest = true) {tokens : List String} (hne : tokens ≠ []) :
    assigned args tokens =
      (lastRest args).map fun rest => tokens.map fun token => (rest, token) := by
  obtain ⟨token, tokens, rfl⟩ := List.exists_cons_of_ne_nil hne
  rw [assigned, takePositionals_of_rest hrest]
  cases lastRest args <;> rfl

/-- With `Rest` arguments only, it comes down to their value semantics and to what is stored. -/
theorem exists_settle_of_rest {entry : ParserContext (Any V)}
    (hactive : entry.activeCommand = some c)
    (hrest : ∀ o ∈ c.positionalArgs, o.isPositionalRest = true) :
    (∃ result, FinalState.settle b entry = .ok (.terminate, result)) ↔
      (entry.positionalTokens ≠ [] → ∀ rest, lastRest c.positionalArgs = some rest →
        rest.valueSemantic.isSome) ∧
      ∃ ps, assigned c.positionalArgs entry.positionalTokens = some ps ∧
        Satisfied c (entry.ovm.storeAll (ps.filterMap positionalEntry)) := by
  have hnonRest := nonRest_eq_nil_iff.mpr hrest
  rw [FinalState.exists_settle_terminate_iff hactive]
  constructor
  · rintro ⟨hfaults, ps, hps, hlacks⟩
    refine ⟨fun hne rest hlast => ?_, ps, hps, fun h => hfaults (.asks hps h), hlacks⟩
    rw [Option.isSome_iff_ne_none]
    refine fun hsem => hfaults (.rest ?_ hlast hsem)
    rw [hnonRest]
    exact List.length_pos_iff.mpr hne
  · rintro ⟨hsome, ps, hps, hasks, hlacks⟩
    refine ⟨fun hfaults => ?_, ps, hps, hlacks⟩
    cases hfaults with
    | unserved h =>
        refine h ⟨fun _ o ho => ?_, fun o ho hnot => ?_⟩
        · exact (Bool.and_eq_true_iff.mp (hrest o ho)).1
        · simp [hrest o ho] at hnot
    | runsOut h => simp [hnonRest] at h
    | rest hleft hlast hsem =>
        rw [hnonRest] at hleft
        simpa [hsem] using hsome (List.length_pos_iff.mp hleft) _ hlast
    | asks hps' h =>
        obtain rfl := Option.some.inj (hps.symm.trans hps')
        exact hasks h

/-- Without positional tokens, only `Rest` arguments get along. -/
theorem exists_settle_of_nil {entry : ParserContext (Any V)}
    (hactive : entry.activeCommand = some c) (hpos : entry.positionalTokens = []) :
    (∃ result, FinalState.settle b entry = .ok (.terminate, result)) ↔
      (∀ o ∈ c.positionalArgs, o.isPositionalRest = true) ∧ Satisfied c entry.ovm := by
  by_cases hrest : ∀ o ∈ c.positionalArgs, o.isPositionalRest = true
  · have hassigned : assigned c.positionalArgs [] = some [] := by
      simp [assigned, takePositionals_of_rest hrest]
    rw [exists_settle_of_rest hactive hrest, hpos, hassigned]
    simpa using fun _ => hrest
  · refine iff_of_false (fun h => ?_) fun h => hrest h.1
    obtain ⟨hfaults, -⟩ := (FinalState.exists_settle_terminate_iff hactive).mp h
    refine hrest (nonRest_eq_nil_iff.mp ?_)
    by_contra hne
    exact hfaults (.runsOut (by rw [hpos]; exact List.length_pos_iff.mpr hne))

/-- A single token goes to the last `Rest` argument. -/
theorem exists_settle_of_singleton {entry : ParserContext (Any V)} {token : String}
    (hactive : entry.activeCommand = some c) (hovm : entry.ovm = ∅)
    (hrest : ∀ o ∈ c.positionalArgs, o.isPositionalRest = true)
    (hpos : entry.positionalTokens = [token]) :
    (∃ result, FinalState.settle b entry = .ok (.terminate, result)) ↔
      ∃ rest, lastRest c.positionalArgs = some rest ∧ rest.valueSemantic.isSome ∧
        Satisfied c ((∅ : OptionValuesMap (Any V)).storeAll
          ([(rest, token)].filterMap positionalEntry)) := by
  rw [exists_settle_of_rest hactive hrest, hpos,
    assigned_of_rest hrest (List.cons_ne_nil token []), hovm]
  constructor
  · rintro ⟨hsome, ps, hps, hsatisfied⟩
    obtain ⟨rest, hlast, rfl⟩ := Option.map_eq_some_iff.mp hps
    exact ⟨rest, hlast, hsome (List.cons_ne_nil token []) rest hlast, hsatisfied⟩
  · rintro ⟨rest, hlast, hsem, hsatisfied⟩
    refine ⟨fun _ rest' hlast' => ?_, [(rest, token)], by rw [hlast]; rfl, hsatisfied⟩
    obtain rfl := Option.some.inj (hlast.symm.trans hlast')
    exact hsem

/-- What the positional arguments are given is no value for the option `help`: that comes from
a default. -/
theorem hasOption_help_iff {entry result : ParserContext (Any V)}
    (hactive : entry.activeCommand = some c) (hovm : entry.ovm = ∅)
    (hrest : ∀ o ∈ c.positionalArgs, o.isPositionalRest = true)
    (hsettle : FinalState.settle b entry = .ok (.terminate, result)) :
    result.ovm.hasOption "help" = true ↔ (firstDefault c.options "help").isSome := by
  obtain ⟨c', ps, hactive', hassigned, -, hvalues, -⟩ := FinalState.settle_terminate hsettle
  obtain rfl := Option.some.inj (hactive.symm.trans hactive')
  have hkey : ∀ o ∈ c.positionalArgs, o.key ≠ "help" := by
    intro o ho hkey
    have := (Bool.and_eq_true_iff.mp (hrest o ho)).2
    simp [hkey, ClapOption.keyRest] at this
  have hgiven : (entry.ovm.storeAll (ps.filterMap positionalEntry)).values "help" = [] := by
    rw [values_storeAll_positionalEntry fun p hp => hkey p.1 (mem_of_assigned hassigned p hp), hovm,
      Multimap.values_empty]
  have hdefault : firstDefault c.positionalArgs "help" = none := by
    rw [firstDefault, List.filter_eq_nil_iff.mpr fun o ho => by simpa using hkey o ho]
    rfl
  rw [OptionValuesMap.hasOption_iff, hvalues, hgiven, firstDefault_append, hdefault,
    Option.or_none, ne_eq, orDefault_eq_nil, Option.isSome_iff_ne_none]
  simp

/-- The command `help` stores its tokens, whatever they are. -/
theorem settle_help {entry : ParserContext (Any V)} {name : String}
    (hoptions : c.options = [helpOption name]) (hargs : c.positionalArgs = [Cli.segments])
    (hactive : entry.activeCommand = some c) (hovm : entry.ovm = ∅)
    (htokens : entry.positionalTokens ≠ []) :
    ∃ result, FinalState.settle b entry = .ok (.terminate, result) ∧
      result.ovm.hasOption "help" = false ∧
      result.ovm.valuesOf? ClapOption.keyRest =
        some (entry.positionalTokens.map fun token => ⟨.text token, token, true⟩) := by
  have hrestOnly : ∀ o ∈ c.positionalArgs, o.isPositionalRest = true := by
    rw [hargs]
    exact List.forall_mem_singleton.mpr rfl
  have hassigned : assigned c.positionalArgs entry.positionalTokens =
      some (entry.positionalTokens.map fun token => (Cli.segments, token)) := by
    rw [assigned_of_rest hrestOnly htokens, hargs]
    rfl
  have hmem : ∀ o ∈ c.options ++ c.positionalArgs, o = helpOption name ∨ o = Cli.segments := by
    simp [hoptions, hargs]
  have hsatisfied : ∀ ovm, Satisfied c ovm := by
    refine fun ovm => .of_forall fun o ho => ?_
    rcases hmem o ho with rfl | rfl <;> exact ⟨rfl, rfl⟩
  obtain ⟨result, hsettle⟩ := (exists_settle_of_rest (b := b) hactive hrestOnly).mpr
    ⟨fun _ rest hlast => by rw [hargs] at hlast; cases hlast; rfl, _, hassigned, hsatisfied _⟩
  obtain ⟨c', ps, hactive', hassigned', -, hvalues, -⟩ := FinalState.settle_terminate hsettle
  obtain rfl := Option.some.inj (hactive.symm.trans hactive')
  obtain rfl := Option.some.inj (hassigned.symm.trans hassigned')
  have hentries : (entry.positionalTokens.map fun token =>
        ((Cli.segments : ClapOption (Any V)), token)).filterMap positionalEntry =
      entry.positionalTokens.map fun token =>
        (ClapOption.keyRest, (⟨.text token, token, true⟩ : OptionValue (Any V))) := by
    rw [List.filterMap_map]
    exact congrFun List.filterMap_eq_map entry.positionalTokens
  have hdefault : ∀ k, firstDefault (c.options ++ c.positionalArgs) k = none := by
    refine firstDefault_eq_none fun o ho => ?_
    rcases hmem o ho with rfl | rfl <;> rfl
  have hstored : result.ovm.values ClapOption.keyRest =
      entry.positionalTokens.map fun token => ⟨.text token, token, true⟩ := by
    rw [hvalues, hdefault, orDefault_none, hentries, hovm, Multimap.values_storeAll,
      Multimap.values_empty, List.nil_append]
    simp [List.filter_map, Function.comp_def]
  refine ⟨result, hsettle, ?_, ?_⟩
  · rw [Bool.eq_false_iff, ne_eq, hasOption_help_iff hactive hovm hrestOnly hsettle, hoptions]
    exact Bool.false_ne_true
  · have hcontains : result.ovm.contains ClapOption.keyRest = true := by
      rw [Multimap.contains_iff, hstored]
      simpa using htokens
    rw [OptionValuesMap.valuesOf?, if_pos hcontains, hstored]

/-- The tokens are the texts that were stored for them. -/
theorem mapM_text? (tokens : List String) :
    (tokens.map fun token => (⟨.text token, token, true⟩ : OptionValue (Any V))).mapM
      (fun value => value.value.text?) = some tokens := by
  induction tokens with
  | nil => rfl
  | cons token tokens ih =>
      rw [List.map_cons, List.mapM_cons, ih]
      rfl

/-- What the command `help` answers to a path. -/
def Cli.answer (wrap : Wrapping) (cli : Cli V) (commandPath : List String)
    (context : CommandLineContext (Any V)) : Except Fault (CommandLineContext (Any V)) :=
  match cli.commands.find? fun command => command.path = commandPath with
  | some command => do
      let text ← command.print wrap cli.parent 80
      return { context with out := context.out ++ text }
  | none =>
      .ok { context with
        err := context.err ++ "The path `" ++ " ".intercalate commandPath ++
          "` does not correspond to a known command.\n"
        out := context.out ++ cli.tryHelp ++ "\n" }

/-- The command `help` answers to the tokens it is given. -/
theorem respond_of_help {context : CommandLineContext (Any V)} {tokens : List String}
    (hactive : context.activeCommand = some c) (hpath : c.path = [Command.help])
    (hoption : context.ovm.hasOption "help" = false)
    (hrest : context.ovm.valuesOf? ClapOption.keyRest =
      some (tokens.map fun token => ⟨.text token, token, true⟩)) :
    cli.respond wrap context = cli.answer wrap tokens context := by
  have hname : c.pathAsString = "help" := by simp [Command.pathAsString, hpath, Command.help]
  cases hfind : cli.commands.find? fun command => command.path = tokens <;>
    simp only [Cli.answer, hfind, Cli.respond, Cli.handleHelpCommand, hactive, deref_some, ok_bind,
      hname, true_or, if_true, hoption, Bool.false_eq_true, if_false, hrest, mapM_text?, pure_eq_ok]

/-- What begins with `help help` is neither `help` nor `version`. -/
theorem pathAsString_ne (h : [Command.help, Command.help] <+: c.path) :
    c.pathAsString ≠ "help" ∧ c.pathAsString ≠ "version" := by
  obtain ⟨rest, hrest⟩ := h
  have hname : c.pathAsString = "help" ++ " " ++ " ".intercalate ("help" :: rest) := by
    rw [Command.pathAsString, ← hrest]
    exact String.intercalate_cons_cons
  constructor <;> intro heq <;> have := congrArg String.toList (hname.symm.trans heq)
  · simp at this
  · simp at this

end

/-! ## The CLI -/

namespace Addressed

variable {calls : List (Call V)} {cli : Cli V} {c : Command (Any V)}

/-- The commands of the CLI are the commands of the builder, upgraded. -/
theorem source (h : Addressed calls cli c) {c' : Command (Any V)} :
    c' ∈ cli.commands ↔
      ∃ c₀ ∈ (calls.foldl call {}).commands, finished (calls.foldl call {}) c₀ = c' := by
  obtain ⟨-, hcli⟩ := build_ok h.helpCommand h.built
  rw [hcli]
  exact List.mem_map

theorem hasHelpCommand (h : Addressed calls cli c) : cli.hasHelpCommand = true := by
  obtain ⟨-, rfl⟩ := build_ok h.helpCommand h.built
  exact ((built_foldl calls).help h.helpCommand).1

theorem activeCommand (h : Addressed calls cli c) : cli.activeCommand = none := by
  obtain ⟨-, rfl⟩ := build_ok h.helpCommand h.built
  exact (built_foldl calls).activeCommand

theorem ovm (h : Addressed calls cli c) : cli.ovm = ∅ := by
  obtain ⟨-, rfl⟩ := build_ok h.helpCommand h.built
  exact (built_foldl calls).ovm

/-- The command has the option `help` in front of its own. -/
theorem options (h : Addressed calls cli c) :
    ∃ programName options, c.options = helpOption programName :: options := by
  obtain ⟨c₀, -, rfl⟩ := h.source.mp h.mem
  have hnot : c₀.isDefault = false := isDefault_finished ▸ h.not_default
  have hhelp := ((built_foldl calls).help h.helpCommand).1
  exact ⟨_, _, by rw [finished_of_not_isDefault hhelp hnot]⟩

/-- The CLI has a command `help`. -/
theorem exists_help (h : Addressed calls cli c) :
    ∃ c' ∈ cli.commands, c'.path = [Command.help] := by
  obtain ⟨-, programName, hmem⟩ := (built_foldl calls).help h.helpCommand
  exact ⟨_, h.source.mpr ⟨_, hmem, rfl⟩, path_finished⟩

/-- What is at the path of the command `help` is this command. -/
theorem help_of_path (h : Addressed calls cli c) {c' : Command (Any V)} (hmem : c' ∈ cli.commands)
    (hpath : c'.path = [Command.help]) :
    ∃ programName, c'.options = [helpOption programName] ∧ c'.positionalArgs = [Cli.segments] := by
  have hbuilt := built_foldl calls
  obtain ⟨hhas, programName, hhelp⟩ := hbuilt.help h.helpCommand
  have hfinished : ∀ name, finished (calls.foldl call {}) (Cli.helpCommand name) =
      { Cli.helpCommand name with
      options := [helpOption (calls.foldl call {}).programName]
      optionsInGroups := [false]
      hasParentCli := true } :=
    fun name => finished_of_not_isDefault hhas rfl
  suffices hsource : ∃ name, c' = finished (calls.foldl call {}) (Cli.helpCommand name) by
    obtain ⟨name, rfl⟩ := hsource
    exact ⟨(calls.foldl call {}).programName, by rw [hfinished], by rw [hfinished]; rfl⟩
  obtain ⟨c₀, hmem₀, rfl⟩ := h.source.mp hmem
  rw [path_finished] at hpath
  obtain huser | rfl | ⟨name, rfl⟩ := hbuilt.commands c₀ hmem₀
  · -- only the command itself may be a command of the user's there, and then it is not alone
    by_cases hsame : c₀.path = c.path
    · have hunique := h.unique _ hmem (path_finished.trans hsame)
      have hhelp' := h.unique _ (h.source.mpr ⟨_, hhelp, rfl⟩)
        (path_finished.trans (hpath.symm.trans hsame))
      exact ⟨programName, hunique.trans hhelp'.symm⟩
    · exact absurd (by rw [hpath]; rfl) (h.others c₀ huser hsame)
  · simp [Cli.versionCommand, Command.version, Command.help] at hpath
  · exact ⟨name, rfl⟩

/-- Nothing else begins with `help`. -/
theorem path_of_head (h : Addressed calls cli c) {c' : Command (Any V)} (hmem : c' ∈ cli.commands)
    (hhead : c'.path.head? = some Command.help) : c'.path = [Command.help] ∨ c' = c := by
  obtain ⟨c₀, hmem₀, rfl⟩ := h.source.mp hmem
  by_cases hsame : c₀.path = c.path
  · exact .inr (h.unique _ hmem (path_finished.trans hsame))
  · rw [path_finished] at hhead ⊢
    obtain huser | rfl | ⟨name, rfl⟩ := (built_foldl calls).commands c₀ hmem₀
    · exact absurd hhead (h.others c₀ huser hsame)
    · simp [Cli.versionCommand, Command.version, Command.help] at hhead
    · exact .inl rfl

/-! ### Lines -/

/-- A value is none of the options that stand for a command. -/
theorem unifyFirst_of_value {s : String} (h : tokenize s = [(.value, s)]) (args : List String) :
    cli.unifyFirst (s :: args) = s :: args := by
  have hne : ∀ {other : String}, tokenize other ≠ [(.value, other)] → s ≠ other := by
    rintro other hother rfl
    exact hother h
  have h₁ : s ≠ Command.versionShort := hne (by decide)
  have h₂ : s ≠ Command.versionLong := hne (by decide)
  have h₃ : s ≠ Command.helpShort := hne (by decide)
  have h₄ : s ≠ Command.helpLong := hne (by decide)
  simp [Cli.unifyFirst, h₁, h₂, h₃, h₄]

/-- Nothing is active or stored when the line begins. -/
theorem initial_eq (h : Addressed calls cli c) (arguments : Arguments) :
    ∃ activeCommand, initial (cli.named arguments).context cli.commands =
      { programName := (cli.named arguments).programName, commands := cli.commands,
        activeCommand } := by
  obtain ⟨activeCommand, hinitial⟩ :=
    Parser.initial_eq (cli.named arguments).context cli.commands
  refine ⟨activeCommand, hinitial.trans ?_⟩
  simp [ParserContext.new, Cli.context, Cli.named, h.ovm]

/-- The path of the command leads to it. -/
theorem longest_path (h : Addressed calls cli c) :
    longest Command.path cli.commands c.path = some c := by
  refine longest_eq_some.mpr ⟨List.prefix_rfl, fun x _ hx => hx.length_le, ?_⟩
  cases hlast : lastAt Command.path cli.commands c.path with
  | none => exact absurd rfl (lastAt_eq_none.mp hlast c h.mem)
  | some c' =>
      obtain ⟨hpath, before, after, hsplit, -⟩ := lastAt_eq_some.mp hlast
      rw [h.unique c' (by simp [hsplit]) hpath]

/-- With the option behind the path, the pass ends with the command and the option. -/
theorem pass_option (h : Addressed calls cli c) {arguments : Arguments} {arg name : String}
    {token : Token} (hargs : arguments.args = c.path ++ [arg]) (harg : tokenize arg = [token])
    (hresolve : c.resolve token = some (helpOption name)) :
    ∃ entry, pass b (cli.named arguments).context cli.commands (cli.unifyFirst arguments.args) =
        .ok entry ∧
      entry.activeCommand = some c ∧ entry.ovm = helpGiven ∧ entry.positionalTokens = [] ∧
      entry.out = "" := by
  have hvalue : token.1 ≠ .value := by
    intro hvalue
    obtain ⟨text, rfl⟩ := Token.exists_text hvalue
    cases hresolve
  have hunify : cli.unifyFirst arguments.args = c.path ++ [arg] := by
    obtain ⟨segment, path, hpath⟩ := List.exists_cons_of_ne_nil c.path_ne_nil
    rw [hargs, hpath]
    exact unifyFirst_of_value (h.segments segment (by simp [hpath])) _
  have hdelivered : delivered (c.path ++ [arg]) = c.path.map (Prod.mk .value) ++ [token] := by
    have hne : arg ≠ "" := by
      rintro rfl
      rw [(tokenize_eq_nil_iff "").mpr rfl] at harg
      cases harg
    rw [delivered_values_append h.segments, delivered_cons hne, harg]
    rfl
  obtain ⟨activeCommand, hinitial⟩ := h.initial_eq arguments
  have hleading : leadingValues (c.path.map (Prod.mk .value) ++ [token]) = c.path :=
    leadingValues_values_append hvalue c.path []
  have hlong : longest Command.path cli.commands
      (leadingValues (c.path.map (Prod.mk .value) ++ [token])) = some c := by
    rw [hleading, h.longest_path]
  rw [Parser.pass, hunify, hdelivered, ← initial, hinitial, scan_start_of_longest hlong, probed,
    hleading, probe_path h.mem, List.drop_left' (by simp)]
  exact scan_ready_option rfl hresolve rfl rfl

/-- **The option**: it shows the help of a command whose own checks have nothing to ask. -/
theorem printsHelp_option (h : Addressed calls cli c) {arguments : Arguments} {arg name : String}
    {token : Token} (hargs : arguments.args = c.path ++ [arg]) (harg : tokenize arg = [token])
    (hresolve : c.resolve token = some (helpOption name)) :
    cli.PrintsHelp b wrap c arguments ↔
      ((∀ o ∈ c.positionalArgs, o.isPositionalRest = true) ∧ Satisfied c helpGiven) ∧
        ∃ text, c.print wrap (cli.named arguments).parent 80 = .ok text := by
  obtain ⟨entry, hpass, hactive, hovm, hpos, hout⟩ :=
    h.pass_option (b := b) hargs harg hresolve
  rw [printsHelp_iff hpass, ← hovm, ← exists_settle_of_nil (b := b) hactive hpos]
  constructor
  · rintro ⟨result, hsettle, context, -, hprint⟩
    exact ⟨⟨result, hsettle⟩, _, hprint⟩
  · rintro ⟨⟨result, hsettle⟩, text, hprint⟩
    obtain ⟨c', ps, -, -, -, hvalues, -⟩ := FinalState.settle_terminate hsettle
    have hhelp : result.ovm.hasOption "help" = true := by
      rw [OptionValuesMap.hasOption_iff, hvalues]
      intro hnil
      have hgiven := (orDefault_eq_nil.mp hnil).1
      rw [Multimap.values_storeAll, hovm, List.append_eq_nil_iff] at hgiven
      cases hgiven.1
    have hprints := printsHelp_of_hasOption hpass hactive hout hsettle hhelp hprint
    exact (printsHelp_iff hpass).mp hprints

/-! ### The command help -/

/-- The pass over the line with `help` in front of the path, which consists of values. -/
theorem pass_help (h : Addressed calls cli c) {arguments : Arguments} {a : Command (Any V)}
    (hargs : arguments.args = Command.help :: c.path)
    (hlong : longest Command.path cli.commands (Command.help :: c.path) = some a) :
    ∃ entry, pass b (cli.named arguments).context cli.commands (cli.unifyFirst arguments.args) =
        .ok entry ∧
      entry.activeCommand = some a ∧ entry.ovm = ∅ ∧
      entry.positionalTokens = (Command.help :: c.path).drop
        (probe Command.path cli.commands (Command.help :: c.path)).length ∧
      entry.out = "" := by
  have hvalues : ∀ s ∈ Command.help :: c.path, tokenize s = [(.value, s)] :=
    List.forall_mem_cons.mpr ⟨by decide, h.segments⟩
  have hdelivered : delivered (Command.help :: c.path) =
      (Command.help :: c.path).map (Prod.mk .value) := by
    simpa using delivered_values_append hvalues []
  obtain ⟨activeCommand, hinitial⟩ := h.initial_eq arguments
  have hlong' : longest Command.path cli.commands
      (leadingValues ((Command.help :: c.path).map (Prod.mk .value))) = some a := by
    rw [leadingValues_values, hlong]
  rw [Parser.pass, hargs, unifyFirst_of_value (by decide), hdelivered, ← initial, hinitial,
    scan_start_of_longest hlong', probed, leadingValues_values, ← List.map_drop,
    scan_ready_values]
  exact ⟨_, rfl, rfl, rfl, rfl, rfl⟩

/-- What goes on like the beginning of the line, with `help` in front, is `help`. -/
theorem eq_of_cons_eq_concat {α : Type} {a t : α} {q : List α} (h : a :: q = q ++ [t]) :
    t = a ∧ ∀ s ∈ q, s = a := by
  induction q with
  | nil => simpa using h.symm
  | cons s q ih =>
      rw [List.cons_append, List.cons.injEq] at h
      obtain ⟨rfl, h⟩ := h
      obtain ⟨ht, hq⟩ := ih h
      exact ⟨ht, List.forall_mem_cons.mpr ⟨rfl, hq⟩⟩

/-- A command that the line could name is at `help` or is the command itself. -/
theorem path_of_typed (h : Addressed calls cli c) {x : Command (Any V)} {typed rest : List String}
    (hx : x ∈ cli.commands) (htyped : typed ≠ []) (hline : typed <+: Command.help :: rest)
    (hpre : typed <+: x.path) : x.path = [Command.help] ∨ x = c := by
  refine h.path_of_head hx ?_
  obtain ⟨s, typed, rfl⟩ := List.exists_cons_of_ne_nil htyped
  obtain ⟨others, hothers⟩ := hline
  obtain ⟨others', hothers'⟩ := hpre
  rw [List.cons_append, List.cons.injEq] at hothers
  rw [← hothers', List.cons_append, List.head?_cons, hothers.1]

/-- The command `help` is found if no path goes further. -/
theorem longest_help (h : Addressed calls cli c)
    (hnot : c.path <+: Command.help :: c.path → c.path = [Command.help]) :
    ∃ a ∈ cli.commands, a.path = [Command.help] ∧
      longest Command.path cli.commands (Command.help :: c.path) = some a := by
  obtain ⟨a₀, ha₀, hpath₀⟩ := h.exists_help
  cases hlast : lastAt Command.path cli.commands [Command.help] with
  | none => exact absurd hpath₀ (lastAt_eq_none.mp hlast a₀ ha₀)
  | some a =>
      obtain ⟨hpath, before, after, hsplit, -⟩ := lastAt_eq_some.mp hlast
      refine ⟨a, by simp [hsplit], hpath, longest_eq_some.mpr ⟨?_, fun x hx hpre => ?_, ?_⟩⟩
      · rw [hpath]
        exact ⟨c.path, rfl⟩
      · rw [hpath]
        obtain hx | rfl := h.path_of_typed hx x.path_ne_nil hpre List.prefix_rfl
        · rw [hx]
        · rw [hnot hpre]
      · rw [hpath, hlast]

/-- What is left for the command that the line selects, the probed values taken off. -/
def helpTokens (cli : Cli V) (c : Command (Any V)) : List String :=
  (Command.help :: c.path).drop
    (probe Command.path cli.commands (Command.help :: c.path)).length

/-- A path that is the beginning of its own line repeats `help`. -/
theorem eq_help_of_repeats (h : c.path <+: Command.help :: c.path) :
    ∀ s ∈ c.path, s = Command.help := by
  obtain ⟨others, hothers⟩ := h
  have hlen := congrArg List.length hothers
  rw [List.length_append, List.length_cons, Nat.add_left_cancel_iff] at hlen
  obtain ⟨t, rfl⟩ := List.length_eq_one_iff.mp hlen
  exact (eq_of_cons_eq_concat hothers.symm).2

theorem prefix_of_eq_help (h : ∀ s ∈ c.path, s = Command.help) :
    c.path <+: Command.help :: c.path := by
  rw [List.eq_replicate_of_mem h, ← List.replicate_succ, List.replicate_succ']
  exact List.prefix_append _ _

/-- The command `help` is probed in any case. -/
theorem help_prefix_probe (h : Addressed calls cli c) :
    [Command.help] <+: probe Command.path cli.commands (Command.help :: c.path) := by
  obtain ⟨a, ha, hpath⟩ := h.exists_help
  refine (prefix_probe_iff (List.prefix_append [_] c.path) (List.cons_ne_nil _ _)).mpr ?_
  exact List.ne_nil_of_mem (mem_candidates.mpr ⟨ha, by rw [hpath]⟩)

/-- A beginning of the line that the path goes on from is probed. -/
theorem prefix_probe_of_path (h : Addressed calls cli c) {p : List String}
    (hline : p <+: Command.help :: c.path) (hne : p ≠ []) (hpath : p <+: c.path) :
    p <+: probe Command.path cli.commands (Command.help :: c.path) :=
  (prefix_probe_iff hline hne).mpr (List.ne_nil_of_mem (mem_candidates.mpr ⟨h.mem, hpath⟩))

/-- Where more than the first `help` is probed, it is for the command, whose path repeats
`help` that far. -/
theorem path_of_probe (h : Addressed calls cli c)
    (hlong : 1 < (probe Command.path cli.commands (Command.help :: c.path)).length) :
    ∃ rest, c.path = probe Command.path cli.commands (Command.help :: c.path) ++ rest ∧
      (∀ s ∈ probe Command.path cli.commands (Command.help :: c.path), s = Command.help) ∧
      helpTokens cli c = Command.help :: rest := by
  have hprobed : ∀ {p : List String}, p <+: Command.help :: c.path → p ≠ [] →
      (p <+: probe Command.path cli.commands (Command.help :: c.path) ↔
        candidates Command.path cli.commands p ≠ []) := prefix_probe_iff
  have hline : probe Command.path cli.commands (Command.help :: c.path) <+:
    Command.help :: c.path := probe_isPrefix_line _
  rw [helpTokens]
  generalize probe Command.path cli.commands (Command.help :: c.path) = q at hprobed hline hlong ⊢
  have hne : q ≠ [] := List.ne_nil_of_length_pos (by omega)
  -- only the path of the command goes further than `help`
  obtain ⟨x, hx⟩ := List.exists_mem_of_ne_nil _ ((hprobed hline hne).mp List.prefix_rfl)
  obtain ⟨hx, hpre⟩ := mem_candidates.mp hx
  obtain rfl : x = c := by
    refine (h.path_of_typed hx hne hline hpre).resolve_left fun hpath => ?_
    have := hpre.length_le
    rw [hpath, List.length_singleton] at this
    omega
  obtain ⟨rest, hrest⟩ := hpre
  -- the line is the path shifted by one, and both begin with `q`
  obtain ⟨t, ht⟩ : ∃ t, Command.help :: q = q ++ [t] := by
    obtain ⟨others, hothers⟩ := hline
    rw [← hrest, ← List.cons_append] at hothers
    have hpre : q <+: Command.help :: q :=
      List.prefix_of_prefix_length_le ⟨others, hothers⟩ (List.prefix_append _ _) (by simp)
    obtain ⟨others, hothers⟩ := hpre
    have hlen := congrArg List.length hothers
    rw [List.length_append, List.length_cons, Nat.add_left_cancel_iff] at hlen
    obtain ⟨t, rfl⟩ := List.length_eq_one_iff.mp hlen
    exact ⟨t, hothers.symm⟩
  obtain ⟨rfl, hall⟩ := eq_of_cons_eq_concat ht
  refine ⟨rest, hrest.symm, hall, ?_⟩
  rw [← hrest, ← List.cons_append, ht, List.append_assoc, List.drop_left]
  rfl

/-- A path that goes on from what is probed is not the beginning of the line. -/
theorem not_prefix_of_probe (h : Addressed calls cli c) {rest : List String} (hrest : rest ≠ [])
    (hpath : c.path = probe Command.path cli.commands (Command.help :: c.path) ++ rest) :
    ¬ c.path <+: Command.help :: c.path := by
  intro hpre
  have hlen := (h.prefix_probe_of_path hpre c.path_ne_nil List.prefix_rfl).length_le
  have hlen' := congrArg List.length hpath
  rw [List.length_append] at hlen'
  exact hrest (List.length_eq_zero_iff.mp (by omega))

/-- A path whose first two segments repeat `help` begins with `help help`. -/
theorem help_help_prefix {p rest : List String} (hlong : 1 < p.length)
    (hall : ∀ s ∈ p, s = Command.help) : [Command.help, Command.help] <+: p ++ rest := by
  match p, hlong with
  | s :: s' :: p, _ =>
      refine ⟨p ++ rest, ?_⟩
      rw [hall s (by simp), hall s' (by simp)]
      rfl

/-- Where only the first `help` is probed, the command `help` gets the path. -/
theorem line_of_one_probed (h : Addressed calls cli c)
    (hlen : 1 = (probe Command.path cli.commands (Command.help :: c.path)).length) :
    ¬ [Command.help, Command.help] <+: c.path ∧ helpTokens cli c = c.path ∧
      ∃ a ∈ cli.commands, a.path = [Command.help] ∧
        longest Command.path cli.commands (Command.help :: c.path) = some a := by
  have hnot : ¬ [Command.help, Command.help] <+: c.path := by
    intro hpre
    have hline : [Command.help, Command.help] <+: Command.help :: c.path := by
      obtain ⟨rest, hrest⟩ := hpre
      exact ⟨Command.help :: rest, by rw [← hrest]; rfl⟩
    have := (h.prefix_probe_of_path hline (List.cons_ne_nil _ _) hpre).length_le
    simp [← hlen] at this
  refine ⟨hnot, by rw [helpTokens, ← hlen]; rfl, h.longest_help fun hpre => ?_⟩
  have hall := eq_help_of_repeats hpre
  match hpath : c.path, c.path_ne_nil with
  | [s], _ => rw [hall s (by simp [hpath])]
  | s :: s' :: rest, _ =>
      refine absurd ?_ hnot
      rw [hpath, ← List.append_nil (s :: s' :: rest)]
      exact help_help_prefix (by simp) (hpath ▸ hall)

/-- A path that only repeats `help` selects its command. -/
theorem longest_of_eq_help (h : Addressed calls cli c) (hall : ∀ s ∈ c.path, s = Command.help) :
    longest Command.path cli.commands (Command.help :: c.path) = some c := by
  refine longest_eq_some.mpr ⟨prefix_of_eq_help hall, fun y hy hpre => ?_,
    (longest_eq_some.mp h.longest_path).2.2⟩
  obtain hy | rfl := h.path_of_typed hy y.path_ne_nil hpre List.prefix_rfl
  · rw [hy]
    exact List.length_pos_iff.mpr c.path_ne_nil
  · exact Nat.le_refl _

/-- Without what is probed, the path is that of no command. -/
theorem path_ne_of_probe (h : Addressed calls cli c) {rest : List String} (hrest : rest ≠ [])
    (hlong : 1 < (probe Command.path cli.commands (Command.help :: c.path)).length)
    (hpath : c.path = probe Command.path cli.commands (Command.help :: c.path) ++ rest) :
    ∀ c' ∈ cli.commands, c'.path ≠ Command.help :: rest := by
  intro y hy hy'
  obtain hone | rfl := h.path_of_head hy (by rw [hy']; rfl)
  · rw [hy', List.cons.injEq] at hone
    exact hrest hone.2
  · have := congrArg List.length (hpath.symm.trans hy')
    rw [List.length_append, List.length_cons] at this
    omega

/-- The line selects the command `help` and leaves it the path, unless the path begins with
`help help`: then the first `help` of the path is taken for the command, and the line is one
token short of the path, or selects the command itself. -/
theorem line_cases (h : Addressed calls cli c) :
    (¬ [Command.help, Command.help] <+: c.path ∧ helpTokens cli c = c.path ∧
      ∃ a ∈ cli.commands, a.path = [Command.help] ∧
        longest Command.path cli.commands (Command.help :: c.path) = some a) ∨
    [Command.help, Command.help] <+: c.path ∧
      ((∀ s ∈ c.path, s = Command.help) ∧ helpTokens cli c = [Command.help] ∧
        longest Command.path cli.commands (Command.help :: c.path) = some c ∨
      (¬ ∀ s ∈ c.path, s = Command.help) ∧ helpTokens cli c ≠ [] ∧
        (∀ c' ∈ cli.commands, c'.path ≠ helpTokens cli c) ∧
        ∃ a ∈ cli.commands, a.path = [Command.help] ∧
          longest Command.path cli.commands (Command.help :: c.path) = some a) := by
  have hfirst := h.help_prefix_probe.length_le
  rw [List.length_singleton] at hfirst
  obtain hlen | hlen := Nat.eq_or_lt_of_le hfirst
  · exact .inl (h.line_of_one_probed hlen)
  · right
    obtain ⟨rest, hpath, hall, htokens⟩ := h.path_of_probe hlen
    refine ⟨by rw [hpath]; exact help_help_prefix hlen hall, ?_⟩
    by_cases hrest : rest = []
    · -- all of the path is probed, so it repeats `help`
      subst hrest
      rw [List.append_nil] at hpath
      have hall : ∀ s ∈ c.path, s = Command.help := by
        rw [hpath]
        exact hall
      exact .inl ⟨hall, htokens, h.longest_of_eq_help hall⟩
    · have hnot := h.not_prefix_of_probe hrest hpath
      refine .inr ⟨fun hall => hnot (prefix_of_eq_help hall), by simp [htokens], ?_,
        h.longest_help fun hpre => absurd hpre hnot⟩
      rw [htokens]
      exact h.path_ne_of_probe hrest hlen hpath

/-- A help text is neither nothing nor the hint where to look for more help. -/
theorem print_ne {text : String} {parent : ParentCli} (cli : Cli V)
    (h : c.print wrap parent 80 = .ok text) :
    text ≠ "" ∧ text ≠ "" ++ cli.tryHelp ++ "\n" := by
  obtain ⟨rest, rfl⟩ := Command.exists_eq_append_of_print h
  constructor <;> intro heq <;> have := congrArg String.toList heq
  · simp at this
  · simp [Cli.tryHelp] at this

/-- The command `help` answers to what the line leaves it. -/
theorem respond_help (h : Addressed calls cli c) {arguments : Arguments} {a : Command (Any V)}
    (hargs : arguments.args = Command.help :: c.path) (ha : a ∈ cli.commands)
    (hpath : a.path = [Command.help]) (hne : helpTokens cli c ≠ [])
    (hlong : longest Command.path cli.commands (Command.help :: c.path) = some a) :
    ∃ entry result,
      pass b (cli.named arguments).context cli.commands (cli.unifyFirst arguments.args) =
        .ok entry ∧
      FinalState.settle b entry = .ok (.terminate, result) ∧ result.out = "" ∧
      (cli.named arguments).respond wrap result.toCommandLineContext =
        (cli.named arguments).answer wrap (helpTokens cli c) result.toCommandLineContext := by
  obtain ⟨entry, hpass, hactive, hovm, hpos, hout⟩ := h.pass_help (b := b) hargs hlong
  replace hpos : entry.positionalTokens = helpTokens cli c := hpos
  obtain ⟨name, hoptions, hpositional⟩ := h.help_of_path ha hpath
  obtain ⟨result, hsettle, hoption, hvalues⟩ := settle_help (b := b) hoptions hpositional hactive
    hovm (by rw [hpos]; exact hne)
  have hframe := FinalState.settle_frame hsettle
  have hresult : result.activeCommand = some a := by rw [hframe, hactive]
  have hout' : result.out = "" := by rw [hframe, hout]
  refine ⟨entry, result, hpass, hsettle, hout', ?_⟩
  rw [respond_of_help hresult hpath hoption hvalues, hpos]

/-- The command is what is found at its path. -/
theorem find_path (h : Addressed calls cli c) :
    cli.commands.find? (fun command => command.path = c.path) = some c := by
  cases hfind : cli.commands.find? (fun command => command.path = c.path) with
  | none => simpa using List.find?_eq_none.mp hfind c h.mem
  | some c' =>
      rw [h.unique c' (List.mem_of_find?_eq_some hfind) (by simpa using List.find?_some hfind)]

/-- The command itself, with the last `help` for a positional argument, shows its help if it
finds a value for the option `help`. -/
theorem printsHelp_itself (h : Addressed calls cli c) {arguments : Arguments} {text : String}
    (hargs : arguments.args = Command.help :: c.path)
    (hrest : ∀ o ∈ c.positionalArgs, o.isPositionalRest = true)
    (hprint : c.print wrap (cli.named arguments).parent 80 = .ok text)
    (hpre : [Command.help, Command.help] <+: c.path) (hall : ∀ s ∈ c.path, s = Command.help)
    (htokens : helpTokens cli c = [Command.help])
    (hlong : longest Command.path cli.commands (Command.help :: c.path) = some c) :
    cli.PrintsHelp b wrap c arguments ↔ AnswersHelp c := by
  obtain ⟨entry, hpass, hactive, hovm, hpos, hout⟩ := h.pass_help (b := b) hargs hlong
  replace hpos : entry.positionalTokens = [Command.help] := hpos.trans htokens
  have hsettles := exists_settle_of_singleton (b := b) hactive hovm hrest hpos
  constructor
  · intro hprints
    obtain ⟨result, hsettle, context, hrespond, hprint'⟩ := (printsHelp_iff hpass).mp hprints
    refine ⟨hall, hsettles.mp ⟨result, hsettle⟩, ?_⟩
    rw [← hasOption_help_iff hactive hovm hrest hsettle]
    by_contra hoption
    have hframe := FinalState.settle_frame hsettle
    have hresult : result.activeCommand = some c := by rw [hframe, hactive]
    have hout' : result.out = "" := by rw [hframe, hout]
    obtain ⟨hne, hne'⟩ := pathAsString_ne hpre
    have hnothing : (cli.named arguments).respond wrap result.toCommandLineContext =
        .ok result.toCommandLineContext := by
      simp [Cli.respond, hresult, hne, hne', hoption]
    obtain rfl := Except.ok.inj (hnothing.symm.trans hrespond)
    exact (print_ne cli hprint').1 hout'
  · rintro ⟨-, hsettle, hdefault⟩
    obtain ⟨result, hsettle⟩ := hsettles.mpr hsettle
    exact printsHelp_of_hasOption hpass hactive hout hsettle
      ((hasOption_help_iff hactive hovm hrest hsettle).mpr hdefault) hprint

/-- **The command**: it shows the help of any other command, unless that is at a path which
begins with `help help`. -/
theorem printsHelp_command (h : Addressed calls cli c) {arguments : Arguments}
    (hargs : arguments.args = Command.help :: c.path)
    (hrest : ∀ o ∈ c.positionalArgs, o.isPositionalRest = true)
    (hprint : ∃ text, c.print wrap (cli.named arguments).parent 80 = .ok text) :
    cli.PrintsHelp b wrap c arguments ↔
      ([Command.help, Command.help] <+: c.path → AnswersHelp c) := by
  obtain ⟨text, hprint⟩ := hprint
  rcases h.line_cases with ⟨hnot, htokens, a, ha, hpath, hlong⟩ |
    ⟨hpre, ⟨hall, htokens, hlong⟩ | ⟨hall, hne, hnone, a, ha, hpath, hlong⟩⟩
  · -- the path is left for the command `help`, which finds the command there
    refine iff_of_true ?_ fun hpre => absurd hpre hnot
    obtain ⟨entry, result, hpass, hsettle, hout, hrespond⟩ := h.respond_help (b := b)
       hargs ha hpath (by rw [htokens]; exact c.path_ne_nil) hlong
    refine (printsHelp_iff hpass).mpr ⟨result, hsettle,
      { result.toCommandLineContext with out := result.out ++ text }, ?_, ?_⟩
    · rw [hrespond, Cli.answer, htokens, Cli.named, h.find_path]
      simp only [Cli.named] at hprint
      simp only [hprint, ok_bind, pure_eq_ok]
    · simpa [hout] using hprint
  · rw [h.printsHelp_itself hargs hrest hprint hpre hall htokens hlong]
    simp [hpre]
  · -- the command `help` gets a path with one `help` less, where nothing is
    refine iff_of_false (fun hprints => ?_) fun hanswers => hall (hanswers hpre).path
    obtain ⟨entry, result, hpass, hsettle, hout, hrespond⟩ :=
      h.respond_help (b := b) hargs ha hpath hne hlong
    obtain ⟨result', hsettle', context, hrespond', hprint'⟩ := (printsHelp_iff hpass).mp hprints
    obtain rfl : result = result' := by simpa using hsettle.symm.trans hsettle'
    have hfind : (cli.named arguments).commands.find?
        (fun command => command.path = helpTokens cli c) = none := by
      simpa [Cli.named, List.find?_eq_none] using hnone
    rw [hrespond, Cli.answer, hfind] at hrespond'
    cases hrespond'
    exact (print_ne (cli.named arguments) hprint').2 (by rw [hout])

/-! ### Both ways -/

/-- The options for help are those of the added option. -/
theorem resolve_help (h : Addressed calls cli c) :
    ∃ name, c.resolve (.longOption, "help") = some (helpOption name) ∧
      c.resolve (.shortOption, "h") = some (helpOption name) := by
  obtain ⟨name, options, hoptions⟩ := h.options
  refine ⟨name, ?_, ?_⟩
  · simp [Command.resolve, Command.findLongOption, hoptions, helpOption]
  · simp [Command.resolve, Command.findShortOption, hoptions, helpOption]

/-- A command other than the default one prints itself if its options have value semantics. -/
theorem exists_print_iff (h : Addressed calls cli c)
    (hrest : ∀ o ∈ c.positionalArgs, o.isPositionalRest = true) (parent : ParentCli) :
    (∃ text, c.print wrap parent 80 = .ok text) ↔ ∀ o ∈ c.options, o.valueSemantic.isSome := by
  obtain ⟨c₀, -, rfl⟩ := h.source.mp h.mem
  rw [Command.exists_print_iff]
  refine ⟨fun hprint => hprint.1.1, fun hsem => ⟨⟨hsem, fun o ho hnot => ?_⟩, fun _ => rfl⟩⟩
  simp [hrest o ho] at hnot

end Addressed

/-- Help works for a command exactly if its own checks have nothing to ask when only `--help`
is given, and its path does not begin with `help help` (or ends up at a `help` by default). -/
theorem helpWorks_iff {calls : List (Call V)} {cli : Cli V} {c : Command (Any V)}
    (h : Addressed calls cli c) (programName : String) (programName_ne : programName ≠ "") :
    cli.HelpWorks b wrap c programName programName_ne ↔ ShowsHelp c := by
  obtain ⟨name, hlong, hshort⟩ := h.resolve_help
  constructor
  · rintro ⟨hlongOption, -, hcommand⟩
    obtain ⟨⟨hrest, hsatisfied⟩, hprint⟩ :=
      (h.printsHelp_option rfl (by decide) hlong).mp hlongOption
    have hsem := (h.exists_print_iff hrest _).mp hprint
    exact ⟨hsem, hrest, hsatisfied,
      (h.printsHelp_command rfl hrest ((h.exists_print_iff hrest _).mpr hsem)).mp hcommand⟩
  · rintro ⟨hsem, hrest, hsatisfied, hanswers⟩
    have hprint : ∀ parent, ∃ text, c.print wrap parent 80 = .ok text :=
      fun parent => (h.exists_print_iff hrest parent).mpr hsem
    exact {
      longOption := (h.printsHelp_option rfl (by decide) hlong).mpr
        ⟨⟨hrest, hsatisfied⟩, hprint _⟩
      shortOption := (h.printsHelp_option rfl (by decide) hshort).mpr
        ⟨⟨hrest, hsatisfied⟩, hprint _⟩
      command := (h.printsHelp_command rfl hrest (hprint _)).mpr hanswers }

/-! ## Files -/

/-- `list [--all] [paths…]`. -/
def listFiles : Command (Any Nat) where
  about := "List files."
  path := ["list"]
  options := [{ key := "all", longName := "all", valueSemantic := some .flag }]
  optionsInGroups := [false]
  positionalArgs := [{ key := ClapOption.keyRest, valueSemantic := some .string }]
  path_ne_nil := by decide
  path_valid := by decide

/-- `copy src`. -/
def copyFile : Command (Any Nat) where
  about := "Copy a file."
  path := ["copy"]
  positionalArgs := [{ key := "src", required := true, valueSemantic := some .string }]
  path_ne_nil := by decide
  path_valid := by decide

/-- The calls for a CLI with these commands. -/
def fileCalls : List (Call Nat) :=
  [.programName "files", .withCommand .plainDefault, .withCommand listFiles, .withCommand copyFile,
    .withHelpCommand]

/-- What the calls leave for `Build`. -/
def calledFiles : Cli Nat := fileCalls.foldl CliBuilder.call {}

def files : Cli Nat :=
  { calledFiles with commands := calledFiles.commands.map (finished calledFiles) }

theorem addressed_files {c : Command (Any Nat)} (h : c = listFiles ∨ c = copyFile) :
    Addressed fileCalls files (finished calledFiles c) where
  helpCommand := by simp [fileCalls]
  built := rfl
  mem := by
    refine List.mem_map_of_mem ?_
    rw [show calledFiles.commands = [_, listFiles, copyFile, _] from rfl]
    rcases h with rfl | rfl <;> simp
  not_default := by rcases h with rfl | rfl <;> rfl
  unique := by
    intro c' hc' hpath
    obtain ⟨c₀, hc₀, rfl⟩ := List.mem_map.mp hc'
    rw [path_finished, path_finished] at hpath
    rw [show calledFiles.commands = [_, listFiles, copyFile, _] from rfl] at hc₀
    simp only [List.mem_cons, List.not_mem_nil, or_false] at hc₀
    rcases h with rfl | rfl <;> rcases hc₀ with rfl | rfl | rfl | rfl <;>
      first | rfl | exact absurd hpath (by decide)
  segments := by
    rw [path_finished]
    rcases h with rfl | rfl <;> exact List.forall_mem_singleton.mpr (by decide)
  others := by
    intro c' hc' _
    simp only [fileCalls, List.mem_cons, Call.withCommand.injEq, reduceCtorEq, List.not_mem_nil,
      false_or, or_false] at hc'
    rcases hc' with rfl | rfl | rfl <;> decide

/-- Help works for `list`. -/
theorem helpWorks_listFiles :
    files.HelpWorks .release oneLine (finished calledFiles listFiles) "files" (by decide) := by
  have hoptions : ∀ o ∈ (finished calledFiles listFiles).options,
      o.valueSemantic.isSome ∧ o.isRequired = false :=
    List.forall_mem_cons.mpr ⟨⟨rfl, rfl⟩, List.forall_mem_singleton.mpr ⟨rfl, rfl⟩⟩
  have hargs : ∀ o ∈ (finished calledFiles listFiles).positionalArgs,
      o.isPositionalRest = true ∧ o.valueSemantic.isSome ∧ o.isRequired = false :=
    List.forall_mem_singleton.mpr ⟨rfl, rfl, rfl⟩
  have hall := List.forall_mem_append.mpr ⟨hoptions, fun o ho => (hargs o ho).2⟩
  refine (helpWorks_iff (addressed_files (.inl rfl)) "files" (by decide)).mpr
    ⟨fun o ho => (hoptions o ho).1, fun o ho => (hargs o ho).1, .of_forall hall, fun hpre => ?_⟩
  exact absurd hpre (by decide)

/-- `copy --help` reads the front of an empty vector, looking for `src`. -/
theorem not_helpWorks_copyFile :
    Addressed fileCalls files (finished calledFiles copyFile) ∧
      files.Parses .release oneLine
        { programName := "files", args := ["copy", "--help"], programName_ne := by decide }
        (.faulted .emptyVector) ∧
      ¬ files.HelpWorks .release oneLine (finished calledFiles copyFile) "files" (by decide) := by
  have haddressed := addressed_files (.inr rfl)
  refine ⟨haddressed, ⟨.faulted .emptyVector, ⟨5, rfl⟩, rfl⟩, fun h => ?_⟩
  obtain ⟨name, hlong, -⟩ := haddressed.resolve_help
  obtain ⟨⟨hrest, -⟩, -⟩ := (haddressed.printsHelp_option rfl (by decide) hlong).mp h.longOption
  exact Bool.false_ne_true (hrest _ (List.mem_singleton.mpr rfl))

end AsapClap
