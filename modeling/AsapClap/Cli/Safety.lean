import AsapClap.Cli.Answers
import AsapClap.Cli.Typing
import AsapClap.Parser.Safety

/-!
# AsapClap.Cli.Safety

CLIs that no command line can crash: where the commands of the user are safe for the parser and
none of them is called `help`, neither the parser nor what `Parse` answers behind it can go wrong.
A release build then answers every line, but for those with a `--` that the parser is caught by.
-/

namespace AsapClap

open CliBuilder AsapClap.Parser

variable {V : Type} {b : Build} {wrap : Wrapping}

namespace Cli

/-- `Parse` returned, or threw a `CmdLineArgumentsError`. -/
def Outcome.IsAnswer : Outcome V → Prop
  | .returned _ | .threw _ _ => True
  | .faulted _ => False

/-- `Parse` answers every command line. -/
structure AlwaysAnswers (wrap : Wrapping) (cli : Cli V) : Prop where
  /-- a release build has no other end, and none at all where a `--` is reached -/
  release : ∀ arguments : Arguments,
    (∃ outcome, cli.Parses .release wrap arguments outcome ∧ outcome.IsAnswer) ∨
      (∀ outcome, ¬ cli.Parses .release wrap arguments outcome) ∧
        ∃ before behind, cli.unifyFirst arguments.args = before ++ "--" :: behind ∧
          "" ∉ before ∧
          GetsToFinal .release (cli.named arguments).context cli.commands before
  /-- a debug build may be stopped by a contract besides -/
  debug : ∀ arguments : Arguments, ∃ outcome, cli.Parses .debug wrap arguments outcome ∧
    (outcome.IsAnswer ∨ ∃ c, outcome = .faulted (.contract c))

end Cli

/-! ## Answering -/

section

variable {cli : Cli V} {c : Command (Any V)}

/-- A safe command is printed. -/
theorem exists_print (hsafe : c.Safe) (hparent : c.hasParentCli = true) (parent : ParentCli)
    (width : Nat) : ∃ text, c.print wrap parent width = .ok text :=
  Command.exists_print_iff.mpr
    ⟨⟨fun o ho => hsafe.semantics o (List.mem_append_left _ ho),
      fun o ho hnot => by simp [hsafe.rest o ho] at hnot⟩, fun _ => hparent⟩

/-- The commands can be printed. -/
def Prints (wrap : Wrapping) (cli : Cli V) : Prop :=
  ∀ c ∈ cli.commands, ∀ parent, ∃ text, c.print wrap parent 80 = .ok text

/-- So is the default command of a `Cli` that prints. -/
theorem exists_printDefaultCommand (h : Prints wrap cli) :
    ∃ text, cli.printDefaultCommand wrap 80 = .ok text := by
  rw [Cli.printDefaultCommand]
  split
  · next command hfind => exact h command (List.mem_of_find?_eq_some hfind) cli.parent
  · exact ⟨"", rfl⟩

/-- The answer to `help` is given where the path to display help for is of texts. -/
theorem exists_handleHelpCommand {context : CommandLineContext (Any V)} (h : Prints wrap cli)
    (hactive : context.activeCommand = some c) (hmem : c ∈ cli.commands)
    (htexts : c.pathAsString = "help" →
      ∀ v ∈ context.ovm.values ClapOption.keyRest, ∃ text : String, v.value = .text text) :
    ∃ context', cli.handleHelpCommand wrap context = .ok context' := by
  rw [Cli.handleHelpCommand, hactive, deref_some, ok_bind]
  obtain ⟨text, hprint⟩ := h c hmem cli.parent
  split
  · exact ⟨_, by rw [hprint]; rfl⟩
  · split
    · next hpath =>
      obtain ⟨texts, hmapM⟩ := Cli.exists_mapM_text? (htexts hpath)
      rw [OptionValuesMap.valuesOf?]
      by_cases hcontains : context.ovm.contains ClapOption.keyRest = true
      · simp only [hcontains, if_true, hmapM]
        split
        · next command hfind =>
          obtain ⟨text', hprint'⟩ := h command (List.mem_of_find?_eq_some hfind) cli.parent
          exact ⟨_, by rw [hprint']; rfl⟩
        · exact ⟨_, rfl⟩
      · obtain ⟨text', hprint'⟩ := exists_printDefaultCommand h
        simp only [hcontains, hprint']
        exact ⟨_, rfl⟩
    · exact ⟨_, rfl⟩

/-- There is an answer to every command of a `Cli` that prints. -/
theorem exists_respond (context : CommandLineContext (Any V)) (h : Prints wrap cli)
    (hactive : context.activeCommand = some c) (hmem : c ∈ cli.commands)
    (htexts : c.pathAsString = "help" →
      ∀ v ∈ context.ovm.values ClapOption.keyRest, ∃ text : String, v.value = .text text) :
    ∃ context', cli.respond wrap context = .ok context' := by
  rw [Cli.respond, hactive, deref_some, ok_bind]
  split
  · exact exists_handleHelpCommand h hactive hmem htexts
  · split <;> exact ⟨_, rfl⟩

end

/-! ## What is built -/

section

variable {calls : List (Call V)} {cli : Cli V} {c : Command (Any V)}

/-- What `Build` adds to a command does no harm. -/
theorem safe_release {base : Cli V} (h : c.Safe) : (release base c).Safe where
  semantics := by
    rw [options_release, extends_release.positionalArgs, List.append_assoc]
    intro o ho
    obtain ho | ho := List.mem_append.mp ho
    · obtain ⟨-, -, rfl⟩ | ⟨-, rfl⟩ := mem_inserted.mp ho <;> rfl
    · exact h.semantics o ho
  rest := by
    rw [extends_release.positionalArgs]
    exact h.rest

/-- The built-in `help` is safe. -/
theorem safe_helpCommand (programName : String) :
    (Cli.helpCommand programName : Command (Any V)).Safe where
  semantics := List.forall_mem_singleton.mpr rfl
  rest := List.forall_mem_singleton.mpr rfl

/-- So is the built-in `version`. -/
theorem safe_versionCommand : (Cli.versionCommand : Command (Any V)).Safe where
  semantics := fun _ ho => absurd ho List.not_mem_nil
  rest := fun _ ho => absurd ho List.not_mem_nil

/-- Building adds safe commands only. -/
theorem safe_of_build (h : build calls = .ok cli)
    (hsafe : ∀ c, .withCommand c ∈ calls → c.Safe) : ∀ c ∈ cli.commands, c.Safe := by
  intro c hc
  obtain ⟨c₀, hmem, rfl⟩ := (mem_commands_of_build h).mp hc
  obtain huser | rfl | ⟨name, rfl⟩ := (built_foldl calls).commands c₀ hmem
  · exact safe_release (hsafe c₀ huser)
  · exact safe_release safe_versionCommand
  · exact safe_release (safe_helpCommand name)

/-- The `Rest` argument of the command `help` is given texts. -/
theorem text_of_help (h : build calls = .ok cli)
    (hname : ∀ c, .withCommand c ∈ calls → c.pathAsString ≠ "help") (hmem : c ∈ cli.commands)
    (hpath : c.pathAsString = "help") {o : ClapOption (Any V)}
    (ho : WithKey c ClapOption.keyRest o) {v : OptionValue (Any V)} (hv : o.Supplies v) :
    ∃ text : String, v.value = .text text := by
  obtain ⟨c₀, hmem₀, rfl⟩ := (mem_commands_of_build h).mp hmem
  rw [Command.pathAsString, extends_release.path, ← Command.pathAsString] at hpath
  have hne : ClapOption.keyRest ≠ "help" ∧ ClapOption.keyRest ≠ "version" := by decide
  have hinserted : ∀ o ∈ inserted (calls.foldl call {}) c₀, o.key ≠ ClapOption.keyRest := by
    intro o ho
    obtain ⟨-, -, rfl⟩ | ⟨-, rfl⟩ := mem_inserted.mp ho
    · exact hne.2.symm
    · exact hne.1.symm
  obtain huser | rfl | ⟨name, rfl⟩ := (built_foldl calls).commands c₀ hmem₀
  · exact absurd hpath (hname c₀ huser)
  · simp [Command.pathAsString, Cli.versionCommand, Command.version] at hpath
  · obtain ⟨hmem, hkey⟩ := ho
    rw [options_release, extends_release.positionalArgs, List.append_assoc] at hmem
    obtain hmem | hmem := List.mem_append.mp hmem
    · exact absurd hkey (hinserted o hmem)
    · obtain rfl : o = Cli.segments := List.mem_singleton.mp hmem
      cases hv with
      | parsed defaulted hparse => exact ⟨_, (Option.some.inj hparse).symm⟩
      | implicit himplicit => cases himplicit
      | default hdefault => cases hdefault

end

/-! ## Always an answer -/

section

variable {calls : List (Call V)} {cli : Cli V}

/-- What the parser returns is answered. -/
theorem isAnswer_of_returned (h : build calls = .ok cli)
    (hsafe : ∀ c, .withCommand c ∈ calls → c.Safe)
    (hname : ∀ c, .withCommand c ∈ calls → c.pathAsString ≠ "help") {arguments : Arguments}
    {noErrors : Bool} {result : ParserContext (Any V)}
    (hparses : Parser.Parses b (cli.named arguments).context cli.commands
      (cli.unifyFirst arguments.args) (.returned noErrors result)) :
    ∃ outcome, cli.Parses b wrap arguments outcome ∧ outcome.IsAnswer := by
  cases noErrors with
  | false => exact ⟨_, ⟨_, hparses, rfl⟩, trivial⟩
  | true =>
      have hsafe' := safe_of_build h hsafe
      have hnone : (cli.named arguments).context.activeCommand = none := by
        obtain ⟨-, rfl⟩ := (build_eq_ok_iff rfl).mp h
        exact (built_foldl calls).activeCommand
      have hempty : (cli.named arguments).context.ovm = ∅ := by
        obtain ⟨-, rfl⟩ := (build_eq_ok_iff rfl).mp h
        exact (built_foldl calls).ovm
      obtain ⟨c, hactive, hmem⟩ := activeCommand_of_parses (Q := (· ∈ cli.commands))
        (fun _ hc => hc) (fun c hc => by simp [hnone] at hc) hparses
      obtain ⟨c', hactive', hsupplied⟩ := supplied_of_parses hempty hparses
      obtain rfl := Option.some.inj (hactive.symm.trans hactive')
      have hprints : Prints wrap (cli.named arguments) := fun c hc parent =>
        exists_print (hsafe' c hc) ((established_of_build h).parent c hc) parent 80
      obtain ⟨context, hrespond⟩ := exists_respond result.toCommandLineContext
        hprints hactive hmem fun hpath v hv => by
          obtain ⟨o, ho, hsupplies⟩ := hsupplied _ v hv
          exact text_of_help h hname hmem hpath ho hsupplies
      exact ⟨.returned context, ⟨_, hparses, by rw [Cli.conclude, hrespond]⟩, trivial⟩

/-- **Always an answer**: no command line crashes a CLI whose commands are safe. -/
theorem parse_never_faults_of_safe (h : build calls = .ok cli)
    (hsafe : ∀ c, .withCommand c ∈ calls → c.Safe)
    (hname : ∀ c, .withCommand c ∈ calls → c.pathAsString ≠ "help") :
    cli.AlwaysAnswers wrap := by
  have hsafe' := safe_of_build h hsafe
  have hactive : ∀ (arguments : Arguments) (c : Command (Any V)),
      (cli.named arguments).context.activeCommand = some c → c.Safe := by
    intro arguments c hc
    obtain ⟨-, rfl⟩ := (build_eq_ok_iff rfl).mp h
    have hnone : (calls.foldl call {}).activeCommand = none := (built_foldl calls).activeCommand
    cases hnone.symm.trans hc
  constructor
  · intro arguments
    obtain ⟨noErrors, result, hparses⟩ | hdiverges :=
      returns_or_diverges hsafe' (hactive arguments) (cli.unifyFirst arguments.args)
    · exact .inl (isAnswer_of_returned h hsafe hname hparses)
    · refine .inr ⟨fun outcome houtcome => ?_, diverges_iff_doubleDash.mp hdiverges⟩
      obtain ⟨result, hparses, -⟩ := houtcome
      exact Loop.not_diverges_of_returns hparses hdiverges
  · intro arguments
    obtain ⟨noErrors, result, hparses⟩ | ⟨c, hparses⟩ :=
      returns_or_breaksContract hsafe' (hactive arguments) (cli.unifyFirst arguments.args)
    · obtain ⟨outcome, houtcome, hanswer⟩ := isAnswer_of_returned h hsafe hname hparses
      exact ⟨outcome, houtcome, .inl hanswer⟩
    · exact ⟨.faulted (.contract c), ⟨_, hparses, rfl⟩, .inr ⟨c, rfl⟩⟩

/-- The calls for a CLI that lists files. -/
def listingCalls : List (Call Nat) :=
  [.withCommand .plainDefault, .withCommand listFiles, .withHelpCommand]

def calledListing : Cli Nat := listingCalls.foldl CliBuilder.call {}

def listing : Cli Nat :=
  { calledListing with commands := calledListing.commands.map (finished calledListing) }

theorem parse_never_faults_listing : listing.AlwaysAnswers oneLine := by
  have hbuild : build listingCalls = .ok listing := rfl
  have hgiven : ∀ c, .withCommand c ∈ listingCalls → c = Command.plainDefault ∨ c = listFiles := by
    simp [listingCalls]
  refine parse_never_faults_of_safe hbuild (fun c hc => ?_) fun c hc => ?_
  · obtain rfl | rfl := hgiven c hc
    · exact ⟨fun _ ho => absurd ho List.not_mem_nil, fun _ ho => absurd ho List.not_mem_nil⟩
    · exact ⟨List.forall_mem_cons.mpr ⟨rfl, List.forall_mem_singleton.mpr rfl⟩,
        List.forall_mem_singleton.mpr rfl⟩
  · obtain rfl | rfl := hgiven c hc <;> decide

end

end AsapClap
