import AsapClap.Cli.Built
import AsapClap.Parser.Leftovers

/-!
# AsapClap.Cli.Again

`Cli::Parse` a second time.  The parser works on the `active_command_` and the `ovm_` of the
CLI itself, and nothing clears them: a CLI that has parsed once differs from one that has
not.
-/

namespace AsapClap

open CliBuilder AsapClap.Parser AsapClap.Tokenizer Relate

variable {V : Type} {b : Build} {wrap : Wrapping}

/-! ## What a parse leaves behind -/

namespace Cli

/-- The CLI after a parse that ends with this context. -/
def keeping (cli : Cli V) (arguments : Arguments) (context : CommandLineContext (Any V)) : Cli V :=
  { cli.named arguments with activeCommand := context.activeCommand, ovm := context.ovm }

/-- A parse has made the CLI to `used`, whether it returned or threw. -/
inductive ParsedTo (b : Build) (wrap : Wrapping) (cli : Cli V) (arguments : Arguments) :
    Cli V → Prop
  | returned {context : CommandLineContext (Any V)}
      (h : cli.Parses b wrap arguments (.returned context)) :
      ParsedTo b wrap cli arguments (cli.keeping arguments context)
  | threw {message : String} {context : CommandLineContext (Any V)}
      (h : cli.Parses b wrap arguments (.threw message context)) :
      ParsedTo b wrap cli arguments (cli.keeping arguments context)

/-- The same active command and the same values. -/
def SameContents (context₁ context₂ : CommandLineContext (Any V)) : Prop :=
  context₁.activeCommand = context₂.activeCommand ∧
    ∀ k, context₁.ovm.values k = context₂.ovm.values k

/-- Two parses end in the same way, with the same contents if they succeed. -/
inductive SameOutcome : Outcome V → Outcome V → Prop
  | returned {context₁ context₂ : CommandLineContext (Any V)}
      (h : SameContents context₁ context₂) : SameOutcome (.returned context₁) (.returned context₂)
  | threw (message₁ message₂ : String) (context₁ context₂ : CommandLineContext (Any V)) :
      SameOutcome (.threw message₁ context₁) (.threw message₂ context₂)
  | faulted (fault₁ fault₂ : Fault) : SameOutcome (.faulted fault₁) (.faulted fault₂)

/-- Parsing these arguments comes to the same for both CLIs. -/
def ParsesAlike (b : Build) (wrap : Wrapping) (cli₁ cli₂ : Cli V) (arguments : Arguments) : Prop :=
  (∀ outcome₁, cli₁.Parses b wrap arguments outcome₁ →
      ∃ outcome₂, cli₂.Parses b wrap arguments outcome₂ ∧ SameOutcome outcome₁ outcome₂) ∧
    ∀ outcome₂, cli₂.Parses b wrap arguments outcome₂ →
      ∃ outcome₁, cli₁.Parses b wrap arguments outcome₁ ∧ SameOutcome outcome₁ outcome₂

/-- A parse that returned or threw. -/
def Outcome.Ends : Outcome V → Prop
  | .returned _ | .threw _ _ => True
  | .faulted _ => False

/-- What the first parse has left in `used` is not read before a parse of these arguments ends. -/
def Unread (b : Build) (used cli : Cli V) (arguments : Arguments) : Prop :=
  Parser.Unread b (used.named arguments).context (cli.named arguments).context cli.commands
    (cli.unifyFirst arguments.args)

/-- There is something to reject these arguments for, with all that the CLI holds. -/
def Refuses (b : Build) (cli : Cli V) (arguments : Arguments) : Prop :=
  ∃ message, Rejected b (initial (cli.named arguments).context cli.commands)
    (delivered (cli.unifyFirst arguments.args)) message

/-- What the first parse has left makes no difference to these arguments: they do not get to it,
or there is something to reject them for, with it and without it. -/
def Indifferent (b : Build) (used cli : Cli V) (arguments : Arguments) : Prop :=
  Unread b used cli arguments ∨ used.Refuses b arguments ∧ cli.Refuses b arguments

/-! ## Responses -/

section

variable {cli cli₁ cli₂ : Cli V} {context context' context₁ context₂ : CommandLineContext (Any V)}

theorem print_agree (parent₁ parent₂ : ParentCli) (width : Nat) (c : Command (Any V)) :
    Agree (fun _ _ => True) (fun _ _ => True) (c.print wrap parent₁ width)
      (c.print wrap parent₂ width) :=
  .of_exists_iff (Command.exists_print_iff.trans Command.exists_print_iff.symm)

/-- `HandleHelpCommand` comes through for both CLIs or for none. -/
theorem handleHelpCommand_agree (hcommands : cli₁.commands = cli₂.commands)
    (h : SameContents context₁ context₂) :
    Agree (fun _ _ => True) (fun _ _ => True) (cli₁.handleHelpCommand wrap context₁)
      (cli₂.handleHelpCommand wrap context₂) := by
  obtain ⟨hactive, hvalues⟩ := h
  have hhas : ∀ k, context₁.ovm.hasOption k = context₂.ovm.hasOption k :=
    fun k => contains_congr (hvalues k)
  have hvaluesOf : ∀ k, context₁.ovm.valuesOf? k = context₂.ovm.valuesOf? k := fun k => by
    rw [OptionValuesMap.valuesOf?, OptionValuesMap.valuesOf?, contains_congr (hvalues k),
      hvalues]
  have hprint : ∀ (c : Command (Any V)) (f₁ f₂ : String → CommandLineContext (Any V)),
      Agree (fun _ _ => True) (fun _ _ => True)
        (c.print wrap cli₁.parent 80 >>= fun text => return f₁ text)
        (c.print wrap cli₂.parent 80 >>= fun text => return f₂ text) :=
    fun c f₁ f₂ => (print_agree cli₁.parent cli₂.parent 80 c).bind fun _ _ _ _ _ => .ok trivial
  rw [handleHelpCommand, handleHelpCommand, hactive, hhas, hvaluesOf, hcommands]
  refine Agree.bind_same (fun _ => trivial) _ fun c _ => ?_
  split
  · exact hprint c _ _
  · split
    · cases context₂.ovm.valuesOf? ClapOption.keyRest with
      | none =>
          rw [printDefaultCommand, printDefaultCommand, hcommands]
          cases cli₂.commands.find? Command.isDefault with
          | none => exact .ok trivial
          | some d => exact hprint d _ _
      | some values =>
          simp only
          cases values.mapM fun value => value.value.text? with
          | none => exact .error trivial
          | some commandPath =>
              simp only
              cases cli₂.commands.find? fun command => command.path = commandPath with
              | none => exact .ok trivial
              | some c => exact hprint c _ _
    · exact .ok trivial

theorem respond_agree (hcommands : cli₁.commands = cli₂.commands)
    (h : SameContents context₁ context₂) :
    Agree (fun _ _ => True) (fun _ _ => True) (cli₁.respond wrap context₁)
      (cli₂.respond wrap context₂) := by
  have hhas : context₁.ovm.hasOption "help" = context₂.ovm.hasOption "help" :=
    contains_congr (h.2 "help")
  rw [respond, respond, h.1, hhas]
  refine Agree.bind_same (fun _ => trivial) _ fun c _ => ?_
  split
  · exact handleHelpCommand_agree hcommands h
  · split
    · exact .ok trivial
    · exact .ok trivial

theorem handleHelpCommand_ok (h : cli.handleHelpCommand wrap context = .ok context') :
    context'.activeCommand = context.activeCommand ∧ context'.ovm = context.ovm := by
  obtain ⟨c, -, h⟩ := bind_eq_ok.mp h
  split at h
  · obtain ⟨text, -, h⟩ := bind_eq_ok.mp h
    cases h
    exact ⟨rfl, rfl⟩
  · split at h
    · split at h
      · split at h
        · cases h
        · split at h
          · obtain ⟨text, -, h⟩ := bind_eq_ok.mp h
            cases h
            exact ⟨rfl, rfl⟩
          · cases h
            exact ⟨rfl, rfl⟩
      · obtain ⟨text, -, h⟩ := bind_eq_ok.mp h
        cases h
        exact ⟨rfl, rfl⟩
    · cases h
      exact ⟨rfl, rfl⟩

/-- What is left to do leaves the contents as they are. -/
theorem respond_ok (h : cli.respond wrap context = .ok context') :
    context'.activeCommand = context.activeCommand ∧ context'.ovm = context.ovm := by
  obtain ⟨c, -, h⟩ := bind_eq_ok.mp h
  split at h
  · exact handleHelpCommand_ok h
  · split at h <;> cases h <;> exact ⟨rfl, rfl⟩

/-- Results that are the same are concluded in the same way. -/
theorem conclude_agree {result₁ result₂ : Result (Any V)}
    (hcommands : cli₁.commands = cli₂.commands)
    (h : SameResult (fun noErrors c₁ c₂ => noErrors = true → Parser.SameContents c₁ c₂) result₁
      result₂) : SameOutcome (cli₁.conclude wrap result₁) (cli₂.conclude wrap result₂) := by
  cases h with
  | faulted fault => exact .faulted fault fault
  | @returned noErrors c₁ c₂ h =>
      cases noErrors with
      | false => exact .threw _ _ _ _
      | true =>
          have hsame : SameContents c₁.toCommandLineContext c₂.toCommandLineContext := h rfl
          have hrespond : Agree (fun _ _ => True) (fun _ _ => True)
              (cli₁.respond wrap c₁.toCommandLineContext)
              (cli₂.respond wrap c₂.toCommandLineContext) := respond_agree hcommands hsame
          rw [conclude, conclude]
          cases hrespond₁ : cli₁.respond wrap c₁.toCommandLineContext with
          | ok context₁ =>
              cases hrespond₂ : cli₂.respond wrap c₂.toCommandLineContext with
              | ok context₂ =>
                  obtain ⟨hactive₁, hovm₁⟩ := respond_ok hrespond₁
                  obtain ⟨hactive₂, hovm₂⟩ := respond_ok hrespond₂
                  refine .returned ⟨by rw [hactive₁, hactive₂, hsame.1], fun k => ?_⟩
                  rw [hovm₁, hovm₂]
                  exact hsame.2 k
              | error fault =>
                  rw [hrespond₁, hrespond₂] at hrespond
                  cases hrespond
          | error fault₁ =>
              cases hrespond₂ : cli₂.respond wrap c₂.toCommandLineContext with
              | ok context₂ =>
                  rw [hrespond₁, hrespond₂] at hrespond
                  cases hrespond
              | error fault₂ => exact .faulted fault₁ fault₂

theorem parses_unique {arguments : Arguments} {outcome₁ outcome₂ : Outcome V}
    (h₁ : cli.Parses b wrap arguments outcome₁) (h₂ : cli.Parses b wrap arguments outcome₂) :
    outcome₁ = outcome₂ := by
  obtain ⟨result₁, hparses₁, rfl⟩ := h₁
  obtain ⟨result₂, hparses₂, rfl⟩ := h₂
  rw [Loop.returns_unique hparses₁ hparses₂]

/-- What a parse returns is the answer to what the parser has found. -/
theorem responded_of_parses {arguments : Arguments}
    (h : cli.Parses b wrap arguments (.returned context)) :
    ∃ result, Parser.Parses b (cli.named arguments).context cli.commands
        (cli.unifyFirst arguments.args) (.returned true result) ∧
      (cli.named arguments).respond wrap result.toCommandLineContext = .ok context := by
  obtain ⟨result, hparses, hconclude⟩ := h
  cases result with
  | faulted fault => cases hconclude
  | returned noErrors result =>
      cases noErrors with
      | false => cases hconclude
      | true =>
          rw [conclude] at hconclude
          split at hconclude
          · next hrespond =>
            cases hconclude
            exact ⟨result, hparses, hrespond⟩
          · cases hconclude

/-- A parse of the CLI that returns is one of the parser that succeeds, with the same
contents. -/
theorem parses_returned {arguments : Arguments}
    (h : cli.Parses b wrap arguments (.returned context)) :
    ∃ result, Parser.Parses b (cli.named arguments).context cli.commands
        (cli.unifyFirst arguments.args) (.returned true result) ∧
      context.activeCommand = result.activeCommand ∧ context.ovm = result.ovm := by
  obtain ⟨result, hparses, hrespond⟩ := responded_of_parses h
  exact ⟨result, hparses, respond_ok hrespond⟩

/-- A parse of the CLI that throws is one of the parser that fails, with the same contents. -/
theorem parses_threw {arguments : Arguments} {message : String}
    (h : cli.Parses b wrap arguments (.threw message context)) :
    ∃ result, Parser.Parses b (cli.named arguments).context cli.commands
        (cli.unifyFirst arguments.args) (.returned false result) ∧
      context.activeCommand = result.activeCommand ∧ context.ovm = result.ovm := by
  obtain ⟨result, hparses, hconclude⟩ := h
  cases result with
  | faulted fault => cases hconclude
  | returned noErrors result =>
      cases noErrors with
      | true =>
          rw [conclude] at hconclude
          split at hconclude <;> cases hconclude
      | false =>
          cases hconclude
          exact ⟨result, hparses, rfl, rfl⟩

/-- A parse throws where there is something to reject the arguments for. -/
theorem exists_threw_iff {arguments : Arguments} :
    (∃ message context, cli.Parses b wrap arguments (.threw message context)) ↔
      cli.Refuses b arguments := by
  rw [Refuses, ← exists_parses_false_iff]
  constructor
  · rintro ⟨message, context, hthrew⟩
    obtain ⟨result, hparses, -⟩ := parses_threw hthrew
    exact ⟨result, hparses⟩
  · rintro ⟨result, hparses⟩
    exact ⟨_, _, _, hparses, rfl⟩

end

/-! ## The second parse -/

section

variable {calls : List (Call V)} {cli used : Cli V} {first : Arguments}

/-- A parse changes neither the commands of a CLI nor what it does with the first argument. -/
theorem ParsedTo.frame (h : cli.ParsedTo b wrap first used) :
    used.commands = cli.commands ∧ used.unifyFirst = cli.unifyFirst := by
  cases h <;> exact ⟨rfl, rfl⟩

theorem parsesAlike_of_unread {arguments : Arguments} (hbuild : build calls = .ok cli)
    (hused : cli.ParsedTo b wrap first used) (h : Unread b used cli arguments) :
    ParsesAlike b wrap used cli arguments := by
  have hactive : (cli.named arguments).context.activeCommand = none := (fresh_of_build hbuild).1
  have hovm : (cli.named arguments).context.ovm = ∅ := (fresh_of_build hbuild).2
  obtain ⟨hcommands, hunify⟩ := hused.frame
  have hallow : (used.named arguments).context.allowLongOptionValueWithNoEqual =
    (cli.named arguments).context.allowLongOptionValueWithNoEqual := rfl
  obtain ⟨hforth, hback⟩ := runsAlike_of_unread hallow hactive hovm h
  constructor
  · rintro _ ⟨result₁, hparses₁, rfl⟩
    rw [hcommands, hunify] at hparses₁
    obtain ⟨result₂, hparses₂, hsame⟩ := hforth result₁ hparses₁
    exact ⟨_, ⟨result₂, hparses₂, rfl⟩, conclude_agree hcommands hsame⟩
  · rintro _ ⟨result₂, hparses₂, rfl⟩
    obtain ⟨result₁, hparses₁, hsame⟩ := hback result₂ hparses₂
    refine ⟨_, ⟨result₁, ?_, rfl⟩, conclude_agree hcommands hsame⟩
    rw [hcommands, hunify]
    exact hparses₁

/-- Two CLIs that refuse the same arguments throw for them. -/
theorem parsesAlike_of_refuses {cli₁ cli₂ : Cli V} {arguments : Arguments}
    (h₁ : cli₁.Refuses b arguments) (h₂ : cli₂.Refuses b arguments) :
    ParsesAlike b wrap cli₁ cli₂ arguments := by
  have hthrows : ∀ {cli : Cli V}, cli.Refuses b arguments →
      ∃ message context, cli.Parses b wrap arguments (.threw message context) :=
    exists_threw_iff.mpr
  obtain ⟨message₁, context₁, hthrew₁⟩ := hthrows h₁
  obtain ⟨message₂, context₂, hthrew₂⟩ := hthrows h₂
  constructor
  · intro outcome hparses
    rw [parses_unique hparses hthrew₁]
    exact ⟨_, hthrew₂, .threw _ _ _ _⟩
  · intro outcome hparses
    rw [parses_unique hparses hthrew₂]
    exact ⟨_, hthrew₁, .threw _ _ _ _⟩

/-- A second parse that returns what a CLI just built returns has read nothing of what is left. -/
theorem unread_of_parsesAlike {arguments : Arguments} {context : CommandLineContext (Any V)}
    (hbuild : build calls = .ok cli) (hused : cli.ParsedTo b wrap first used)
    (hparses : cli.Parses b wrap arguments (.returned context))
    (h : ParsesAlike b wrap used cli arguments) : Unread b used cli arguments := by
  have hactive : (cli.named arguments).context.activeCommand = none := (fresh_of_build hbuild).1
  have hovm : (cli.named arguments).context.ovm = ∅ := (fresh_of_build hbuild).2
  obtain ⟨hcommands, hunify⟩ := hused.frame
  obtain ⟨outcome₁, hparses₁, hsame⟩ := h.2 _ hparses
  cases hsame with
  | @returned context₁ _ hsame =>
      obtain ⟨result₁, hparses₁, hactive₁, hovm₁⟩ := parses_returned hparses₁
      obtain ⟨result₂, hparses₂, hactive₂, hovm₂⟩ := parses_returned hparses
      rw [hcommands, hunify] at hparses₁
      refine unread_of_sameContents hactive hovm hparses₁ hparses₂ ⟨?_, fun k => ?_⟩
      · rw [← hactive₁, ← hactive₂, hsame.1]
      · rw [← hovm₁, ← hovm₂, hsame.2]

/-- **A second parse** of a CLI comes to the same as a parse of a CLI just built if what the first
has left makes no difference to it; and where the latter returns or throws, only then. -/
theorem parses_again {arguments : Arguments} (hbuild : build calls = .ok cli)
    (hused : cli.ParsedTo b wrap first used) :
    (Indifferent b used cli arguments → ParsesAlike b wrap used cli arguments) ∧
      ∀ outcome, cli.Parses b wrap arguments outcome → outcome.Ends →
        (ParsesAlike b wrap used cli arguments ↔ Indifferent b used cli arguments) := by
  have halike : Indifferent b used cli arguments → ParsesAlike b wrap used cli arguments := by
    rintro (hunread | ⟨hrefuses, hrefuses'⟩)
    · exact parsesAlike_of_unread hbuild hused hunread
    · exact parsesAlike_of_refuses hrefuses hrefuses'
  refine ⟨halike, fun outcome hparses hends => ⟨fun h => ?_, halike⟩⟩
  cases outcome with
  | returned context => exact .inl (unread_of_parsesAlike hbuild hused hparses h)
  | threw message context =>
      obtain ⟨outcome₁, hparses₁, hsame⟩ := h.2 _ hparses
      cases hsame with
      | threw => exact .inr ⟨exists_threw_iff.mp ⟨_, _, hparses₁⟩,
          exists_threw_iff.mp ⟨_, _, hparses⟩⟩
  | faulted fault => exact hends.elim

end

end Cli

/-- `hello [--name <text>]` -/
def hello : Command (Any Unit) where
  path := ["hello"]
  options := [{ key := "name", longName := "name", valueSemantic := some .string }]
  path_ne_nil := by decide
  path_valid := by decide

/-- A CLI with this command. -/
def helloCli : Cli Unit := { commands := [{ hello with hasParentCli := true }] }

/-- `prog hello --name=bob` -/
def helloBob : Arguments := ⟨"prog", ["hello", "--name=bob"], by decide⟩

/-- What it is parsed to. -/
def helloContext : CommandLineContext (Any Unit) where
  programName := "prog"
  activeCommand := some { hello with hasParentCli := true }
  ovm := (∅ : OptionValuesMap (Any Unit)).storeValue "name" ⟨.text "bob", "bob", false⟩

theorem parses_helloBob : helloCli.Parses .debug oneLine helloBob (.returned helloContext) :=
  ⟨_, ⟨9, rfl⟩, rfl⟩

/-- `prog hello --oops` -/
def helloOops : Arguments := ⟨"prog", ["hello", "--oops"], by decide⟩

/-- What is left when it is rejected. -/
def oopsContext : CommandLineContext (Any Unit) where
  programName := "prog"
  err := "prog: while parsing command 'hello', '--oops' is not a recognized option.\n"
  activeCommand := some { hello with hasParentCli := true }

theorem parses_helloOops : ∃ message,
    helloCli.Parses .debug oneLine helloOops (.threw message oopsContext) :=
  ⟨_, _, ⟨9, rfl⟩, rfl⟩

/-- `--oops` is rejected before `--name` is looked at; and a parse that it ends leaves no value
behind. -/
theorem parses_again_hello :
    Cli.ParsesAlike .debug oneLine (helloCli.keeping helloBob helloContext) helloCli helloOops ∧
      Cli.ParsesAlike .debug oneLine (helloCli.keeping helloOops oopsContext) helloCli helloBob := by
  have hbuild : build [.withCommand hello] = .ok helloCli := rfl
  constructor
  · refine (Cli.parses_again hbuild (.returned parses_helloBob)).1 (.inl ⟨.inr (.inr (by decide)),
      ?_, ?_⟩)
    · intro c hc front name behind hsplit _ o ho
      obtain rfl : { hello with hasParentCli := true } = c := Option.some.inj hc
      have hnone : ∀ t ∈ delivered helloOops.args,
          ({ hello with hasParentCli := true } : Command (Any Unit)).resolve t = none := by
        decide
      have hmem : name ∈ delivered helloOops.args := by
        have hline : delivered helloOops.args = front ++ name :: behind := hsplit
        simp [hline]
      rw [hnone name hmem] at ho
      cases ho
    · intro c ps hc _ hinPlace
      obtain rfl : { hello with hasParentCli := true } = c := Option.some.inj hc
      obtain h | h | ⟨⟨o, ho, -⟩, -⟩ := hinPlace [(.value, "hello")] (.longOption, "oops") [] rfl
      · cases h
      · cases h
  · obtain ⟨message, hthrew⟩ := parses_helloOops
    refine (Cli.parses_again hbuild (.threw hthrew)).1 (.inl ⟨.inr (.inr (by decide)),
      ?_, ?_⟩)
    · exact fun _ _ _ _ _ _ _ _ _ => rfl
    · exact fun _ _ _ _ _ _ _ _ => Or.inl rfl

/-- The same command line a second time: the option has a value already. -/
theorem not_parses_again_helloBob :
    (∃ calls : List (Call Unit), build calls = .ok helloCli) ∧
      helloCli.ParsedTo .debug oneLine helloBob (helloCli.keeping helloBob helloContext) ∧
      helloCli.Parses .debug oneLine helloBob (.returned helloContext) ∧
      (∃ message context, (helloCli.keeping helloBob helloContext).Parses .debug oneLine helloBob
        (.threw message context)) ∧
      ¬ Cli.ParsesAlike .debug oneLine (helloCli.keeping helloBob helloContext) helloCli
        helloBob := by
  have hthrew : ∃ message context, (helloCli.keeping helloBob helloContext).Parses .debug oneLine
      helloBob (.threw message context) := ⟨_, _, _, ⟨9, rfl⟩, rfl⟩
  refine ⟨⟨[.withCommand hello], rfl⟩, .returned parses_helloBob, parses_helloBob, hthrew,
    fun h => ?_⟩
  obtain ⟨message, context, hthrew⟩ := hthrew
  obtain ⟨outcome, hparses, hsame⟩ := h.1 _ hthrew
  cases hsame with
  | threw => cases Cli.parses_unique hparses parses_helloBob

end AsapClap
