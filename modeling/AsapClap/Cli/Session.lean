import AsapClap.Cli.Again
import AsapClap.Cli.Help
import AsapClap.Parser.Acceptance
import AsapClap.Parser.History

/-!
# AsapClap.Cli.Session

A CLI that is used for one command line after the other.  Nothing is cleared between them, so that
what one line has stored is with all lines behind it: it is read first, it uses up the options that
may occur once, and a single `--help` turns them all into requests for help.
-/

namespace AsapClap

open AsapClap.Parser AsapClap.Tokenizer

variable {V : Type} {b : Build} {wrap : Wrapping}

/-! ## Lines in succession -/

namespace Cli

/-- Parsing the lines one after the other, whether it returns or throws, makes one CLI another. -/
inductive Session (b : Build) (wrap : Wrapping) : Cli V → List Arguments → Cli V → Prop
  | done (cli : Cli V) : Session b wrap cli [] cli
  | line {cli next later : Cli V} {first : Arguments} {lines : List Arguments}
      (parsed : cli.ParsedTo b wrap first next) (rest : Session b wrap next lines later) :
      Session b wrap cli (first :: lines) later

/-- What a CLI has become by parsing. -/
structure Grows (cli later : Cli V) : Prop where
  settings : later =
    { cli with
      programName? := later.programName?
      activeCommand := later.activeCommand
      ovm := later.ovm }
  programName? : cli.programName?.isSome → later.programName? = cli.programName?
  activeCommand : ∀ c, later.activeCommand = some c → Known cli.context cli.commands c
  stored : ∃ es, (∀ e ∈ es, IsSupplied (Known cli.context cli.commands) e) ∧
    later.ovm = cli.ovm.storeAll es

/-- What is left of a CLI for the lines that are parsed behind these. -/
structure Accumulates (b : Build) (wrap : Wrapping) (cli : Cli V) (lines : List Arguments)
    (later : Cli V) : Prop where
  grows : Grows cli later
  /-- the first line names the program -/
  named : ∀ first, lines.head? = some first →
    later.programName? = (cli.named first).programName?
  /-- what was stored comes first -/
  first : ∀ arguments context k, later.Parses b wrap arguments (.returned context) →
    cli.ovm.values k <+: context.ovm.values k
  /-- an option that may occur once is used up -/
  spent : ∀ arguments context, later.Parses b wrap arguments (.returned context) →
    ∃ c, context.activeCommand = some c ∧
      ∀ token ∈ delivered (cli.unifyFirst arguments.args), ∀ o, c.resolve token = some o →
        ¬ o.IsRepeatable → cli.ovm.values o.key = []
  /-- help that was asked for once is given for ever -/
  helps : cli.ovm.hasOption "help" = true → ∀ arguments context,
    later.Parses b wrap arguments (.returned context) →
    ∃ c, context.activeCommand = some c ∧
      c.print wrap (later.named arguments).parent 80 = .ok context.out ∧ context.err = ""

/-! ## One line -/

section

variable {cli next later : Cli V} {arguments : Arguments} {context : CommandLineContext (Any V)}

theorem Grows.refl (cli : Cli V) : Grows cli cli where
  settings := rfl
  programName? := fun _ => rfl
  activeCommand := fun _ => .inr
  stored := ⟨[], by simp, rfl⟩

/-- The commands stay. -/
theorem Grows.commands (h : Grows cli later) : later.commands = cli.commands := by
  rw [h.settings]

/-- What is known later was known before. -/
theorem Grows.known (h : Grows cli next) {c : Command (Any V)}
    (hc : Known next.context next.commands c) : Known cli.context cli.commands c := by
  rw [h.commands] at hc
  obtain hmem | hactive := hc
  · exact .inl hmem
  · exact h.activeCommand c hactive

/-- Two lines after each other. -/
theorem Grows.trans (h : Grows cli next) (h' : Grows next later) : Grows cli later where
  settings := by
    rw [h'.settings, h.settings]
  programName? := by
    intro hname
    have hnext := h.programName? hname
    rw [h'.programName? (hnext ▸ hname), hnext]
  activeCommand := fun c hc => h.known (h'.activeCommand c hc)
  stored := by
    obtain ⟨es, hes, hovm⟩ := h.stored
    obtain ⟨es', hes', hovm'⟩ := h'.stored
    refine ⟨es ++ es', ?_, ?_⟩
    · intro e he
      obtain he | he := List.mem_append.mp he
      · exact hes e he
      · obtain ⟨o, ⟨c, hc, ho⟩, hkey, hsupplies⟩ := hes' e he
        exact ⟨o, ⟨c, h.known hc, ho⟩, hkey, hsupplies⟩
    · rw [hovm', hovm, Multimap.storeAll_append]

/-- The values of a key are only added to. -/
theorem Grows.values (h : Grows cli later) (k : String) :
    cli.ovm.values k <+: later.ovm.values k := by
  obtain ⟨es, -, hovm⟩ := h.stored
  rw [hovm, Multimap.values_storeAll]
  exact List.prefix_append _ _

/-- What the parser does to a CLI: it stores values that are supplied, and writes nothing where it
succeeds. -/
theorem stored_of_parses {noErrors : Bool} {result : ParserContext (Any V)}
    (h : Parser.Parses b (cli.named arguments).context cli.commands
      (cli.unifyFirst arguments.args) (.returned noErrors result)) :
    (∀ c, result.activeCommand = some c → Known cli.context cli.commands c) ∧
      (∃ es, (∀ e ∈ es, IsSupplied (Known cli.context cli.commands) e) ∧
        result.ovm = cli.ovm.storeAll es) ∧
      (noErrors = true → result.out = "" ∧ result.err = "") := by
  obtain ⟨last, hadds, hknown, -, hends⟩ := exists_last .refl h
  obtain ⟨es, hes, hstored⟩ := hadds.stored
  obtain ⟨activeCommand, hinitial⟩ := initial_eq (cli.named arguments).context cli.commands
  have hstart : (start (cli.named arguments).context cli.commands
      (cli.unifyFirst arguments.args)).data.context =
        { ParserContext.new (cli.named arguments).context cli.commands with activeCommand } :=
    hinitial
  have hlast : last.ovm = cli.ovm.storeAll es := by
    rw [hstored, hstart]
    rfl
  cases noErrors with
  | true =>
      obtain rfl : result = last := hends
      refine ⟨hknown, ⟨es, hes, hlast⟩, fun _ => ⟨?_, ?_⟩⟩
      · rw [hadds.untouched.out, hstart]
        rfl
      · rw [hadds.untouched.err, hstart]
        rfl
  | false =>
      obtain ⟨message, rfl⟩ := hends
      exact ⟨hknown, ⟨es, hes, hlast⟩, by simp⟩

/-- What a line leaves behind has grown if it has only stored what is supplied by known commands. -/
theorem grows_keeping {result : ParserContext (Any V)}
    (hactive : context.activeCommand = result.activeCommand) (hovm : context.ovm = result.ovm)
    (hknown : ∀ c, result.activeCommand = some c → Known cli.context cli.commands c)
    (hstored : ∃ es, (∀ e ∈ es, IsSupplied (Known cli.context cli.commands) e) ∧
      result.ovm = cli.ovm.storeAll es) : Grows cli (cli.keeping arguments context) where
  settings := rfl
  programName? := by
    intro hname
    obtain ⟨name, hname⟩ := Option.isSome_iff_exists.mp hname
    simp [keeping, named, hname]
  activeCommand := fun c hc => hknown c (hactive.symm.trans hc)
  stored := by
    obtain ⟨es, hes, hresult⟩ := hstored
    exact ⟨es, hes, hovm.trans hresult⟩

/-- **One line**: a CLI that has parsed has become one with more values. -/
theorem ParsedTo.grows (h : cli.ParsedTo b wrap arguments next) : Grows cli next := by
  cases h with
  | returned h =>
      obtain ⟨result, hparses, hactive, hovm⟩ := parses_returned h
      obtain ⟨hknown, hstored, -⟩ := stored_of_parses hparses
      exact grows_keeping hactive hovm hknown hstored
  | threw h =>
      obtain ⟨result, hparses, hactive, hovm⟩ := parses_threw h
      obtain ⟨hknown, hstored, -⟩ := stored_of_parses hparses
      exact grows_keeping hactive hovm hknown hstored

/-- A line takes a program name only where there is none. -/
theorem ParsedTo.programName?_eq (h : cli.ParsedTo b wrap arguments next) :
    next.programName? = (cli.named arguments).programName? := by
  cases h <;> rfl

/-- A line that is parsed with success names no option that has a value and may occur once. -/
theorem unnamed_of_parses (h : cli.Parses b wrap arguments (.returned context)) :
    ∃ c, context.activeCommand = some c ∧
      ∀ token ∈ delivered (cli.unifyFirst arguments.args), ∀ o, c.resolve token = some o →
        ¬ o.IsRepeatable → cli.ovm.values o.key = [] := by
  obtain ⟨result, hparses, hactive, -⟩ := parses_returned h
  obtain ⟨c, haccepted, hresult⟩ := accepted_of_parses hparses
  refine ⟨c, hactive.trans hresult, ?_⟩
  intro token htoken o hresolve honce
  obtain ⟨before, behind, htokens⟩ := List.append_of_mem htoken
  obtain ⟨activeCommand, hinitial⟩ := initial_eq (cli.named arguments).context cli.commands
  have hplace := haccepted.inPlace before token behind htokens
  rw [hinitial] at hplace
  obtain ⟨tokenType, text⟩ := token
  cases hplace with
  | value hvalue =>
      obtain rfl : tokenType = .value := hvalue
      cases hresolve
  | equalSign hequal =>
      obtain rfl : tokenType = .equalSign := hequal
      cases hresolve
  | option resolve takes once =>
      obtain rfl := Option.some.inj (resolve.symm.trans hresolve)
      exact OptionValuesMap.hasOption_eq_false_iff.mp (Bool.eq_false_iff.mpr (once honce).1)

/-- With a value for the option `help` from an earlier line, a line prints the help of its command
and nothing else. -/
theorem helps_of_parses (hhelp : cli.ovm.hasOption "help" = true)
    (h : cli.Parses b wrap arguments (.returned context)) :
    ∃ c, context.activeCommand = some c ∧
      c.print wrap (cli.named arguments).parent 80 = .ok context.out ∧ context.err = "" := by
  obtain ⟨result, hparses, hrespond⟩ := responded_of_parses h
  obtain ⟨c, -, hactive⟩ := accepted_of_parses hparses
  obtain ⟨-, ⟨es, -, hovm⟩, hwritten⟩ := stored_of_parses hparses
  obtain ⟨hout, herr⟩ := hwritten rfl
  have hresult : result.ovm.hasOption "help" = true := by
    rw [OptionValuesMap.hasOption_iff] at hhelp ⊢
    rw [hovm, Multimap.values_storeAll]
    exact List.append_ne_nil_of_left_ne_nil hhelp _
  rw [respond_of_option hactive hresult] at hrespond
  obtain ⟨text, hprint, hcontext⟩ := bind_eq_ok.mp hrespond
  cases hcontext
  exact ⟨c, hactive, by simp [hout, hprint], herr⟩

end

/-! ## Any number of lines -/

section

variable {cli later : Cli V} {lines : List Arguments}

/-- **Any number of lines**, by induction on the session. -/
theorem Session.grows (h : Session b wrap cli lines later) : Grows cli later := by
  induction h with
  | done cli => exact .refl cli
  | line parsed rest ih => exact parsed.grows.trans ih

/-- The program name is the one in force on the first line. -/
theorem Session.programName?_eq (h : Session b wrap cli lines later) {first : Arguments}
    (hfirst : lines.head? = some first) :
    later.programName? = (cli.named first).programName? := by
  cases h with
  | done cli => cases hfirst
  | @line cli next later first' lines parsed rest =>
      obtain rfl := Option.some.inj hfirst
      have hnext := parsed.programName?_eq
      rw [rest.grows.programName? (by simp [hnext, named]), hnext]

/-- **Sessions**: whatever lines a CLI is used for, what they store is with all lines behind them:
it comes first, it uses up options, and help is given for ever. -/
theorem session_only_adds (h : Session b wrap cli lines later) : Accumulates b wrap cli lines later where
  grows := h.grows
  named := fun _ hfirst => h.programName?_eq hfirst
  first := fun _ _ k hparses => (h.grows.trans (ParsedTo.returned hparses).grows).values k
  spent := by
    intro arguments context hparses
    obtain ⟨c, hactive, hunnamed⟩ := unnamed_of_parses hparses
    have hunify : later.unifyFirst = cli.unifyFirst := by
      rw [h.grows.settings]
      rfl
    rw [hunify] at hunnamed
    refine ⟨c, hactive, fun token htoken o hresolve honce => ?_⟩
    have hnil := hunnamed token htoken o hresolve honce
    exact List.prefix_nil.mp (hnil ▸ h.grows.values o.key)
  helps := by
    intro hhelp arguments context hparses
    refine helps_of_parses ?_ hparses
    rw [OptionValuesMap.hasOption_iff] at hhelp ⊢
    exact fun hnil => hhelp (List.prefix_nil.mp (hnil ▸ h.grows.values "help"))

end

end Cli

/-! ## Twice -/

/-- The same line twice, which throws the second time. -/
theorem session_only_adds_helloBob : ∃ later,
    Cli.Session .debug oneLine helloCli [helloBob, helloBob] later ∧
      Cli.Accumulates .debug oneLine helloCli [helloBob, helloBob] later := by
  have hthrew : (helloCli.keeping helloBob helloContext).ParsedTo .debug oneLine helloBob _ :=
    .threw ⟨_, ⟨9, rfl⟩, rfl⟩
  have hsession := Cli.Session.line (.returned parses_helloBob) (.line hthrew (.done _))
  exact ⟨_, hsession, Cli.session_only_adds hsession⟩

end AsapClap
