import AsapClap.Fluent
import AsapClap.Parser.Names
import AsapClap.Parser.Selection
import AsapClap.Print

/-!
# AsapClap.Parser.Nulls

Null pointers: the value semantics of an option that was built without `WithValue`, and the
parent of a command outside a CLI.  The synopsis asks all of them except those of a `Rest`
argument, so what is left for a parse is `FinalState` asking that one.
-/

namespace AsapClap

variable {V : Type}

/-- What `Print` asks of a command is there. -/
structure Command.Describable (c : Command V) : Prop where
  options : ∀ o ∈ c.options, o.valueSemantic.isSome
  positionalArgs : ∀ o ∈ c.positionalArgs, o.isPositionalRest = false → o.valueSemantic.isSome
  parent : c.pathAsString = Command.default → c.hasParentCli = true

namespace Parser

/-- No parse dereferences null, and no command does that is printed; `PrintOptions` asks for
nothing that may be absent. -/
structure NeverNull (b : Build) (commands : List (Command V)) : Prop where
  parses : ∀ context args, (∀ c, context.activeCommand = some c → c ∈ commands) →
    ¬ Parses b context commands args (.faulted .nullPointer)
  synopsis : ∀ c ∈ commands, ∀ parent, c.printSynopsis parent ≠ .error .nullPointer
  prints : ∀ c ∈ commands, ∀ wrap parent width,
    c.print wrap parent width ≠ .error .nullPointer

/-- `FinalState` dereferences the value semantics that a `Rest` argument has not got. -/
inductive AsksRest (b : Build) (command : Command V) (context : ParserContext V) : Prop
  /-- to parse a token that is left; a debug build objects before that -/
  | parse {option : ClapOption V} (hb : b = .release)
      (hleft : (nonRest command.positionalArgs).length < context.positionalTokens.length)
      (hrest : lastRest command.positionalArgs = some option) (hsem : option.valueSemantic = none)
  /-- for its default -/
  | default {ps : List (ClapOption V × String)}
      (hpositional : b = .debug → ∀ o ∈ command.positionalArgs, o.isPositional = true)
      (hassigned : assigned command.positionalArgs context.positionalTokens = some ps)
      (hrest : (nonRest command.positionalArgs).length < context.positionalTokens.length →
        ∀ o, lastRest command.positionalArgs = some o → o.valueSemantic.isSome)
      (h : AsksNull (command.options ++ command.positionalArgs)
        (context.ovm.storeAll (ps.filterMap positionalEntry)))

/-! ## Printing -/

theorem describable_of_neverNull {b : Build} {commands : List (Command V)}
    (h : NeverNull b commands) : ∀ c ∈ commands, c.Describable := by
  intro c hc
  have hprint : ∃ text, c.print oneLine ⟨"", ""⟩ 80 = .ok text := by
    cases htext : c.print oneLine ⟨"", ""⟩ 80 with
    | ok text => exact ⟨text, rfl⟩
    | error fault =>
        have hnull := Command.print_eq_error htext
        exact absurd (hnull ▸ htext) (h.prints c hc oneLine ⟨"", ""⟩ 80)
  obtain ⟨⟨hoptions, hpositional⟩, hparent⟩ := Command.exists_print_iff.mp hprint
  exact ⟨hoptions, hpositional, hparent⟩

/-! ## The end of a parse -/

namespace FinalState

/-- Of what may be missing in the loop over the positional arguments, a describable command only
misses the semantics of `Rest`. -/
theorem isMissing_eq_nullPointer_iff {b : Build} {context : ParserContext V}
    {command : Command V} {fault : Fault} (hdescribable : command.Describable)
    (hmissing : IsMissing b fault)
    (hwhy : b = .debug ∧ (∃ o ∈ command.positionalArgs, o.isPositional = false) ∨
      (∃ o ∈ (nonRest command.positionalArgs).take context.positionalTokens.length,
        o.valueSemantic = none) ∨
      (nonRest command.positionalArgs).length < context.positionalTokens.length ∧
        ∃ o, lastRest command.positionalArgs = some o ∧ o.valueSemantic = none) :
    fault = .nullPointer ↔ AsksRest b command context := by
  have hnonRest : ∀ o ∈ (nonRest command.positionalArgs).take context.positionalTokens.length,
      o.valueSemantic ≠ none := by
    intro o ho hsem
    obtain ⟨hmem, hrest⟩ := List.mem_filter.mp (List.mem_of_mem_take ho)
    have hsome := hdescribable.positionalArgs o hmem (by simpa using hrest)
    simp [hsem] at hsome
  cases b with
  | debug =>
      obtain ⟨c, rfl⟩ := hmissing
      refine iff_of_false (by simp) fun h => ?_
      cases h with
      | parse hb _ _ _ => cases hb
      | default hpositional _ hrest _ =>
          obtain ⟨-, o, ho, hnot⟩ | ⟨o, ho, hsem⟩ | ⟨hmore, o, hlast, hsem⟩ := hwhy
          · simp [hpositional rfl o ho] at hnot
          · exact hnonRest o ho hsem
          · have hsome := hrest hmore o hlast
            simp [hsem] at hsome
  | release =>
      obtain rfl : fault = .nullPointer := hmissing
      refine iff_of_true rfl ?_
      obtain ⟨hb, -⟩ | ⟨o, ho, hsem⟩ | ⟨hmore, o, hlast, hsem⟩ := hwhy
      · cases hb
      · exact absurd hsem (hnonRest o ho)
      · exact .parse rfl hmore hlast hsem

/-- `FinalState` dereferences null exactly when it asks a `Rest` argument, if the other
positional arguments have value semantics. -/
theorem settle_eq_nullPointer_iff {b : Build} {context : ParserContext V} {command : Command V}
    (hcommand : context.activeCommand = some command) (hdescribable : command.Describable) :
    settle b context = .error .nullPointer ↔ AsksRest b command context := by
  obtain ⟨ps, hassigned, hsettle, hserved, hrest⟩ |
    ⟨ps, left, htake, hleft, hlast, hsettle, hserved⟩ | ⟨hlen, -, hsettle⟩ |
    ⟨fault, hmissing, hsettle, hwhy⟩ := settle_cases (b := b) hcommand
  · rw [hsettle, validate_eq_error_iff]
    constructor
    · rintro ⟨-, h⟩
      exact .default hserved.1 hassigned hrest h
    · intro h
      cases h with
      | parse _ hmore hlast hsem =>
          have hsome := hrest hmore _ hlast
          simp [hsem] at hsome
      | default _ hassigned' _ h =>
          obtain rfl := Option.some.inj (hassigned.symm.trans hassigned')
          exact ⟨rfl, h⟩
  · have hnone : assigned command.positionalArgs context.positionalTokens = none := by
      obtain ⟨token, left, rfl⟩ := List.exists_cons_of_ne_nil hleft
      simp [assigned, htake, hlast]
    rw [hsettle]
    refine iff_of_false (by simp) fun h => ?_
    cases h with
    | parse _ _ hlast' _ =>
        rw [hlast] at hlast'
        cases hlast'
    | default _ hassigned _ _ =>
        rw [hnone] at hassigned
        cases hassigned
  · rw [hsettle]
    refine iff_of_false (by simp) fun h => ?_
    cases h with
    | parse _ hmore _ _ => omega
    | default _ hassigned _ _ =>
        obtain ⟨⟨qs, left⟩, htake, -⟩ := Option.bind_eq_some_iff.mp hassigned
        have hlength := length_of_takePositionals htake
        omega
  · rw [hsettle, Except.error.injEq]
    exact isMissing_eq_nullPointer_iff hdescribable hmissing hwhy

end FinalState

/-! ## Runs -/

section

variable {b : Build} {cfg : Config V} {phase : Phase} {context : ParserContext V}
  {tokens : List Token}

/-- The end of the input goes wrong before `FinalState` only with a contract. -/
theorem finish_ne_nullPointer (hwf : phase.Wf context) (hsemantics : ¬ NoSemantics context) :
    finish b phase context ≠ .error (.faulted .nullPointer) := by
  intro h
  obtain ⟨typed, rfl, hlong, hdefault⟩ | hnone := finish_faulted hwf h
  · obtain ⟨command, hdefault⟩ := Option.isSome_iff_exists.mp hdefault
    simp only [finish, select, hlong, hdefault, ok_bind] at h
    cases b <;> simp at h
  · exact hsemantics hnone

/-- `FinalState` is entered with an active command. -/
theorem activeCommand_of_finish {entry : ParserContext V} (hwf : phase.Wf context)
    (h : finish b phase context = .ok entry) : entry.activeCommand.isSome := by
  have hleave : ∀ value, context.activeCommand.isSome →
      accept (leaveOption value context) = .ok entry → entry.activeCommand.isSome := by
    intro value hactive haccept
    rcases hleft : leaveOption value context with fault | ⟨status, context'⟩
    · simp [hleft] at haccept
    · have hchoice := sameChoice_of_leaveOption hleft
      rw [hleft] at haccept
      cases status <;> cases haccept <;> simpa [hchoice.activeCommand] using hactive
  cases phase with
  | start =>
      rw [finish] at h
      split at h
      · next hactive =>
        cases h
        exact hactive
      · cases h
  | naming typed =>
      have hselect := finish_naming_ok h
      rw [select] at hselect
      split at hselect <;> cases hselect <;> rfl
  | ready =>
      cases h
      exact hwf
  | short value => exact hleave value hwf.1 h
  | long value afterEqual => exact hleave value hwf.1 h

/-- A run that ends with a null pointer met it in its last step. -/
theorem step_of_turn_eq_nullPointer (h : turn b cfg = .inr (.faulted .nullPointer)) :
    (machine b).step cfg.state cfg.token cfg.data = .error .nullPointer := by
  rw [turn] at h
  split at h
  · next hstep =>
    cases h
    exact hstep
  · cases h
  · cases h
  · cases h
  · split at h
    · next hexpect =>
      cases h
      cases b <;> simp [Build.expect] at hexpect
      split at hexpect <;> cases hexpect
    · cases h

/-- Handling a token dereferences null only if `FinalState` is entered. -/
theorem entersFinal_of_nullPointer {args : List String} (horderly : cfg.Orderly args)
    (hover : cfg.data.Over Command.Describable)
    (hstep : (machine b).step cfg.state cfg.token cfg.data = .error .nullPointer) :
    ∃ entry command, EntersFinal b cfg entry ∧ entry.activeCommand = some command ∧
      FinalState.settle b entry = .error .nullPointer := by
  obtain ⟨phase, context, tokens, hmatches, hawaits, -⟩ | hdash := horderly
  · obtain ⟨-, -, hwf, hdelivers⟩ := id hmatches
    by_cases htoken : cfg.token.1 = .endOfInput
    · obtain ⟨entry, hpass, henters⟩ | hpass := finish_of_step_error hmatches htoken hstep
      · obtain ⟨command, hcommand⟩ :=
          Option.isSome_iff_exists.mp (activeCommand_of_finish hwf hpass)
        exact ⟨entry, command, henters, hcommand,
          (step_eq_error_iff_of_entersFinal henters).mp hstep⟩
      · have hsemantics := not_noSemantics_of_over hmatches hover fun c hc => hc.options
        exact absurd hpass (finish_ne_nullPointer hwf hsemantics)
    · have hstuck := (faults_iff_stuck hmatches).mp ⟨_, hstep⟩
      obtain ⟨rfl, hequal, -⟩ := equalSign_of_stuck hmatches hover
        (fun c hc => hc.options) htoken hstuck
      obtain ⟨rest, rfl⟩ := exists_cons_of_delivers hdelivers htoken
      obtain ⟨value, afterEqual, hphase⟩ := hawaits.2 cfg.token rfl hequal
      cases hphase
  · rw [step_dashDashState hdash] at hstep
    cases hstep

/-- The command that `FinalState` is entered with is one of those there are. -/
theorem describable_of_entersFinal {entry : ParserContext V} {command : Command V}
    (hover : cfg.data.Over Command.Describable) (h : EntersFinal b cfg entry)
    (hcommand : entry.activeCommand = some command) : command.Describable := by
  obtain ⟨d, hdepart, rfl⟩ := h
  exact ((preserves_over b Command.Describable).depart hover hdepart).active command hcommand

end

/-! ## Whole parses -/

section

variable {b : Build} {context : CommandLineContext V} {commands : List (Command V)}
  {args : List String}

/-- On describable commands, a parse dereferences null exactly where `FinalState` asks a
`Rest` argument. -/
theorem parses_nullPointer_iff (hcommands : ∀ c ∈ commands, c.Describable)
    (hactive : ∀ c, context.activeCommand = some c → c.Describable) :
    Parses b context commands args (.faulted .nullPointer) ↔
      ∃ cfg entry command, Reachable b context commands args cfg ∧ EntersFinal b cfg entry ∧
        entry.activeCommand = some command ∧ AsksRest b command entry := by
  have hover : ∀ {cfg}, Reachable b context commands args cfg →
      cfg.data.Over Command.Describable := over_of_reachable hcommands hactive
  rw [Parses, Loop.returns_iff_reaches]
  constructor
  · rintro ⟨cfg, hreach, hturn⟩
    obtain ⟨entry, command, henters, hcommand, hsettle⟩ := entersFinal_of_nullPointer
      (orderly_of_reachable hreach) (hover hreach) (step_of_turn_eq_nullPointer hturn)
    have hdescribable := describable_of_entersFinal (hover hreach) henters hcommand
    exact ⟨cfg, entry, command, hreach, henters, hcommand,
      (FinalState.settle_eq_nullPointer_iff hcommand hdescribable).mp hsettle⟩
  · rintro ⟨cfg, entry, command, hreach, henters, hcommand, hasks⟩
    have hdescribable := describable_of_entersFinal (hover hreach) henters hcommand
    have hsettle := (FinalState.settle_eq_nullPointer_iff hcommand hdescribable).mpr hasks
    exact ⟨cfg, hreach, by rw [turn_of_entersFinal henters, hsettle]; rfl⟩

/-- **Null pointers**: none is dereferenced exactly if every option, every positional
argument other than `Rest` and every parent a command shows is there, and `FinalState` is
never entered so that it asks a `Rest` argument without value semantics. -/
theorem neverNull_iff (b : Build) (commands : List (Command V)) :
    NeverNull b commands ↔
      (∀ c ∈ commands, c.Describable) ∧
        ∀ context args cfg entry command,
          (∀ c, context.activeCommand = some c → c ∈ commands) →
          Reachable b context commands args cfg → EntersFinal b cfg entry →
          entry.activeCommand = some command → ¬ AsksRest b command entry := by
  constructor
  · intro h
    have hcommands := describable_of_neverNull h
    refine ⟨hcommands, ?_⟩
    intro context args cfg entry command hactive hreach henters hcommand hasks
    refine h.parses context args hactive ?_
    exact (parses_nullPointer_iff hcommands fun c hc => hcommands c (hactive c hc)).mpr
      ⟨cfg, entry, command, hreach, henters, hcommand, hasks⟩
  · rintro ⟨hcommands, hrest⟩
    have hdescribed : ∀ c ∈ commands, ∀ wrap parent width,
        c.print wrap parent width ≠ .error .nullPointer := by
      intro c hc wrap parent width hnull
      have hdescribable := hcommands c hc
      have hprint : ∃ text, c.print wrap parent width = .ok text :=
        Command.exists_print_iff.mpr
          ⟨⟨hdescribable.options, hdescribable.positionalArgs⟩, hdescribable.parent⟩
      obtain ⟨text, htext⟩ := hprint
      simp [htext] at hnull
    refine ⟨fun context args hactive hparses => ?_, fun c hc parent hnull => ?_, hdescribed⟩
    · obtain ⟨cfg, entry, command, hreach, henters, hcommand, hasks⟩ :=
        (parses_nullPointer_iff hcommands fun c hc => hcommands c (hactive c hc)).mp hparses
      exact hrest context args cfg entry command hactive hreach henters hcommand hasks
    · have hdescribable := hcommands c hc
      obtain ⟨text, htext⟩ := (Command.exists_printSynopsis_iff parent).mpr
        ⟨hdescribable.options, hdescribable.positionalArgs⟩
      simp [htext] at hnull

end

/-- A flag: the option is finished without `WithValue`. -/
def verbose : ClapOption String := OptionBuilder.build "verbose" [.short "v", .long "verbose"]

/-- A default command with that flag. -/
def switchable : Command String := Command.plainDefault.withOption verbose

/-- A flag that is typed has no value semantics to be asked for its implicit value. -/
theorem not_neverNull_switchable :
    CommandBuilder.Builds [.withOption verbose] switchable ∧
      Parses .debug { programName := "prog" } [switchable] ["-v"] (.faulted .nullPointer) ∧
      ¬ NeverNull .debug [switchable] := by
  have hparses : Parses .debug { programName := "prog" } [switchable] ["-v"]
      (.faulted .nullPointer) := ⟨4, rfl⟩
  exact ⟨⟨"", [], rfl⟩, hparses, fun h => h.parses _ _ (by simp) hparses⟩

end Parser

end AsapClap
