import AsapClap.Parser.Callbacks
import AsapClap.Parser.Faults

/-!
# AsapClap.Parser.Invariant

What every callback of the states preserves: the commands that the states hold are those of
the command line interface, and the active option is one of theirs.  `Data.Over` says so for
commands of any kind.
-/

namespace AsapClap

namespace Parser

open Errors LongestPrefix

variable {V : Type} {Q : Command V → Prop}

/-! ## What the states preserve -/

/-- The commands and the active option are the same. -/
structure SameChoice (context context' : ParserContext V) : Prop where
  commands : context'.commands = context.commands
  activeCommand : context'.activeCommand = context.activeCommand
  activeOption : context'.activeOption = context.activeOption

section

variable {b : Build} {context context' : ParserContext V}

theorem SameChoice.rfl : SameChoice context context := ⟨.refl _, .refl _, .refl _⟩

/-- To store a value chooses nothing. -/
theorem sameChoice_of_storeValue (option : ClapOption V) (value : V) (text : String)
    (defaulted : Bool) : SameChoice context (context.storeValue option value text defaulted) :=
  ⟨.refl _, .refl _, .refl _⟩

/-- To leave an option state chooses nothing. -/
theorem sameChoice_of_leaveOption {value : Option String} {status : Status}
    (h : leaveOption value context = .ok (status, context')) : SameChoice context context' := by
  obtain ⟨-, -, rfl⟩ | ⟨-, ⟨-, rfl⟩ | ⟨-, option, -, v, text, -, -, -, rfl⟩⟩ := leaveOption_ok h
  · exact .rfl
  · exact .rfl
  · exact sameChoice_of_storeValue option v text false

/-- To offer a value to an option chooses nothing. -/
theorem sameChoice_of_tryValue {option : ClapOption V} {semantics : ValueSemantics V}
    {fallback : Bool} {token : String} {action : Action} {value : Option String}
    (hoption : context.activeOption = some option) (hsem : option.valueSemantic = some semantics)
    (h : tryValue option semantics fallback token context = .ok (action, context', value)) :
    SameChoice context context' := by
  obtain ⟨⟨parsed, text, rfl⟩, -⟩ | ⟨rfl, -⟩ := tryValue_ok hoption hsem h
  · exact sameChoice_of_storeValue option parsed text false
  · exact .rfl

/-- `FinalState` chooses nothing. -/
theorem sameChoice_of_settle {status : Status}
    (h : FinalState.settle b context = .ok (status, context')) : SameChoice context context' := by
  cases hcommand : context.activeCommand with
  | none => simp [FinalState.settle, hcommand] at h
  | some command =>
      rcases FinalState.settle_cases (b := b) hcommand with ⟨ps, -, hsettle, -⟩ |
        ⟨ps, left, -, -, -, hsettle, -⟩ | ⟨-, -, hsettle⟩ | ⟨fault, -, hsettle, -⟩
      · rw [hsettle] at h
        rcases FinalState.validate_cases command
            { FinalState.storePositionals context ps with positionalTokens := [] } with
          ⟨ovm, hvalidate, -⟩ | ⟨o, -, -, -, -, ovm, hvalidate, -⟩ | ⟨hvalidate, -⟩ <;>
          rw [hvalidate] at h <;> cases h <;> exact ⟨.refl _, .refl _, .refl _⟩
      all_goals rw [hsettle] at h; cases h
      exact ⟨.refl _, .refl _, .refl _⟩

/-- An option state is entered with an option of the active command, or with none. -/
theorem enterOption_choice {flag token : String} {find : Command V → Option (ClapOption V)}
    {hasData : Bool} {status : Status}
    (h : enterOption b flag find token hasData context = .ok (status, context')) :
    context'.commands = context.commands ∧ context'.activeCommand = context.activeCommand ∧
      (context'.activeOption = context.activeOption ∨
        ∃ command option, context.activeCommand = some command ∧ find command = some option ∧
          context'.activeOption = some option) := by
  obtain ⟨command, hcommand, ⟨-, rfl⟩ | ⟨option, hfind, -, -, rfl⟩⟩ := enterOption_ok h
  · refine ⟨rfl, rfl, ?_⟩
    cases hfind : find command with
    | none => exact .inl rfl
    | some option => exact .inr ⟨command, option, hcommand, hfind, rfl⟩
  · exact ⟨rfl, rfl, .inr ⟨command, option, hcommand, hfind, rfl⟩⟩

end

/-- The members of the states that hold commands or the context are the same. -/
structure SameMembers (d d' : Data V) : Prop where
  choice : SameChoice d.context d'.context
  filtered : d'.filteredCommands = d.filteredCommands
  matched : d'.lastMatchedCommand = d.lastMatchedCommand
  default : d'.defaultCommand = d.defaultCommand
  hasContext : d'.optionsHasContext = d.optionsHasContext

section

variable {b : Build} {d d' : Data V} {action : Action} {status : Status}

theorem SameMembers.rfl : SameMembers d d := ⟨.rfl, .refl _, .refl _, .refl _, .refl _⟩

/-- What two steps leave as it is, both together do. -/
theorem SameMembers.trans {d'' : Data V} (h : SameMembers d d') (h' : SameMembers d' d'') :
    SameMembers d d'' where
  choice :=
    ⟨h'.choice.commands.trans h.choice.commands,
      h'.choice.activeCommand.trans h.choice.activeCommand,
      h'.choice.activeOption.trans h.choice.activeOption⟩
  filtered := h'.filtered.trans h.filtered
  matched := h'.matched.trans h.matched
  default := h'.default.trans h.default
  hasContext := h'.hasContext.trans h.hasContext

/-- `ShortOptionState` leaves the members of the other states alone. -/
theorem sameMembers_of_shortHandle {event : Token}
    (h : ParseShortOptionState.handle b event d = .ok (action, d')) : SameMembers d d' := by
  obtain ⟨-, rfl⟩ | ⟨-, option, semantics, context, value, hoption, hsem, htry, rfl⟩ :=
    shortHandle_ok h
  · exact .rfl
  · exact { SameMembers.rfl (d := d) with choice := sameChoice_of_tryValue hoption hsem htry }

/-- `LongOptionState` leaves the members of the other states alone. -/
theorem sameMembers_of_longHandle {event : Token}
    (h : ParseLongOptionState.handle b event d = .ok (action, d')) : SameMembers d d' := by
  obtain ⟨-, rfl⟩ | ⟨-, rfl⟩ | ⟨-, rfl⟩ |
    ⟨-, option, semantics, context, value, hoption, hsem, htry, rfl⟩ := longHandle_ok h
  · exact .rfl
  · exact .rfl
  · exact { SameMembers.rfl (d := d) with }
  · exact { SameMembers.rfl (d := d) with choice := sameChoice_of_tryValue hoption hsem htry }

/-- To leave `ShortOptionState` leaves the members of the others alone. -/
theorem sameMembers_of_shortLeave (h : ParseShortOptionState.onLeave d = .ok (status, d')) :
    SameMembers d d' := by
  obtain ⟨hleave, value, heq⟩ := shortLeave_ok h
  rw [heq]
  exact { SameMembers.rfl (d := d) with choice := sameChoice_of_leaveOption hleave }

/-- To leave `LongOptionState` does so, too. -/
theorem sameMembers_of_longLeave (h : ParseLongOptionState.onLeave d = .ok (status, d')) :
    SameMembers d d' := by
  obtain ⟨hleave, value, afterEqual, heq⟩ := longLeave_ok h
  rw [heq]
  exact { SameMembers.rfl (d := d) with choice := sameChoice_of_leaveOption hleave }

end

/-- The commands the states hold are all of a kind, and the active option is one of theirs. -/
structure Data.Over (Q : Command V → Prop) (d : Data V) : Prop where
  commands : ∀ c ∈ d.context.commands, Q c
  filtered : ∀ c ∈ d.filteredCommands, Q c
  matched : ∀ c, d.lastMatchedCommand = some c → Q c
  default : ∀ c, d.defaultCommand = some c → Q c
  active : ∀ c, d.context.activeCommand = some c → Q c
  option : ∀ o, d.context.activeOption = some o → ∃ c, Q c ∧ o ∈ c.options

namespace Data.Over

variable {b : Build} {d : Data V}

/-- With the same commands and the same option, the data is over `Q` still. -/
theorem of_sameMembers {d' : Data V} (h : d.Over Q) (hsame : SameMembers d d') : d'.Over Q where
  commands := hsame.choice.commands ▸ h.commands
  filtered := hsame.filtered ▸ h.filtered
  matched := hsame.matched ▸ h.matched
  default := hsame.default ▸ h.default
  active := hsame.choice.activeCommand ▸ h.active
  option := hsame.choice.activeOption ▸ h.option

/-- A command of the kind becomes the active one. -/
theorem activate {command : Command V} (h : d.Over Q) (hcommand : Q command) :
    { d with context.activeCommand := some command }.Over Q :=
  { h with
    active := by
      rintro c ⟨⟩
      exact hcommand }

/-- The command a filter keeps is of the kind. -/
theorem kept {commands : List (Command V)} {command : Command V} {p : Prop} [Decidable p]
    (h : ∀ c ∈ commands, Q c) (hcommand : Q command) :
    ∀ c ∈ commands ++ if p then [command] else [], Q c := by
  intro c hc
  obtain hc | hc := List.mem_append.mp hc
  · exact h c hc
  · split at hc
    · exact List.mem_singleton.mp hc ▸ hcommand
    · cases hc

/-- So is the one it remembers. -/
theorem remembered {known : Option (Command V)} {command : Command V} {p : Prop} [Decidable p]
    (h : ∀ c, known = some c → Q c) (hcommand : Q command) :
    ∀ c, (if p then some command else none).or known = some c → Q c := by
  intro c hc
  obtain hc | ⟨-, hc⟩ := Option.or_eq_some_iff.mp hc
  · split at hc <;> cases hc
    exact hcommand
  · exact h c hc

/-- A command that is kept when the search begins is one of the list. -/
theorem keepOnEnter {token : String} {command : Command V} (h : d.Over Q)
    (hcommand : Q command) : (IdentifyCommandState.keepOnEnter token d command).Over Q := by
  rw [IdentifyCommandState.keepOnEnter_eq]
  exact { h with
    filtered := kept h.filtered hcommand
    matched := remembered h.matched hcommand
    default := remembered h.default hcommand }

/-- A command that is kept as the search goes on was kept before. -/
theorem keepOnValue {n : Nat} {token : String} {command : Command V} (h : d.Over Q)
    (hcommand : Q command) :
    (IdentifyCommandState.keepOnValue (n + 1) token d command).Over Q := by
  rw [IdentifyCommandState.keepOnValue_eq]
  exact { h with
    filtered := kept h.filtered hcommand
    matched := remembered h.matched hcommand }

/-- What `IdentifyCommandState` selects it has found in the list. -/
theorem identifyHandle {event : Token} {action : Action} {d' : Data V} (h : d.Over Q)
    (hok : IdentifyCommandState.handle b event d = .ok (action, d')) : d'.Over Q := by
  obtain ⟨d₁, hnarrowed, hidentifies⟩ := identifyHandle_ok hok
  have h₁ : d₁.Over Q := by
    obtain rfl | ⟨token, rfl⟩ := hnarrowed
    · exact h
    · refine List.foldlRecOn _ _ ?_ fun d hd c hc => hd.keepOnValue (h.filtered c hc)
      exact { h with filtered := by simp }
  cases hidentifies with
  | matched target found leaves => exact h₁.activate (h₁.matched _ found)
  | fallsBack typed segments found => exact { h₁.activate (h₁.default _ found) with }
  | stays => exact h₁

/-- What `IdentifyCommandState` keeps on being entered is in the list as well. -/
theorem identifyEnter {event : Token} {hasData : Bool} {status : Status} {d' : Data V}
    (h : d.Over Q) (hok : IdentifyCommandState.onEnter b event hasData d = .ok (status, d')) :
    d'.Over Q := by
  obtain ⟨-, rfl | ⟨token, rfl⟩⟩ := identifyEnter_ok hok
  · exact h
  · exact List.foldlRecOn _ _ { h with } fun d hd c hc => hd.keepOnEnter (h.commands c hc)

/-- `ParseOptionsState` chooses nothing on being entered. -/
theorem optionsEnter {event : Token} {hasData : Bool} {status : Status} {d' : Data V}
    (h : d.Over Q) (hok : ParseOptionsState.onEnter b event hasData d = .ok (status, d')) :
    d'.Over Q := by
  obtain rfl | rfl := optionsEnter_ok hok
  · exact h
  · exact { h with }

/-- `ParseOptionsState` chooses nothing, whatever the token. -/
theorem optionsHandle {event : Token} {action : Action} {d' : Data V} (h : d.Over Q)
    (hok : ParseOptionsState.handle event d = .ok (action, d')) : d'.Over Q := by
  obtain ⟨-, rfl⟩ | ⟨rfl, -⟩ := optionsHandle_ok hok
  · exact { h with }
  · exact h

/-- The option that is entered is one of the command that is active. -/
theorem enterOption {flag token : String} {find : Command V → Option (ClapOption V)}
    {hasData : Bool} {status : Status} {context : ParserContext V} (h : d.Over Q)
    (hfind : ∀ command option, find command = some option → option ∈ command.options)
    (hok : Parser.enterOption b flag find token hasData d.context = .ok (status, context)) :
    { d with context }.Over Q := by
  obtain ⟨hcommands, hactive, hoption⟩ := enterOption_choice hok
  refine { h with commands := ?_, active := ?_, option := ?_ }
  · exact hcommands ▸ h.commands
  · exact hactive ▸ h.active
  · obtain hoption | ⟨command, option, hcommand, hfound, hoption⟩ := hoption
    · exact hoption ▸ h.option
    · rintro o ho
      obtain rfl := Option.some.inj (hoption.symm.trans ho)
      exact ⟨command, h.active command hcommand, hfind command option hfound⟩

end Data.Over

/-- Every callback keeps to the commands there are. -/
theorem preserves_over (b : Build) (Q : Command V → Prop) :
    (machine b).Preserves (Data.Over Q) where
  handle := by
    intro s event d action d' hd h
    cases s with
    | identifyCommandState => exact hd.identifyHandle h
    | initialState | dashDashState | finalState =>
        cases h
        exact hd
    | parseOptionsState => exact hd.optionsHandle h
    | parseShortOptionState => exact hd.of_sameMembers (sameMembers_of_shortHandle h)
    | parseLongOptionState => exact hd.of_sameMembers (sameMembers_of_longHandle h)
  onLeave := by
    intro s event d status d' hd h
    cases s with
    | identifyCommandState =>
        cases h
        exact { hd with
          filtered := by simp [IdentifyCommandState.reset]
          matched := by simp [IdentifyCommandState.reset]
          default := by simp [IdentifyCommandState.reset] }
    | parseShortOptionState => exact hd.of_sameMembers (sameMembers_of_shortLeave h)
    | parseLongOptionState => exact hd.of_sameMembers (sameMembers_of_longLeave h)
    | _ =>
        cases h
        exact hd
  onEnter := by
    intro s event hasData d status d' hd h
    cases s with
    | initialState =>
        cases h
        exact hd
    | identifyCommandState => exact hd.identifyEnter h
    | parseOptionsState => exact hd.optionsEnter h
    | parseShortOptionState =>
        obtain ⟨-, context, henter, rfl⟩ := shortOnEnter_ok h
        exact hd.enterOption (fun _ _ => List.mem_of_find?_eq_some) henter
    | parseLongOptionState =>
        obtain ⟨-, context, henter, rfl⟩ := longOnEnter_ok h
        exact hd.enterOption (fun _ _ => List.mem_of_find?_eq_some) henter
    | dashDashState =>
        obtain ⟨-, -, h⟩ := bind_eq_ok.mp h
        cases h
        exact hd
    | finalState =>
        obtain ⟨context, hsettle, rfl⟩ := finalOnEnter_ok h
        exact hd.of_sameMembers
          { SameMembers.rfl (d := d) with choice := sameChoice_of_settle hsettle }

/-! ## Whole runs -/

section

variable {b : Build} {cfg : Config V}

/-- At the start there is no option, and no command but a default one or the one that was active. -/
theorem over_start {context : CommandLineContext V} {commands : List (Command V)}
    (args : List String) (hcommands : ∀ c ∈ commands, Q c)
    (hactive : ∀ c, context.activeCommand = some c → Q c) :
    (start context commands args).data.Over Q := by
  have hnew : (⟨ParserContext.new context commands, [], none, none, [], false, none, none, false⟩ :
      Data V).Over Q :=
    ⟨hcommands, by simp, by simp, by simp, hactive, by simp [ParserContext.new]⟩
  change (⟨InitialState.new (ParserContext.new context commands), _, _, _, _, _, _, _, _⟩ :
    Data V).Over Q
  rw [InitialState.new]
  split
  · next command hfind =>
    exact hnew.activate (hcommands command (List.mem_of_find?_eq_some hfind))
  · exact hnew

/-- In every run on commands of a kind, the states hold no others. -/
theorem over_of_reachable {context : CommandLineContext V} {commands : List (Command V)}
    {args : List String} (hcommands : ∀ c ∈ commands, Q c)
    (hactive : ∀ c, context.activeCommand = some c → Q c)
    (h : Reachable b context commands args cfg) : cfg.data.Over Q :=
  invariant_of_reachable (fun _ d => d.Over Q) (over_start args hcommands hactive)
    (fun hover hstep _ => (preserves_over b Q).step hover hstep) h

/-! ## Options with value semantics -/

/-- An active option that has value semantics is not asked for them in vain. -/
theorem not_noSemantics {context : ParserContext V}
    (h : ∀ o, context.activeOption = some o → o.valueSemantic.isSome) : ¬ NoSemantics context := by
  rintro ⟨option, hoption, hsem⟩
  simpa [hsem] using h option hoption

/-- An option that a token leads to is one of the command. -/
theorem mem_options_of_resolve {command : Command V} {token : Token} {option : ClapOption V}
    (h : command.resolve token = some option) : option ∈ command.options := by
  obtain ⟨tokenType, text⟩ := token
  cases tokenType <;> first | exact List.mem_of_find?_eq_some h | cases h

/-- With commands whose options all have value semantics, no option ever is. -/
theorem not_noSemantics_of_over {phase : Phase} {context : ParserContext V} {tokens : List Token}
    (hmatches : cfg.Matches phase context tokens) (hover : cfg.data.Over Q)
    (hQ : ∀ c, Q c → ∀ o ∈ c.options, o.valueSemantic.isSome) : ¬ NoSemantics context := by
  refine not_noSemantics fun o ho => ?_
  obtain ⟨c, hc, hmem⟩ := hover.option o ((context_of_matches hmatches).symm ▸ ho)
  exact hQ c hc o hmem

/-- When the options have value semantics, a token of the line is too much for
`ParseOptionsState` only, and only if it is an equal sign with no option in front. -/
theorem equalSign_of_stuck {phase : Phase} {context : ParserContext V} {tokens : List Token}
    (hmatches : cfg.Matches phase context tokens) (hover : cfg.data.Over Q)
    (hQ : ∀ c, Q c → ∀ o ∈ c.options, o.valueSemantic.isSome)
    (htoken : cfg.token.1 ≠ .endOfInput) (hstuck : Stuck b cfg) :
    phase = .ready ∧ cfg.token.1 = .equalSign ∧ context.activeOption = none := by
  have hcontext := context_of_matches hmatches
  have hsemantics := not_noSemantics_of_over hmatches hover hQ
  rw [Stuck, hmatches.state, hcontext] at hstuck
  cases phase with
  | start | naming typed => simp [Phase.state, htoken] at hstuck
  | short value | long value afterEqual =>
      cases htype : cfg.token.1 <;> simp [Phase.state, htype, hsemantics] at hstuck htoken
  | ready =>
      by_cases hequal : cfg.token.1 = .equalSign
      · exact ⟨rfl, hequal, by simpa [Phase.state, hequal] using hstuck⟩
      · obtain ⟨command, option, hcommand, hresolve, hsem, -⟩ : ∃ command option,
            context.activeCommand = some command ∧ command.resolve cfg.token = some option ∧
              option.valueSemantic = none ∧ 0 < context.ovm.occurrencesOf option.key := by
          cases htype : cfg.token.1 <;> simp_all [Phase.state]
        have hsome := hQ command (hover.active command (hcontext ▸ hcommand)) option
          (mem_options_of_resolve hresolve)
        simp [hsem] at hsome

end

end Parser

end AsapClap
