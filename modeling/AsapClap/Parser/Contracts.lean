import AsapClap.Parser.Invariant

/-!
# AsapClap.Parser.Contracts

Whether the contracts of `states.h` hold in a debug build, which enforces them, when the
commands are complete.

`Data.Sound` is the invariant of these runs: all the commands the states hold are complete
and the active option has value semantics.  What remains is the end of the
input, which `ParseOptionsState` is not meant to be entered with (`keepsContracts_iff`).
-/

namespace AsapClap

/-- All the options have value semantics, and the positional arguments are positional. -/
structure Command.Complete {V : Type} (c : Command V) : Prop where
  semantics : ∀ o ∈ c.options ++ c.positionalArgs, o.valueSemantic.isSome
  positional : ∀ o ∈ c.positionalArgs, o.isPositional = true

/-- The contract is one of `states.h`. -/
def Contract.inStates : Contract → Bool
  | .hasOccurrences | .loopTokenIsNotEndOfInput => false
  | _ => true

namespace Parser

open Errors LongestPrefix

variable {V : Type}

/-- The contracts of the states hold while the token is handled, and `ParseOptionsState`
is entered with what it is meant to be entered with. -/
structure KeepsContracts (cfg : Config V) : Prop where
  holds : ∀ c : Contract, c.inStates = true →
    (machine .debug).step cfg.state cfg.token cfg.data ≠ .error (.contract c)
  enters : ∀ hasData d, (machine .debug).depart cfg.state cfg.token cfg.data =
      .ok (.enters .parseOptionsState hasData d) →
    cfg.token.1 ≠ .endOfInput ∧ (hasData = true ∨ d.optionsHasContext = true) ∧
      d.context.activeCommand.isSome

/-- The end of the input is passed on to `ParseOptionsState`: by the fallback on the
default command, or by an option state that has a value for its option. -/
def SlipsAtEnd (cfg : Config V) : Prop :=
  cfg.token.1 = .endOfInput ∧
    match cfg.state with
    | .identifyCommandState =>
        cfg.data.lastMatchedCommand = none ∧ cfg.data.defaultCommand.isSome
    | .parseShortOptionState =>
        cfg.data.shortValue.isSome ∨
          (cfg.data.context.activeOption.bind ClapOption.implicit).isSome
    | .parseLongOptionState =>
        cfg.data.longValue.isSome ∨
          (cfg.data.context.activeOption.bind ClapOption.implicit).isSome
    | _ => False

/-! ## The contracts -/

/-- The commands the states hold are complete, and the active option has value
semantics. -/
structure Data.Sound (d : Data V) : Prop where
  commands : ∀ c ∈ d.context.commands, c.Complete
  filtered : ∀ c ∈ d.filteredCommands, c.Complete
  matched : ∀ c, d.lastMatchedCommand = some c → c.Complete
  default : ∀ c, d.defaultCommand = some c → c.Complete
  active : ∀ c, d.context.activeCommand = some c → c.Complete
  option : ∀ o, d.context.activeOption = some o → o.valueSemantic.isSome

theorem Data.Over.sound {d : Data V} (h : d.Over Command.Complete) : d.Sound where
  commands := h.commands
  filtered := h.filtered
  matched := h.matched
  default := h.default
  active := h.active
  option := by
    intro o ho
    obtain ⟨c, hc, hmem⟩ := h.option o ho
    exact hc.semantics o (List.mem_append_left _ hmem)

section

variable {b : Build} {cfg : Config V}

/-- `FinalState` may run out of positional tokens, but keeps its contracts. -/
theorem settle_ne_contract {context : ParserContext V}
    (h : ∀ c, context.activeCommand = some c → c.Complete) (c : Contract) :
    FinalState.settle b context ≠ .error (.contract c) := by
  intro herror
  cases hcommand : context.activeCommand with
  | none => simp [FinalState.settle, hcommand] at herror
  | some command =>
      have hcomplete := h command hcommand
      rcases FinalState.settle_cases (b := b) hcommand with ⟨ps, -, hsettle, -⟩ |
        ⟨ps, left, -, -, -, hsettle, -⟩ | ⟨-, -, hsettle⟩ | ⟨fault, -, -, hwhy⟩
      · rw [hsettle] at herror
        cases ((FinalState.validate_eq_error_iff ..).mp herror).1
      · rw [hsettle] at herror
        cases herror
      · rw [hsettle] at herror
        cases herror
      · have hsome : ∀ o ∈ command.positionalArgs, o.valueSemantic ≠ none := by
          intro o ho hnone
          simpa [hnone] using hcomplete.semantics o (List.mem_append_right _ ho)
        obtain ⟨-, o, ho, hnot⟩ | ⟨o, ho, hsem⟩ | ⟨-, o, hlast, hsem⟩ := hwhy
        · simp [hcomplete.positional o ho] at hnot
        · exact hsome o (List.mem_filter.mp (List.mem_of_mem_take ho)).1 hsem
        · exact hsome o (List.mem_filter.mp (List.mem_of_getLast? hlast)).1 hsem

theorem step_ne_contract_of_entersFinal {entry : ParserContext V} (h : EntersFinal b cfg entry)
    (hover : cfg.data.Over Command.Complete) (c : Contract) :
    (machine b).step cfg.state cfg.token cfg.data ≠ .error (.contract c) := by
  rw [Ne, step_eq_error_iff_of_entersFinal h]
  obtain ⟨d, hdepart, rfl⟩ := h
  have hd : d.Sound := ((preserves_over b Command.Complete).depart hover hdepart).sound
  exact settle_ne_contract hd.active c

/-- The end of the input goes wrong on the way to `FinalState` only if the fallback on the
default command takes it to `ParseOptionsState`, or without value semantics. -/
theorem finish_faulted {phase : Phase} {context : ParserContext V} {fault : Fault}
    (hwf : phase.Wf context) (h : finish b phase context = .error (.faulted fault)) :
    (∃ typed, phase = .naming typed ∧ longest Command.path context.commands typed = none ∧
      (lastDefault context.commands).isSome) ∨ NoSemantics context := by
  have hleave : ∀ value, context.activeOption.isSome →
      accept (leaveOption value context) = .error (.faulted fault) → NoSemantics context := by
    intro value hoption haccept
    obtain ⟨option, hoption⟩ := Option.isSome_iff_exists.mp hoption
    rcases hvalue : leaveOption value context with fault | ⟨status, context'⟩
    · exact ⟨option, hoption, ((leaveOption_error_iff hoption).mp ⟨fault, hvalue⟩).2⟩
    · rw [hvalue] at haccept
      cases status <;> cases haccept
  cases phase with
  | start =>
      rw [finish] at h
      split at h <;> cases h
  | ready => cases h
  | short value => exact .inr (hleave value hwf.2 h)
  | long value afterEqual => exact .inr (hleave value hwf.2 h)
  | naming typed =>
      refine .inl ⟨typed, rfl, ?_⟩
      rw [finish, select] at h
      split at h
      · next hlong => simp [hlong] at h
      · next hlong hdefault => exact ⟨hlong, by simp [hdefault]⟩
      · cases h

/-- At the end of the input, a step goes wrong where the pass does or in `FinalState`. -/
theorem finish_of_step_error {phase : Phase} {context : ParserContext V} {tokens : List Token}
    {fault : Fault} (hmatches : cfg.Matches phase context tokens)
    (htoken : cfg.token.1 = .endOfInput)
    (hstep : (machine b).step cfg.state cfg.token cfg.data = .error fault) :
    (∃ entry, finish b phase context = .ok entry ∧ EntersFinal b cfg entry) ∨
      finish b phase context = .error (.faulted fault) := by
  obtain ⟨hstate, hdata, hwf, -⟩ := hmatches
  rw [hstate, hdata] at hstep
  obtain hfinish | ⟨context', ⟨-, -, hok⟩, -⟩ := finish_follows (b := b) hwf htoken
  · cases hpass : finish b phase context with
    | ok entry =>
        rw [hpass] at hfinish
        obtain ⟨d, hdepart, hd⟩ := hfinish
        rw [← hstate, ← hdata] at hdepart
        exact .inl ⟨entry, rfl, d, hdepart, hd⟩
    | error stop =>
        rw [hpass] at hfinish
        cases stop with
        | rejected message context' =>
            obtain ⟨state, d, hok, -⟩ := hfinish
            cases hstep.symm.trans hok
        | swallowed => exact absurd hpass (finish_ne_swallowed phase context)
        | faulted fault' =>
            cases hstep.symm.trans hfinish
            exact .inr rfl
  · cases hstep.symm.trans hok

/-- The contracts hold, unless the fallback on the default command takes the end of the
input to `ParseOptionsState`. -/
theorem step_ne_contract {phase : Phase} {context : ParserContext V} {tokens : List Token}
    (hmatches : cfg.Matches phase context tokens) (hover : cfg.data.Over Command.Complete)
    (hslips : ¬ SlipsAtEnd cfg) (c : Contract) :
    (machine b).step cfg.state cfg.token cfg.data ≠ .error (.contract c) := by
  intro hstep
  obtain ⟨hstate, hdata, hwf, -⟩ := id hmatches
  have hcontext := context_of_matches hmatches
  have hsemantics : ¬ NoSemantics context := not_noSemantics (hcontext ▸ hover.sound.option)
  by_cases htoken : cfg.token.1 = .endOfInput
  · obtain ⟨entry, -, henters⟩ | hpass := finish_of_step_error hmatches htoken hstep
    · exact step_ne_contract_of_entersFinal henters hover c hstep
    · obtain ⟨typed, rfl, hlong, hdefault⟩ | hnone := finish_faulted hwf hpass
      · refine hslips ⟨htoken, ?_⟩
        rw [hstate, hdata]
        exact ⟨hlong, hdefault⟩
      · exact hsemantics hnone
  · have hstuck := (faults_iff_stuck hmatches).mp ⟨_, hstep⟩
    -- the message has no option to show, which is no matter of contracts
    obtain ⟨rfl, hequal, hnone⟩ := equalSign_of_stuck hmatches hover
      (fun c hc o ho => hc.semantics o (List.mem_append_left _ ho)) htoken hstuck
    obtain ⟨text, htok⟩ := Token.exists_text hequal
    have hhandles := dispatch_handles (b := b) hwf htoken
    rw [htok, dispatch, optionSyntaxError, hnone] at hhandles
    have hnull : (machine b).step .parseOptionsState (.equalSign, text)
        (Phase.ready.data context) = .error .nullPointer := hhandles
    rw [hstate, hdata, htok] at hstep
    cases hstep.symm.trans hnull

/-! ## Entering ParseOptionsState -/

/-- Without data, `ParseOptionsState` is entered from the option states only. -/
theorem handle_without_data {state : State} {event : Token} {d d' : Data V} {target : State}
    (h : (machine b).handle state event d = .ok (.transitionTo target false, d')) :
    state = .parseShortOptionState ∨ state = .parseLongOptionState := by
  cases state with
  | parseShortOptionState => exact .inl rfl
  | parseLongOptionState => exact .inr rfl
  | dashDashState | finalState => cases h
  | initialState =>
      obtain ⟨tokenType, text⟩ := event
      cases tokenType <;> simp only [machine, handle, InitialState.handle] at h <;>
        split at h <;> try split at h
      all_goals cases h
  | parseOptionsState =>
      obtain ⟨haction, -⟩ | ⟨-, ⟨message, haction⟩ | ⟨target, haction, -⟩⟩ := optionsHandle_ok h <;>
        cases haction
  | identifyCommandState =>
      obtain ⟨d₁, -, hidentifies⟩ := identifyHandle_ok h
      cases hidentifies with
      | stays hstays => exact absurd rfl (hstays target false)

/-- An option state lets go when it has a value for its option. -/
theorem leaveOption_eq_continue_iff {context : ParserContext V} {value : Option String}
    {option : ClapOption V} (hoption : context.activeOption = some option) :
    (∃ context', leaveOption value context = .ok (.continue_, context')) ↔
      value.isSome ∨ option.implicit.isSome := by
  cases value with
  | some value => simp
  | none =>
      rw [leaveOption_none hoption]
      cases hsem : option.valueSemantic with
      | none => simp [ClapOption.implicit, hsem]
      | some semantics =>
          cases himplicit : semantics.applyImplicit <;>
            simp [ClapOption.implicit, hsem, himplicit, missingValueForOption, hoption]

/-- A token an option state lets go of gets to `ParseOptionsState` if the option has a
value or makes do with its implicit one. -/
theorem enters_iff_of_leave {phase : Phase} {context : ParserContext V} {token : Token}
    {value : Option String} {option : ClapOption V} {d : Data V}
    (hoption : context.activeOption = some option)
    (hhandle : (machine b).handle phase.state token (phase.data context) =
      .ok (.transitionTo .parseOptionsState false, phase.data context))
    (hleave : (machine b).onLeave phase.state token (phase.data context) =
      (fun p => (p.1, if p.1 = .continue_ then Phase.ready.data p.2 else { d with context := p.2 }))
        <$> leaveOption value context) :
    (∃ hasData d, (machine b).depart phase.state token (phase.data context) =
      .ok (.enters .parseOptionsState hasData d)) ↔ value.isSome ∨ option.implicit.isSome := by
  rw [← leaveOption_eq_continue_iff hoption]
  constructor
  · rintro ⟨hasData, d', hdepart⟩
    obtain ⟨d₁, hhandle', hleave'⟩ := Fsm.StateMachine.depart_eq_enters hdepart
    rw [hhandle] at hhandle'
    cases hhandle'
    rw [hleave] at hleave'
    rcases h : leaveOption value context with fault | ⟨status, context'⟩
    · simp [h] at hleave'
    · rw [h] at hleave'
      cases hleave'
      exact ⟨context', rfl⟩
  · rintro ⟨context', h⟩
    rw [h] at hleave
    exact ⟨false, _, Fsm.StateMachine.depart_of_transition hhandle hleave⟩

/-- The end of the input slips exactly when it is about to enter `ParseOptionsState`. -/
theorem slipsAtEnd_iff {phase : Phase} {context : ParserContext V} {tokens : List Token}
    (hmatches : cfg.Matches phase context tokens) :
    SlipsAtEnd cfg ↔ cfg.token.1 = .endOfInput ∧ ∃ hasData d,
      (machine b).depart cfg.state cfg.token cfg.data =
        .ok (.enters .parseOptionsState hasData d) := by
  obtain ⟨hstate, hdata, hwf, -⟩ := hmatches
  rw [SlipsAtEnd, hstate, hdata]
  refine and_congr_right fun htoken => ?_
  obtain ⟨text, htok⟩ := Token.exists_text htoken
  rw [htok]
  cases phase with
  | ready => exact iff_of_false id (Fsm.StateMachine.not_enters_of_handle rfl (by simp))
  | start =>
      refine iff_of_false id ?_
      rintro ⟨hasData, d, hdepart⟩
      obtain ⟨d₁, hhandle, -⟩ := Fsm.StateMachine.depart_eq_enters hdepart
      simp only [Phase.state, machine, handle, InitialState.handle] at hhandle
      split at hhandle <;> cases hhandle
  | naming typed =>
      have hhandle := handleOther_naming (b := b) hwf.2.1 context
        (show (TokenType.endOfInput, text).1 ≠ .value by simp)
      change longest Command.path context.commands typed = none ∧
        (lastDefault context.commands).isSome ↔ _
      cases hlong : longest Command.path context.commands typed with
      | some command =>
          simp only [hlong] at hhandle
          exact iff_of_false (by simp) (Fsm.StateMachine.not_enters_of_handle hhandle (by simp))
      | none =>
          cases hdefault : lastDefault context.commands with
          | some command =>
              simp only [hlong, hdefault] at hhandle
              refine iff_of_true (by simp) ⟨true, _, Fsm.StateMachine.depart_of_transition
                (hhandle.trans (useDefault_naming typed command hwf.1)) rfl⟩
          | none =>
              simp only [hlong, hdefault] at hhandle
              exact iff_of_false (by simp) (Fsm.StateMachine.not_enters_of_handle hhandle (by simp))
  | short value =>
      obtain ⟨option, hoption⟩ := Option.isSome_iff_exists.mp hwf.2
      rw [enters_iff_of_leave hoption rfl (onLeave_short b (.endOfInput, text) value context)]
      simp [Phase.state, Phase.data, hoption]
  | long value afterEqual =>
      obtain ⟨option, hoption⟩ := Option.isSome_iff_exists.mp hwf.2
      rw [enters_iff_of_leave hoption rfl
        (onLeave_long b (.endOfInput, text) value afterEqual context)]
      simp [Phase.state, Phase.data, hoption]

theorem enters_without_data {phase : Phase} {context : ParserContext V} {tokens : List Token}
    {target : State} {d : Data V} (hmatches : cfg.Matches phase context tokens)
    (hdepart : (machine b).depart cfg.state cfg.token cfg.data = .ok (.enters target false d)) :
    d.optionsHasContext = true ∧ d.context.activeCommand.isSome := by
  obtain ⟨hstate, hdata, hwf, -⟩ := hmatches
  obtain ⟨d₁, hhandle, hleave⟩ := Fsm.StateMachine.depart_eq_enters hdepart
  have hkept : SameMembers cfg.data d ∧ cfg.data.optionsHasContext = true ∧
      cfg.data.context.activeCommand.isSome := by
    obtain hshort | hlong := handle_without_data hhandle
    · rw [hshort] at hhandle hleave hstate
      refine ⟨(sameMembers_of_shortHandle hhandle).trans (sameMembers_of_shortLeave hleave), ?_⟩
      cases phase <;> cases hstate
      rw [hdata]
      exact ⟨rfl, hwf.1⟩
    · rw [hlong] at hhandle hleave hstate
      refine ⟨(sameMembers_of_longHandle hhandle).trans (sameMembers_of_longLeave hleave), ?_⟩
      cases phase <;> cases hstate
      rw [hdata]
      exact ⟨rfl, hwf.1⟩
  obtain ⟨hsame, hcontext, hcommand⟩ := hkept
  rw [hsame.hasContext, hsame.choice.activeCommand]
  exact ⟨hcontext, hcommand⟩

/-- The contracts of a configuration hold exactly if the end of the input does not slip. -/
theorem keepsContracts_iff_of_matches {cfg : Config V} {phase : Phase}
    {context : ParserContext V} {tokens : List Token} (hmatches : cfg.Matches phase context tokens)
    (hover : cfg.data.Over Command.Complete) : KeepsContracts cfg ↔ ¬ SlipsAtEnd cfg := by
  constructor
  · intro hkeeps hslips
    obtain ⟨htoken, hasData, d, hdepart⟩ := (slipsAtEnd_iff (b := .debug) hmatches).mp hslips
    exact (hkeeps.enters hasData d hdepart).1 htoken
  · intro hslips
    have hholds := step_ne_contract (b := .debug) hmatches hover hslips
    refine ⟨fun c _ => hholds c, fun hasData d hdepart => ⟨fun htoken => ?_, ?_⟩⟩
    · exact hslips ((slipsAtEnd_iff (b := .debug) hmatches).mpr ⟨htoken, hasData, d, hdepart⟩)
    · cases hasData with
      | false =>
          obtain ⟨hcontext, hcommand⟩ := enters_without_data hmatches hdepart
          exact ⟨.inr hcontext, hcommand⟩
      | true =>
          refine ⟨.inl rfl, ?_⟩
          -- `OnEnter` would have gone wrong without an active command
          by_contra hnone
          have htoken : cfg.token.1 ≠ .endOfInput := fun htoken =>
            hslips ((slipsAtEnd_iff (b := .debug) hmatches).mpr ⟨htoken, true, d, hdepart⟩)
          refine hholds .hasActiveCommand ?_
          rw [Fsm.StateMachine.step_of_depart hdepart]
          simp only [Bool.not_eq_true] at hnone
          simp [machine, onEnter, ParseOptionsState.onEnter, htoken, hnone]

/-- **Contracts**: on complete commands, no contract of the states is violated in a run and
`ParseOptionsState` is entered as it is meant to be, exactly if the end of the input never
slips to `ParseOptionsState`. -/
theorem keepsContracts_iff {context : CommandLineContext V} {commands : List (Command V)}
    {args : List String} (hcommands : ∀ c ∈ commands, c.Complete)
    (hactive : ∀ c, context.activeCommand = some c → c.Complete) :
    (∀ cfg, Reachable .debug context commands args cfg → KeepsContracts cfg) ↔
      ∀ cfg, Reachable .debug context commands args cfg → ¬ SlipsAtEnd cfg := by
  refine forall₂_congr fun cfg hreach => ?_
  obtain ⟨phase, context', tokens, hmatches, -⟩ | ⟨hstate, -, -⟩ := tracks_of_reachable hreach
  · exact keepsContracts_iff_of_matches hmatches (over_of_reachable hcommands hactive hreach)
  · -- in `DashDashState` nothing happens any more
    have hdepart : (machine .debug).depart cfg.state cfg.token cfg.data =
        .ok (.stays .continue_ cfg.data) := by
      rw [hstate]
      rfl
    refine iff_of_true ⟨fun c _ => ?_, fun hasData d h => ?_⟩ ?_
    · simp [Fsm.StateMachine.step, hdepart]
    · rw [hdepart] at h
      cases h
    · simp [SlipsAtEnd, hstate]

end

/-- A default command and `say it`. -/
def fallback : List (Command String) :=
  [.plainDefault, { path := ["say", "it"], path_ne_nil := by decide, path_valid := by decide }]

theorem complete_fallback : ∀ c ∈ fallback, c.Complete := by
  intro c hc
  rcases List.mem_pair.mp hc with rfl | rfl <;> refine ⟨?_, ?_⟩ <;> simp [Command.plainDefault]

/-- The whole path keeps the contracts. -/
theorem keepsContracts_sayIt :
    (∀ c ∈ fallback, c.Complete) ∧
      ∀ cfg, Reachable .debug { programName := "prog" } fallback ["say", "it"] cfg →
        KeepsContracts cfg := by
  refine ⟨complete_fallback, (keepsContracts_iff complete_fallback (by simp)).mpr ?_⟩
  -- two segments and the end of the input
  refine Loop.forall_reaches_of_inl rfl (fun h => by cases h.1) ?_
  refine Loop.forall_reaches_of_inl rfl (fun h => by cases h.1) ?_
  exact Loop.forall_reaches_of_inr rfl (fun h => by cases h.2.1)

/-- Its beginning takes the end of the input to `ParseOptionsState`. -/
theorem not_keepsContracts_say :
    (∀ c ∈ fallback, c.Complete) ∧
      Parses .debug { programName := "prog" } fallback ["say"]
          (.faulted (.contract .tokenIsNotEndOfInput)) ∧
      ¬ ∀ cfg, Reachable .debug { programName := "prog" } fallback ["say"] cfg →
        KeepsContracts cfg := by
  have hparses : Parses .debug { programName := "prog" } fallback ["say"]
      (.faulted (.contract .tokenIsNotEndOfInput)) := ⟨3, rfl⟩
  exact ⟨complete_fallback, hparses, fun h =>
    (h _ (Loop.reaches_of_inl rfl)).holds .tokenIsNotEndOfInput rfl rfl⟩

end Parser

end AsapClap
