import AsapClap.Parser.Final

/-!
# AsapClap.Parser.Faults

Everything that can go wrong while `Parse` handles a token, as conditions on the
configuration it is handled in.

`FinalFaults` is about the tokens, arguments and options `FinalState` finds, `Stuck`
about all the states; both are exact (`settle_error_iff`, `stuck_iff`).
-/

namespace AsapClap

namespace Parser

open Errors LongestPrefix

variable {V : Type} {b : Build}

/-! ## The end of a parse -/

/-- An option without value semantics is asked for its default: it was given no value,
no option with its key in front of it has a default, and nothing required was found
lacking by then. -/
def AsksNull (options : List (ClapOption V)) (ovm : OptionValuesMap V) : Prop :=
  ∃ before option behind, options = before ++ option :: behind ∧ option.valueSemantic = none ∧
    ovm.values option.key = [] ∧ firstDefault before option.key = none ∧ ¬ Lacks before ovm

/-- `FinalState` goes wrong with the positional tokens or the values there are. -/
inductive FinalFaults (b : Build) (command : Command V) (context : ParserContext V) : Prop
  /-- a positional argument is none, or has no value semantics -/
  | unserved (h : ¬ Served b command.positionalArgs)
  /-- the tokens run out -/
  | runsOut (h : context.positionalTokens.length < (nonRest command.positionalArgs).length)
  /-- tokens are left for a `Rest` argument without value semantics -/
  | rest {option : ClapOption V}
      (hleft : (nonRest command.positionalArgs).length < context.positionalTokens.length)
      (hrest : lastRest command.positionalArgs = some option)
      (hsem : option.valueSemantic = none)
  /-- an option without value semantics is asked for its default -/
  | asks {ps : List (ClapOption V × String)}
      (hassigned : assigned command.positionalArgs context.positionalTokens = some ps)
      (h : AsksNull (command.options ++ command.positionalArgs)
        (context.ovm.storeAll (ps.filterMap positionalEntry)))

namespace FinalState

/-- The loop over the options crashes if it asks one without value semantics for its default. -/
theorem checkRequiredOptions_eq_error_iff (options : List (ClapOption V))
    (context : ParserContext V) {fault : Fault} :
    checkRequiredOptions options context = .error fault ↔
      fault = .nullPointer ∧ AsksNull options context.ovm := by
  constructor
  · intro h
    induction options using List.reverseRecOn with
    | nil => cases h
    | append_singleton options o ih =>
        rw [checkRequiredOptions_append] at h
        have hchecks := checks options context
        generalize hcheck : checkRequiredOptions options context = result at hchecks h
        cases hchecks with
        | complete values lacks =>
            simp only [ok_bind, checkRequiredOptions] at h
            split at h
            · cases h
            · next hgiven =>
              rw [Bool.not_eq_true, OptionValuesMap.hasOption_eq_false_iff] at hgiven
              obtain ⟨hnil, hdefault⟩ := orDefault_eq_nil.mp ((values o.key).symm.trans hgiven)
              cases hsem : o.valueSemantic with
              | none =>
                  rw [hsem] at h
                  cases h
                  exact ⟨rfl, options, o, [], rfl, hsem, hnil, hdefault, lacks⟩
              | some semantics =>
                  rw [hsem, deref_some, ok_bind] at h
                  split at h
                  · cases h
                  · split at h <;> cases h
        | lacking => cases h
        | asks =>
            cases h
            obtain ⟨hfault, before, o', behind, hsplit, hnull⟩ := ih hcheck
            exact ⟨hfault, before, o', behind ++ [o], by simp [hsplit], hnull⟩
  · rintro ⟨rfl, before, o, behind, rfl, hsem, hnil, hdefault, hlacks⟩
    rw [checkRequiredOptions_append]
    have hchecks := checks before context
    generalize checkRequiredOptions before context = result at hchecks ⊢
    cases hchecks with
    | @complete ovm values lacks =>
        have hgiven : ovm.hasOption o.key = false := by
          rw [OptionValuesMap.hasOption_eq_false_iff, values, orDefault_eq_nil]
          exact ⟨hnil, hdefault⟩
        simp [checkRequiredOptions, hgiven, hsem]
    | lacking mem required default given lacks => exact absurd lacks hlacks
    | asks => rfl

/-- The validation crashes in its first loop or in its second, for the same reason. -/
theorem validate_eq_error_iff (command : Command V) (context : ParserContext V) {fault : Fault} :
    validate command context = .error fault ↔
      fault = .nullPointer ∧ AsksNull (command.options ++ command.positionalArgs) context.ovm := by
  rw [← checkRequiredOptions_eq_error_iff, validate_eq]
  rcases checkRequiredOptions (command.options ++ command.positionalArgs) context with
    fault' | ⟨message | -, context'⟩ <;> simp

/-- `FinalState` goes wrong in exactly these cases. -/
theorem settle_error_iff {context : ParserContext V} {command : Command V}
    (hcommand : context.activeCommand = some command) :
    (∃ fault, settle b context = .error fault) ↔ FinalFaults b command context := by
  rcases settle_cases (b := b) hcommand with ⟨ps, hassigned, hsettle, hserved, hrest⟩ |
    ⟨ps, left, htake, hleft, hlast, hsettle, hserved⟩ | ⟨hlen, -, hsettle⟩ |
    ⟨fault, -, hsettle, hwhy⟩
  · obtain ⟨⟨qs, left⟩, htake, -⟩ := Option.bind_eq_some_iff.mp hassigned
    have hlen := length_of_takePositionals htake
    rw [hsettle]
    constructor
    · rintro ⟨fault, h⟩
      exact .asks hassigned ((validate_eq_error_iff ..).mp h).2
    · intro h
      cases h with
      | unserved h => exact absurd hserved h
      | runsOut h => omega
      | rest hmore hlast hsem =>
          have hsome := hrest hmore _ hlast
          simp [hsem] at hsome
      | asks hassigned' h =>
          obtain rfl := Option.some.inj (hassigned.symm.trans hassigned')
          exact ⟨_, (validate_eq_error_iff ..).mpr ⟨rfl, h⟩⟩
  · have hlen := length_of_takePositionals htake
    constructor
    · rintro ⟨fault, h⟩
      rw [hsettle] at h
      cases h
    · intro h
      cases h with
      | unserved h => exact absurd hserved h
      | runsOut h => omega
      | rest _ hlast' _ =>
          rw [hlast] at hlast'
          cases hlast'
      | asks hassigned h =>
          obtain ⟨token, left, rfl⟩ := List.exists_cons_of_ne_nil hleft
          simp [assigned, htake, hlast] at hassigned
  · exact iff_of_true ⟨_, hsettle⟩ (.runsOut hlen)
  · refine iff_of_true ⟨fault, hsettle⟩ ?_
    obtain ⟨hb, o, ho, hnot⟩ | ⟨o, ho, hsem⟩ | ⟨hmore, o, hlast, hsem⟩ := hwhy
    · refine .unserved fun hserved => ?_
      simp [hserved.1 hb o ho] at hnot
    · obtain ⟨hmem, hrest⟩ := List.mem_filter.mp (List.mem_of_mem_take ho)
      refine .unserved fun hserved => ?_
      have hsome := hserved.2 o hmem (by simpa using hrest)
      simp [hsem] at hsome
    · exact .rest hmore hlast hsem

/-- `FinalState` lets a parse succeed if nothing goes wrong, every positional token has an
argument and nothing required is lacking. -/
theorem exists_settle_terminate_iff {context : ParserContext V} {command : Command V}
    (hcommand : context.activeCommand = some command) :
    (∃ result, settle b context = .ok (.terminate, result)) ↔
      ¬ FinalFaults b command context ∧
        ∃ ps, assigned command.positionalArgs context.positionalTokens = some ps ∧
          ¬ Lacks (command.options ++ command.positionalArgs)
            (context.ovm.storeAll (ps.filterMap positionalEntry)) := by
  rw [← settle_error_iff hcommand]
  constructor
  · rintro ⟨result, h⟩
    obtain ⟨command', ps, hcommand', hassigned, -, -, hlacks⟩ := settle_terminate h
    obtain rfl := Option.some.inj (hcommand.symm.trans hcommand')
    exact ⟨by simp [h], ps, hassigned, hlacks⟩
  · rintro ⟨hfaults, ps, hassigned, hlacks⟩
    rcases settle_cases (b := b) hcommand with ⟨ps', hassigned', hsettle, -⟩ |
      ⟨ps', left, htake, hleft, hlast, -⟩ | ⟨-, -, hsettle⟩ | ⟨fault, -, hsettle, -⟩
    · obtain rfl := Option.some.inj (hassigned.symm.trans hassigned')
      rcases validate_cases command
          { storePositionals context ps with positionalTokens := [] } with
        ⟨ovm, hvalidate, -⟩ | ⟨o, -, -, -, -, ovm, -, hlacks'⟩ | ⟨hvalidate, -⟩
      · exact ⟨_, hsettle.trans hvalidate⟩
      · exact absurd hlacks' hlacks
      · exact absurd ⟨_, hsettle.trans hvalidate⟩ hfaults
    · obtain ⟨token, left, rfl⟩ := List.exists_cons_of_ne_nil hleft
      simp [assigned, htake, hlast] at hassigned
    · exact absurd ⟨_, hsettle⟩ hfaults
    · exact absurd ⟨_, hsettle⟩ hfaults

end FinalState

/-! ## The option states -/

/-- An option state is entered, or not, without a fault, unless an option without value
semantics occurs for the second time. -/
theorem enterOption_error_iff {flag token : String} {find : Command V → Option (ClapOption V)}
    {context : ParserContext V} {command : Command V}
    (hcommand : context.activeCommand = some command) :
    (∃ fault, enterOption b flag find token true context = .error fault) ↔
      ∃ option, find command = some option ∧ option.valueSemantic = none ∧
        0 < context.ovm.occurrencesOf option.key := by
  simp only [enterOption, takeData_true, ok_bind, hcommand, Option.isSome_some, Build.expect_true,
    deref_some]
  cases hfind : find command with
  | none => simp
  | some option =>
      simp only [checkMultipleOccurrence, deref_some, ok_bind, Option.some.injEq,
        exists_eq_left']
      by_cases hoccurs : context.ovm.occurrencesOf option.key < 1
      · have hnot : ¬ 0 < context.ovm.occurrencesOf option.key := by omega
        simp [hoccurs, hnot]
      · have hpos : 0 < context.ovm.occurrencesOf option.key := by omega
        simp only [hoccurs, if_false, hpos, and_true]
        cases hsem : option.valueSemantic with
        | none => simp
        | some semantics =>
            cases hrepeatable : semantics.isRepeatable with
            | true => simp [hrepeatable]
            | false =>
                -- the message reads the first of the values there are
                have hne := OptionValuesMap.occurrencesOf_pos_iff.mp hpos
                obtain ⟨value, values, hvalues⟩ := List.exists_cons_of_ne_nil hne
                have hcontains : context.ovm.contains option.key = true :=
                  Multimap.contains_iff.mpr hne
                simp [hrepeatable, illegalMultipleOccurrence, hpos, hvalues, hcontains,
                  OptionValuesMap.valuesOf?]

/-- A message needs an active option. -/
theorem optionSyntaxError_error_iff {context : ParserContext V} {message : String} :
    (∃ fault, optionSyntaxError context message = .error fault) ↔ context.activeOption = none := by
  cases h : context.activeOption <;> simp [optionSyntaxError, h]

/-- Leaving an option state goes wrong only if the option has neither a value nor value
semantics. -/
theorem leaveOption_error_iff {context : ParserContext V} {value : Option String}
    {option : ClapOption V} (hoption : context.activeOption = some option) :
    (∃ fault, leaveOption value context = .error fault) ↔
      value = none ∧ option.valueSemantic = none := by
  cases value with
  | some value => simp
  | none =>
      rw [leaveOption_none hoption]
      cases hsem : option.valueSemantic with
      | none => simp
      | some semantics =>
          cases himplicit : semantics.applyImplicit <;>
            simp [himplicit, missingValueForOption, hoption]

/-- To offer a value to an active option does not crash. -/
theorem offer_not_faulted {context : ParserContext V} {option : ClapOption V}
    {semantics : ValueSemantics V} {taken : Phase} {fallback : Bool} {text : String}
    (hoption : context.activeOption = some option) (fault : Fault) :
    offer b option semantics taken fallback context text ≠ .error (.faulted fault) := by
  cases hparse : semantics.parse text with
  | some value => simp [offer_of_parse hparse]
  | none =>
      cases himplicit : semantics.applyImplicit with
      | none => simp [offer_of_missing hparse (.inr himplicit), missingValueForOption, hoption]
      | some p =>
          cases fallback with
          | false => simp [offer_of_missing hparse (.inl rfl), missingValueForOption, hoption]
          | true => simp [offer_of_implicit hparse himplicit, dispatch]

/-- A value behind an option goes wrong if the option has no value semantics and is asked
for them. -/
theorem continueShort_value_faulted_iff {context : ParserContext V} {option : ClapOption V}
    {value : Option String} {text : String} (hoption : context.activeOption = some option) :
    (∃ fault, continueShort b value context (.value, text) = .error (.faulted fault)) ↔
      option.valueSemantic = none ∧ (b = .debug ∨ value = none) := by
  rw [continueShort, activeSemantics_eq hoption]
  cases hsem : option.valueSemantic with
  | none => cases b <;> cases value <;> simp [dispatch]
  | some semantics => cases value <;> simp [dispatch, offer_not_faulted hoption]

/-- When a value behind a long name crashes. -/
theorem continueLong_value_faulted_iff {context : ParserContext V} {option : ClapOption V}
    {value : Option String} {afterEqual : Bool} {text : String}
    (hoption : context.activeOption = some option) :
    (∃ fault, continueLong b value afterEqual context (.value, text) = .error (.faulted fault)) ↔
      option.valueSemantic = none ∧ (b = .debug ∨ value = none ∧
        (afterEqual || context.allowLongOptionValueWithNoEqual) = true) := by
  rw [continueLong, activeSemantics_eq hoption]
  cases hallow : context.allowLongOptionValueWithNoEqual <;> cases afterEqual <;>
    cases hsem : option.valueSemantic <;> cases b <;> cases value <;>
      simp [dispatch, offer_not_faulted hoption, optionSyntaxError, hoption]

/-- Once the command is known and no option waits, a token goes wrong in these cases. -/
theorem dispatch_faulted_iff {context : ParserContext V} {command : Command V} {token : Token}
    (hcommand : context.activeCommand = some command) :
    (∃ fault, dispatch b context token = .error (.faulted fault)) ↔
      (∃ option, command.resolve token = some option ∧ option.valueSemantic = none ∧
        0 < context.ovm.occurrencesOf option.key) ∨
      token.1 = .equalSign ∧ context.activeOption = none := by
  have haccept : ∀ {flag text : String} {find : Command V → Option (ClapOption V)} {phase : Phase},
      (∃ fault, (do
          let context ← accept (enterOption b flag find text true context)
          return (phase, context) : Except (Stop V) _) = .error (.faulted fault)) ↔
        ∃ fault, enterOption b flag find text true context = .error fault := by
    intro flag text find phase
    obtain fault | ⟨status, context'⟩ := enterOption b flag find text true context
    · simp
    · cases status <;> simp [accept]
  obtain ⟨tokenType, text⟩ := token
  cases tokenType with
  | value => simp [dispatch]
  | dashDash => simp [dispatch, Command.resolve]
  | endOfInput => simp [dispatch, Command.resolve]
  | equalSign =>
      simp only [dispatch, resolve_equalSign, reduceCtorEq, false_and, exists_false, true_and,
        false_or]
      rw [← optionSyntaxError_error_iff]
      cases optionSyntaxError context <;> simp
  | shortOption | loneDash | longOption =>
      simp only [dispatch, Command.resolve, reduceCtorEq, false_and, or_false]
      rw [haccept, enterOption_error_iff hcommand]

/-! ## One token -/

/-- The active option has no value semantics. -/
def NoSemantics (context : ParserContext V) : Prop :=
  ∃ option, context.activeOption = some option ∧ option.valueSemantic = none

/-- What the states cannot handle. -/
def Stuck (b : Build) (cfg : Config V) : Prop :=
  match cfg.state, cfg.token.1 with
  | .initialState, .endOfInput | .parseOptionsState, .endOfInput =>
      ∃ command, cfg.data.context.activeCommand = some command ∧
        FinalFaults b command cfg.data.context
  | .identifyCommandState, .endOfInput =>
      match cfg.data.lastMatchedCommand, cfg.data.defaultCommand with
      | some command, _ =>
          FinalFaults b command { cfg.data.context with activeCommand := some command }
      -- `ParseOptionsState` does not expect to be entered with the end of the input
      | none, some _ => b = .debug
      | none, none => False
  | .parseOptionsState, .equalSign => cfg.data.context.activeOption = none
  | .parseOptionsState, _ =>
      ∃ command option, cfg.data.context.activeCommand = some command ∧
        command.resolve cfg.token = some option ∧ option.valueSemantic = none ∧
        0 < cfg.data.context.ovm.occurrencesOf option.key
  | .parseShortOptionState, .value =>
      NoSemantics cfg.data.context ∧ (b = .debug ∨ cfg.data.shortValue = none)
  | .parseShortOptionState, _ => NoSemantics cfg.data.context ∧ cfg.data.shortValue = none
  | .parseLongOptionState, .value =>
      NoSemantics cfg.data.context ∧ (b = .debug ∨ cfg.data.longValue = none ∧
        (cfg.data.afterEqualSign || cfg.data.context.allowLongOptionValueWithNoEqual) = true)
  | .parseLongOptionState, .equalSign => NoSemantics cfg.data.context ∧ b = .debug
  | .parseLongOptionState, _ => NoSemantics cfg.data.context ∧ cfg.data.longValue = none
  -- `DashDashState` ignores the end of the input like any other token
  | .dashDashState, .endOfInput => True
  | _, _ => False

/-- Handling the token goes wrong. -/
def Config.Faults (b : Build) (cfg : Config V) : Prop :=
  ∃ fault, (machine b).step cfg.state cfg.token cfg.data = .error fault

section

variable {cfg : Config V} {phase : Phase} {context : ParserContext V}

/-- Where the machine does what the pass says, it crashes as the pass does. -/
theorem faults_iff_of_handles {result : Except (Stop V) (Phase × ParserContext V)}
    (hstate : cfg.state = phase.state) (hdata : cfg.data = phase.data context)
    (h : Handles b phase context cfg.token result) :
    cfg.Faults b ↔ ∃ fault, result = .error (.faulted fault) := by
  rw [Config.Faults, hstate, hdata]
  obtain (⟨message, context'⟩ | fault | _) | ⟨phase', context'⟩ := result
  · obtain ⟨state, d, hstep, -⟩ := h
    simp [hstep]
  · have hstep : _ = _ := h
    simp [hstep]
  · obtain ⟨d, hstep⟩ := h
    simp [hstep]
  · simp [h.2]

/-- To hand a token on does not crash. -/
theorem not_faults_of_handsOn {context' : ParserContext V} (hstate : cfg.state = phase.state)
    (hdata : cfg.data = phase.data context) (h : HandsOn b phase context cfg.token context') :
    ¬ cfg.Faults b := by
  rw [Config.Faults, hstate, hdata, h.2.2]
  simp

/-- To report an error does not crash. -/
theorem not_faults_of_rejected {message : String} {context' : ParserContext V}
    (hstate : cfg.state = phase.state) (hdata : cfg.data = phase.data context)
    (h : Stops b phase context cfg.token (.rejected message context')) : ¬ cfg.Faults b := by
  obtain ⟨state, d, hstep, -⟩ := h
  rw [Config.Faults, hstate, hdata, hstep]
  simp

/-- The states up to the choice of a command handle every token but the end of the
input. -/
theorem not_faults_of_followsSafely (hstate : cfg.state = phase.state)
    (hdata : cfg.data = phase.data context) (h : FollowsSafely b phase context cfg.token) :
    ¬ cfg.Faults b := by
  obtain ⟨hhandles, hsafe⟩ | ⟨context', hhand, -⟩ := h
  · rw [faults_iff_of_handles hstate hdata hhandles]
    exact fun ⟨fault, hfault⟩ => hsafe fault hfault
  · exact not_faults_of_handsOn hstate hdata hhand

/-- Where `FinalState` is entered, the step goes wrong exactly if `FinalState` does. -/
theorem step_eq_error_iff_of_entersFinal {entry : ParserContext V} {fault : Fault}
    (h : EntersFinal b cfg entry) :
    (machine b).step cfg.state cfg.token cfg.data = .error fault ↔
      FinalState.settle b entry = .error fault := by
  obtain ⟨d, hdepart, rfl⟩ := h
  rw [Fsm.StateMachine.step_of_depart hdepart]
  change _ <$> FinalState.onEnter b true d = _ ↔ _
  rw [FinalState.onEnter_eq]
  cases FinalState.settle b d.context <;> simp

/-- Where `FinalState` is entered, its `OnEnter` decides. -/
theorem faults_iff_settle {entry : ParserContext V} (h : EntersFinal b cfg entry) :
    cfg.Faults b ↔ ∃ fault, FinalState.settle b entry = .error fault :=
  exists_congr fun _ => step_eq_error_iff_of_entersFinal h

/-- The same, with the active command at hand. -/
theorem faults_iff_of_entersFinal {entry : ParserContext V} {command : Command V}
    (h : EntersFinal b cfg entry) (hcommand : entry.activeCommand = some command) :
    cfg.Faults b ↔ FinalFaults b command entry :=
  (faults_iff_settle h).trans (FinalState.settle_error_iff hcommand)

/-- What goes wrong in `FinalState` goes wrong at the end of the input. -/
theorem stuck_iff_finalFaults (hstate : cfg.state = .initialState ∨ cfg.state = .parseOptionsState)
    (htoken : cfg.token.1 = .endOfInput) :
    Stuck b cfg ↔ ∃ command, cfg.data.context.activeCommand = some command ∧
      FinalFaults b command cfg.data.context := by
  obtain hstate | hstate := hstate <;> rw [Stuck, hstate, htoken]

/-- In `InitialState`. -/
theorem faults_iff_of_start (hstate : cfg.state = Phase.start.state)
    (hdata : cfg.data = Phase.start.data context) (hwf : Phase.start.Wf context) :
    cfg.Faults b ↔ Stuck b cfg := by
  by_cases htoken : cfg.token.1 = .endOfInput
  · rw [stuck_iff_finalFaults (.inl hstate) htoken, hdata, Phase.context_data]
    have hfinish : Finishes b .start context cfg.token _ := finishes_start htoken
    cases hactive : context.activeCommand with
    | some command =>
        simp only [finish, hactive, Option.isSome_some, if_true] at hfinish
        obtain ⟨d, hdepart, rfl⟩ := hfinish
        have henters : EntersFinal b cfg d.context := ⟨d, by rw [hstate, hdata]; exact hdepart, rfl⟩
        rw [faults_iff_of_entersFinal henters hactive]
        simp
    | none =>
        simp only [finish, hactive, Option.isSome_none, Bool.false_eq_true, if_false] at hfinish
        simpa using not_faults_of_rejected hstate hdata hfinish
  · refine iff_of_false (not_faults_of_followsSafely hstate hdata (begin_follows hwf htoken)) ?_
    rw [Stuck, hstate]
    cases h : cfg.token.1 <;> simp_all [Phase.state]

/-- In `IdentifyCommandState`. -/
theorem faults_iff_of_naming {typed : List String}
    (hstate : cfg.state = (Phase.naming typed).state)
    (hdata : cfg.data = (Phase.naming typed).data context) (hwf : (Phase.naming typed).Wf context) :
    cfg.Faults b ↔ Stuck b cfg := by
  by_cases htoken : cfg.token.1 = .endOfInput
  · have hstuck : Stuck b cfg ↔
        match longest Command.path context.commands typed, lastDefault context.commands with
        | some command, _ => FinalFaults b command { context with activeCommand := some command }
        | none, some _ => b = .debug
        | none, none => False := by
      rw [Stuck, hstate, htoken, hdata]
      rfl
    rw [hstuck]
    cases hlong : longest Command.path context.commands typed with
    | some command =>
        have hfinish := finishes_naming (b := b) hwf htoken (.inr (.inl (by simp [hlong])))
        rw [finish, select, hlong] at hfinish
        obtain ⟨d, hdepart, hcontext⟩ := hfinish
        have henters : EntersFinal b cfg { context with activeCommand := some command } :=
          ⟨d, by rw [hstate, hdata]; exact hdepart, hcontext⟩
        exact faults_iff_of_entersFinal henters rfl
    | none =>
        cases hdef : lastDefault context.commands with
        | none =>
            have hfinish := finishes_naming (b := b) hwf htoken (.inr (.inr hdef))
            rw [finish, select, hlong, hdef] at hfinish
            simpa using not_faults_of_rejected hstate hdata hfinish
        | some command =>
            cases b with
            | debug =>
                have hfinish := finishes_naming hwf htoken (.inl rfl)
                rw [finish, select, hlong, hdef] at hfinish
                refine iff_of_true ?_ rfl
                rw [Config.Faults, hstate, hdata]
                exact ⟨_, hfinish⟩
            | release =>
                refine iff_of_false (not_faults_of_handsOn hstate hdata
                  (handsOn_naming_of_release hwf htoken hlong hdef)) ?_
                simp
  · refine iff_of_false
      (not_faults_of_followsSafely hstate hdata (continueNaming_follows hwf htoken)) ?_
    rw [Stuck, hstate]
    cases h : cfg.token.1 <;> simp_all [Phase.state]

/-- In `ParseOptionsState`. -/
theorem faults_iff_of_ready (hstate : cfg.state = Phase.ready.state)
    (hdata : cfg.data = Phase.ready.data context) (hwf : Phase.ready.Wf context) :
    cfg.Faults b ↔ Stuck b cfg := by
  obtain ⟨command, hcommand⟩ := Option.isSome_iff_exists.mp hwf
  by_cases htoken : cfg.token.1 = .endOfInput
  · have hfinish : Finishes b .ready context cfg.token _ := finishes_ready htoken
    obtain ⟨d, hdepart, hcontext⟩ := hfinish
    have henters : EntersFinal b cfg context := ⟨d, by rw [hstate, hdata]; exact hdepart, hcontext⟩
    rw [stuck_iff_finalFaults (.inr hstate) htoken, hdata, Phase.context_data,
      faults_iff_of_entersFinal henters hcommand, hcommand]
    simp
  · rw [faults_iff_of_handles hstate hdata (dispatch_handles hwf htoken),
      dispatch_faulted_iff hcommand, Stuck, hstate, hdata]
    rcases htok : cfg.token with ⟨tokenType, text⟩
    cases tokenType with
    | endOfInput => simp [htok] at htoken
    | equalSign => simp [Phase.state, Phase.data]
    | _ => simp [Phase.state, Phase.data, hcommand]

/-- A token an option state lets go of goes wrong if the option has neither a value nor
value semantics. -/
theorem faults_iff_of_leave {context₁ : ParserContext V} {value : Option String} {d : Data V}
    {option : ClapOption V} (hstate : cfg.state = phase.state)
    (hdata : cfg.data = phase.data context) (hphase : phase ≠ .ready)
    (hcommand : context₁.activeCommand.isSome)
    (hoption : context₁.activeOption = some option)
    (hhandle : (machine b).handle phase.state cfg.token (phase.data context) =
      .ok (.transitionTo .parseOptionsState false, d))
    (hleave : (machine b).onLeave phase.state cfg.token d =
      (fun p => (p.1, if p.1 = .continue_ then Phase.ready.data p.2 else { d with context := p.2 }))
        <$> leaveOption value context₁) :
    cfg.Faults b ↔ option.valueSemantic = none ∧ value = none := by
  rw [and_comm, ← leaveOption_error_iff hoption]
  rcases handsOn_or_stops_of_leave phase hphase hcommand (by simp [hoption]) hhandle hleave with
    ⟨context', hhand, haccept⟩ | ⟨stop, hstop, haccept⟩
  · refine iff_of_false (not_faults_of_handsOn hstate hdata hhand) ?_
    rintro ⟨fault, hfault⟩
    simp [hfault] at haccept
  · cases stop with
    | rejected message context' =>
        refine iff_of_false (not_faults_of_rejected hstate hdata hstop) ?_
        rintro ⟨fault, hfault⟩
        simp [hfault] at haccept
    | faulted fault =>
        refine iff_of_true ⟨fault, by rw [hstate, hdata]; exact hstop⟩ ?_
        cases h : leaveOption value context₁ with
        | error fault => exact ⟨fault, rfl⟩
        | ok p =>
            obtain ⟨status, context'⟩ := p
            cases status <;> simp [h, accept] at haccept
    | swallowed => exact absurd haccept accept_ne_swallowed

/-- A value that is handed on goes wrong nowhere. -/
theorem faults_iff_of_follows_value (hstate : cfg.state = phase.state)
    (hdata : cfg.data = phase.data context) (hvalue : cfg.token.1 = .value)
    (h : Follows b phase context cfg.token) :
    cfg.Faults b ↔ ∃ fault, advance b phase context cfg.token = .error (.faulted fault) := by
  obtain hhandles | ⟨context', hhand, hadvance⟩ := h
  · exact faults_iff_of_handles hstate hdata hhandles
  · refine iff_of_false (not_faults_of_handsOn hstate hdata hhand) ?_
    obtain ⟨text, htok⟩ := Token.exists_text hvalue
    rw [hadvance, htok]
    simp [dispatch]

theorem noSemantics_iff {option : ClapOption V} (hoption : context.activeOption = some option) :
    NoSemantics context ↔ option.valueSemantic = none := by
  simp [NoSemantics, hoption]

/-- In `ParseShortOptionState`. -/
theorem faults_iff_of_short {value : Option String}
    (hstate : cfg.state = (Phase.short value).state)
    (hdata : cfg.data = (Phase.short value).data context) (hwf : (Phase.short value).Wf context) :
    cfg.Faults b ↔ Stuck b cfg := by
  obtain ⟨option, hoption⟩ := Option.isSome_iff_exists.mp hwf.2
  by_cases hvalue : cfg.token.1 = .value
  · have hstuck : Stuck b cfg ↔ NoSemantics context ∧ (b = .debug ∨ value = none) := by
      rw [Stuck, hstate, hvalue, hdata]
      rfl
    obtain ⟨text, htok⟩ := Token.exists_text hvalue
    rw [hstuck, noSemantics_iff hoption,
      faults_iff_of_follows_value hstate hdata hvalue (continueShort_follows hwf), htok]
    exact continueShort_value_faulted_iff hoption
  · have hstuck : Stuck b cfg ↔ NoSemantics context ∧ value = none := by
      rw [Stuck, hstate, hdata]
      cases htoken : cfg.token.1 <;> first | rfl | exact absurd htoken hvalue
    rw [hstuck, noSemantics_iff hoption]
    exact faults_iff_of_leave hstate hdata (by simp) hwf.1 hoption (handle_short_other hvalue _)
      (onLeave_short b _ value context)

/-- In `ParseLongOptionState`. -/
theorem faults_iff_of_long {value : Option String} {afterEqual : Bool}
    (hstate : cfg.state = (Phase.long value afterEqual).state)
    (hdata : cfg.data = (Phase.long value afterEqual).data context)
    (hwf : (Phase.long value afterEqual).Wf context) : cfg.Faults b ↔ Stuck b cfg := by
  obtain ⟨option, hoption⟩ := Option.isSome_iff_exists.mp hwf.2
  by_cases hvalue : cfg.token.1 = .value
  · have hstuck : Stuck b cfg ↔ NoSemantics context ∧ (b = .debug ∨ value = none ∧
        (afterEqual || context.allowLongOptionValueWithNoEqual) = true) := by
      rw [Stuck, hstate, hvalue, hdata]
      rfl
    obtain ⟨text, htok⟩ := Token.exists_text hvalue
    rw [hstuck, noSemantics_iff hoption,
      faults_iff_of_follows_value hstate hdata hvalue (continueLong_follows hwf), htok]
    exact continueLong_value_faulted_iff hoption
  · by_cases hequal : cfg.token.1 = .equalSign
    · have hstuck : Stuck b cfg ↔ NoSemantics context ∧ b = .debug := by
        rw [Stuck, hstate, hequal, hdata]
        rfl
      obtain ⟨text, htok⟩ := Token.exists_text hequal
      have hhandles : Handles b (.long value afterEqual) context cfg.token
          (advance b (.long value afterEqual) context (.equalSign, text)) := by
        rw [htok]
        exact continueLong_equalSign_handles hwf
      rw [hstuck, noSemantics_iff hoption, faults_iff_of_handles hstate hdata hhandles, advance,
        continueLong, activeSemantics_eq hoption]
      cases hsem : option.valueSemantic <;> cases b <;> simp
    · have hstuck : Stuck b cfg ↔ NoSemantics context ∧ value = none := by
        rw [Stuck, hstate, hdata]
        cases htoken : cfg.token.1 <;> first
          | rfl
          | exact absurd htoken hvalue
          | exact absurd htoken hequal
      rw [hstuck, noSemantics_iff hoption]
      exact faults_iff_of_leave hstate hdata (by simp) hwf.1 hoption
        (handle_long_other hvalue hequal _) (onLeave_long b _ value afterEqual context)

/-- **Faults**: handling a token goes wrong in exactly the configurations that are stuck. -/
theorem faults_iff_stuck {tokens : List Token} (h : cfg.Matches phase context tokens) :
    cfg.Faults b ↔ Stuck b cfg := by
  obtain ⟨hstate, hdata, hwf, -⟩ := h
  cases phase with
  | start => exact faults_iff_of_start hstate hdata hwf
  | naming typed => exact faults_iff_of_naming hstate hdata hwf
  | ready => exact faults_iff_of_ready hstate hdata hwf
  | short value => exact faults_iff_of_short hstate hdata hwf
  | long value afterEqual => exact faults_iff_of_long hstate hdata hwf

end

end Parser

end AsapClap
