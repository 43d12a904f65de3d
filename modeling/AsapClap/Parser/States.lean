import AsapClap.Library.Fsm
import AsapClap.Tokenizer
import AsapClap.Parser.Context

/-!
# AsapClap.Parser.States

The seven states of the parser (`parser/states.h`): for each of them its
`Handle`, `OnEnter` and `OnLeave`, one namespace a state.

All states point to one `ParserContext`, so the context is a single field of the
machine's data next to the members of the states.  Of the states' own `context_`
pointers only that of `ParseOptionsState` is asserted to be set, by the
`OnEnter` that takes no data, so only for that one the data records whether it
is.  What a state does not declare lets go of the event: no `OnEnter` and no
`OnLeave` mean `Continue`.
-/

namespace AsapClap

namespace Parser

open Errors

variable {V : Type}

/-- The states of `Machine`. -/
inductive State
  | initialState
  | identifyCommandState
  | parseOptionsState
  | parseShortOptionState
  | parseLongOptionState
  | dashDashState
  | finalState
  deriving DecidableEq, Repr

abbrev Action := Fsm.Action State

abbrev Status := Fsm.Status

/-- The shared context and the members of the states. -/
structure Data (V : Type) where
  context : ParserContext V
  /-- `IdentifyCommandState::filtered_commands_` -/
  filteredCommands : List (Command V) := []
  /-- `IdentifyCommandState::last_matched_command_` -/
  lastMatchedCommand : Option (Command V) := none
  /-- `IdentifyCommandState::default_command_` -/
  defaultCommand : Option (Command V) := none
  /-- `IdentifyCommandState::path_segments_` -/
  pathSegments : List String := []
  /-- whether `ParseOptionsState::context_` is set -/
  optionsHasContext : Bool := false
  /-- `ParseShortOptionState::value_` -/
  shortValue : Option String := none
  /-- `ParseLongOptionState::value_` -/
  longValue : Option String := none
  /-- `ParseLongOptionState::after_equal_sign` -/
  afterEqualSign : Bool := false

/-- The two lines that open every `OnEnter` with data: the data is expected to
be there, and is cast to the context. -/
def takeData (b : Build) (hasData : Bool) : Except Fault Unit := do
  b.expect .dataHasValue hasData
  if hasData then return () else .error .badAnyCast

@[simp] theorem takeData_true (b : Build) : takeData b true = .ok () := by
  simp [takeData]

/-! ## InitialState -/

namespace InitialState

/-- The constructor, which makes the first default command the active one. -/
def new (context : ParserContext V) : ParserContext V :=
  match context.commands.find? Command.isDefault with
  | some command => { context with activeCommand := some command }
  | none => context

/-- `MaybeCommand`. -/
def maybeCommand (context : ParserContext V) (token : String) : Bool :=
  context.commands.any fun command => decide (command.path[0]? = some token)

/-- `Handle`. -/
def handle (event : Token) (d : Data V) : Action :=
  match event with
  | (.value, token) =>
      if maybeCommand d.context token then .transitionTo .identifyCommandState true
      -- no path begins with it: a default command takes it for a positional token
      else if d.context.activeCommand.isSome then .transitionTo .parseOptionsState true
      else .reportError (unrecognizedCommand [token])
  | (.endOfInput, _) =>
      if d.context.activeCommand.isSome then .transitionTo .finalState true
      else .reportError (missingCommand d.context)
  | (.dashDash, _) =>
      if d.context.activeCommand.isSome then .transitionTo .dashDashState true
      else .reportError (missingCommand d.context)
  | _ =>
      if d.context.activeCommand.isSome then .transitionTo .parseOptionsState true
      else .reportError (missingCommand d.context)

end InitialState

/-! ## IdentifyCommandState -/

namespace IdentifyCommandState

/-- The predicate of the `copy_if` in `OnEnter`, with its side effects and the
copy. -/
def keepOnEnter (token : String) (d : Data V) (command : Command V) : Data V :=
  -- overwritten by every further default command, as the match is by every further one
  let d := if command.isDefault then { d with defaultCommand := some command } else d
  if command.path[0]? ≠ some token then d
  else
    let d := if command.path.length = 1 then { d with lastMatchedCommand := some command } else d
    { d with filteredCommands := d.filteredCommands ++ [command] }

/-- `OnEnter`; the state is entered with a `Value` only. -/
def onEnter (b : Build) (event : Token) (hasData : Bool) (d : Data V) :
    Except Fault (Status × Data V) :=
  match event with
  | (.value, token) => do
      takeData b hasData
      b.expect .commandsNotEmpty (!d.context.commands.isEmpty)
      let d := { d with pathSegments := d.pathSegments ++ [token] }
      let d := d.context.commands.foldl (keepOnEnter token) d
      b.expect .filteredCommandsNotEmpty (!d.filteredCommands.isEmpty)
      return (.continue_, d)
  | _ => return (.continue_, d)

/-- `Reset`. -/
def reset (d : Data V) : Data V :=
  { d with
    filteredCommands := []
    lastMatchedCommand := none
    defaultCommand := none
    pathSegments := [] }

/-- `OnLeave`. -/
def onLeave (d : Data V) : Status × Data V := (.continue_, reset d)

/-- The predicate of the `remove_if` in `Handle`, with its side effects; what it
does not remove is kept. -/
def keepOnValue (segmentsCount : Nat) (token : String) (d : Data V) (command : Command V) :
    Data V :=
  if command.path.length < segmentsCount ∨ command.path[segmentsCount - 1]? ≠ some token then d
  else
    let d :=
      if command.path.length = segmentsCount then { d with lastMatchedCommand := some command }
      else d
    { d with filteredCommands := d.filteredCommands ++ [command] }

/-- Fall back on the default command: what was collected becomes positional. -/
def useDefault (b : Build) (command : Command V) (segments : List String) (d : Data V) :
    Except Fault (Action × Data V) := do
  let d := { d with context.activeCommand := some command }
  b.expect .positionalTokensEmpty d.context.positionalTokens.isEmpty
  return (.transitionTo .parseOptionsState true,
    { d with context.positionalTokens := d.context.positionalTokens ++ segments })

/-- `Handle` of a `Value`. -/
def handleValue (b : Build) (token : String) (d : Data V) : Except Fault (Action × Data V) := do
  b.expect .pathSegmentsNotEmpty (!d.pathSegments.isEmpty)
  let d := { d with pathSegments := d.pathSegments ++ [token] }
  let d := d.filteredCommands.foldl (keepOnValue d.pathSegments.length token)
    { d with filteredCommands := [] }
  if d.filteredCommands.isEmpty then
    match d.lastMatchedCommand, d.defaultCommand with
    | some command, _ =>
        return (.transitionTo .parseOptionsState true,
          { d with context.activeCommand := some command })
    | none, some command =>
        -- the segment just pushed is dispatched again by `ParseOptionsState`
        let d := { d with pathSegments := d.pathSegments.dropLast }
        useDefault b command d.pathSegments d
    | none, none => return (.reportError (unrecognizedCommand d.pathSegments), d)
  else return (.doNothing, d)

/-- `Handle` of any other token. -/
def handleOther (b : Build) (tokenType : TokenType) (d : Data V) :
    Except Fault (Action × Data V) := do
  b.expect .pathSegmentsNotEmpty (!d.pathSegments.isEmpty)
  match d.lastMatchedCommand, d.defaultCommand with
  | some command, _ =>
      let d := { d with context.activeCommand := some command }
      match tokenType with
      | .dashDash => return (.transitionTo .dashDashState true, d)
      | .endOfInput => return (.transitionTo .finalState true, d)
      | _ => return (.transitionTo .parseOptionsState true, d)
  -- also at the end of the input, which `ParseOptionsState` does not expect
  | none, some command => useDefault b command d.pathSegments d
  | none, none => return (.reportError (unrecognizedCommand d.pathSegments), d)

/-- `Handle`. -/
def handle (b : Build) (event : Token) (d : Data V) : Except Fault (Action × Data V) :=
  match event with
  | (.value, token) => handleValue b token d
  | (tokenType, _) => handleOther b tokenType d

theorem handle_of_ne_value {b : Build} {event : Token} (h : event.1 ≠ .value) (d : Data V) :
    handle b event d = handleOther b event.1 d := by
  obtain ⟨tokenType, text⟩ := event
  cases tokenType with
  | value => exact absurd rfl h
  | _ => rfl

end IdentifyCommandState

/-! ## ParseOptionsState -/

namespace ParseOptionsState

/-- `OnEnter`, with data and without. -/
def onEnter (b : Build) (event : Token) (hasData : Bool) (d : Data V) :
    Except Fault (Status × Data V) :=
  if hasData then do
    b.expect .tokenIsNotEndOfInput (event.1 ≠ .endOfInput)
    takeData b hasData
    b.expect .hasActiveCommand d.context.activeCommand.isSome
    return (.reissueEvent, { d with optionsHasContext := true })
  else do
    -- without data it goes back to the context that it has been given before
    b.expect .hasContext d.optionsHasContext
    return (.reissueEvent, d)

/-- `Handle`. -/
def handle (event : Token) (d : Data V) : Except Fault (Action × Data V) :=
  match event with
  | (.value, token) =>
      return (.doNothing,
        { d with context.positionalTokens := d.context.positionalTokens ++ [token] })
  | (.endOfInput, _) => return (.transitionTo .finalState true, d)
  | (.dashDash, _) => return (.transitionTo .dashDashState true, d)
  | (.longOption, _) => return (.transitionTo .parseLongOptionState true, d)
  | (.equalSign, _) => do
      let message ← optionSyntaxError d.context
      return (.reportError message, d)
  | (.shortOption, _) => return (.transitionTo .parseShortOptionState true, d)
  | (.loneDash, _) => return (.transitionTo .parseShortOptionState true, d)

end ParseOptionsState

/-! ## What the two option states share -/

/-- `TryImplicitValue`. -/
def tryImplicitValue (context : ParserContext V) : Except Fault (Bool × ParserContext V) := do
  let option ← deref context.activeOption
  let semantics ← deref option.valueSemantic
  match semantics.applyImplicit with
  | some (value, valueAsText) =>
      return (true, context.storeValue option value valueAsText false)
  | none => return (false, context)

/-- `CheckMultipleOccurrence`, which asks the semantics only when there is an
occurrence already. -/
def checkMultipleOccurrence (context : ParserContext V) : Except Fault Bool := do
  let option ← deref context.activeOption
  if context.ovm.occurrencesOf option.key < 1 then return true
  let semantics ← deref option.valueSemantic
  return semantics.isRepeatable

/-- `OnEnter` of the option states: `flag` is how the option was typed, `find`
how the active command looks it up. -/
def enterOption (b : Build) (flag : String) (find : Command V → Option (ClapOption V))
    (token : String) (hasData : Bool) (context : ParserContext V) :
    Except Fault (Status × ParserContext V) := do
  takeData b hasData
  b.expect .hasActiveCommand context.activeCommand.isSome
  let context := { context with activeOptionFlag := flag }
  let command ← deref context.activeCommand
  match find command with
  | none => return (.terminateWithError (unrecognizedOption context token), context)
  | some option =>
      let context := { context with activeOption := some option }
      if ← checkMultipleOccurrence context then return (.continue_, context)
      else
        let message ← illegalMultipleOccurrence b context
        return (.terminateWithError message, context)

/-- `OnLeave` of the option states up to their `Reset`: an option left without a
value gets its implicit one. -/
def leaveOption (value : Option String) (context : ParserContext V) :
    Except Fault (Status × ParserContext V) := do
  if value.isSome then return (.continue_, context)
  let (done, context) ← tryImplicitValue context
  if done then return (.continue_, context)
  let option ← deref context.activeOption
  let semantics ← deref option.valueSemantic
  -- a value is required where there is no implicit one
  if semantics.isRequired then
    let message ← missingValueForOption context
    return (.terminateWithError message, context)
  return (.continue_, context)

/-- The lines that open every `Handle` of the option states: the active option
and its semantics. -/
def activeSemantics (b : Build) (context : ParserContext V) :
    Except Fault (ClapOption V × Option (ValueSemantics V)) := do
  b.expect .hasActiveOption context.activeOption.isSome
  let option ← deref context.activeOption
  b.expect .hasValueSemantics option.valueSemantic.isSome
  return (option, option.valueSemantic)

/-- The end of `Handle` of a `Value`: the value is tried, then the implicit value
where `fallback` says so.  The last component is what `value_` becomes. -/
def tryValue (option : ClapOption V) (semantics : ValueSemantics V) (fallback : Bool)
    (token : String) (context : ParserContext V) :
    Except Fault (Action × ParserContext V × Option String) :=
  match semantics.parse token with
  | some value => return (.doNothing, context.storeValue option value token false, some token)
  | none => do
      let (done, context) ←
        if fallback then tryImplicitValue context else pure (false, context)
      if done then return (.transitionTo .parseOptionsState false, context, some "_implicit_")
      let message ← missingValueForOption context
      return (.reportError message, context, none)

section

variable {context context' : ParserContext V} {status : Status}

/-- An option state is entered with the option found, or ends the run. -/
theorem enterOption_ok {b : Build} {flag token : String}
    {find : Command V → Option (ClapOption V)} {hasData : Bool}
    (h : enterOption b flag find token hasData context = .ok (status, context')) :
    ∃ command, context.activeCommand = some command ∧
      ((∃ message, status = .terminateWithError message) ∧
          context' = { context with
            activeOptionFlag := flag
            activeOption := (find command).or context.activeOption } ∨
        ∃ option, find command = some option ∧ status = .continue_ ∧
          checkMultipleOccurrence context' = .ok true ∧
          context' = { context with activeOptionFlag := flag, activeOption := some option }) := by
  simp only [enterOption, bind_eq_ok, deref_eq_ok] at h
  obtain ⟨-, -, -, -, command, hcommand, h⟩ := h
  refine ⟨command, hcommand, ?_⟩
  split at h
  · next hfind =>
    cases h
    exact .inl ⟨⟨_, rfl⟩, by rw [hfind]; rfl⟩
  · next option hfind =>
    obtain ⟨single, hcheck, h⟩ := bind_eq_ok.mp h
    cases single with
    | true =>
        cases h
        exact .inr ⟨option, hfind, rfl, hcheck, rfl⟩
    | false =>
        obtain ⟨message, -, h⟩ := bind_eq_ok.mp h
        cases h
        exact .inl ⟨⟨_, rfl⟩, by rw [hfind]; rfl⟩

theorem activeSemantics_ok {b : Build} {option : ClapOption V}
    {semantics? : Option (ValueSemantics V)}
    (h : activeSemantics b context = .ok (option, semantics?)) :
    context.activeOption = some option ∧ semantics? = option.valueSemantic := by
  simp only [activeSemantics, bind_eq_ok, deref_eq_ok] at h
  obtain ⟨-, -, option', hoption, -, -, h⟩ := h
  cases h
  exact ⟨hoption, rfl⟩

theorem activeSemantics_eq {b : Build} {option : ClapOption V}
    (hoption : context.activeOption = some option) :
    activeSemantics b context =
      if b = .debug ∧ option.valueSemantic = none then .error (.contract .hasValueSemantics)
      else .ok (option, option.valueSemantic) := by
  cases b <;> cases hsem : option.valueSemantic <;> simp [activeSemantics, hoption, hsem]

theorem activeSemantics_of_some {b : Build} {option : ClapOption V} {semantics : ValueSemantics V}
    (hoption : context.activeOption = some option)
    (hsem : option.valueSemantic = some semantics) :
    activeSemantics b context = .ok (option, some semantics) := by
  rw [activeSemantics_eq hoption, if_neg (by simp [hsem]), hsem]

theorem tryImplicitValue_eq {option : ClapOption V} {semantics : ValueSemantics V}
    (hoption : context.activeOption = some option)
    (hsem : option.valueSemantic = some semantics) :
    tryImplicitValue context = .ok (match semantics.applyImplicit with
      | some (value, valueAsText) => (true, context.storeValue option value valueAsText false)
      | none => (false, context)) := by
  simp only [tryImplicitValue, hoption, hsem, deref_some, ok_bind]
  cases semantics.applyImplicit <;> rfl

theorem tryValue_of_parse {option : ClapOption V} {semantics : ValueSemantics V}
    {fallback : Bool} {token : String} {value : V} (hparse : semantics.parse token = some value) :
    tryValue option semantics fallback token context =
      .ok (.doNothing, context.storeValue option value token false, some token) := by
  simp [tryValue, hparse]

theorem tryValue_of_implicit {option : ClapOption V} {semantics : ValueSemantics V}
    {token valueAsText : String} {value : V} (hoption : context.activeOption = some option)
    (hsem : option.valueSemantic = some semantics) (hparse : semantics.parse token = none)
    (himplicit : semantics.applyImplicit = some (value, valueAsText)) :
    tryValue option semantics true token context =
      .ok (.transitionTo .parseOptionsState false,
        context.storeValue option value valueAsText false, some "_implicit_") := by
  simp [tryValue, hparse, tryImplicitValue_eq hoption hsem, himplicit]

theorem tryValue_of_missing {option : ClapOption V} {semantics : ValueSemantics V}
    {fallback : Bool} {token : String} (hoption : context.activeOption = some option)
    (hsem : option.valueSemantic = some semantics) (hparse : semantics.parse token = none)
    (hmissing : fallback = false ∨ semantics.applyImplicit = none) :
    tryValue option semantics fallback token context = (do
      let message ← missingValueForOption context
      return (.reportError message, context, none)) := by
  obtain rfl | himplicit := hmissing
  · simp [tryValue, hparse]
  · cases fallback <;>
      simp [tryValue, hparse, tryImplicitValue_eq hoption hsem, himplicit]

/-- A value is stored, or the implicit one is, or there is none. -/
theorem tryValue_ok {option : ClapOption V} {semantics : ValueSemantics V} {fallback : Bool}
    {token : String} {action : Action} {value : Option String}
    (hoption : context.activeOption = some option) (hsem : option.valueSemantic = some semantics)
    (h : tryValue option semantics fallback token context = .ok (action, context', value)) :
    (∃ parsed text, context' = context.storeValue option parsed text false) ∧ value.isSome ∧
        (action = .doNothing ∨ action = .transitionTo .parseOptionsState false) ∨
      context' = context ∧ value = none ∧ ∃ message, action = .reportError message := by
  cases hparse : semantics.parse token with
  | some parsed =>
      rw [tryValue_of_parse hparse] at h
      cases h
      exact .inl ⟨⟨parsed, token, rfl⟩, rfl, .inl rfl⟩
  | none =>
      by_cases hmissing : fallback = false ∨ semantics.applyImplicit = none
      · rw [tryValue_of_missing hoption hsem hparse hmissing] at h
        obtain ⟨message, -, h⟩ := bind_eq_ok.mp h
        cases h
        exact .inr ⟨rfl, rfl, message, rfl⟩
      · obtain ⟨hfallback, himplicit⟩ := not_or.mp hmissing
        obtain ⟨⟨parsed, text⟩, himplicit⟩ := Option.ne_none_iff_exists'.mp himplicit
        obtain rfl : fallback = true := by simpa using hfallback
        rw [tryValue_of_implicit hoption hsem hparse himplicit] at h
        cases h
        exact .inl ⟨⟨parsed, text, rfl⟩, rfl, .inr rfl⟩

@[simp] theorem leaveOption_some (value : String) (context : ParserContext V) :
    leaveOption (some value) context = .ok (.continue_, context) := by
  simp [leaveOption]

/-- An option left without a value takes its implicit one, or ends the run. -/
theorem leaveOption_none {option : ClapOption V} (h : context.activeOption = some option) :
    leaveOption none context = (do
      let semantics ← deref option.valueSemantic
      match semantics.applyImplicit with
      | some (value, valueAsText) =>
          return (.continue_, context.storeValue option value valueAsText false)
      | none =>
          let message ← missingValueForOption context
          return (.terminateWithError message, context)) := by
  cases hs : option.valueSemantic with
  | none => simp [leaveOption, tryImplicitValue, h, hs]
  | some s =>
      cases hi : s.implicitValue <;>
        simp [leaveOption, tryImplicitValue, h, hs, hi, ValueSemantics.applyImplicit,
          ValueSemantics.isRequired]

/-- An option state is left with the value it has or with the implicit one, or
ends the run. -/
theorem leaveOption_ok {value : Option String}
    (h : leaveOption value context = .ok (status, context')) :
    (∃ message, status = .terminateWithError message) ∧ value = none ∧ context' = context ∨
      status = .continue_ ∧
        (value.isSome ∧ context' = context ∨
          value = none ∧ ∃ option semantics v text, context.activeOption = some option ∧
            option.valueSemantic = some semantics ∧ semantics.applyImplicit = some (v, text) ∧
            context' = context.storeValue option v text false) := by
  cases value with
  | some value =>
      rw [leaveOption_some] at h
      cases h
      exact .inr ⟨rfl, .inl ⟨rfl, rfl⟩⟩
  | none =>
      cases hoption : context.activeOption with
      | none => simp [leaveOption, tryImplicitValue, hoption] at h
      | some option =>
          simp only [leaveOption_none hoption, bind_eq_ok, deref_eq_ok] at h
          obtain ⟨semantics, hsem, h⟩ := h
          split at h
          · next v text himp =>
            cases h
            exact .inr ⟨rfl, .inr ⟨rfl, option, semantics, v, text, rfl, hsem, himp, rfl⟩⟩
          · obtain ⟨message, -, h⟩ := bind_eq_ok.mp h
            cases h
            exact .inl ⟨⟨_, rfl⟩, rfl, rfl⟩

end

/-! ## ParseShortOptionState -/

namespace ParseShortOptionState

/-- `OnEnter`. -/
def onEnter (b : Build) (event : Token) (hasData : Bool) (d : Data V) :
    Except Fault (Status × Data V) :=
  match event.1 with
  | .shortOption | .loneDash => do
      let (status, context) ← enterOption b ("-" ++ event.2) (·.findShortOption event.2) event.2
        hasData d.context
      return (status, { d with context })
  | _ => .error (.contract .unreachable)

/-- `OnLeave`. -/
def onLeave (d : Data V) : Except Fault (Status × Data V) := do
  match ← leaveOption d.shortValue d.context with
  | (.continue_, context) => return (.continue_, { d with context, shortValue := none })
  | (status, context) => return (status, { d with context })

/-- `Handle` of a `Value`. -/
def handleValue (b : Build) (token : String) (d : Data V) : Except Fault (Action × Data V) := do
  let (option, semantics?) ← activeSemantics b d.context
  -- with a value stored the token goes on to `ParseOptionsState`
  if d.shortValue.isSome then return (.transitionTo .parseOptionsState false, d)
  let semantics ← deref semantics?
  let (action, context, value) ← tryValue option semantics true token d.context
  return (action, { d with context, shortValue := value })

/-- `Handle`; by default, a transition to `ParseOptionsState`. -/
def handle (b : Build) (event : Token) (d : Data V) : Except Fault (Action × Data V) :=
  match event with
  | (.value, token) => handleValue b token d
  | _ => return (.transitionTo .parseOptionsState false, d)

end ParseShortOptionState

/-! ## ParseLongOptionState -/

namespace ParseLongOptionState

/-- `OnEnter`. -/
def onEnter (b : Build) (event : Token) (hasData : Bool) (d : Data V) :
    Except Fault (Status × Data V) :=
  match event.1 with
  | .longOption => do
      let (status, context) ← enterOption b ("--" ++ event.2) (·.findLongOption event.2) event.2
        hasData d.context
      return (status, { d with context })
  | _ => .error (.contract .unreachable)

/-- `OnLeave`. -/
def onLeave (d : Data V) : Except Fault (Status × Data V) := do
  match ← leaveOption d.longValue d.context with
  | (.continue_, context) =>
      return (.continue_, { d with context, longValue := none, afterEqualSign := false })
  | (status, context) => return (status, { d with context })

/-- `Handle` of an `EqualSign`. -/
def handleEqualSign (b : Build) (d : Data V) : Except Fault (Action × Data V) := do
  let _ ← activeSemantics b d.context
  return (.doNothing, { d with afterEqualSign := true })

/-- `Handle` of a `Value`. -/
def handleValue (b : Build) (token : String) (d : Data V) : Except Fault (Action × Data V) := do
  let (option, semantics?) ← activeSemantics b d.context
  if d.longValue.isSome then return (.transitionTo .parseOptionsState false, d)
  if !d.afterEqualSign && !d.context.allowLongOptionValueWithNoEqual then
    let message ← optionSyntaxError d.context
      ("option name must be followed by '=' sign because this option " ++
        "takes a value and does not have an implicit one")
    return (.reportError message, d)
  let semantics ← deref semantics?
  let (action, context, value) ←
    tryValue option semantics (!d.afterEqualSign) token d.context
  return (action, { d with context, longValue := value })

/-- `Handle`; by default, a transition to `ParseOptionsState`. -/
def handle (b : Build) (event : Token) (d : Data V) : Except Fault (Action × Data V) :=
  match event with
  | (.equalSign, _) => handleEqualSign b d
  | (.value, token) => handleValue b token d
  | _ => return (.transitionTo .parseOptionsState false, d)

end ParseLongOptionState

/-! ## DashDashState -/

namespace DashDashState

/-- `OnEnter`. -/
def onEnter (b : Build) (hasData : Bool) (d : Data V) : Except Fault (Status × Data V) := do
  takeData b hasData
  return (.continue_, d)

end DashDashState

/-! ## FinalState -/

namespace FinalState

/-- `StorePositional`. -/
def storePositional (b : Build) (option : ClapOption V) (context : ParserContext V)
    (token : String) : Except Fault (ParserContext V) := do
  b.expect .hasValueSemantics option.valueSemantic.isSome
  let semantics ← deref option.valueSemantic
  match semantics.parse token with
  | some value => return context.storeValue option value token true
  -- a token that does not parse is dropped, and nothing says so
  | none => return context

/-- The variables of the loop over the positional arguments. -/
structure Pass (V : Type) where
  context : ParserContext V
  beforeRest : Bool := true
  restOption : Option (ClapOption V) := none

/-- One positional argument takes its token. -/
def assign (b : Build) (pass : Pass V) (option : ClapOption V) : Except Fault (Pass V) := do
  b.expect .optionIsPositional option.isPositional
  if option.isPositionalRest then
    return { pass with restOption := some option, beforeRest := false }
  else if pass.beforeRest then
    match pass.context.positionalTokens with
    -- `front` and `erase` do not ask whether a token is left
    | [] => .error .emptyVector
    | token :: tokens =>
        let context ← storePositional b option pass.context token
        return { pass with context := { context with positionalTokens := tokens } }
  else
    match pass.context.positionalTokens.getLast? with
    -- nor do `back` and `pop_back`
    | none => .error .emptyVector
    | some token =>
        let context ← storePositional b option pass.context token
        return { pass with
          context := { context with positionalTokens := context.positionalTokens.dropLast } }

/-- `CheckRequiredOptions`; a message is the exception it throws. -/
def checkRequiredOptions : List (ClapOption V) → ParserContext V →
    Except Fault (Option String × ParserContext V)
  | [], context => return (none, context)
  | option :: options, context =>
      if context.ovm.hasOption option.key then checkRequiredOptions options context
      else do
        let semantics ← deref option.valueSemantic
        match semantics.applyDefault with
        | some (value, valueAsText) =>
            checkRequiredOptions options (context.storeValue option value valueAsText false)
        | none =>
            if option.isRequired then
              return (some (missingRequiredOption context.activeCommand option), context)
            checkRequiredOptions options context

/-- The `try` block at the end of `OnEnter`. -/
def validate (command : Command V) (context : ParserContext V) :
    Except Fault (Status × ParserContext V) := do
  match ← checkRequiredOptions command.options context with
  | (some message, context) => return (.terminateWithError message, context)
  | (none, context) =>
      match ← checkRequiredOptions command.positionalArgs context with
      | (some message, context) => return (.terminateWithError message, context)
      | (none, context) => return (.terminate, context)

/-- `OnEnter` once the context is there. -/
def settle (b : Build) (context : ParserContext V) : Except Fault (Status × ParserContext V) := do
  let command ← deref context.activeCommand
  let pass ← command.positionalArgs.foldlM (assign b) { context }
  match pass.context.positionalTokens, pass.restOption with
  | [], _ => validate command pass.context
  | tokens, some option =>
      let context ← tokens.foldlM (storePositional b option) pass.context
      validate command { context with positionalTokens := [] }
  | _, none =>
      return (.terminateWithError (unexpectedPositionalArguments pass.context), pass.context)

/-- `OnEnter`. -/
def onEnter (b : Build) (hasData : Bool) (d : Data V) : Except Fault (Status × Data V) := do
  takeData b hasData
  let (status, context) ← settle b d.context
  return (status, { d with context })

end FinalState

/-! ## The machine -/

/-- The `Handle` members of the states. -/
def handle (b : Build) : State → Token → Data V → Except Fault (Action × Data V)
  | .initialState, event, d => return (InitialState.handle event d, d)
  | .identifyCommandState, event, d => IdentifyCommandState.handle b event d
  | .parseOptionsState, event, d => ParseOptionsState.handle event d
  | .parseShortOptionState, event, d => ParseShortOptionState.handle b event d
  | .parseLongOptionState, event, d => ParseLongOptionState.handle b event d
  | .dashDashState, _, d => return (.doNothing, d)
  | .finalState, _, d => return (.doNothing, d)

/-- The `OnLeave` members of the states. -/
def onLeave : State → Token → Data V → Except Fault (Status × Data V)
  | .identifyCommandState, _, d => return IdentifyCommandState.onLeave d
  | .parseShortOptionState, _, d => ParseShortOptionState.onLeave d
  | .parseLongOptionState, _, d => ParseLongOptionState.onLeave d
  | _, _, d => return (.continue_, d)

/-- The `OnEnter` members of the states. -/
def onEnter (b : Build) : State → Token → Bool → Data V → Except Fault (Status × Data V)
  | .initialState, _, _, d => return (.continue_, d)
  | .identifyCommandState, event, hasData, d => IdentifyCommandState.onEnter b event hasData d
  | .parseOptionsState, event, hasData, d => ParseOptionsState.onEnter b event hasData d
  | .parseShortOptionState, event, hasData, d => ParseShortOptionState.onEnter b event hasData d
  | .parseLongOptionState, event, hasData, d => ParseLongOptionState.onEnter b event hasData d
  | .dashDashState, _, hasData, d => DashDashState.onEnter b hasData d
  | .finalState, _, hasData, d => FinalState.onEnter b hasData d

/-- `Machine`. -/
def machine (b : Build) : Fsm.StateMachine (Except Fault) State Token (Data V) :=
  { handle := handle b, onLeave, onEnter := onEnter b }

end Parser

end AsapClap
