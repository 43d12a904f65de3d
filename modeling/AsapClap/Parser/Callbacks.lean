import AsapClap.Parser.Simulation

/-!
# AsapClap.Parser.Callbacks

What the callbacks of the states can do when they do not go wrong, said once: every
invariant of the machine goes through the cases below, and none of them opens a callback
again.
-/

namespace AsapClap

namespace Parser

variable {V : Type} {b : Build} {d d' : Data V} {event : Token} {action : Action} {status : Status}

/-! ## IdentifyCommandState -/

/-- What `Handle` does once the commands are narrowed down: a command that is matched becomes
the active one, else the default command does. -/
inductive Identifies (d : Data V) : Action → Data V → Prop
  | matched {command : Command V} (target : State) (found : d.lastMatchedCommand = some command)
      (leaves : target = .parseOptionsState ∨ target = .dashDashState ∨ target = .finalState) :
      Identifies d (.transitionTo target true) { d with context.activeCommand := some command }
  | fallsBack {command : Command V} (typed segments : List String)
      (found : d.defaultCommand = some command) :
      Identifies d (.transitionTo .parseOptionsState true)
        { d with
          pathSegments := typed
          context.activeCommand := some command
          context.positionalTokens := d.context.positionalTokens ++ segments }
  | stays {action : Action} (stays : ∀ target hasData, action ≠ .transitionTo target hasData) :
      Identifies d action d

/-- The fallback on the default command goes to the options, with all that was typed as positional.
-/
theorem identifies_of_useDefault {command : Command V} {typed segments : List String}
    (hfound : d.defaultCommand = some command)
    (h : IdentifyCommandState.useDefault b command segments { d with pathSegments := typed } =
      .ok (action, d')) : Identifies d action d' := by
  obtain ⟨-, -, h⟩ := bind_eq_ok.mp h
  cases h
  exact .fallsBack typed segments hfound

/-- `IdentifyCommandState::Handle` first filters the commands, for a value, and then goes on with
the search or ends it. -/
theorem identifyHandle_ok (h : IdentifyCommandState.handle b event d = .ok (action, d')) :
    ∃ d₁ : Data V, (d₁ = d ∨ ∃ token, d₁ = d.filteredCommands.foldl
        (IdentifyCommandState.keepOnValue (d.pathSegments.length + 1) token)
        { d with pathSegments := d.pathSegments ++ [token], filteredCommands := [] }) ∧
      Identifies d₁ action d' := by
  by_cases hvalue : event.1 = .value
  · obtain ⟨text, rfl⟩ := Token.exists_text hvalue
    change IdentifyCommandState.handleValue b text d = _ at h
    simp only [IdentifyCommandState.handleValue, bind_eq_ok, List.length_append,
      List.length_singleton] at h
    obtain ⟨-, -, h⟩ := h
    refine ⟨_, .inr ⟨text, rfl⟩, ?_⟩
    split at h
    · split at h
      · next hmatched =>
        cases h
        exact .matched _ hmatched (.inl rfl)
      · next hdefault => exact identifies_of_useDefault hdefault h
      · cases h
        exact .stays (by simp)
    · cases h
      exact .stays (by simp)
  · rw [IdentifyCommandState.handle_of_ne_value hvalue] at h
    obtain ⟨-, -, h⟩ := bind_eq_ok.mp h
    refine ⟨d, .inl rfl, ?_⟩
    split at h
    · next hmatched => split at h <;> cases h <;> exact .matched _ hmatched (by simp)
    · next hdefault => exact identifies_of_useDefault hdefault h
    · cases h
      exact .stays (by simp)

/-- `IdentifyCommandState::Handle` touches the command and the positional tokens alone. -/
theorem identifyHandle_context (h : IdentifyCommandState.handle b event d = .ok (action, d')) :
    ∃ command tokens, d'.context =
      { d.context with activeCommand := command, positionalTokens := tokens } := by
  obtain ⟨d₁, hnarrowed, hidentifies⟩ := identifyHandle_ok h
  have hcontext : d₁.context = d.context := by
    obtain rfl | ⟨token, rfl⟩ := hnarrowed
    · rfl
    · rw [IdentifyCommandState.foldl_keepOnValue]
  rw [← hcontext]
  cases hidentifies with
  | matched | fallsBack | stays => exact ⟨_, _, rfl⟩

/-- `OnEnter` goes through the list of commands, for a value, -/
theorem identifyEnter_ok {hasData : Bool}
    (h : IdentifyCommandState.onEnter b event hasData d = .ok (status, d')) :
    status = .continue_ ∧ (d' = d ∨ ∃ token, d' = d.context.commands.foldl
      (IdentifyCommandState.keepOnEnter token)
      { d with pathSegments := d.pathSegments ++ [token] }) := by
  obtain ⟨tokenType, text⟩ := event
  cases tokenType with
  | value =>
      simp only [IdentifyCommandState.onEnter, bind_eq_ok] at h
      obtain ⟨-, -, -, -, -, -, h⟩ := h
      cases h
      exact ⟨rfl, .inr ⟨text, rfl⟩⟩
  | _ =>
      cases h
      exact ⟨rfl, .inl rfl⟩

/-- `IdentifyCommandState::OnEnter` does not touch the context. -/
theorem identifyEnter_context {hasData : Bool}
    (h : IdentifyCommandState.onEnter b event hasData d = .ok (status, d')) :
    d'.context = d.context := by
  obtain ⟨-, rfl | ⟨token, rfl⟩⟩ := identifyEnter_ok h
  · rfl
  · rw [IdentifyCommandState.foldl_keepOnEnter]

/-! ## ParseOptionsState -/

/-- A value is kept, an equal sign is refused, and any other token leads to another state. -/
theorem optionsHandle_ok (h : ParseOptionsState.handle event d = .ok (action, d')) :
    action = .doNothing ∧ d' = { d with
        context.positionalTokens := d.context.positionalTokens ++ [event.2] } ∨
      d' = d ∧ ((∃ message, action = .reportError message) ∨
        ∃ target, action = .transitionTo target true ∧
          (target = .parseShortOptionState ∨ target = .parseLongOptionState ∨
            target = .dashDashState ∨ target = .finalState)) := by
  obtain ⟨tokenType, text⟩ := event
  cases tokenType with
  | value =>
      cases h
      exact .inl ⟨rfl, rfl⟩
  | equalSign =>
      obtain ⟨message, -, h⟩ := bind_eq_ok.mp h
      cases h
      exact .inr ⟨rfl, .inl ⟨message, rfl⟩⟩
  | _ =>
      cases h
      exact .inr ⟨rfl, .inr ⟨_, rfl, by simp⟩⟩

/-- `ParseOptionsState` notes that it has been given the context. -/
theorem optionsEnter_ok {hasData : Bool}
    (h : ParseOptionsState.onEnter b event hasData d = .ok (status, d')) :
    d' = d ∨ d' = { d with optionsHasContext := true } := by
  rw [ParseOptionsState.onEnter] at h
  split at h
  · simp only [bind_eq_ok] at h
    obtain ⟨-, -, -, -, -, -, h⟩ := h
    cases h
    exact .inr rfl
  · obtain ⟨-, -, h⟩ := bind_eq_ok.mp h
    cases h
    exact .inl rfl

/-- The context itself stays as it is. -/
theorem optionsEnter_context {hasData : Bool}
    (h : ParseOptionsState.onEnter b event hasData d = .ok (status, d')) :
    d'.context = d.context := by
  obtain rfl | rfl := optionsEnter_ok h <;> rfl

/-! ## The option states -/

/-- The option states are entered with the names their tokens spell. -/
theorem shortOnEnter_ok {hasData : Bool}
    (h : ParseShortOptionState.onEnter b event hasData d = .ok (status, d')) :
    (event.1 = .shortOption ∨ event.1 = .loneDash) ∧ ∃ context,
      enterOption b ("-" ++ event.2) (·.findShortOption event.2) event.2 hasData d.context =
        .ok (status, context) ∧ d' = { d with context } := by
  obtain ⟨tokenType, text⟩ := event
  cases tokenType with
  | shortOption | loneDash =>
      obtain ⟨⟨status', context⟩, henter, h⟩ := bind_eq_ok.mp h
      cases h
      exact ⟨by simp, context, henter, rfl⟩
  | _ => cases h

/-- The state of long names is entered for one, which is looked up. -/
theorem longOnEnter_ok {hasData : Bool}
    (h : ParseLongOptionState.onEnter b event hasData d = .ok (status, d')) :
    event.1 = .longOption ∧ ∃ context,
      enterOption b ("--" ++ event.2) (·.findLongOption event.2) event.2 hasData d.context =
        .ok (status, context) ∧ d' = { d with context } := by
  obtain ⟨tokenType, text⟩ := event
  cases tokenType with
  | longOption =>
      obtain ⟨⟨status', context⟩, henter, h⟩ := bind_eq_ok.mp h
      cases h
      exact ⟨rfl, context, henter, rfl⟩
  | _ => cases h

/-- A token is let go of, or it is a value that is tried for the option that waits for one. -/
theorem shortHandle_ok (h : ParseShortOptionState.handle b event d = .ok (action, d')) :
    action = .transitionTo .parseOptionsState false ∧ d' = d ∨
      d.shortValue = none ∧ ∃ option semantics context value,
        d.context.activeOption = some option ∧ option.valueSemantic = some semantics ∧
        tryValue option semantics true event.2 d.context = .ok (action, context, value) ∧
        d' = { d with context, shortValue := value } := by
  obtain ⟨tokenType, text⟩ := event
  cases tokenType with
  | value =>
      change ParseShortOptionState.handleValue b text d = _ at h
      unfold ParseShortOptionState.handleValue at h
      obtain ⟨⟨option, semantics?⟩, hactive, h⟩ := bind_eq_ok.mp h
      obtain ⟨hoption, rfl⟩ := activeSemantics_ok hactive
      cases hvalue : d.shortValue with
      | some value =>
          simp only [hvalue, Option.isSome_some, if_true] at h
          cases h
          exact .inl ⟨rfl, rfl⟩
      | none =>
          simp only [hvalue, Option.isSome_none, Bool.false_eq_true, if_false, bind_eq_ok,
            deref_eq_ok] at h
          obtain ⟨semantics, hsem, ⟨action', context, value⟩, htry, h⟩ := h
          cases h
          exact .inr ⟨rfl, option, semantics, context, value, hoption, hsem, htry, rfl⟩
  | _ =>
      cases h
      exact .inl ⟨rfl, rfl⟩

/-- The same for a long name, but a value may lack the equal sign, which is kept in mind. -/
theorem longHandle_ok (h : ParseLongOptionState.handle b event d = .ok (action, d')) :
    action = .transitionTo .parseOptionsState false ∧ d' = d ∨
      (∃ message, action = .reportError message) ∧ d' = d ∨
      action = .doNothing ∧ d' = { d with afterEqualSign := true } ∨
      d.longValue = none ∧ ∃ option semantics context value,
        d.context.activeOption = some option ∧ option.valueSemantic = some semantics ∧
        tryValue option semantics (!d.afterEqualSign) event.2 d.context =
          .ok (action, context, value) ∧
        d' = { d with context, longValue := value } := by
  obtain ⟨tokenType, text⟩ := event
  cases tokenType with
  | value =>
      change ParseLongOptionState.handleValue b text d = _ at h
      unfold ParseLongOptionState.handleValue at h
      obtain ⟨⟨option, semantics?⟩, hactive, h⟩ := bind_eq_ok.mp h
      obtain ⟨hoption, rfl⟩ := activeSemantics_ok hactive
      cases hvalue : d.longValue with
      | some value =>
          simp only [hvalue, Option.isSome_some, if_true] at h
          cases h
          exact .inl ⟨rfl, rfl⟩
      | none =>
          simp only [hvalue, Option.isSome_none, Bool.false_eq_true, if_false] at h
          split at h
          · obtain ⟨message, -, h⟩ := bind_eq_ok.mp h
            cases h
            exact .inr (.inl ⟨⟨message, rfl⟩, rfl⟩)
          · simp only [bind_eq_ok, deref_eq_ok] at h
            obtain ⟨semantics, hsem, ⟨action', context, value⟩, htry, h⟩ := h
            cases h
            exact .inr (.inr (.inr
              ⟨rfl, option, semantics, context, value, hoption, hsem, htry, rfl⟩))
  | equalSign =>
      obtain ⟨-, -, h⟩ := bind_eq_ok.mp h
      cases h
      exact .inr (.inr (.inl ⟨rfl, rfl⟩))
  | _ =>
      cases h
      exact .inl ⟨rfl, rfl⟩

/-- `OnLeave` asks for an implicit value where there is none, and resets the member. -/
theorem shortLeave_ok (h : ParseShortOptionState.onLeave d = .ok (status, d')) :
    leaveOption d.shortValue d.context = .ok (status, d'.context) ∧
      ∃ value, d' = { d with context := d'.context, shortValue := value } := by
  unfold ParseShortOptionState.onLeave at h
  obtain ⟨⟨status', context⟩, hleave, h⟩ := bind_eq_ok.mp h
  cases status' <;> cases h <;> exact ⟨hleave, _, rfl⟩

/-- `OnLeave` of the state of long names does so with both its members. -/
theorem longLeave_ok (h : ParseLongOptionState.onLeave d = .ok (status, d')) :
    leaveOption d.longValue d.context = .ok (status, d'.context) ∧
      ∃ value afterEqual, d' = { d with
        context := d'.context
        longValue := value
        afterEqualSign := afterEqual } := by
  unfold ParseLongOptionState.onLeave at h
  obtain ⟨⟨status', context⟩, hleave, h⟩ := bind_eq_ok.mp h
  cases status' <;> cases h <;> exact ⟨hleave, _, _, rfl⟩

/-! ## FinalState -/

/-- All of `FinalState` is in its `OnEnter`. -/
theorem finalOnEnter_ok {hasData : Bool}
    (h : FinalState.onEnter b hasData d = .ok (status, d')) :
    ∃ context, FinalState.settle b d.context = .ok (status, context) ∧
      d' = { d with context } := by
  simp only [FinalState.onEnter, bind_eq_ok] at h
  obtain ⟨-, -, ⟨status', context⟩, hsettle, h⟩ := h
  cases h
  exact ⟨context, hsettle, rfl⟩

end Parser

end AsapClap
