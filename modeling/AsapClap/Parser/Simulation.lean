import AsapClap.Parser
import AsapClap.Parser.Scan

/-!
# AsapClap.Parser.Simulation

`CmdLineParser::Parse` computes the pass of `AsapClap.Parser.Scan`.

The members of the states are a function of the phase and the context
(`Phase.data`), so one phase stands for one configuration of the machine at each
token.  A turn of the loop either handles the token as the pass does, or hands it
on to `ParseOptionsState` without changing what the pass makes of it.
-/

namespace AsapClap

namespace Parser

open Errors LongestPrefix

variable {V : Type}

/-! ## The filter loops of `IdentifyCommandState` -/

namespace IdentifyCommandState

/-- The last of several entries is the last of the later ones, if there is any. -/
theorem getLast?_filter_cons {α : Type} (p : α → Bool) (x : α) (xs : List α) :
    ((x :: xs).filter p).getLast? = (xs.filter p).getLast?.or (if p x then some x else none) := by
  by_cases hx : p x = true
  · cases h : (xs.filter p).getLast? <;> simp [hx, List.getLast?_cons, h]
  · simp [hx]

theorem filter_cons_eq_append {α : Type} (p : α → Bool) (x : α) (xs : List α) :
    (x :: xs).filter p = (if p x then [x] else []) ++ xs.filter p := by
  by_cases hx : p x = true <;> simp [hx]

/-- One command of the loop of `OnEnter`, by fields. -/
theorem keepOnEnter_eq (token : String) (d : Data V) (c : Command V) :
    keepOnEnter token d c =
      { d with
        defaultCommand := (if c.isDefault then some c else none).or d.defaultCommand
        lastMatchedCommand := (if c.path = [token] then some c else none).or d.lastMatchedCommand
        filteredCommands :=
          d.filteredCommands ++ if [token].isPrefixOf c.path then [c] else [] } := by
  obtain ⟨segment, path, hpath⟩ := List.exists_cons_of_ne_nil c.path_ne_nil
  by_cases hdef : c.isDefault = true <;> by_cases htoken : segment = token <;>
    by_cases hnil : path = [] <;>
    simp [keepOnEnter, hpath, hdef, htoken, hnil, eq_comm (a := token)]

/-- The `copy_if` of `OnEnter` keeps the commands whose path starts with the
token, and remembers the last of them with nothing behind it and the last
default command. -/
theorem foldl_keepOnEnter (token : String) (commands : List (Command V)) (d : Data V) :
    commands.foldl (keepOnEnter token) d =
      { d with
        defaultCommand := (lastDefault commands).or d.defaultCommand
        lastMatchedCommand := (lastAt Command.path commands [token]).or d.lastMatchedCommand
        filteredCommands := d.filteredCommands ++ candidates Command.path commands [token] } := by
  induction commands generalizing d with
  | nil => simp [lastDefault, lastAt, candidates]
  | cons c commands ih =>
      rw [List.foldl_cons, ih, keepOnEnter_eq]
      simp only [lastDefault, lastAt, getLast?_filter_cons, decide_eq_true_eq, Option.or_assoc]
      simp only [candidates, filter_cons_eq_append _ c commands, List.append_assoc]

/-- One command of the loop of `Handle`, by fields. -/
theorem keepOnValue_eq (n : Nat) (token : String) (d : Data V) (c : Command V) :
    keepOnValue (n + 1) token d c =
      { d with
        lastMatchedCommand :=
          (if c.path[n]? = some token ∧ c.path.length = n + 1 then some c else none).or
            d.lastMatchedCommand
        filteredCommands :=
          d.filteredCommands ++ if c.path[n]? = some token then [c] else [] } := by
  rw [keepOnValue, Nat.add_sub_cancel]
  by_cases htoken : c.path[n]? = some token
  · have hlt : n < c.path.length := (List.getElem?_eq_some_iff.mp htoken).1
    have hkeep : ¬ (c.path.length < n + 1 ∨ c.path[n]? ≠ some token) := by
      rw [not_or, not_not]
      exact ⟨by omega, htoken⟩
    rw [if_neg hkeep, if_pos htoken]
    by_cases hfull : c.path.length = n + 1
    · rw [if_pos hfull, if_pos ⟨htoken, hfull⟩]
      rfl
    · rw [if_neg hfull, if_neg fun h => hfull h.2]
      rfl
  · rw [if_pos (.inr htoken), if_neg htoken, if_neg fun h => htoken h.1, List.append_nil]
    rfl

/-- The `remove_if` of `Handle` does the same for the next segment. -/
theorem foldl_keepOnValue (n : Nat) (token : String) (commands : List (Command V)) (d : Data V) :
    commands.foldl (keepOnValue (n + 1) token) d =
      { d with
        lastMatchedCommand :=
          (commands.filter fun c => c.path[n]? = some token ∧ c.path.length = n + 1).getLast?.or
            d.lastMatchedCommand
        filteredCommands :=
          d.filteredCommands ++ commands.filter fun c => c.path[n]? = some token } := by
  induction commands generalizing d with
  | nil => simp
  | cons c commands ih =>
      rw [List.foldl_cons, ih, keepOnValue_eq]
      simp only [getLast?_filter_cons, decide_eq_true_eq, Option.or_assoc]
      simp only [filter_cons_eq_append _ c commands, decide_eq_true_eq, List.append_assoc]

end IdentifyCommandState

/-! ## Phases as configurations -/

/-- The state the machine is in. -/
def Phase.state : Phase → State
  | .start => .initialState
  | .naming _ => .identifyCommandState
  | .ready => .parseOptionsState
  | .short _ => .parseShortOptionState
  | .long _ _ => .parseLongOptionState

/-- The members of the states. -/
def Phase.data (context : ParserContext V) : Phase → Data V
  | .start => { context }
  | .naming typed =>
      { context
        filteredCommands := candidates Command.path context.commands typed
        lastMatchedCommand := longest Command.path context.commands typed
        defaultCommand := lastDefault context.commands
        pathSegments := typed }
  | .ready => { context, optionsHasContext := true }
  | .short value => { context, optionsHasContext := true, shortValue := value }
  | .long value afterEqual =>
      { context, optionsHasContext := true, longValue := value, afterEqualSign := afterEqual }

theorem Phase.context_data (phase : Phase) (context : ParserContext V) :
    (phase.data context).context = context := by
  cases phase <;> rfl

/-- What holds of the context in a phase. -/
def Phase.Wf (context : ParserContext V) : Phase → Prop
  | .start => context.positionalTokens = []
  | .naming typed =>
      context.positionalTokens = [] ∧ typed ≠ [] ∧
        candidates Command.path context.commands typed ≠ []
  | .ready => context.activeCommand.isSome
  | .short _ | .long _ _ => context.activeCommand.isSome ∧ context.activeOption.isSome

/-! ## One token -/

/-- The machine does with a token what makes the pass stop. -/
def Stops (b : Build) (phase : Phase) (context : ParserContext V) (token : Token) :
    Stop V → Prop
  | .rejected message context' =>
      ∃ state d, (machine b).step phase.state token (phase.data context) =
        .ok (.terminateWithError message, state, d) ∧ d.context = context'
  | .faulted fault => (machine b).step phase.state token (phase.data context) = .error fault
  | .swallowed =>
      ∃ d, (machine b).step phase.state token (phase.data context) =
        .ok (.continue_, .dashDashState, d)

/-- The machine handles a token the way the pass does. -/
def Handles (b : Build) (phase : Phase) (context : ParserContext V) (token : Token) :
    Except (Stop V) (Phase × ParserContext V) → Prop
  | .ok (phase', context') =>
      phase'.Wf context' ∧ (machine b).step phase.state token (phase.data context) =
        .ok (.continue_, phase'.state, phase'.data context')
  | .error stop => Stops b phase context token stop

/-- The machine hands a token on to `ParseOptionsState`. -/
def HandsOn (b : Build) (phase : Phase) (context : ParserContext V) (token : Token)
    (context' : ParserContext V) : Prop :=
  phase ≠ .ready ∧ Phase.ready.Wf context' ∧
    (machine b).step phase.state token (phase.data context) =
      .ok (.reissueEvent, .parseOptionsState, Phase.ready.data context')

/-- Entering an option state: `taken` is the phase behind the option, `onEnter`
its `OnEnter` on the data of `ParseOptionsState`. -/
theorem handles_of_enterOption {b : Build} {context : ParserContext V} {event : Token}
    {flag token : String} {find : Command V → Option (ClapOption V)} {taken : Phase}
    (hwf : ∀ context : ParserContext V,
      context.activeCommand.isSome → context.activeOption.isSome → taken.Wf context)
    (hstep : (machine b).step .parseOptionsState event (Phase.ready.data context) =
      (fun p => (p.1, taken.state, taken.data p.2)) <$>
        enterOption b flag find token true context) :
    Handles b .ready context event (do
      let context ← accept (enterOption b flag find token true context)
      return (taken, context)) := by
  cases henter : enterOption b flag find token true context with
  | error fault =>
      rw [henter] at hstep
      exact hstep
  | ok p =>
      obtain ⟨status, context'⟩ := p
      rw [henter] at hstep
      obtain ⟨command, hcommand, ⟨⟨message, rfl⟩, -⟩ | ⟨option, -, rfl, -, rfl⟩⟩ :=
        enterOption_ok henter
      · exact ⟨_, _, hstep, taken.context_data context'⟩
      · exact ⟨hwf _ (by simp [hcommand]) rfl, hstep⟩

/-- `ParseOptionsState::Handle` does what `dispatch` says. -/
theorem dispatch_handles {b : Build} {context : ParserContext V} {token : Token}
    (hwf : Phase.ready.Wf context) (htoken : token.1 ≠ .endOfInput) :
    Handles b .ready context token (dispatch b context token) := by
  obtain ⟨tokenType, text⟩ := token
  cases tokenType with
  | value => exact ⟨hwf, rfl⟩
  | dashDash =>
      refine ⟨Phase.ready.data context, ?_⟩
      rw [Fsm.StateMachine.step_of_transition rfl rfl]
      simp [machine, onEnter, DashDashState.onEnter]
  | endOfInput => exact absurd rfl htoken
  | equalSign =>
      have hhandle : (machine b).handle .parseOptionsState (.equalSign, text)
          (Phase.ready.data context) = (do
            let message ← optionSyntaxError context
            return (.reportError message, Phase.ready.data context)) := rfl
      cases h : optionSyntaxError context with
      | error fault =>
          rw [h] at hhandle
          simp only [dispatch, lift, h, error_bind]
          exact Fsm.StateMachine.step_of_handle_error hhandle
      | ok message =>
          rw [h] at hhandle
          simp only [dispatch, lift, h, ok_bind]
          exact ⟨_, _, Fsm.StateMachine.step_of_reportError hhandle, rfl⟩
  | shortOption | loneDash | longOption =>
      refine handles_of_enterOption (fun _ h₁ h₂ => ⟨h₁, h₂⟩) ?_
      rw [Fsm.StateMachine.step_of_transition rfl rfl]
      simp [machine, onEnter, ParseShortOptionState.onEnter, ParseLongOptionState.onEnter]
      rfl

/-- A token that is not the end of the input is handed on by a transition with
data, once there is an active command. -/
theorem handsOn_of_transition {b : Build} {phase : Phase} {context context' : ParserContext V}
    {token : Token} {d : Data V} (hphase : phase ≠ .ready) (hwf : Phase.ready.Wf context')
    (htoken : token.1 ≠ .endOfInput)
    (hhandle : (machine b).handle phase.state token (phase.data context) =
      .ok (.transitionTo .parseOptionsState true, d))
    (hleave : (machine b).onLeave phase.state token d = .ok (.continue_, { context := context' })) :
    HandsOn b phase context token context' := by
  refine ⟨hphase, hwf, ?_⟩
  have hactive : context'.activeCommand.isSome = true := hwf
  rw [Fsm.StateMachine.step_of_transition hhandle hleave]
  simp [machine, onEnter, ParseOptionsState.onEnter, htoken, hactive, Phase.data]

/-- An error that is reported ends the pass. -/
theorem stops_reportError {b : Build} (phase : Phase) {context : ParserContext V}
    {token : Token} {message : String} {d : Data V}
    (hhandle : (machine b).handle phase.state token (phase.data context) =
      .ok (.reportError message, d)) :
    Stops b phase context token (.rejected message d.context) :=
  ⟨_, _, Fsm.StateMachine.step_of_reportError hhandle, rfl⟩

/-- The pass and the machine agree on a token, possibly once it is handed on. -/
def Follows (b : Build) (phase : Phase) (context : ParserContext V) (token : Token) : Prop :=
  Handles b phase context token (advance b phase context token) ∨
    ∃ context', HandsOn b phase context token context' ∧
      advance b phase context token = dispatch b context' token

/-- They agree, and nothing goes wrong while the machine handles the token. -/
def FollowsSafely (b : Build) (phase : Phase) (context : ParserContext V) (token : Token) : Prop :=
  Handles b phase context token (advance b phase context token) ∧
      (∀ fault, advance b phase context token ≠ .error (.faulted fault)) ∨
    ∃ context', HandsOn b phase context token context' ∧
      advance b phase context token = dispatch b context' token

/-- A step without crashes is followed in particular. -/
theorem FollowsSafely.follows {b : Build} {phase : Phase} {context : ParserContext V}
    {token : Token} (h : FollowsSafely b phase context token) : Follows b phase context token :=
  h.imp_left And.left

/-- Where the pass does not crash the machine does not either. -/
theorem followsSafely_of_handles {b : Build} {phase : Phase} {context : ParserContext V}
    {token : Token} (result : Except (Stop V) (Phase × ParserContext V))
    (hadvance : advance b phase context token = result)
    (hhandles : Handles b phase context token result)
    (hsafe : ∀ fault, result ≠ .error (.faulted fault)) : FollowsSafely b phase context token := by
  subst hadvance
  exact .inl ⟨hhandles, hsafe⟩

/-- The first value may name a command if some path begins with it. -/
theorem maybeCommand_iff {context : ParserContext V} {token : String} :
    InitialState.maybeCommand context token = true ↔
      candidates Command.path context.commands [token] ≠ [] := by
  have hiff : ∀ c : Command V, c.path[0]? = some token ↔ [token].isPrefixOf c.path = true := by
    intro c
    obtain ⟨segment, path, hpath⟩ := List.exists_cons_of_ne_nil c.path_ne_nil
    simp [hpath, eq_comm (a := token)]
  simp [InitialState.maybeCommand, candidates, hiff]

/-- A command path starts here: the filters of `IdentifyCommandState` begin. -/
theorem handles_maybeCommand {b : Build} {context : ParserContext V} {token : String}
    (hwf : Phase.start.Wf context)
    (h : candidates Command.path context.commands [token] ≠ []) :
    Handles b .start context (.value, token) (.ok (.naming [token], context)) := by
  refine ⟨⟨hwf, by simp, h⟩, ?_⟩
  have hmaybe := maybeCommand_iff.mpr h
  have hcommands : context.commands.isEmpty = false := by
    rw [List.isEmpty_eq_false_iff]
    intro hnil
    simp [hnil, candidates] at h
  have hfiltered := List.isEmpty_eq_false_iff.mpr h
  have hfirst : longest Command.path context.commands [token] =
      lastAt Command.path context.commands [token] := by
    have hnone : lastAt Command.path context.commands [] = none :=
      lastAt_eq_none.mpr fun c _ => c.path_ne_nil
    rw [← List.nil_append [token], longest_concat, longest_nil, hnone, Option.or_none]
  have hhandle : (machine b).handle .initialState (.value, token) (Phase.start.data context) =
      .ok (.transitionTo .identifyCommandState true, Phase.start.data context) := by
    simp [machine, handle, InitialState.handle, Phase.data, hmaybe]
  change (machine b).step .initialState (.value, token) (Phase.start.data context) = _
  rw [Fsm.StateMachine.step_of_transition hhandle rfl]
  simp [machine, onEnter, IdentifyCommandState.onEnter, IdentifyCommandState.foldl_keepOnEnter,
    Phase.data, Phase.state, hcommands, hfiltered, hfirst]

/-- `InitialState`, for all tokens but the end. -/
theorem begin_follows {b : Build} {context : ParserContext V} {token : Token}
    (hwf : Phase.start.Wf context) (htoken : token.1 ≠ .endOfInput) :
    FollowsSafely b .start context token := by
  -- with an active command most tokens are handed on, and without one they are rejected
  have hhand : context.activeCommand.isSome = true →
      InitialState.handle token (Phase.start.data context) = .transitionTo .parseOptionsState true →
      HandsOn b .start context token context := by
    intro hactive hhandle
    refine handsOn_of_transition (by simp) hactive htoken ?_ rfl
    rw [← hhandle]
    rfl
  have hreject : ∀ message,
      InitialState.handle token (Phase.start.data context) = .reportError message →
      Handles b .start context token (.error (.rejected message context)) := by
    intro message hhandle
    refine stops_reportError .start (d := Phase.start.data context) ?_
    rw [← hhandle]
    rfl
  obtain ⟨tokenType, text⟩ := token
  cases tokenType with
  | value =>
      by_cases hmaybe : InitialState.maybeCommand context text = true
      · exact followsSafely_of_handles (.ok (.naming [text], context))
          (by simp [advance, begin, hmaybe])
          (handles_maybeCommand hwf (maybeCommand_iff.mp hmaybe)) (by simp)
      · by_cases hactive : context.activeCommand.isSome = true
        · exact .inr ⟨context,
            hhand hactive (by simp [InitialState.handle, Phase.data, hmaybe, hactive]),
            by simp [advance, begin, hmaybe, hactive]⟩
        · exact followsSafely_of_handles _ (by simp [advance, begin, hmaybe, hactive]; rfl)
            (hreject _ (by simp [InitialState.handle, Phase.data, hmaybe, hactive])) (by simp)
  | dashDash =>
      by_cases hactive : context.activeCommand.isSome = true
      · have hhandle : (machine b).handle .initialState (.dashDash, text)
            (Phase.start.data context) =
            .ok (.transitionTo .dashDashState true, Phase.start.data context) := by
          simp [machine, handle, InitialState.handle, Phase.data, hactive]
        refine followsSafely_of_handles (.error .swallowed)
          (by simp [advance, begin, hactive, dispatch]) ⟨Phase.start.data context, ?_⟩ (by simp)
        change (machine b).step .initialState _ _ = _
        rw [Fsm.StateMachine.step_of_transition hhandle rfl]
        simp [machine, onEnter, DashDashState.onEnter]
      · exact followsSafely_of_handles _ (by simp [advance, begin, hactive]; rfl)
          (hreject _ (by simp [InitialState.handle, Phase.data, hactive])) (by simp)
  | endOfInput => exact absurd rfl htoken
  | shortOption | loneDash | longOption | equalSign =>
      by_cases hactive : context.activeCommand.isSome = true
      · exact .inr ⟨context, hhand hactive (by simp [InitialState.handle, Phase.data, hactive]),
          by simp [advance, begin, hactive]⟩
      · exact followsSafely_of_handles _ (by simp [advance, begin, hactive]; rfl)
          (hreject _ (by simp [InitialState.handle, Phase.data, hactive])) (by simp)

/-- `Handle` of a segment, in terms of what has been typed by then. -/
theorem handleValue_naming {b : Build} {typed : List String} (htyped : typed ≠ [])
    (context : ParserContext V) (token : String) :
    (machine b).handle .identifyCommandState (.value, token) ((Phase.naming typed).data context) =
      let d := (Phase.naming (typed ++ [token])).data context
      if candidates Command.path context.commands (typed ++ [token]) = [] then
        match longest Command.path context.commands typed, lastDefault context.commands with
        | some command, _ =>
            .ok (.transitionTo .parseOptionsState true,
              { d with context.activeCommand := some command })
        | none, some command =>
            IdentifyCommandState.useDefault b command typed { d with pathSegments := typed }
        | none, none => .ok (.reportError (unrecognizedCommand (typed ++ [token])), d)
      else .ok (.doNothing, d) := by
  have hsegments : typed.isEmpty = false := List.isEmpty_eq_false_iff.mpr htyped
  have hfold : (candidates Command.path context.commands typed).foldl
        (IdentifyCommandState.keepOnValue (typed.length + 1) token)
        { context, lastMatchedCommand := longest Command.path context.commands typed,
          defaultCommand := lastDefault context.commands, pathSegments := typed ++ [token] } =
      (Phase.naming (typed ++ [token])).data context := by
    rw [IdentifyCommandState.foldl_keepOnValue]
    simp only [Phase.data, ← lastAt_concat, ← longest_concat, ← candidates_concat, List.nil_append]
  change IdentifyCommandState.handleValue b token _ = _
  simp only [IdentifyCommandState.handleValue, Phase.data, hsegments, Bool.not_false,
    Build.expect_true, ok_bind, List.length_append, List.length_singleton, hfold,
    List.dropLast_concat, List.isEmpty_iff, pure_eq_ok]
  by_cases hnil : candidates Command.path context.commands (typed ++ [token]) = []
  · rcases hlong : longest Command.path context.commands typed with _ | command <;>
      rcases lastDefault context.commands with _ | command' <;>
      simp only [hnil, if_true, longest_concat, lastAt_eq_none_of_candidates hnil, Option.none_or,
        hlong]
  · simp only [hnil, if_false]

/-- `Handle` of any other token, in terms of what has been typed by then. -/
theorem handleOther_naming {b : Build} {typed : List String} (htyped : typed ≠ [])
    (context : ParserContext V) {token : Token} (hvalue : token.1 ≠ .value) :
    (machine b).handle .identifyCommandState token ((Phase.naming typed).data context) =
      let d := (Phase.naming typed).data context
      match longest Command.path context.commands typed, lastDefault context.commands with
      | some command, _ =>
          .ok (.transitionTo
              (match token.1 with
                | .dashDash => .dashDashState
                | .endOfInput => .finalState
                | _ => .parseOptionsState) true,
            { d with context.activeCommand := some command })
      | none, some command => IdentifyCommandState.useDefault b command typed d
      | none, none => .ok (.reportError (unrecognizedCommand typed), d) := by
  have hsegments : typed.isEmpty = false := List.isEmpty_eq_false_iff.mpr htyped
  change IdentifyCommandState.handle b token _ = _
  rw [IdentifyCommandState.handle_of_ne_value hvalue]
  rcases hlong : longest Command.path context.commands typed with _ | command
  · rcases hdefault : lastDefault context.commands with _ | command' <;>
      simp only [IdentifyCommandState.handleOther, Phase.data, hsegments, Bool.not_false,
        Build.expect_true, ok_bind, pure_eq_ok, hlong, hdefault]
  · simp only [IdentifyCommandState.handleOther, Phase.data, hsegments, Bool.not_false,
      Build.expect_true, ok_bind, pure_eq_ok, hlong]
    cases token.1 <;> rfl

/-- `IdentifyCommandState` forgets its filters when it hands a token on. -/
theorem handsOn_of_matched {b : Build} {typed : List String} (segments : List String)
    {context : ParserContext V} {token : Token} {command : Command V}
    (htoken : token.1 ≠ .endOfInput)
    (hhandle : (machine b).handle .identifyCommandState token ((Phase.naming typed).data context) =
      .ok (.transitionTo .parseOptionsState true,
        { (Phase.naming segments).data context with context.activeCommand := some command })) :
    HandsOn b (.naming typed) context token { context with activeCommand := some command } :=
  handsOn_of_transition (by simp) rfl htoken hhandle rfl

/-- The fallback takes the segments for positional tokens. -/
theorem useDefault_naming {b : Build} {typed : List String} (segments : List String)
    {context : ParserContext V} (command : Command V) (hpos : context.positionalTokens = []) :
    IdentifyCommandState.useDefault b command typed
        { (Phase.naming segments).data context with pathSegments := typed } =
      .ok (.transitionTo .parseOptionsState true,
        { (Phase.naming segments).data
            { context with
              activeCommand := some command
              positionalTokens := context.positionalTokens ++ typed } with
          pathSegments := typed }) := by
  simp [IdentifyCommandState.useDefault, Phase.data, hpos]

/-- With a default command the token is handed on to the options. -/
theorem handsOn_of_default {b : Build} {typed segments : List String} {context : ParserContext V}
    {token : Token} {command : Command V} (hwf : (Phase.naming typed).Wf context)
    (htoken : token.1 ≠ .endOfInput)
    (hhandle : (machine b).handle .identifyCommandState token ((Phase.naming typed).data context) =
      IdentifyCommandState.useDefault b command typed
        { (Phase.naming segments).data context with pathSegments := typed }) :
    HandsOn b (.naming typed) context token
      { context with
        activeCommand := some command
        positionalTokens := context.positionalTokens ++ typed } :=
  handsOn_of_transition (by simp) rfl htoken
    (hhandle.trans (useDefault_naming segments command hwf.1)) rfl

/-- Behind the words of a command, another word narrows the commands down. -/
theorem continueNaming_value_follows {b : Build} {typed : List String}
    {context : ParserContext V} {text : String} (hwf : (Phase.naming typed).Wf context) :
    FollowsSafely b (.naming typed) context (.value, text) := by
  obtain ⟨hpos, htyped, -⟩ := id hwf
  have htoken : ((TokenType.value, text) : Token).1 ≠ .endOfInput := by simp
  have hhandle := handleValue_naming (b := b) htyped context text
  by_cases hnil : candidates Command.path context.commands (typed ++ [text]) = []
  · simp only [hnil, if_true] at hhandle
    cases hlong : longest Command.path context.commands typed with
    | some command =>
        simp only [hlong] at hhandle
        refine .inr ⟨_, handsOn_of_matched (typed ++ [text]) htoken hhandle, ?_⟩
        simp [advance, continueNaming, hnil, select, hlong]
    | none =>
        cases hdef : lastDefault context.commands with
        | some command =>
            simp only [hlong, hdef] at hhandle
            refine .inr ⟨_, handsOn_of_default hwf htoken hhandle, ?_⟩
            simp [advance, continueNaming, hnil, select, hlong, hdef]
        | none =>
            simp only [hlong, hdef] at hhandle
            exact followsSafely_of_handles
              (.error (.rejected (unrecognizedCommand (typed ++ [text])) context))
              (by simp [advance, continueNaming, hnil, select, hlong, hdef])
              (stops_reportError (.naming typed) hhandle) (by simp)
  · simp only [hnil, if_false] at hhandle
    exact followsSafely_of_handles (.ok (.naming (typed ++ [text]), context))
      (by simp [advance, continueNaming, hnil])
      ⟨⟨hpos, by simp, hnil⟩, Fsm.StateMachine.step_of_doNothing hhandle⟩ (by simp)

/-- Any other token takes the command there is. -/
theorem continueNaming_other_follows {b : Build} {typed : List String}
    {context : ParserContext V} {token : Token} (hwf : (Phase.naming typed).Wf context)
    (htoken : token.1 ≠ .endOfInput) (hvalue : token.1 ≠ .value) :
    FollowsSafely b (.naming typed) context token := by
  obtain ⟨hpos, htyped, -⟩ := id hwf
  have hhandle := handleOther_naming (b := b) htyped context hvalue
  have hadvance : advance b (.naming typed) context token = _ := advance_naming_other hvalue
  cases hlong : longest Command.path context.commands typed with
  | some command =>
      simp only [hlong] at hhandle
      by_cases hdash : token.1 = .dashDash
      · obtain ⟨text, rfl⟩ := Token.exists_text hdash
        refine followsSafely_of_handles (.error .swallowed)
          (by simp [hadvance, select, hlong, dispatch])
          ⟨{ context := { context with activeCommand := some command } }, ?_⟩ (by simp)
        change (machine b).step .identifyCommandState _ _ = _
        rw [Fsm.StateMachine.step_of_transition hhandle rfl]
        simp [machine, onEnter, DashDashState.onEnter, IdentifyCommandState.reset, Phase.data]
      · refine .inr ⟨{ context with activeCommand := some command },
          handsOn_of_matched typed htoken (hhandle.trans ?_), by simp [hadvance, select, hlong]⟩
        obtain ⟨tokenType, text⟩ := token
        cases tokenType with
        | dashDash => exact absurd rfl hdash
        | endOfInput => exact absurd rfl htoken
        | _ => rfl
  | none =>
      cases hdef : lastDefault context.commands with
      | some command =>
          simp only [hlong, hdef] at hhandle
          refine .inr ⟨_, handsOn_of_default hwf htoken hhandle, ?_⟩
          simp [hadvance, select, hlong, hdef]
      | none =>
          simp only [hlong, hdef] at hhandle
          exact followsSafely_of_handles
            (.error (.rejected (unrecognizedCommand typed) context))
            (by simp [hadvance, select, hlong, hdef])
            (stops_reportError (.naming typed) hhandle) (by simp)

/-- `IdentifyCommandState`, for all tokens but the end. -/
theorem continueNaming_follows {b : Build} {typed : List String}
    {context : ParserContext V} {token : Token} (hwf : (Phase.naming typed).Wf context)
    (htoken : token.1 ≠ .endOfInput) : FollowsSafely b (.naming typed) context token := by
  by_cases hvalue : token.1 = .value
  · obtain ⟨text, rfl⟩ := Token.exists_text hvalue
    exact continueNaming_value_follows hwf
  · exact continueNaming_other_follows hwf htoken hvalue

/-! ## Behind an option -/

/-- An option state settles the value of its option and hands the token on, or
the pass stops there. -/
theorem handsOn_or_stops_of_leave {b : Build} (phase : Phase)
    {context context₁ : ParserContext V} {token : Token} {value : Option String} {d : Data V}
    (hphase : phase ≠ .ready) (hcommand : context₁.activeCommand.isSome)
    (hoption : context₁.activeOption.isSome)
    (hhandle : (machine b).handle phase.state token (phase.data context) =
      .ok (.transitionTo .parseOptionsState false, d))
    (hleave : (machine b).onLeave phase.state token d =
      (fun p => (p.1, if p.1 = .continue_ then Phase.ready.data p.2 else { d with context := p.2 }))
        <$> leaveOption value context₁) :
    (∃ context', HandsOn b phase context token context' ∧
        accept (leaveOption value context₁) = .ok context') ∨
      ∃ stop, Stops b phase context token stop ∧
        accept (leaveOption value context₁) = .error stop := by
  obtain ⟨option, hoption⟩ := Option.isSome_iff_exists.mp hoption
  cases h : leaveOption value context₁ with
  | error fault =>
      rw [h] at hleave
      exact .inr ⟨.faulted fault, Fsm.StateMachine.step_of_leave_error hhandle hleave, rfl⟩
  | ok p =>
      obtain ⟨status, context'⟩ := p
      rw [h] at hleave
      obtain ⟨⟨message, rfl⟩, -⟩ | ⟨rfl, hvalue⟩ := leaveOption_ok h
      · exact .inr ⟨.rejected message context',
          ⟨_, _, Fsm.StateMachine.step_of_leaveError hhandle hleave, rfl⟩, rfl⟩
      · have hcommand' : Phase.ready.Wf context' := by
          rcases hvalue with ⟨-, rfl⟩ | ⟨-, -, -, -, -, -, -, -, rfl⟩ <;> exact hcommand
        refine .inl ⟨context', ⟨hphase, hcommand', ?_⟩, rfl⟩
        rw [Fsm.StateMachine.step_of_transition hhandle hleave]
        simp [machine, onEnter, ParseOptionsState.onEnter, Phase.data]

/-- An option state that is left stores its value and hands the token on. -/
theorem follows_of_leave {b : Build} {phase : Phase} {context context₁ : ParserContext V}
    {token : Token} {value : Option String} {d : Data V} (hphase : phase ≠ .ready)
    (hcommand : context₁.activeCommand.isSome) (hoption : context₁.activeOption.isSome)
    (hadvance : advance b phase context token = (do
      let context ← accept (leaveOption value context₁)
      dispatch b context token))
    (hhandle : (machine b).handle phase.state token (phase.data context) =
      .ok (.transitionTo .parseOptionsState false, d))
    (hleave : (machine b).onLeave phase.state token d =
      (fun p => (p.1, if p.1 = .continue_ then Phase.ready.data p.2 else { d with context := p.2 }))
        <$> leaveOption value context₁) :
    Follows b phase context token := by
  rw [Follows, hadvance]
  rcases handsOn_or_stops_of_leave phase hphase hcommand hoption hhandle hleave with
    ⟨context', hhand, haccept⟩ | ⟨stop, hstop, haccept⟩
  · rw [haccept]
    exact .inr ⟨context', hhand, rfl⟩
  · rw [haccept]
    exact .inl hstop

/-- A value offered to an option: `data` puts the context and `value_` of the
option state back into the data of the machine. -/
theorem follows_of_offer {b : Build} {phase taken : Phase} {context : ParserContext V}
    {token : String} {option : ClapOption V} {fallback : Bool}
    (data : ParserContext V → Option String → Data V) (hphase : phase ≠ .ready)
    (hcommand : context.activeCommand.isSome) (hoption : context.activeOption = some option)
    (hadvance : advance b phase context (.value, token) = (do
      let semantics ← lift (deref option.valueSemantic)
      offer b option semantics taken fallback context token))
    (hhandle : (machine b).handle phase.state (.value, token) (phase.data context) = (do
      let semantics ← deref option.valueSemantic
      (fun p => (p.1, data p.2.1 p.2.2)) <$> tryValue option semantics fallback token context))
    (hstate : taken.state = phase.state)
    (htaken : ∀ context, data context (some token) = taken.data context)
    (hwf : ∀ context : ParserContext V,
      context.activeCommand.isSome → context.activeOption.isSome → taken.Wf context)
    (hcontext : ∀ context value, (data context value).context = context)
    (hleave : ∀ context value,
      (machine b).onLeave phase.state (.value, token) (data context value) =
        (fun p => (p.1, if p.1 = .continue_ then Phase.ready.data p.2
          else { data context value with context := p.2 })) <$> leaveOption value context) :
    Follows b phase context (.value, token) := by
  have hactive : context.activeOption.isSome := by simp [hoption]
  obtain hsem | ⟨semantics, hsem⟩ := Option.eq_none_or_eq_some option.valueSemantic
  · left
    rw [hsem] at hadvance hhandle
    rw [hadvance]
    exact Fsm.StateMachine.step_of_handle_error hhandle
  rw [hsem] at hadvance hhandle
  simp only [deref_some, lift_ok, ok_bind] at hadvance hhandle
  cases hparse : semantics.parse token with
  | some value =>
      left
      rw [tryValue_of_parse hparse] at hhandle
      rw [hadvance, offer_of_parse hparse]
      refine ⟨hwf _ hcommand hactive, ?_⟩
      rw [hstate, ← htaken]
      exact Fsm.StateMachine.step_of_doNothing hhandle
  | none =>
      by_cases hmissing : fallback = false ∨ semantics.applyImplicit = none
      · left
        rw [tryValue_of_missing hoption hsem hparse hmissing] at hhandle
        rw [hadvance, offer_of_missing hparse hmissing]
        cases hmessage : missingValueForOption context with
        | error fault =>
            rw [hmessage] at hhandle
            exact Fsm.StateMachine.step_of_handle_error hhandle
        | ok message =>
            rw [hmessage] at hhandle
            exact ⟨_, _, Fsm.StateMachine.step_of_reportError hhandle, hcontext _ _⟩
      -- the implicit value is stored, and the token is handed on
      · obtain ⟨hfallback, himplicit⟩ := not_or.mp hmissing
        obtain ⟨⟨value, valueAsText⟩, himplicit⟩ := Option.ne_none_iff_exists'.mp himplicit
        obtain rfl : fallback = true := by simpa using hfallback
        rw [tryValue_of_implicit hoption hsem hparse himplicit] at hhandle
        rw [offer_of_implicit hparse himplicit] at hadvance
        have hleave :=
          hleave (context.storeValue option value valueAsText false) (some "_implicit_")
        exact follows_of_leave hphase (by exact hcommand) (by exact hactive)
          (by simpa using hadvance) hhandle hleave

/-- Both option states look at the active option first. -/
theorem follows_of_active {b : Build} {phase : Phase} {context : ParserContext V} {token : Token}
    {scanned : ClapOption V × Option (ValueSemantics V) →
      Except (Stop V) (Phase × ParserContext V)}
    {handled : ClapOption V × Option (ValueSemantics V) → Except Fault (Action × Data V)}
    (hadvance : advance b phase context token = lift (activeSemantics b context) >>= scanned)
    (hhandle : (machine b).handle phase.state token (phase.data context) =
      activeSemantics b context >>= handled)
    (hrest : ∀ option, context.activeOption = some option →
      advance b phase context token = scanned (option, option.valueSemantic) →
      (machine b).handle phase.state token (phase.data context) =
        handled (option, option.valueSemantic) → Follows b phase context token) :
    Follows b phase context token := by
  cases hsem : activeSemantics b context with
  | error fault =>
      rw [hsem] at hhandle hadvance
      left
      rw [hadvance]
      exact Fsm.StateMachine.step_of_handle_error hhandle
  | ok p =>
      obtain ⟨option, semantics?⟩ := p
      obtain ⟨hactive, rfl⟩ := activeSemantics_ok hsem
      rw [hsem] at hhandle hadvance
      exact hrest option hactive hadvance hhandle

/-- `ParseShortOptionState` lets go of everything but a value. -/
theorem handle_short_other {b : Build} {token : Token} (hvalue : token.1 ≠ .value) (d : Data V) :
    (machine b).handle .parseShortOptionState token d =
      .ok (.transitionTo .parseOptionsState false, d) := by
  obtain ⟨tokenType, text⟩ := token
  cases tokenType with
  | value => exact absurd rfl hvalue
  | _ => rfl

/-- Both option states are left the same way. -/
theorem onLeave_shortState {b : Build} (token : Token) (d : Data V) :
    (machine b).onLeave .parseShortOptionState token d =
      (fun p => (p.1, if p.1 = .continue_ then { d with context := p.2, shortValue := none }
        else { d with context := p.2 })) <$> leaveOption d.shortValue d.context := by
  simp only [machine, onLeave, ParseShortOptionState.onLeave]
  cases leaveOption d.shortValue d.context with
  | error fault => rfl
  | ok p => obtain ⟨status, context⟩ := p; cases status <;> rfl

/-- `OnLeave` of the state of long names resets its members if it goes on. -/
theorem onLeave_longState {b : Build} (token : Token) (d : Data V) :
    (machine b).onLeave .parseLongOptionState token d =
      (fun p => (p.1, if p.1 = .continue_ then
          { d with context := p.2, longValue := none, afterEqualSign := false }
        else { d with context := p.2 })) <$> leaveOption d.longValue d.context := by
  simp only [machine, onLeave, ParseLongOptionState.onLeave]
  cases leaveOption d.longValue d.context with
  | error fault => rfl
  | ok p => obtain ⟨status, context⟩ := p; cases status <;> rfl

/-- `OnLeave` of the state of short names, seen from the phase. -/
theorem onLeave_short (b : Build) (token : Token) (value : Option String)
    (context : ParserContext V) :
    (machine b).onLeave .parseShortOptionState token ((Phase.short value).data context) =
      (fun p => (p.1, if p.1 = .continue_ then Phase.ready.data p.2
        else { (Phase.short value).data context with context := p.2 })) <$>
          leaveOption value context :=
  onLeave_shortState token ((Phase.short value).data context)

/-- `ParseShortOptionState`, for every token. -/
theorem continueShort_follows {b : Build} {value : Option String} {context : ParserContext V}
    {token : Token} (hwf : (Phase.short value).Wf context) :
    Follows b (.short value) context token := by
  obtain ⟨hcommand, hoption⟩ := id hwf
  by_cases hvalue : token.1 = .value
  · obtain ⟨text, rfl⟩ := Token.exists_text hvalue
    have hadvance : advance b (.short value) context (.value, text) =
        continueShort b value context (.value, text) := rfl
    have hhandle : (machine b).handle .parseShortOptionState (.value, text)
        ((Phase.short value).data context) =
        ParseShortOptionState.handleValue b text ((Phase.short value).data context) := rfl
    rw [continueShort] at hadvance
    rw [ParseShortOptionState.handleValue] at hhandle
    refine follows_of_active hadvance hhandle fun option hactive hadvance hhandle => ?_
    cases value with
    | some value =>
        exact follows_of_leave (by simp) hcommand hoption (by simpa using hadvance) hhandle
          (onLeave_short b _ (some value) context)
    | none =>
        exact follows_of_offer (fun context value => (Phase.short value).data context)
          (by simp) hcommand hactive hadvance hhandle rfl (fun _ => rfl)
          (fun _ h₁ h₂ => ⟨h₁, h₂⟩) (fun _ _ => rfl)
          (fun context value => onLeave_short b _ value context)
  · exact follows_of_leave (by simp) hcommand hoption (advance_short_other hvalue)
      (handle_short_other hvalue _) (onLeave_short b token value context)

/-- `ParseLongOptionState` keeps the equal sign as well. -/
theorem handle_long_other {b : Build} {token : Token} (hvalue : token.1 ≠ .value)
    (hequal : token.1 ≠ .equalSign) (d : Data V) :
    (machine b).handle .parseLongOptionState token d =
      .ok (.transitionTo .parseOptionsState false, d) := by
  obtain ⟨tokenType, text⟩ := token
  cases tokenType with
  | value => exact absurd rfl hvalue
  | equalSign => exact absurd rfl hequal
  | _ => rfl

/-- `OnLeave` of the state of long names, seen from the phase. -/
theorem onLeave_long (b : Build) (token : Token) (value : Option String) (afterEqual : Bool)
    (context : ParserContext V) :
    (machine b).onLeave .parseLongOptionState token ((Phase.long value afterEqual).data context) =
      (fun p => (p.1, if p.1 = .continue_ then Phase.ready.data p.2
        else { (Phase.long value afterEqual).data context with context := p.2 })) <$>
          leaveOption value context :=
  onLeave_longState token ((Phase.long value afterEqual).data context)

/-- An equal sign behind a long name is noted. -/
theorem continueLong_equalSign_handles {b : Build} {value : Option String} {afterEqual : Bool}
    {context : ParserContext V} {text : String} (hwf : (Phase.long value afterEqual).Wf context) :
    Handles b (.long value afterEqual) context (.equalSign, text)
      (advance b (.long value afterEqual) context (.equalSign, text)) := by
  have hhandle : (machine b).handle .parseLongOptionState (.equalSign, text)
      ((Phase.long value afterEqual).data context) = (do
        let _ ← activeSemantics b context
        return (.doNothing, (Phase.long value true).data context)) := rfl
  rw [advance, continueLong]
  cases hsem : activeSemantics b context with
  | error fault =>
      rw [hsem] at hhandle
      exact Fsm.StateMachine.step_of_handle_error hhandle
  | ok p =>
      rw [hsem] at hhandle
      exact ⟨hwf, Fsm.StateMachine.step_of_doNothing hhandle⟩

/-- `ParseLongOptionState`, for every token. -/
theorem continueLong_follows {b : Build} {value : Option String} {afterEqual : Bool}
    {context : ParserContext V} {token : Token} (hwf : (Phase.long value afterEqual).Wf context) :
    Follows b (.long value afterEqual) context token := by
  obtain ⟨hcommand, hoption⟩ := id hwf
  by_cases hvalue : token.1 = .value
  · obtain ⟨text, rfl⟩ := Token.exists_text hvalue
    have hadvance : advance b (.long value afterEqual) context (.value, text) =
        continueLong b value afterEqual context (.value, text) := rfl
    have hhandle : (machine b).handle .parseLongOptionState (.value, text)
        ((Phase.long value afterEqual).data context) =
        ParseLongOptionState.handleValue b text ((Phase.long value afterEqual).data context) := rfl
    rw [continueLong] at hadvance
    rw [ParseLongOptionState.handleValue] at hhandle
    refine follows_of_active hadvance hhandle fun option hactive hadvance hhandle => ?_
    cases value with
    | some value =>
        exact follows_of_leave (by simp) hcommand hoption (by simpa using hadvance) hhandle
          (onLeave_long b _ (some value) afterEqual context)
    | none =>
        simp only [Phase.data, Option.isSome_none, Bool.false_eq_true, if_false]
          at hhandle hadvance
        cases hstrict : !afterEqual && !context.allowLongOptionValueWithNoEqual with
        | true =>
          left
          simp only [hstrict, if_true] at hhandle hadvance
          rw [hadvance]
          generalize "option name must be followed by '=' sign because this option " ++
            "takes a value and does not have an implicit one" = text at hhandle ⊢
          cases hmessage : optionSyntaxError context text with
          | error fault =>
              rw [hmessage] at hhandle
              exact Fsm.StateMachine.step_of_handle_error hhandle
          | ok message =>
              rw [hmessage] at hhandle
              exact stops_reportError (.long none afterEqual) hhandle
        | false =>
          simp only [hstrict, Bool.false_eq_true, if_false] at hhandle hadvance
          exact follows_of_offer
            (fun context value => (Phase.long value afterEqual).data context)
            (by simp) hcommand hactive hadvance hhandle rfl (fun _ => rfl)
            (fun _ h₁ h₂ => ⟨h₁, h₂⟩) (fun _ _ => rfl)
            (fun context value => onLeave_long b _ value afterEqual context)
  · by_cases hequal : token.1 = .equalSign
    · obtain ⟨text, rfl⟩ := Token.exists_text hequal
      exact .inl (continueLong_equalSign_handles hwf)
    · exact follows_of_leave (by simp) hcommand hoption (advance_long_other hvalue hequal)
        (handle_long_other hvalue hequal _) (onLeave_long b token value afterEqual context)

/-- **One token**: the pass and the machine agree on it in every phase. -/
theorem advance_follows {b : Build} {phase : Phase} {context : ParserContext V} {token : Token}
    (hwf : phase.Wf context) (htoken : token.1 ≠ .endOfInput) : Follows b phase context token := by
  cases phase with
  | start => exact (begin_follows hwf htoken).follows
  | naming typed => exact (continueNaming_follows hwf htoken).follows
  | ready => exact .inl (dispatch_handles hwf htoken)
  | short value => exact continueShort_follows hwf
  | long value afterEqual => exact continueLong_follows hwf

/-! ## The end of the input -/

/-- The machine finishes the way the pass does. -/
def Finishes (b : Build) (phase : Phase) (context : ParserContext V) (token : Token) :
    Except (Stop V) (ParserContext V) → Prop
  | .ok entry =>
      ∃ d, (machine b).depart phase.state token (phase.data context) =
        .ok (.enters .finalState true d) ∧ d.context = entry
  | .error stop => Stops b phase context token stop

/-- The end of input right at the start. -/
theorem finishes_start {b : Build} {context : ParserContext V} {token : Token}
    (htoken : token.1 = .endOfInput) :
    Finishes b .start context token (finish b .start context) := by
  obtain ⟨text, rfl⟩ := Token.exists_text htoken
  by_cases hactive : context.activeCommand.isSome = true
  · have hhandle : (machine b).handle .initialState (.endOfInput, text)
        (Phase.start.data context) =
        .ok (.transitionTo .finalState true, Phase.start.data context) := by
      simp [machine, handle, InitialState.handle, Phase.data, hactive]
    rw [finish, if_pos hactive]
    exact ⟨_, Fsm.StateMachine.depart_of_transition hhandle rfl, rfl⟩
  · have hhandle : (machine b).handle .initialState (.endOfInput, text)
        (Phase.start.data context) =
        .ok (.reportError (missingCommand context), Phase.start.data context) := by
      simp [machine, handle, InitialState.handle, Phase.data, hactive]
    rw [finish, if_neg hactive]
    exact stops_reportError .start hhandle

/-- The end of input where the next option would be. -/
theorem finishes_ready {b : Build} {context : ParserContext V} {token : Token}
    (htoken : token.1 = .endOfInput) :
    Finishes b .ready context token (finish b .ready context) := by
  obtain ⟨text, rfl⟩ := Token.exists_text htoken
  exact ⟨_, Fsm.StateMachine.depart_of_transition rfl rfl, rfl⟩

/-- The fallback on the default command goes through `ParseOptionsState`, which only a
release build enters with the end of the input. -/
theorem handsOn_naming_of_release {typed : List String} {context : ParserContext V}
    {token : Token} {command : Command V} (hwf : (Phase.naming typed).Wf context)
    (htoken : token.1 = .endOfInput)
    (hlong : longest Command.path context.commands typed = none)
    (hdef : lastDefault context.commands = some command) :
    HandsOn .release (.naming typed) context token
      { context with
        activeCommand := some command
        positionalTokens := context.positionalTokens ++ typed } := by
  obtain ⟨text, rfl⟩ := Token.exists_text htoken
  have hvalue : (TokenType.endOfInput, text).1 ≠ .value := by simp
  have hhandle := handleOther_naming (b := .release) hwf.2.1 context hvalue
  simp only [hlong, hdef] at hhandle
  exact ⟨by simp, rfl, Fsm.StateMachine.step_of_transition
    (hhandle.trans (useDefault_naming typed command hwf.1)) rfl⟩

/-- The end of input while a command is searched for. Without assertions a default command goes on
to the options instead, hence the condition. -/
theorem finishes_naming {b : Build} {typed : List String} {context : ParserContext V}
    {token : Token} (hwf : (Phase.naming typed).Wf context) (htoken : token.1 = .endOfInput)
    (h : b = .debug ∨ (longest Command.path context.commands typed).isSome ∨
      lastDefault context.commands = none) :
    Finishes b (.naming typed) context token (finish b (.naming typed) context) := by
  obtain ⟨text, rfl⟩ := Token.exists_text htoken
  obtain ⟨hpos, htyped, -⟩ := id hwf
  have hvalue : (TokenType.endOfInput, text).1 ≠ .value := by simp
  have hhandle := handleOther_naming (b := b) htyped context hvalue
  cases hlong : longest Command.path context.commands typed with
  | some command =>
      simp only [hlong] at hhandle
      rw [finish, select, hlong]
      exact ⟨_, Fsm.StateMachine.depart_of_transition hhandle rfl, rfl⟩
  | none =>
      cases hdef : lastDefault context.commands with
      | none =>
          simp only [hlong, hdef] at hhandle
          rw [finish, select, hlong, hdef]
          exact stops_reportError (.naming typed) hhandle
      | some command =>
          obtain rfl : b = .debug := by simpa [hlong, hdef] using h
          simp only [hlong, hdef] at hhandle
          rw [finish, select, hlong, hdef]
          exact Fsm.StateMachine.step_of_transition
            (hhandle.trans (useDefault_naming typed command hpos)) rfl

/-- An option state that lets go of the end of the input hands it on. -/
theorem finish_follows_of_leave {b : Build} {phase : Phase} {context : ParserContext V}
    {token : Token} {value : Option String} {d : Data V}
    (hfinish : finish b phase context = accept (leaveOption value context))
    (hphase : phase ≠ .ready)
    (hwf : context.activeCommand.isSome ∧ context.activeOption.isSome)
    (hhandle : (machine b).handle phase.state token (phase.data context) =
      .ok (.transitionTo .parseOptionsState false, d))
    (hleave : (machine b).onLeave phase.state token d =
      (fun p => (p.1, if p.1 = .continue_ then Phase.ready.data p.2 else { d with context := p.2 }))
        <$> leaveOption value context) :
    Finishes b phase context token (finish b phase context) ∨
      ∃ context', HandsOn b phase context token context' ∧
        finish b phase context = .ok context' := by
  rw [hfinish]
  rcases handsOn_or_stops_of_leave phase hphase hwf.1 hwf.2 hhandle hleave with
    h | ⟨stop, hstop, haccept⟩
  · exact .inr h
  · left
    rw [haccept]
    exact hstop

/-- At the end of input the machine finishes with the pass, or hands over to `FinalState`. -/
theorem finish_follows {b : Build} {phase : Phase} {context : ParserContext V} {token : Token}
    (hwf : phase.Wf context) (htoken : token.1 = .endOfInput) :
    Finishes b phase context token (finish b phase context) ∨
      ∃ context', HandsOn b phase context token context' ∧
        finish b phase context = .ok context' := by
  cases phase with
  | start => exact .inl (finishes_start htoken)
  | ready => exact .inl (finishes_ready htoken)
  | naming typed =>
      by_cases h : b = .debug ∨ (longest Command.path context.commands typed).isSome ∨
          lastDefault context.commands = none
      · exact .inl (finishes_naming hwf htoken h)
      · obtain ⟨hb, hlong, hdef⟩ : b = .release ∧
            longest Command.path context.commands typed = none ∧
            lastDefault context.commands ≠ none := by
          cases b <;> simp_all
        obtain rfl := hb
        obtain ⟨command, hdef⟩ := Option.ne_none_iff_exists'.mp hdef
        refine .inr ⟨_, handsOn_naming_of_release hwf htoken hlong hdef, ?_⟩
        simp [finish, select, hlong, hdef]
  | short value =>
      obtain ⟨text, rfl⟩ := Token.exists_text htoken
      exact finish_follows_of_leave rfl (by simp) hwf rfl
        (onLeave_short b (.endOfInput, text) value context)
  | long value afterEqual =>
      obtain ⟨text, rfl⟩ := Token.exists_text htoken
      exact finish_follows_of_leave rfl (by simp) hwf rfl
        (onLeave_long b (.endOfInput, text) value afterEqual context)

end Parser

end AsapClap
