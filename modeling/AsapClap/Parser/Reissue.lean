import AsapClap.Parser.Storing

/-!
# AsapClap.Parser.Reissue

How often a token is handled.  A token is handled again when the status is
`ReissueEvent`, which is what `ParseOptionsState` says when it is entered and
what no other state says; and `ParseOptionsState` never enters itself.
-/

namespace AsapClap

namespace Parser

variable {V : Type}

/-! ## Statuses -/

theorem status_of_leaveOption {value : Option String} {context context' : ParserContext V}
    {status : Status} (h : leaveOption value context = .ok (status, context')) :
    status ≠ .reissueEvent := by
  obtain ⟨⟨message, rfl⟩, -⟩ | ⟨rfl, -⟩ := leaveOption_ok h
  · simp
  · simp

theorem status_of_enterOption {b : Build} {flag token : String}
    {find : Command V → Option (ClapOption V)} {hasData : Bool} {context context' : ParserContext V}
    {status : Status}
    (h : enterOption b flag find token hasData context = .ok (status, context')) :
    status ≠ .reissueEvent := by
  obtain ⟨-, -, ⟨⟨message, rfl⟩, -⟩ | ⟨-, -, rfl, -⟩⟩ := enterOption_ok h
  · simp
  · simp

theorem status_of_settle {b : Build} {context context' : ParserContext V} {status : Status}
    (h : FinalState.settle b context = .ok (status, context')) : status ≠ .reissueEvent := by
  obtain rfl | ⟨message, rfl⟩ := settle_status h
  · simp
  · simp

/-- No state asks for a token again when it is left. -/
theorem status_of_onLeave {state : State} {event : Token} {d d' : Data V} {status : Status}
    (h : onLeave state event d = .ok (status, d')) : status ≠ .reissueEvent := by
  cases state with
  | parseShortOptionState => exact status_of_leaveOption (shortLeave_ok h).1
  | parseLongOptionState => exact status_of_leaveOption (longLeave_ok h).1
  | initialState | identifyCommandState | parseOptionsState | dashDashState | finalState =>
      cases h
      simp

/-- Only `ParseOptionsState` asks for a token again when it is entered. -/
theorem status_of_onEnter {b : Build} {state : State} {event : Token} {hasData : Bool}
    {d d' : Data V} {status : Status} (hstate : state ≠ .parseOptionsState)
    (h : onEnter b state event hasData d = .ok (status, d')) : status ≠ .reissueEvent := by
  cases state with
  | parseOptionsState => contradiction
  | initialState =>
      cases h
      simp
  | identifyCommandState =>
      obtain ⟨rfl, -⟩ := identifyEnter_ok h
      simp
  | parseShortOptionState =>
      obtain ⟨-, context, henter, -⟩ := shortOnEnter_ok h
      exact status_of_enterOption henter
  | parseLongOptionState =>
      obtain ⟨-, context, henter, -⟩ := longOnEnter_ok h
      exact status_of_enterOption henter
  | dashDashState =>
      obtain ⟨-, -, h⟩ := bind_eq_ok.mp h
      cases h
      simp
  | finalState =>
      obtain ⟨context, hsettle, -⟩ := finalOnEnter_ok h
      exact status_of_settle hsettle

/-! ## Handling a token again -/

/-- `ParseOptionsState` is left for another state only. -/
theorem handle_parseOptionsState {b : Build} {event : Token} {d d' : Data V} {target : State}
    {hasData : Bool}
    (h : handle b .parseOptionsState event d = .ok (.transitionTo target hasData, d')) :
    target ≠ .parseOptionsState := by
  obtain ⟨haction, -⟩ | ⟨-, ⟨message, haction⟩ | ⟨target', haction, htarget⟩⟩ := optionsHandle_ok h
  · cases haction
  · cases haction
  · cases haction
    intro heq
    simp [heq] at htarget

/-- A token is asked for again by a transition into `ParseOptionsState`. -/
theorem step_reissue {b : Build} {state state' : State} {event : Token} {d d' : Data V}
    (h : (machine b).step state event d = .ok (.reissueEvent, state', d')) :
    state' = .parseOptionsState ∧ ∃ hasData d₁,
      handle b state event d = .ok (.transitionTo .parseOptionsState hasData, d₁) := by
  obtain hstatus | ⟨message, hstatus⟩ | ⟨d₁, hleave⟩ |
    ⟨hasData, d₁, d₂, hhandle, -, henter⟩ := Fsm.StateMachine.step_ok h
  · cases hstatus
  · cases hstatus
  · exact absurd rfl (status_of_onLeave hleave)
  · by_cases hstate : state' = .parseOptionsState
    · subst hstate
      exact ⟨rfl, hasData, d₁, hhandle⟩
    · exact absurd rfl (status_of_onEnter hstate henter)

/-- `ParseOptionsState` does not ask for the same token again. -/
theorem step_parseOptionsState {b : Build} {state : State} {event : Token} {d d' : Data V} :
    (machine b).step .parseOptionsState event d ≠ .ok (.reissueEvent, state, d') := by
  intro h
  obtain ⟨-, hasData, d₁, hhandle⟩ := step_reissue h
  exact handle_parseOptionsState hhandle rfl

/-! ## Counting -/

/-- Whether the status for the current token is `ReissueEvent`. -/
def Config.reissues (b : Build) (cfg : Config V) : Bool :=
  match (machine b).step cfg.state cfg.token cfg.data with
  | .ok (.reissueEvent, _, _) => true
  | _ => false

/-- How often the token at the head of the loop has been handled since it was fetched. -/
def countHandled (b : Build) (cfg : Config V) (handled : Nat) : Nat :=
  if cfg.reissues b then handled + 1 else 0

/-- The configurations of a run, each with the times its token has been handled before. -/
def ReachableHandled (b : Build) (context : CommandLineContext V) (commands : List (Command V))
    (args : List String) (cfg : Config V) (handled : Nat) : Prop :=
  Loop.Reaches (Loop.withGhost (turn b) (countHandled b)) (start context commands args, 0)
    (cfg, handled)

theorem reissues_eq_true_iff {b : Build} {cfg : Config V} :
    cfg.reissues b = true ↔ ∃ state data,
      (machine b).step cfg.state cfg.token cfg.data = .ok (.reissueEvent, state, data) := by
  unfold Config.reissues
  split
  · next state data hstep => simp [hstep]
  · next hstep => simpa using fun state data h => hstep state data h

/-- A token that has been handled before is handled by `ParseOptionsState`. -/
structure HandledTwice (cfg : Config V) (handled : Nat) : Prop where
  le : handled ≤ 1
  state : handled = 1 → cfg.state = .parseOptionsState

theorem handledTwice_of_turn {b : Build} {cfg cfg' : Config V} {handled : Nat}
    (h : HandledTwice cfg handled) (hturn : turn b cfg = .inl cfg') :
    HandledTwice cfg' (countHandled b cfg handled) := by
  unfold countHandled
  by_cases hreissues : cfg.reissues b = true
  · obtain ⟨state, data, hstep⟩ := reissues_eq_true_iff.mp hreissues
    obtain rfl := (step_reissue hstep).1
    have hfirst : handled = 0 := by
      by_contra hne
      have hle := h.le
      rw [h.state (by omega)] at hstep
      exact step_parseOptionsState hstep
    obtain ⟨status, -, hstep'⟩ := exists_step_of_turn hturn
    have hsame := Except.ok.inj (hstep'.symm.trans hstep)
    have hstate : cfg'.state = .parseOptionsState := congrArg (fun p => p.2.1) hsame
    rw [if_pos hreissues, hfirst]
    exact ⟨by omega, fun _ => hstate⟩
  · rw [if_neg hreissues]
    exact ⟨by omega, fun hone => by omega⟩

theorem handledTwice_of_reachable {b : Build} {context : CommandLineContext V}
    {commands : List (Command V)} {args : List String} {cfg : Config V} {handled : Nat}
    (h : ReachableHandled b context commands args cfg handled) : HandledTwice cfg handled := by
  refine Loop.invariant_of_reaches (fun p => HandledTwice p.1 p.2) ⟨by omega, fun hone => ?_⟩ ?_ h
  · cases hone
  · intro p p' hp hturn
    obtain ⟨hturn, hcount⟩ := Loop.withGhost_eq_inl_iff.mp hturn
    rw [← hcount]
    exact handledTwice_of_turn hp hturn

/-- Every token is handled at most twice: it is asked for again by a transition into
`ParseOptionsState`, which does not ask for it again. -/
theorem handled_at_most_twice (b : Build) (context : CommandLineContext V)
    (commands : List (Command V)) (args : List String) :
    (∀ cfg, Reachable b context commands args cfg →
      ∃ handled, ReachableHandled b context commands args cfg handled) ∧
    (∀ cfg handled, ReachableHandled b context commands args cfg handled → handled + 1 ≤ 2) ∧
    ∀ cfg state data, Reachable b context commands args cfg →
      (machine b).step cfg.state cfg.token cfg.data = .ok (.reissueEvent, state, data) →
        state = .parseOptionsState ∧
        (∃ hasData d, handle b cfg.state cfg.token cfg.data =
          .ok (.transitionTo .parseOptionsState hasData, d)) ∧
        ∀ state' data', (machine b).step state cfg.token data ≠
          .ok (.reissueEvent, state', data') := by
  refine ⟨?_, ?_, ?_⟩
  · intro cfg hreach
    exact Loop.exists_reaches_withGhost hreach 0
  · intro cfg handled hreach
    have hle := (handledTwice_of_reachable hreach).le
    omega
  · intro cfg state data _ hstep
    obtain ⟨rfl, htransition⟩ := step_reissue hstep
    exact ⟨rfl, htransition, fun state' data' => step_parseOptionsState⟩

end Parser

end AsapClap
