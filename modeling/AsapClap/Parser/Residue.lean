import AsapClap.Parser.Callbacks

/-!
# AsapClap.Parser.Residue

What the states leave behind.  The state objects live as long as the machine and are
entered over and over, so the members of a state that is not the current one have to be
as they were constructed: each `OnLeave` resets its own, and nobody touches those of
another state.
-/

namespace AsapClap

namespace Parser

variable {V : Type}

/-- Nothing is left in the members of a state.  The context is shared, so it is nobody's. -/
def IsReset : State → Data V → Prop
  | .identifyCommandState, d =>
      d.filteredCommands = [] ∧ d.lastMatchedCommand = none ∧ d.defaultCommand = none ∧
        d.pathSegments = []
  | .parseShortOptionState, d => d.shortValue = none
  | .parseLongOptionState, d => d.longValue = none ∧ d.afterEqualSign = false
  | .initialState, _ | .parseOptionsState, _ | .dashDashState, _ | .finalState, _ => True

/-- Only the state the machine is in may have something in its members. -/
def OthersReset (state : State) (d : Data V) : Prop := ∀ other, other ≠ state → IsReset other d

/-! ## The members of one state -/

section

variable {d : Data V} {other : State} {context : ParserContext V}

theorem isReset_with_context {hasContext : Bool} :
    IsReset other { d with context, optionsHasContext := hasContext } ↔ IsReset other d := by
  cases other <;> exact Iff.rfl

/-- The members of `IdentifyCommandState` do not concern the other states. -/
theorem isReset_with_identify {filtered : List (Command V)} {matched default : Option (Command V)}
    {typed : List String} (hne : other ≠ .identifyCommandState) :
    IsReset other { d with
      context
      filteredCommands := filtered
      lastMatchedCommand := matched
      defaultCommand := default
      pathSegments := typed } ↔ IsReset other d := by
  cases other with
  | identifyCommandState => contradiction
  | _ => exact Iff.rfl

/-- Nor do those of `ParseShortOptionState`. -/
theorem isReset_with_short {value : Option String} (hne : other ≠ .parseShortOptionState) :
    IsReset other { d with context, shortValue := value } ↔ IsReset other d := by
  cases other with
  | parseShortOptionState => contradiction
  | _ => exact Iff.rfl

/-- Nor do those of `ParseLongOptionState`. -/
theorem isReset_with_long {value : Option String} {afterEqual : Bool}
    (hne : other ≠ .parseLongOptionState) :
    IsReset other { d with context, longValue := value, afterEqualSign := afterEqual } ↔
      IsReset other d := by
  cases other with
  | parseLongOptionState => contradiction
  | _ => exact Iff.rfl

end

/-! ## The callbacks -/

section

variable {b : Build} {state other : State} {event : Token} {d d' : Data V} {action : Action}
  {status : Status}

/-- `IdentifyCommandState::Handle` leaves the other states reset. -/
theorem isReset_of_identifyHandle (hne : other ≠ .identifyCommandState) (hreset : IsReset other d)
    (h : IdentifyCommandState.handle b event d = .ok (action, d')) : IsReset other d' := by
  obtain ⟨d₁, hnarrowed, hidentifies⟩ := identifyHandle_ok h
  have hreset₁ : IsReset other d₁ := by
    obtain rfl | ⟨token, rfl⟩ := hnarrowed
    · exact hreset
    · rw [IdentifyCommandState.foldl_keepOnValue]
      exact (isReset_with_identify hne).mpr ((isReset_with_identify hne).mpr hreset)
  cases hidentifies with
  | matched => exact (isReset_with_identify hne).mpr hreset₁
  | fallsBack => exact (isReset_with_identify hne).mpr hreset₁
  | stays => exact hreset₁

/-- `Handle` of a state keeps to the members of the state. -/
theorem isReset_of_handle (hne : other ≠ state) (hreset : IsReset other d)
    (h : handle b state event d = .ok (action, d')) : IsReset other d' := by
  cases state with
  | identifyCommandState => exact isReset_of_identifyHandle hne hreset h
  | parseOptionsState =>
      obtain ⟨-, rfl⟩ | ⟨rfl, -⟩ := optionsHandle_ok h
      · exact isReset_with_context.mpr hreset
      · exact hreset
  | parseShortOptionState =>
      obtain ⟨-, rfl⟩ | ⟨-, option, semantics, context, value, -, -, -, rfl⟩ := shortHandle_ok h
      · exact hreset
      · exact (isReset_with_short hne).mpr hreset
  | parseLongOptionState =>
      obtain ⟨-, rfl⟩ | ⟨-, rfl⟩ | ⟨-, rfl⟩ |
        ⟨-, option, semantics, context, value, -, -, -, rfl⟩ := longHandle_ok h
      · exact hreset
      · exact hreset
      · exact (isReset_with_long hne).mpr hreset
      · exact (isReset_with_long hne).mpr hreset
  | initialState | dashDashState | finalState =>
      cases h
      exact hreset

/-- `OnLeave` leaves the other states reset. -/
theorem isReset_of_onLeave (hne : other ≠ state) (hreset : IsReset other d)
    (h : onLeave state event d = .ok (status, d')) : IsReset other d' := by
  cases state with
  | identifyCommandState =>
      cases h
      exact (isReset_with_identify hne).mpr hreset
  | parseShortOptionState =>
      obtain ⟨-, value, hd'⟩ := shortLeave_ok h
      rw [hd']
      exact (isReset_with_short hne).mpr hreset
  | parseLongOptionState =>
      obtain ⟨-, value, afterEqual, hd'⟩ := longLeave_ok h
      rw [hd']
      exact (isReset_with_long hne).mpr hreset
  | initialState | parseOptionsState | dashDashState | finalState =>
      cases h
      exact hreset

/-- The option states are entered without anything written to their own members. -/
theorem isReset_of_onEnter_option {hasData : Bool}
    (hstate : state = .parseShortOptionState ∨ state = .parseLongOptionState)
    (hreset : IsReset other d) (h : onEnter b state event hasData d = .ok (status, d')) :
    IsReset other d' := by
  obtain rfl | rfl := hstate
  · obtain ⟨-, context, -, rfl⟩ := shortOnEnter_ok h
    exact isReset_with_context.mpr hreset
  · obtain ⟨-, context, -, rfl⟩ := longOnEnter_ok h
    exact isReset_with_context.mpr hreset

/-- `OnEnter` leaves the other states reset. -/
theorem isReset_of_onEnter {hasData : Bool} (hne : other ≠ state) (hreset : IsReset other d)
    (h : onEnter b state event hasData d = .ok (status, d')) : IsReset other d' := by
  cases state with
  | initialState =>
      cases h
      exact hreset
  | identifyCommandState =>
      obtain ⟨-, rfl | ⟨token, rfl⟩⟩ := identifyEnter_ok h
      · exact hreset
      · rw [IdentifyCommandState.foldl_keepOnEnter]
        exact (isReset_with_identify hne).mpr ((isReset_with_identify hne).mpr hreset)
  | parseOptionsState =>
      obtain rfl | rfl := optionsEnter_ok h
      · exact hreset
      · exact isReset_with_context.mpr hreset
  | parseShortOptionState => exact isReset_of_onEnter_option (.inl rfl) hreset h
  | parseLongOptionState => exact isReset_of_onEnter_option (.inr rfl) hreset h
  | dashDashState =>
      obtain ⟨-, -, h⟩ := bind_eq_ok.mp h
      cases h
      exact hreset
  | finalState =>
      obtain ⟨context, -, rfl⟩ := finalOnEnter_ok h
      exact isReset_with_context.mpr hreset

/-- A state that lets the machine go on has reset its members; an option state that ends the run
has not. -/
theorem isReset_of_leave (h : onLeave state event d = .ok (.continue_, d')) : IsReset state d' := by
  cases state with
  | identifyCommandState =>
      cases h
      exact ⟨rfl, rfl, rfl, rfl⟩
  | parseShortOptionState =>
      obtain ⟨⟨status, context⟩, -, h⟩ := bind_eq_ok.mp h
      cases status <;> cases h
      exact rfl
  | parseLongOptionState =>
      obtain ⟨⟨status, context⟩, -, h⟩ := bind_eq_ok.mp h
      cases status <;> cases h
      exact ⟨rfl, rfl⟩
  | initialState | parseOptionsState | dashDashState | finalState => exact trivial

/-- The states of the parser clean up behind themselves. -/
theorem machine_cleansUp (b : Build) : (machine b (V := V)).CleansUp IsReset where
  handle := isReset_of_handle
  onLeave := isReset_of_onLeave
  onEnter := isReset_of_onEnter
  reset := isReset_of_leave

end

/-! ## Whole runs -/

section

variable {b : Build} {context : CommandLineContext V} {commands : List (Command V)}
  {args : List String} {cfg : Config V}

/-- Every state is constructed with nothing in its members. -/
theorem isReset_start (state : State) : IsReset state (start context commands args).data := by
  cases state with
  | identifyCommandState => exact ⟨rfl, rfl, rfl, rfl⟩
  | parseShortOptionState => exact rfl
  | parseLongOptionState => exact ⟨rfl, rfl⟩
  | initialState | parseOptionsState | dashDashState | finalState => exact trivial

/-- **In every configuration that is reached** all states but the current one are reset. -/
theorem othersReset_of_reachable (h : Reachable b context commands args cfg) :
    OthersReset cfg.state cfg.data :=
  invariant_of_reachable OthersReset (fun state _ => isReset_start state)
    (fun hothers hstep _ => (machine_cleansUp b).step hothers hstep) h

end

/-- What is left in the states as tokens are handled. -/
structure LeavesNoResidue (b : Build) (context : CommandLineContext V) (commands : List (Command V))
    (args : List String) : Prop where
  /-- When a token is handled, only the current state has something in its members. -/
  reachable : ∀ cfg, Reachable b context commands args cfg → OthersReset cfg.state cfg.data
  /-- The same holds of what handling it leaves, also if that ends the run. -/
  handled : ∀ cfg status state d, Reachable b context commands args cfg →
    (machine b).step cfg.state cfg.token cfg.data = .ok (status, state, d) → OthersReset state d
  /-- When a state is entered, no state has something in its members. -/
  entered : ∀ cfg target hasData d, Reachable b context commands args cfg →
    (machine b).depart cfg.state cfg.token cfg.data = .ok (.enters target hasData d) →
    ∀ state, IsReset state d
  /-- Nor has any when the parsing of an option has begun. -/
  occurrence : ∀ cfg cfg' target hasData d, Reachable b context commands args cfg →
    (machine b).depart cfg.state cfg.token cfg.data = .ok (.enters target hasData d) →
    target = .parseShortOptionState ∨ target = .parseLongOptionState →
    turn b cfg = .inl cfg' → ∀ state, IsReset state cfg'.data

/-- Behind a turn that enters an option state all states are reset. -/
theorem isReset_of_occurrence {b : Build} {cfg cfg' : Config V} {target : State} {hasData : Bool}
    {d : Data V} (h : OthersReset cfg.state cfg.data)
    (hdepart : (machine b).depart cfg.state cfg.token cfg.data = .ok (.enters target hasData d))
    (hoption : target = .parseShortOptionState ∨ target = .parseLongOptionState)
    (hturn : turn b cfg = .inl cfg') (state : State) : IsReset state cfg'.data := by
  obtain ⟨status, -, hstep⟩ := exists_step_of_turn hturn
  obtain ⟨-, hstays⟩ | ⟨hasData', d', henters, henter⟩ := Fsm.StateMachine.step_eq_ok hstep
  · rw [hdepart] at hstays
    cases hstays
  · rw [hdepart] at henters
    cases henters
    exact isReset_of_onEnter_option hoption ((machine_cleansUp b).enters h hdepart state) henter

/-- **No residue**: however many options have been parsed, the next one is parsed from clean
states. -/
theorem leavesNoResidue (b : Build) (context : CommandLineContext V) (commands : List (Command V))
    (args : List String) : LeavesNoResidue b context commands args where
  reachable := fun _ => othersReset_of_reachable
  handled := by
    intro cfg status state d hreach hstep
    exact (machine_cleansUp b).step (othersReset_of_reachable hreach) hstep
  entered := by
    intro cfg target hasData d hreach hdepart state
    exact (machine_cleansUp b).enters (othersReset_of_reachable hreach) hdepart state
  occurrence := by
    intro cfg cfg' target hasData d hreach hdepart hoption hturn state
    exact isReset_of_occurrence (othersReset_of_reachable hreach) hdepart hoption hturn state

end Parser

end AsapClap
