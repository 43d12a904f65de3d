import AsapClap.Parser.Storing

/-!
# AsapClap.Parser.Names

What the tokenizer and the parser agree on: an equal sign is handled by the state that has
just been entered with the long option in front of it, and an option is only looked up under
a name that is not empty.
-/

namespace AsapClap

open Tokenizer

variable {V : Type}

/-- The token is a name of the option, and not empty. -/
def ClapOption.TypedAs (o : ClapOption V) (token : Token) : Prop :=
  token.2 ≠ "" ∧
    ((token.1 = .shortOption ∨ token.1 = .loneDash) ∧ o.shortName = token.2 ∨
      token.1 = .longOption ∧ o.longName = token.2)

namespace Parser

variable {b : Build}

/-- The machine only handles what the tokenizer can emit. -/
structure AgreesOnTokens (b : Build) (context : CommandLineContext V) (commands : List (Command V))
    (args : List String) : Prop where
  /-- an equal sign is delivered to the state of the long option -/
  equalSign : ∀ cfg, Reachable b context commands args cfg → cfg.token.1 = .equalSign →
    cfg.state = .parseLongOptionState ∧ cfg.data.context.activeOption.isSome ∨
      cfg.state = .dashDashState
  /-- the option states, which look up their token, are not entered with an empty one -/
  looksUp : ∀ cfg, Reachable b context commands args cfg → ∀ state hasData d,
    (machine b).depart cfg.state cfg.token cfg.data = .ok (.enters state hasData d) →
    state = .parseShortOptionState ∨ state = .parseLongOptionState → cfg.token.2 ≠ ""
  /-- an option that becomes the active one was typed with its own name -/
  activates : ∀ cfg, Reachable b context commands args cfg → ∀ status state d o,
    (machine b).step cfg.state cfg.token cfg.data = .ok (status, state, d) →
    d.context.activeOption = some o → cfg.data.context.activeOption = some o ∨ o.TypedAs cfg.token

/-! ## The active option -/

section

variable {d d' : Data V} {event : Token} {action : Action} {status : Status}

theorem identifyHandle_activeOption (h : IdentifyCommandState.handle b event d = .ok (action, d')) :
    d'.context.activeOption = d.context.activeOption := by
  obtain ⟨command, tokens, hcontext⟩ := identifyHandle_context h
  rw [hcontext]

/-- No `Handle` changes the active option. -/
theorem handle_activeOption {state : State}
    (h : (machine b).handle state event d = .ok (action, d')) :
    d'.context.activeOption = d.context.activeOption := by
  cases state with
  | identifyCommandState => exact identifyHandle_activeOption h
  | initialState | dashDashState | finalState =>
      cases h
      rfl
  | parseOptionsState => obtain ⟨-, rfl⟩ | ⟨rfl, -⟩ := optionsHandle_ok h <;> rfl
  | parseShortOptionState => exact (sameMembers_of_shortHandle h).choice.activeOption
  | parseLongOptionState => exact (sameMembers_of_longHandle h).choice.activeOption

/-- No `OnLeave` does. -/
theorem onLeave_activeOption {state : State}
    (h : (machine b).onLeave state event d = .ok (status, d')) :
    d'.context.activeOption = d.context.activeOption := by
  cases state with
  | parseShortOptionState => exact (sameMembers_of_shortLeave h).choice.activeOption
  | parseLongOptionState => exact (sameMembers_of_longLeave h).choice.activeOption
  | _ =>
      cases h
      rfl

/-- An option state is entered with the option that the active command finds. -/
theorem enterOption_activeOption {flag token : String} {find : Command V → Option (ClapOption V)}
    {hasData : Bool} {context context' : ParserContext V}
    (h : enterOption b flag find token hasData context = .ok (status, context')) :
    context'.activeOption = context.activeOption ∨
      ∃ command option, find command = some option ∧ context'.activeOption = some option := by
  obtain ⟨-, -, hsame | ⟨command, option, -, hfind, hoption⟩⟩ := enterOption_choice h
  · exact .inl hsame
  · exact .inr ⟨command, option, hfind, hoption⟩

/-- Only the `OnEnter` of the option states do, for an option with the name that was typed. -/
theorem onEnter_activeOption {state : State} {hasData : Bool}
    (hname : event.1 ≠ .endOfInput → event.2 ≠ "")
    (h : (machine b).onEnter state event hasData d = .ok (status, d')) :
    d'.context.activeOption = d.context.activeOption ∨
      ∃ o, d'.context.activeOption = some o ∧ o.TypedAs event := by
  cases state with
  | initialState =>
      cases h
      exact .inl rfl
  | identifyCommandState => exact .inl (by rw [identifyEnter_context h])
  | parseOptionsState => exact .inl (by rw [optionsEnter_context h])
  | parseShortOptionState =>
      obtain ⟨htoken, context, henter, rfl⟩ := shortOnEnter_ok h
      obtain hsame | ⟨command, o, hfind, hoption⟩ := enterOption_activeOption henter
      · exact .inl hsame
      · have hshort : o.shortName = event.2 := by simpa using List.find?_some hfind
        have hnot : event.1 ≠ .endOfInput := by obtain h | h := htoken <;> simp [h]
        exact .inr ⟨o, hoption, hname hnot, .inl ⟨htoken, hshort⟩⟩
  | parseLongOptionState =>
      obtain ⟨htoken, context, henter, rfl⟩ := longOnEnter_ok h
      obtain hsame | ⟨command, o, hfind, hoption⟩ := enterOption_activeOption henter
      · exact .inl hsame
      · have hlong : o.longName = event.2 := by simpa using List.find?_some hfind
        have hnot : event.1 ≠ .endOfInput := by simp [htoken]
        exact .inr ⟨o, hoption, hname hnot, .inr ⟨htoken, hlong⟩⟩
  | dashDashState =>
      obtain ⟨-, -, h⟩ := bind_eq_ok.mp h
      cases h
      exact .inl rfl
  | finalState =>
      obtain ⟨context, hsettle, rfl⟩ := finalOnEnter_ok h
      exact .inl (sameChoice_of_settle hsettle).activeOption

/-- Over a whole step, the active option is kept or is one that was typed. -/
theorem step_activeOption {state state' : State} (hname : event.1 ≠ .endOfInput → event.2 ≠ "")
    (h : (machine b).step state event d = .ok (status, state', d')) :
    d'.context.activeOption = d.context.activeOption ∨
      ∃ o, d'.context.activeOption = some o ∧ o.TypedAs event := by
  have hpreserves : (machine b).PreservesOn event fun d' =>
      d'.context.activeOption = d.context.activeOption ∨
        ∃ o, d'.context.activeOption = some o ∧ o.TypedAs event := {
    handle := fun hd h => by rwa [handle_activeOption h]
    onLeave := fun hd h => by rwa [onLeave_activeOption h]
    onEnter := fun hd h => by
      obtain hsame | htyped := onEnter_activeOption hname h
      · rwa [hsame]
      · exact .inr htyped }
  exact hpreserves.step (.inl rfl) h

/-! ## Names -/

/-- The end of the input leads to `FinalState`, if not through `ParseOptionsState`. -/
theorem handle_endOfInput {state target : State} {hasData : Bool} {text : String}
    (h : (machine b).handle state (.endOfInput, text) d = .ok (.transitionTo target hasData, d')) :
    target = .finalState ∨ target = .parseOptionsState := by
  cases state with
  | initialState =>
      have hhandle : InitialState.handle (.endOfInput, text) d = .transitionTo target hasData :=
        congrArg Prod.fst (Except.ok.inj h)
      rw [InitialState.handle] at hhandle
      split at hhandle <;> cases hhandle
      exact .inl rfl
  | identifyCommandState =>
      change IdentifyCommandState.handleOther b .endOfInput d = _ at h
      obtain ⟨-, -, h⟩ := bind_eq_ok.mp h
      split at h
      · cases h
        exact .inl rfl
      · obtain ⟨-, -, h⟩ := bind_eq_ok.mp h
        cases h
        exact .inr rfl
      · cases h
  | parseOptionsState =>
      cases h
      exact .inl rfl
  | parseShortOptionState | parseLongOptionState =>
      cases h
      exact .inr rfl
  | dashDashState | finalState => cases h

end

/-! ## Equal signs -/

/-- With an equal sign to come, the option in front of it is the active one. -/
def AwaitsEqualSign (phase : Phase) (tokens : List Token) : Prop :=
  tokens.IsChain Attached ∧
    ∀ t ∈ tokens.head?, t.1 = .equalSign → ∃ value afterEqual, phase = .long value afterEqual

section

variable {phase phase' : Phase} {context context' : ParserContext V} {tokens tokens' : List Token}

theorem dispatch_longOption {name : String}
    (h : dispatch b context (.longOption, name) = .ok (phase', context')) :
    phase' = .long none false := by
  obtain ⟨context₁, -, h⟩ := bind_eq_ok.mp h
  cases h
  rfl

/-- Behind a long option, the state of the long option is the current one. -/
theorem advance_longOption {name : String}
    (h : advance b phase context (.longOption, name) = .ok (phase', context')) :
    phase' = .long none false := by
  cases phase with
  | start =>
      change (if context.activeCommand.isSome then _ else _) = _ at h
      split at h
      · exact dispatch_longOption h
      · cases h
  | naming typed | short value | long value afterEqual =>
      obtain ⟨context₁, -, h⟩ := bind_eq_ok.mp h
      exact dispatch_longOption h
  | ready => exact dispatch_longOption h

/-- The state of the long option keeps an equal sign to itself. -/
theorem not_handsOn_equalSign {value : Option String} {afterEqual : Bool} {token : Token}
    (hwf : (Phase.long value afterEqual).Wf context) (htoken : token.1 = .equalSign) :
    ¬ HandsOn b (.long value afterEqual) context token context' := by
  obtain ⟨text, rfl⟩ := Token.exists_text htoken
  rintro ⟨-, -, hstep⟩
  have hhandles : Handles b (.long value afterEqual) context (.equalSign, text)
      (advance b (.long value afterEqual) context (.equalSign, text)) :=
    continueLong_equalSign_handles hwf
  cases hadvance : advance b (.long value afterEqual) context (.equalSign, text) with
  | ok p =>
      obtain ⟨phase', context₁⟩ := p
      rw [hadvance] at hhandles
      rw [hhandles.2] at hstep
      cases hstep
  | error stop =>
      rw [hadvance] at hhandles
      cases stop with
      | rejected message context₁ =>
          obtain ⟨state, d, hrejected, -⟩ := hhandles
          rw [hrejected] at hstep
          cases hstep
      | faulted fault =>
          have hfaulted : _ = _ := hhandles
          rw [hfaulted] at hstep
          cases hstep
      | swallowed =>
          obtain ⟨d, hswallowed⟩ := hhandles
          rw [hswallowed] at hstep
          cases hstep

theorem awaitsEqualSign_of_moves {cfg : Config V} (h : cfg.Matches phase context tokens)
    (hawaits : AwaitsEqualSign phase tokens)
    (hmoves : Moves b cfg.token phase context tokens phase' context' tokens') :
    AwaitsEqualSign phase' tokens' := by
  cases hmoves with
  | handsOn hand hscan =>
      refine ⟨hawaits.1, fun t ht hequal => ?_⟩
      obtain ⟨value, afterEqual, rfl⟩ := hawaits.2 t ht hequal
      have htoken : cfg.token = t := by
        cases tokens with
        | nil => cases ht
        | cons token tokens =>
            obtain rfl := Option.some.inj ht
            exact h.delivers.1
      exact absurd hand (not_handsOn_equalSign h.wf (htoken ▸ hequal))
  | advances cons hadvance =>
      subst cons
      refine ⟨hawaits.1.tail, fun t ht hequal => ?_⟩
      have hlong : cfg.token.1 = .longOption := (List.isChain_cons.mp hawaits.1).1 t ht hequal
      obtain ⟨name, hname⟩ := Token.exists_text hlong
      rw [hname] at hadvance
      exact ⟨none, false, advance_longOption hadvance⟩

end

/-- Where a run is before it is caught by `DashDashState`. -/
def Config.Orderly (args : List String) (cfg : Config V) : Prop :=
  (∃ phase context tokens, cfg.Matches phase context tokens ∧ AwaitsEqualSign phase tokens ∧
      tokens ⊆ delivered args) ∨
    cfg.state = .dashDashState

/-- `DashDashState` is not left. -/
theorem step_dashDashState {cfg : Config V} (hstate : cfg.state = .dashDashState) :
    (machine b).step cfg.state cfg.token cfg.data = .ok (.continue_, .dashDashState, cfg.data) := by
  rw [hstate]
  exact Fsm.StateMachine.step_of_doNothing rfl

theorem turn_dashDashState {cfg cfg' : Config V} (hstate : cfg.state = .dashDashState)
    (hturn : turn b cfg = .inl cfg') : cfg'.state = .dashDashState := by
  obtain ⟨status, -, hstep⟩ := exists_step_of_turn hturn
  exact congrArg (fun p => p.2.1) (Except.ok.inj (hstep.symm.trans (step_dashDashState hstate)))

theorem orderly_of_turn {args : List String} {cfg cfg' : Config V} (h : cfg.Orderly args)
    (hturn : turn b cfg = .inl cfg') : cfg'.Orderly args := by
  obtain ⟨phase, context, tokens, hmatches, hawaits, hsubset⟩ | hstate := h
  · obtain ⟨phase', context', tokens', hmatches', hmoves⟩ | ⟨tokens', hstate, -⟩ :=
      moves_of_turn hmatches hturn
    · refine .inl ⟨phase', context', tokens', hmatches',
        awaitsEqualSign_of_moves hmatches hawaits hmoves, ?_⟩
      cases hmoves with
      | handsOn hand hscan => exact hsubset
      | advances cons hadvance => exact (List.cons_subset.mp (cons ▸ hsubset)).2
    · exact .inr hstate
  · exact .inr (turn_dashDashState hstate hturn)

section

variable {context : CommandLineContext V} {commands : List (Command V)} {args : List String}

theorem orderly_of_reachable {cfg : Config V} (h : Reachable b context commands args cfg) :
    cfg.Orderly args := by
  refine Loop.invariant_of_reaches (Config.Orderly args) (.inl ⟨_, _, _,
    matches_start context commands args, ⟨?_, fun t ht hequal => ?_⟩, List.Subset.refl _⟩)
    (fun _ _ horderly hturn => orderly_of_turn horderly hturn) h
  · exact (isChain_delivered args (.value, "")).tail
  · have hlong := (List.isChain_cons.mp (isChain_delivered args (.value, ""))).1 t ht hequal
    cases hlong

theorem exists_cons_of_delivers {cfg : Config V} {tokens : List Token} (h : cfg.Delivers tokens)
    (htoken : cfg.token.1 ≠ .endOfInput) : ∃ rest, tokens = cfg.token :: rest := by
  cases tokens with
  | nil => exact absurd h htoken
  | cons token rest => exact ⟨rest, by rw [h.1]⟩

/-- **Tokenizer and parser agree** on equal signs and names, whatever the command line. -/
theorem agreesOnTokens (b : Build) (context : CommandLineContext V) (commands : List (Command V))
    (args : List String) : AgreesOnTokens b context commands args := by
  have hname : ∀ cfg, Reachable b context commands args cfg → cfg.state ≠ .dashDashState →
      cfg.token.1 ≠ .endOfInput → cfg.token.2 ≠ "" := by
    intro cfg hreach hstate htoken
    obtain ⟨phase, context', tokens, hmatches, -, hsubset⟩ :=
      (orderly_of_reachable hreach).resolve_right hstate
    obtain ⟨rest, rfl⟩ := exists_cons_of_delivers hmatches.delivers htoken
    exact text_ne_empty_of_mem_delivered args cfg.token (hsubset (.head rest))
  constructor
  · intro cfg hreach hequal
    refine (orderly_of_reachable hreach).imp_left fun horderly => ?_
    obtain ⟨phase, context', tokens, hmatches, hawaits, -⟩ := horderly
    obtain ⟨rest, rfl⟩ := exists_cons_of_delivers hmatches.delivers (by simp [hequal])
    obtain ⟨value, afterEqual, rfl⟩ := hawaits.2 cfg.token rfl hequal
    refine ⟨hmatches.state, ?_⟩
    rw [hmatches.data]
    exact hmatches.wf.2
  · intro cfg hreach state hasData d hdepart htarget
    obtain ⟨d₁, hhandle, -⟩ := Fsm.StateMachine.depart_eq_enters hdepart
    refine hname cfg hreach (fun hstate => ?_) fun htoken => ?_
    · rw [hstate] at hhandle
      cases hhandle
    · obtain ⟨text, htoken⟩ := Token.exists_text htoken
      rw [htoken] at hhandle
      rcases handle_endOfInput hhandle with rfl | rfl <;> simp at htarget
  · intro cfg hreach status state d o hstep ho
    by_cases hstate : cfg.state = .dashDashState
    · rw [step_dashDashState hstate] at hstep
      cases hstep
      exact .inl ho
    · obtain hsame | ⟨o', ho', htyped⟩ := step_activeOption (hname cfg hreach hstate) hstep
      · exact .inl (hsame ▸ ho)
      · obtain rfl := Option.some.inj (ho.symm.trans ho')
        exact .inr htyped

end

end Parser

end AsapClap
