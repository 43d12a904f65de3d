import AsapClap.Parser.Choice
import AsapClap.Parser.Names

/-!
# AsapClap.Parser.Naming

Runs up to the choice of a command: what `IdentifyCommandState` has collected are the first
tokens of the line, and it leaves for the last command at the longest path among them, or
else for the last default command.
-/

namespace AsapClap

open LongestPrefix Tokenizer

variable {V : Type} {b : Build}

/-- An argument that begins with a value is that value. -/
theorem Tokenizer.tokenize_of_head? {arg : String} {token : Token}
    (h : token ∈ (tokenize arg).head?) (hvalue : token.1 = .value) :
    tokenize arg = [(.value, arg)] := by
  have hshape : argumentTokens afterEqual arg.toList = [(.value, String.ofList arg.toList)] := by
    rw [tokenize_eq, emitted] at h
    revert h
    refine argumentTokens_cases (P := fun cs tokens => token ∈ tokens.head? →
      tokens = [(.value, String.ofList cs)]) ?_ ?_ ?_ ?_ ?_ ?_ _
    · intro h
      cases h
    · intro h
      cases h
      cases hvalue
    · intro h
      cases h
      cases hvalue
    · intro c cs h
      cases h
      cases hvalue
    · intro c cs _ h
      cases h
      cases hvalue
    · intro c cs _ _
      rfl
  rw [tokenize_eq, emitted, hshape, String.ofList_toList]

/-- The arguments whose only token is a value come first, and are the values. -/
theorem Tokenizer.tokenize_of_values {vs : List String} {args : List String}
    {tokens : List Token} (h : vs.map (Prod.mk .value) ++ tokens = delivered args) :
    ∀ s ∈ vs, tokenize s = [(.value, s)] := by
  induction vs generalizing args with
  | nil => simp
  | cons v vs ih =>
      cases args with
      | nil => cases h
      | cons arg args =>
          by_cases harg : arg = ""
          · rw [harg, delivered_empty_cons] at h
            cases h
          · rw [delivered_cons harg, List.map_cons, List.cons_append] at h
            have hne : tokenize arg ≠ [] := fun hnil => harg ((tokenize_eq_nil_iff arg).mp hnil)
            obtain ⟨token, rest, htokens⟩ := List.exists_cons_of_ne_nil hne
            have hhead : token = (.value, v) := by
              rw [htokens, List.cons_append, List.cons.injEq] at h
              exact h.1.symm
            have hvalue : tokenize arg = [(.value, arg)] :=
              tokenize_of_head? (by simp [htokens]) (congrArg Prod.fst hhead)
            rw [hvalue, List.cons_append, List.cons.injEq, List.nil_append] at h
            obtain ⟨hv, hvs⟩ := h
            obtain rfl : v = arg := congrArg Prod.snd hv
            exact List.forall_mem_cons.mpr ⟨hvalue, ih hvs⟩

namespace Parser

/-! ## What has been typed -/

/-- What a run has collected for a path, while it chooses a command. -/
def Phase.typed : Phase → Option (List String)
  | .start => some []
  | .naming typed => some typed
  | .ready | .short _ | .long _ _ => none

section

variable {phase phase' : Phase} {context context' : ParserContext V} {token : Token}
  {typed' : List String}

theorem typed_dispatch (h : dispatch b context token = .ok (phase', context')) :
    phase'.typed = none := by
  obtain ⟨tokenType, text⟩ := token
  cases tokenType with
  | value =>
      cases h
      rfl
  | longOption | shortOption | loneDash =>
      obtain ⟨context₁, -, h⟩ := bind_eq_ok.mp h
      cases h
      rfl
  | equalSign =>
      obtain ⟨message, -, h⟩ := bind_eq_ok.mp h
      cases h
  | dashDash | endOfInput => cases h

theorem typed_behindCommand (h : phase.BehindCommand context) : phase.typed ≠ some typed' := by
  cases phase with
  | start | naming _ => exact h.elim
  | _ => simp [Phase.typed]

theorem advance_behindCommand (hphase : phase.BehindCommand context)
    (hcommand : context.activeCommand.isSome)
    (h : advance b phase context token = .ok (phase', context')) :
    phase'.BehindCommand context' := by
  obtain ⟨command, hcommand⟩ := Option.isSome_iff_exists.mp hcommand
  exact (advance_ok hphase hcommand h).1

/-- Only values are collected, one after the other, and the context is left alone. -/
theorem typed_advance (hwf : phase.Wf context)
    (h : advance b phase context token = .ok (phase', context'))
    (htyped : phase'.typed = some typed') :
    context' = context ∧ ∃ typed text, phase.typed = some typed ∧ token = (.value, text) ∧
      typed' = typed ++ [text] := by
  have hnot : ∀ {context₁}, dispatch b context₁ token ≠ .ok (phase', context') := by
    intro context₁ hdispatch
    rw [typed_dispatch hdispatch] at htyped
    cases htyped
  cases phase with
  | start =>
      obtain ⟨tokenType, text⟩ := token
      cases tokenType with
      | value =>
          change begin b context (.value, text) = _ at h
          rw [begin] at h
          split at h
          · cases h
            cases htyped
            exact ⟨rfl, [], text, rfl, rfl, rfl⟩
          · split at h
            · exact absurd h hnot
            · cases h
      | _ =>
          change (if context.activeCommand.isSome then _ else _) = _ at h
          split at h
          · exact absurd h hnot
          · cases h
  | naming typed =>
      by_cases hvalue : token.1 = .value
      · obtain ⟨text, rfl⟩ := Token.exists_text hvalue
        change continueNaming b typed context (.value, text) = _ at h
        rw [continueNaming] at h
        split at h
        · cases h
          cases htyped
          exact ⟨rfl, typed, text, rfl, rfl, rfl⟩
        · obtain ⟨context₁, -, h⟩ := bind_eq_ok.mp h
          exact absurd h hnot
      · rw [advance_naming_other hvalue] at h
        obtain ⟨context₁, -, h⟩ := bind_eq_ok.mp h
        exact absurd h hnot
  | ready => exact absurd h hnot
  | short value =>
      have hphase : (Phase.short value).BehindCommand context := hwf.2
      exact absurd htyped (typed_behindCommand (advance_behindCommand hphase hwf.1 h))
  | long value afterEqual =>
      have hphase : (Phase.long value afterEqual).BehindCommand context := hwf.2
      exact absurd htyped (typed_behindCommand (advance_behindCommand hphase hwf.1 h))

end

/-! ## Departures -/

section

variable {context : ParserContext V} {token : Token} {state : State} {hasData : Bool}
  {d : Data V}

/-- `InitialState` leaves the context as it is. -/
theorem depart_initialState
    (h : (machine b).depart .initialState token (Phase.start.data context) =
      .ok (.enters state hasData d)) : d.context = context := by
  obtain ⟨d₁, hhandle, hleave⟩ := Fsm.StateMachine.depart_eq_enters h
  have hd₁ : d₁ = Phase.start.data context := (Prod.mk.inj (Except.ok.inj hhandle)).2.symm
  have hd : d = d₁ := (Prod.mk.inj (Except.ok.inj hleave)).2.symm
  rw [hd, hd₁]
  rfl

/-- `IdentifyCommandState` leaves with the last command at the longest path, or else with the
last default command. -/
theorem depart_identifyCommandState {typed : List String}
    (hwf : (Phase.naming typed).Wf context)
    (h : (machine b).depart .identifyCommandState token ((Phase.naming typed).data context) =
      .ok (.enters state hasData d)) :
    d.context.activeCommand =
      (longest Command.path context.commands typed).or (lastDefault context.commands) := by
  obtain ⟨d₁, hhandle, hleave⟩ := Fsm.StateMachine.depart_eq_enters h
  have hd : d = IdentifyCommandState.reset d₁ := (Prod.mk.inj (Except.ok.inj hleave)).2.symm
  rw [hd]
  change d₁.context.activeCommand = _
  obtain ⟨hpos, htyped, -⟩ := hwf
  by_cases hvalue : token.1 = .value
  · obtain ⟨text, rfl⟩ := Token.exists_text hvalue
    rw [handleValue_naming htyped] at hhandle
    by_cases hnil : candidates Command.path context.commands (typed ++ [text]) = []
    · simp only [hnil, if_true] at hhandle
      cases hlong : longest Command.path context.commands typed with
      | some command =>
          simp only [hlong] at hhandle
          cases hhandle
          rfl
      | none =>
          cases hdef : lastDefault context.commands with
          | some command =>
              simp only [hlong, hdef, useDefault_naming _ _ hpos] at hhandle
              cases hhandle
              rfl
          | none =>
              simp only [hlong, hdef] at hhandle
              cases hhandle
    · simp only [hnil, if_false] at hhandle
      cases hhandle
  · rw [handleOther_naming htyped context hvalue] at hhandle
    cases hlong : longest Command.path context.commands typed with
    | some command =>
        simp only [hlong] at hhandle
        cases hhandle
        rfl
    | none =>
        cases hdef : lastDefault context.commands with
        | some command =>
            simp only [hlong, hdef] at hhandle
            have huse := hhandle.symm.trans (useDefault_naming (b := b) typed command hpos)
            cases huse
            rfl
        | none =>
            simp only [hlong, hdef] at hhandle
            cases hhandle

/-- With a command to leave with, it leaves at a token that is no value. -/
theorem exists_depart_identifyCommandState {typed : List String} {command : Command V}
    (hwf : (Phase.naming typed).Wf context) (hvalue : token.1 ≠ .value)
    (h : (longest Command.path context.commands typed).or (lastDefault context.commands) =
      some command) :
    ∃ state d, (machine b).depart .identifyCommandState token
      ((Phase.naming typed).data context) = .ok (.enters state true d) := by
  obtain ⟨hpos, htyped, -⟩ := hwf
  have hhandle := handleOther_naming (b := b) htyped context hvalue
  cases hlong : longest Command.path context.commands typed with
  | some command =>
      simp only [hlong] at hhandle
      exact ⟨_, _, Fsm.StateMachine.depart_of_transition hhandle rfl⟩
  | none =>
      rw [hlong, Option.none_or] at h
      simp only [hlong, h] at hhandle
      have huse := hhandle.trans (useDefault_naming (b := b) typed command hpos)
      exact ⟨_, _, Fsm.StateMachine.depart_of_transition huse rfl⟩

end

/-! ## Runs -/

/-- Where a run is that has not chosen a command: what it has collected and what is still to
come are the tokens of the line. -/
def Config.Undecided (context : ParserContext V) (args : List String) (cfg : Config V) : Prop :=
  (∃ phase context' tokens, cfg.Matches phase context' tokens ∧
      ∀ typed, phase.typed = some typed →
        context' = context ∧ typed.map (Prod.mk .value) ++ tokens = delivered args) ∨
    cfg.state = .dashDashState

section

variable {context : CommandLineContext V} {commands : List (Command V)} {args : List String}
  {cfg : Config V}

theorem undecided_of_turn {context : ParserContext V} {cfg' : Config V}
    (h : cfg.Undecided context args) (hturn : turn b cfg = .inl cfg') :
    cfg'.Undecided context args := by
  obtain ⟨phase, context₁, tokens, hmatches, hknown⟩ | hstate := h
  · obtain ⟨phase', context', tokens', hmatches', hmoves⟩ | ⟨tokens', hstate, -⟩ :=
      moves_of_turn hmatches hturn
    · refine .inl ⟨phase', context', tokens', hmatches', fun typed' htyped' => ?_⟩
      cases hmoves with
      | handsOn hand hscan => cases htyped'
      | advances cons hadvance =>
          obtain ⟨rfl, typed, text, htyped, htoken, rfl⟩ :=
            typed_advance hmatches.wf hadvance htyped'
          obtain ⟨rfl, htokens⟩ := hknown typed htyped
          refine ⟨rfl, ?_⟩
          rw [← htokens, cons, htoken]
          simp
    · exact .inr hstate
  · exact .inr (turn_dashDashState hstate hturn)

theorem undecided_of_reachable (h : Reachable b context commands args cfg) :
    cfg.Undecided (initial context commands) args := by
  refine Loop.invariant_of_reaches (Config.Undecided (initial context commands) args)
    (.inl ⟨_, _, _, matches_start context commands args, fun typed htyped => ?_⟩)
    (fun _ _ hundecided hturn => undecided_of_turn hundecided hturn) h
  obtain rfl : [] = typed := by simpa [Phase.typed] using htyped
  exact ⟨rfl, rfl⟩

/-- A value with which some path goes on is collected. -/
theorem turn_of_candidates {phase : Phase} {context : ParserContext V} {typed : List String}
    {text : String} {tokens : List Token}
    (h : cfg.Matches phase context ((.value, text) :: tokens)) (htyped : phase.typed = some typed)
    (hcandidates : candidates Command.path context.commands (typed ++ [text]) ≠ []) :
    ∃ cfg', turn b cfg = .inl cfg' ∧ cfg'.Matches (.naming (typed ++ [text])) context tokens := by
  have hadvance : advance b phase context (.value, text) =
      .ok (.naming (typed ++ [text]), context) := by
    cases phase with
    | start =>
        obtain rfl : [] = typed := by simpa [Phase.typed] using htyped
        simp [advance, begin, maybeCommand_iff.mpr hcandidates]
    | naming typed' =>
        obtain rfl : typed' = typed := by simpa [Phase.typed] using htyped
        simp [advance, continueNaming, hcandidates]
    | _ => cases htyped
  obtain ⟨htoken, -, hne⟩ := h.delivers
  have hfollows : Follows b phase context (.value, text) := advance_follows h.wf (by simp)
  obtain hhandles | ⟨context', -, hdispatch⟩ := hfollows
  · rw [hadvance] at hhandles
    obtain ⟨hwf, hstep⟩ := hhandles
    rw [← h.state, ← h.data, ← htoken] at hstep
    exact ⟨_, turn_of_continue hstep (by simp [htoken]), rfl, rfl, hwf,
      delivers_next h.delivers _ _⟩
  · rw [hadvance] at hdispatch
    cases typed_dispatch hdispatch.symm

/-- A run collects a path as far as there are commands whose path goes on like that. -/
theorem exists_naming {typed : List String} {tokens : List Token} (hne : typed ≠ [])
    (htokens : typed.map (Prod.mk .value) ++ tokens = delivered args)
    (hcandidates : candidates Command.path commands typed ≠ []) :
    ∃ cfg, Reachable b context commands args cfg ∧
      cfg.Matches (.naming typed) (initial context commands) tokens := by
  induction typed using List.reverseRecOn generalizing tokens with
  | nil => exact absurd rfl hne
  | append_singleton typed text ih =>
      have hinitial := initial_commands context commands
      have hdelivered : typed.map (Prod.mk .value) ++ (.value, text) :: tokens =
          delivered args := by
        rw [← htokens]
        simp
      have hbefore : ∃ cfg phase, Reachable b context commands args cfg ∧
          cfg.Matches phase (initial context commands) ((.value, text) :: tokens) ∧
          phase.typed = some typed := by
        by_cases hnil : typed = []
        · subst hnil
          have hstart := matches_start context commands args
          rw [← hdelivered] at hstart
          exact ⟨_, .start, .refl, hstart, rfl⟩
        · have hshorter : candidates Command.path commands typed ≠ [] := fun hempty =>
            hcandidates (candidates_eq_nil_of_longer (List.prefix_append _ _) hempty)
          obtain ⟨cfg, hreach, hmatches⟩ := ih hnil hdelivered hshorter
          exact ⟨cfg, _, hreach, hmatches, rfl⟩
      obtain ⟨cfg, phase, hreach, hmatches, htyped⟩ := hbefore
      obtain ⟨cfg', hturn, hmatches'⟩ :=
        turn_of_candidates (b := b) hmatches htyped (hinitial.symm ▸ hcandidates)
      exact ⟨cfg', hreach.tail hturn, hmatches'⟩

end

end Parser

end AsapClap
