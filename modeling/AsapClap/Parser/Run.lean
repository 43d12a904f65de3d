import AsapClap.Parser.Simulation

/-!
# AsapClap.Parser.Run

Whole runs of `CmdLineParser::Parse`.

A configuration either stands for a phase of the pass with some tokens still to
come, or is stuck in `DashDashState`.  Every turn of the loop keeps that up and
leaves the verdict of the pass alone, so what `Parse` comes to is the verdict of
the pass over the tokens delivered (`parse_outcome`).
-/

namespace AsapClap

namespace Parser

open LongestPrefix

variable {V : Type} {b : Build}

/-! ## The verdict of the pass -/

/-- What the end of a run makes of the status `FinalState` is entered with. -/
def verdict : Except Fault (Status × ParserContext V) → Result V
  | .ok (.terminateWithError message, context) => .returned false (reportError context message)
  | .ok (_, context) => .returned true context
  | .error fault => .faulted fault

/-- What `Parse` comes to when the pass ends like this; a `--` is fatal to a
debug build at the end of the input, and never ends in a release build. -/
def conclude (b : Build) : Except (Stop V) (ParserContext V) → Option (Result V)
  | .ok entry => some (verdict (FinalState.settle b entry))
  | .error (.rejected message context) => some (.returned false (reportError context message))
  | .error (.faulted fault) => some (.faulted fault)
  | .error .swallowed =>
      match b with
      | .debug => some (.faulted (.contract .loopTokenIsNotEndOfInput))
      | .release => none

section

variable {context context' : ParserContext V} {status : Status}

/-- The validation terminates, with an error or without. -/
theorem validate_status {command : Command V}
    (h : FinalState.validate command context = .ok (status, context')) :
    status = .terminate ∨ ∃ message, status = .terminateWithError message := by
  obtain ⟨p, -, h⟩ := bind_eq_ok.mp h
  split at h
  · cases h
    exact .inr ⟨_, rfl⟩
  · obtain ⟨p, -, h⟩ := bind_eq_ok.mp h
    split at h
    · cases h
      exact .inr ⟨_, rfl⟩
    · cases h
      exact .inl rfl

/-- `FinalState` always ends the run. -/
theorem settle_status (h : FinalState.settle b context = .ok (status, context')) :
    status = .terminate ∨ ∃ message, status = .terminateWithError message := by
  simp only [FinalState.settle, bind_eq_ok] at h
  obtain ⟨command, -, pass, -, h⟩ := h
  split at h
  · exact validate_status h
  · obtain ⟨context₁, -, h⟩ := bind_eq_ok.mp h
    exact validate_status h
  · cases h
    exact .inr ⟨_, rfl⟩

end

/-! ## Configurations -/

/-- The loop is about to handle the first of these tokens, or the end of the
input if there is none. -/
def Config.Delivers (cfg : Config V) : List Token → Prop
  | [] => cfg.token.1 = .endOfInput
  | token :: tokens =>
      cfg.token = token ∧ cfg.tokenizer.remaining = tokens ∧
        ∀ t ∈ token :: tokens, t.1 ≠ .endOfInput

/-- The configuration stands for a phase of the pass. -/
structure Config.Matches (cfg : Config V) (phase : Phase) (context : ParserContext V)
    (tokens : List Token) : Prop where
  state : cfg.state = phase.state
  data : cfg.data = phase.data context
  wf : phase.Wf context
  delivers : cfg.Delivers tokens

/-- A configuration and its phase have the same context. -/
theorem context_of_matches {cfg : Config V} {phase : Phase} {context : ParserContext V}
    {tokens : List Token} (h : cfg.Matches phase context tokens) : cfg.data.context = context := by
  rw [h.data, Phase.context_data]

/-- The configuration is on the way to the verdict of this pass. -/
def Config.Tracks (b : Build) (pass : Except (Stop V) (ParserContext V)) (cfg : Config V) :
    Prop :=
  (∃ phase context tokens, cfg.Matches phase context tokens ∧
      scan b phase context tokens = pass) ∨
    cfg.state = .dashDashState ∧ pass = .error .swallowed ∧
      (b = .debug → ∃ tokens, cfg.Delivers tokens)

/-- Fetching the next token. -/
def Config.next (cfg : Config V) (state : State) (data : Data V) : Config V :=
  { tokenizer := cfg.tokenizer.nextToken.2, token := cfg.tokenizer.nextToken.1, state, data }

/-- A call of `NextToken` delivers the next token. -/
theorem delivers_of_nextToken {t : Tokenizer} {tokens : List Token} (hrem : t.remaining = tokens)
    (hne : ∀ x ∈ tokens, x.1 ≠ .endOfInput) (state : State) (data : Data V) :
    Config.Delivers { tokenizer := t.nextToken.2, token := t.nextToken.1, state, data } tokens := by
  cases tokens with
  | nil => exact congrArg Prod.fst (Tokenizer.nextToken_of_remaining_nil hrem)
  | cons token tokens =>
      obtain ⟨htoken, hrest, -⟩ := Tokenizer.nextToken_of_remaining_cons hrem
      exact ⟨htoken, hrest, hne⟩

/-- While there are tokens the current one is not the end of input. -/
theorem ne_endOfInput_of_delivers {cfg : Config V} {token : Token} {tokens : List Token}
    (h : cfg.Delivers (token :: tokens)) : cfg.token.1 ≠ .endOfInput := by
  rw [h.1]
  exact h.2.2 token (List.mem_cons_self ..)

/-- The next turn has the rest to deliver. -/
theorem delivers_next {cfg : Config V} {token : Token} {tokens : List Token}
    (h : cfg.Delivers (token :: tokens)) (state : State) (data : Data V) :
    (cfg.next state data).Delivers tokens :=
  delivers_of_nextToken h.2.1 (fun x hx => h.2.2 x (List.mem_cons_of_mem _ hx)) state data

/-- `Parse` starts at the beginning of the pass. -/
theorem matches_start (context : CommandLineContext V) (commands : List (Command V))
    (args : List String) :
    (start context commands args).Matches .start
      (InitialState.new (ParserContext.new context commands)) (Tokenizer.delivered args) where
  state := rfl
  data := rfl
  wf := by
    rw [Phase.Wf, InitialState.new]
    split <;> rfl
  delivers := delivers_of_nextToken (Tokenizer.remaining_new args)
    (Tokenizer.delivered_ne_endOfInput args) _ _

/-! ## One turn -/

/-- A turn that goes on takes the next token. -/
theorem turn_of_continue {cfg : Config V} {state : State} {data : Data V}
    (h : (machine b).step cfg.state cfg.token cfg.data = .ok (.continue_, state, data))
    (htoken : cfg.token.1 ≠ .endOfInput) : turn b cfg = .inl (cfg.next state data) := by
  simp [turn, h, htoken, Config.next]

/-- A turn that reissues keeps its token. -/
theorem turn_of_reissue {cfg : Config V} {state : State} {data : Data V}
    (h : (machine b).step cfg.state cfg.token cfg.data = .ok (.reissueEvent, state, data)) :
    turn b cfg = .inl { cfg with state, data } := by
  simp [turn, h]

/-- A turn that stops has the result that the pass concludes with. -/
theorem turn_of_stops {cfg : Config V} {phase : Phase} {context : ParserContext V} {stop : Stop V}
    (hstate : cfg.state = phase.state) (hdata : cfg.data = phase.data context)
    (hstop : Stops b phase context cfg.token stop) (hswallowed : stop ≠ .swallowed) :
    ∃ result, turn b cfg = .inr result ∧ conclude b (.error stop) = some result := by
  cases stop with
  | rejected message context' =>
      obtain ⟨state, d, hstep, rfl⟩ := hstop
      rw [← hstate, ← hdata] at hstep
      exact ⟨_, by rw [turn, hstep], rfl⟩
  | faulted fault =>
      have hstep : _ = _ := hstop
      rw [← hstate, ← hdata] at hstep
      exact ⟨_, by rw [turn, hstep], rfl⟩
  | swallowed => exact absurd rfl hswallowed

/-- Entering `FinalState` ends the run with its verdict. -/
theorem turn_of_entersFinal {cfg : Config V} {entry : ParserContext V}
    (h : EntersFinal b cfg entry) :
    turn b cfg = .inr (verdict (FinalState.settle b entry)) := by
  obtain ⟨d, hdepart, rfl⟩ := h
  have hstep := Fsm.StateMachine.step_of_depart hdepart
  simp only [machine, onEnter, FinalState.onEnter, takeData_true, ok_bind] at hstep
  cases hsettle : FinalState.settle b d.context with
  | error fault =>
      rw [hsettle] at hstep
      rw [turn, machine, hstep]
      rfl
  | ok p =>
      obtain ⟨status, context'⟩ := p
      rw [hsettle] at hstep
      rw [turn, machine, hstep]
      rcases settle_status hsettle with rfl | ⟨message, rfl⟩ <;> rfl

theorem accept_ne_swallowed {x : Except Fault (Status × ParserContext V)} :
    accept x ≠ .error .swallowed := by
  obtain fault | ⟨status, context⟩ := x
  · simp
  · cases status <;> simp [accept]

/-- Only a `--` is swallowed, the end of the input is not. -/
theorem finish_ne_swallowed (phase : Phase) (context : ParserContext V) :
    finish b phase context ≠ .error .swallowed := by
  cases phase with
  | start =>
      rw [finish]
      split <;> simp
  | naming typed =>
      rw [finish, select]
      split
      · simp_all
      · cases b <;> simp_all [Build.expect, lift]
      · simp
  | ready => simp [finish]
  | short value => exact accept_ne_swallowed
  | long value afterEqual => exact accept_ne_swallowed

/-- How far a run is from its end: every token is handled once, and once more if
it is handed on. -/
def weight (phase : Phase) (tokens : List Token) : Nat :=
  2 * tokens.length + if phase = .ready then 0 else 1

/-- How a pass moves on when the machine goes on: the token is handed on, or it is done
with. -/
inductive Moves (b : Build) (token : Token) (phase : Phase) (context : ParserContext V)
    (tokens : List Token) : Phase → ParserContext V → List Token → Prop
  | handsOn {context' : ParserContext V} (hand : HandsOn b phase context token context')
      (scan : scan b .ready context' tokens = scan b phase context tokens) :
      Moves b token phase context tokens .ready context' tokens
  | advances {phase' : Phase} {context' : ParserContext V} {tokens' : List Token}
      (cons : tokens = token :: tokens')
      (advance : advance b phase context token = .ok (phase', context')) :
      Moves b token phase context tokens phase' context' tokens'

section

variable {token : Token} {phase phase' : Phase} {context context' : ParserContext V}
  {tokens tokens' : List Token}

/-- Moving on does not change what the pass comes to. -/
theorem Moves.scan_eq (h : Moves b token phase context tokens phase' context' tokens') :
    scan b phase' context' tokens' = scan b phase context tokens := by
  cases h with
  | handsOn hand hscan => exact hscan
  | advances cons hadvance => rw [cons, scan, hadvance, ok_bind]

/-- Every move makes the variant smaller. -/
theorem Moves.weight_lt (h : Moves b token phase context tokens phase' context' tokens') :
    weight phase' tokens' < weight phase tokens := by
  cases h with
  | handsOn hand hscan => simp [weight, hand.1]
  | advances cons hadvance =>
      rw [cons, weight, weight, List.length_cons]
      split <;> split <;> omega

end

/-- The turn ends the run with the verdict of the pass, in `FinalState` if that decides. -/
def Concludes (b : Build) (cfg : Config V) (pass : Except (Stop V) (ParserContext V)) : Prop :=
  ∃ result, turn b cfg = .inr result ∧ conclude b pass = some result ∧
    pass ≠ .error .swallowed ∧ ∀ entry, pass = .ok entry → EntersFinal b cfg entry

section

variable {cfg : Config V} {phase : Phase} {context : ParserContext V} {tokens : List Token}

/-- A stop concludes the run. -/
theorem concludes_of_stops {stop : Stop V} (h : cfg.Matches phase context tokens)
    (hstops : Stops b phase context cfg.token stop) (hne : stop ≠ .swallowed) :
    Concludes b cfg (.error stop) := by
  obtain ⟨result, hturn, hresult⟩ := turn_of_stops h.state h.data hstops hne
  exact ⟨result, hturn, hresult, by simpa using hne, by simp⟩

/-- So does the end of the line. -/
theorem concludes_of_finishes (h : cfg.Matches phase context tokens)
    (hfinishes : Finishes b phase context cfg.token (finish b phase context)) :
    Concludes b cfg (finish b phase context) := by
  cases hpass : finish b phase context with
  | ok entry =>
      rw [hpass] at hfinishes
      obtain ⟨d, hdepart, rfl⟩ := hfinishes
      rw [← h.state, ← h.data] at hdepart
      refine ⟨_, turn_of_entersFinal ⟨d, hdepart, rfl⟩, rfl, by simp, fun entry hentry => ?_⟩
      cases hentry
      exact ⟨d, hdepart, rfl⟩
  | error stop =>
      rw [hpass] at hfinishes
      exact concludes_of_stops h hfinishes fun hswallowed =>
        finish_ne_swallowed phase context (hswallowed ▸ hpass)

/-- A token that is handed on is read again in the next turn. -/
theorem turn_of_handsOn {context' : ParserContext V} (h : cfg.Matches phase context tokens)
    (hhand : HandsOn b phase context cfg.token context') :
    ∃ cfg', turn b cfg = .inl cfg' ∧ cfg'.Matches .ready context' tokens := by
  obtain ⟨-, hwf', hstep⟩ := hhand
  rw [← h.state, ← h.data] at hstep
  exact ⟨_, turn_of_reissue hstep, rfl, rfl, hwf', h.delivers⟩

end

/-- **One turn** of a configuration that stands for a phase: it goes on to another
phase of the same pass, is caught by `DashDashState`, or ends the run with the
verdict of the pass. -/
theorem turn_of_matches {cfg : Config V} {phase : Phase} {context : ParserContext V}
    {tokens : List Token} (h : cfg.Matches phase context tokens) :
    (∃ cfg' phase' context' tokens', turn b cfg = .inl cfg' ∧
        cfg'.Matches phase' context' tokens' ∧
        Moves b cfg.token phase context tokens phase' context' tokens') ∨
      (∃ cfg' tokens', turn b cfg = .inl cfg' ∧ cfg'.state = .dashDashState ∧
        cfg'.Delivers tokens' ∧ scan b phase context tokens = .error .swallowed) ∨
      Concludes b cfg (scan b phase context tokens) := by
  obtain ⟨hstate, hdata, hwf, hdelivers⟩ := id h
  cases tokens with
  | nil =>
      have htoken : cfg.token.1 = .endOfInput := hdelivers
      obtain hfinishes | ⟨context', hhand, hfinish⟩ := finish_follows (b := b) hwf htoken
      · exact .inr (.inr (concludes_of_finishes h hfinishes))
      · obtain ⟨cfg', hturn, hmatches⟩ := turn_of_handsOn h hhand
        exact .inl ⟨cfg', _, _, _, hturn, hmatches, .handsOn hhand hfinish.symm⟩
  | cons token tokens =>
      obtain ⟨rfl, hrem, hne⟩ := id hdelivers
      have htoken := hne _ (List.mem_cons_self ..)
      obtain hhandles | ⟨context', hhand, hadvance⟩ := advance_follows (b := b) hwf htoken
      · cases hadvance : advance b phase context cfg.token with
        | ok p =>
            obtain ⟨phase', context'⟩ := p
            rw [hadvance] at hhandles
            obtain ⟨hwf', hstep⟩ := hhandles
            rw [← hstate, ← hdata] at hstep
            refine .inl ⟨_, phase', context', tokens, turn_of_continue hstep htoken,
              ⟨rfl, rfl, hwf', delivers_next hdelivers _ _⟩, .advances rfl hadvance⟩
        | error stop =>
            rw [hadvance] at hhandles
            have hscan : scan b phase context (cfg.token :: tokens) = .error stop := by
              rw [scan, hadvance]
              rfl
            rw [hscan]
            by_cases hswallowed : stop = .swallowed
            · obtain ⟨d, hstep⟩ : Stops b phase context cfg.token .swallowed :=
                hswallowed ▸ hhandles
              rw [← hstate, ← hdata] at hstep
              exact .inr (.inl ⟨_, tokens, turn_of_continue hstep htoken, rfl,
                delivers_next hdelivers _ _, by rw [hswallowed]⟩)
            · exact .inr (.inr (concludes_of_stops h hhandles hswallowed))
      · obtain ⟨cfg', hturn, hmatches⟩ := turn_of_handsOn h hhand
        refine .inl ⟨cfg', _, _, _, hturn, hmatches, .handsOn hhand ?_⟩
        rw [scan, scan, hadvance]
        rfl

/-- A turn that goes round again moves on in the pass, or is caught by `DashDashState`. -/
theorem moves_of_turn {cfg cfg' : Config V} {phase : Phase} {context : ParserContext V}
    {tokens : List Token} (h : cfg.Matches phase context tokens) (hturn : turn b cfg = .inl cfg') :
    (∃ phase' context' tokens', cfg'.Matches phase' context' tokens' ∧
        Moves b cfg.token phase context tokens phase' context' tokens') ∨
      ∃ tokens', cfg'.state = .dashDashState ∧ cfg'.Delivers tokens' ∧
        scan b phase context tokens = .error .swallowed := by
  obtain ⟨cfg'', phase', context', tokens', hturn', hmatches', hmoves⟩ |
    ⟨cfg'', tokens', hturn', hstate, hdelivers, hscan⟩ | ⟨result, hturn', -⟩ :=
      turn_of_matches (b := b) h
  · cases hturn.symm.trans hturn'
    exact .inl ⟨phase', context', tokens', hmatches', hmoves⟩
  · cases hturn.symm.trans hturn'
    exact .inr ⟨tokens', hstate, hdelivers, hscan⟩
  · cases hturn.symm.trans hturn'

/-- `DashDashState` ignores every token; only a debug build objects to the end of
the input. -/
theorem turn_of_dashDash {cfg : Config V} (hstate : cfg.state = .dashDashState)
    (h : b = .release ∨ cfg.token.1 ≠ .endOfInput) :
    turn b cfg = .inl (cfg.next .dashDashState cfg.data) := by
  have hstep : (machine b).step cfg.state cfg.token cfg.data =
      .ok (.continue_, .dashDashState, cfg.data) := by
    rw [hstate]
    exact Fsm.StateMachine.step_of_doNothing rfl
  obtain rfl | htoken := h
  · simp [turn, hstep, Config.next]
  · exact turn_of_continue hstep htoken

/-- There is no way out of `DashDashState`. -/
theorem dashDash_of_turn {cfg cfg' : Config V} (hstate : cfg.state = .dashDashState)
    (hturn : turn b cfg = .inl cfg') : cfg'.state = .dashDashState := by
  have hstep : (machine b).step cfg.state cfg.token cfg.data =
      .ok (.continue_, .dashDashState, cfg.data) := by
    rw [hstate]
    exact Fsm.StateMachine.step_of_doNothing rfl
  obtain ⟨hstep', -⟩ | ⟨hstep', -⟩ := turn_eq_inl hturn
  · rw [hstep] at hstep'
    cases hstep'
  · exact (Prod.mk.inj (Prod.mk.inj (Except.ok.inj (hstep'.symm.trans hstep))).2).1

/-- Debug builds object at the end of input behind `--`. -/
theorem turn_of_dashDash_endOfInput {cfg : Config V} (hstate : cfg.state = .dashDashState)
    (htoken : cfg.token.1 = .endOfInput) :
    turn .debug cfg = .inr (.faulted (.contract .loopTokenIsNotEndOfInput)) := by
  have hstep : (machine .debug).step cfg.state cfg.token cfg.data =
      .ok (.continue_, .dashDashState, cfg.data) := by
    rw [hstate]
    exact Fsm.StateMachine.step_of_doNothing rfl
  simp [turn, hstep, htoken]

/-! ## The whole run -/

/-- A run that is in `DashDashState` never leaves it. -/
theorem diverges_of_dashDash {cfg : Config V} (hstate : cfg.state = .dashDashState) :
    Loop.Diverges (turn .release) cfg :=
  Loop.diverges_of_invariant (fun cfg => cfg.state = .dashDashState) hstate
    fun _ hstate => ⟨_, turn_of_dashDash hstate (.inl rfl), rfl⟩

/-- Behind `--` the run goes on to the end of input. -/
theorem outcome_of_dashDash {cfg : Config V} {tokens : List Token}
    (hstate : cfg.state = .dashDashState) (hdelivers : cfg.Delivers tokens) :
    Loop.Outcome (turn b) cfg (conclude b (.error .swallowed)) := by
  cases b with
  | release => exact diverges_of_dashDash hstate
  | debug =>
      induction tokens generalizing cfg with
      | nil => exact Loop.returns_of_inr (turn_of_dashDash_endOfInput hstate hdelivers)
      | cons token tokens ih =>
          have htoken := ne_endOfInput_of_delivers hdelivers
          rw [Loop.outcome_iff_of_inl (turn_of_dashDash hstate (.inr htoken))]
          exact ih rfl (delivers_next hdelivers _ _)

/-- A run comes to the verdict of the pass it is on, whatever the phase. -/
theorem outcome_of_matches {cfg : Config V} {phase : Phase} {context : ParserContext V}
    {tokens : List Token} (h : cfg.Matches phase context tokens) :
    Loop.Outcome (turn b) cfg (conclude b (scan b phase context tokens)) := by
  induction hn : weight phase tokens using Nat.strongRecOn
    generalizing cfg phase context tokens with
  | ind n ih =>
      rcases turn_of_matches (b := b) h with
        ⟨cfg', phase', context', tokens', hturn, hmatches, hmoves⟩ |
        ⟨cfg', tokens', hturn, hstate, hdelivers, hscan⟩ | ⟨result, hturn, hresult, -, -⟩
      · rw [Loop.outcome_iff_of_inl hturn, ← hmoves.scan_eq]
        exact ih _ (hn ▸ hmoves.weight_lt) hmatches rfl
      · rw [Loop.outcome_iff_of_inl hturn, hscan]
        exact outcome_of_dashDash hstate hdelivers
      · rw [hresult]
        exact Loop.returns_of_inr hturn

/-- The pass over a command line. -/
def pass (b : Build) (context : CommandLineContext V) (commands : List (Command V))
    (args : List String) : Except (Stop V) (ParserContext V) :=
  scan b .start (InitialState.new (ParserContext.new context commands)) (Tokenizer.delivered args)

section

variable {context : CommandLineContext V} {commands : List (Command V)} {args : List String}

/-- **`Parse` is the pass**: what the loop over the machine comes to is the
verdict of the pass over the tokens delivered. -/
theorem parse_outcome :
    Loop.Outcome (turn b) (start context commands args)
      (conclude b (pass b context commands args)) :=
  outcome_of_matches (matches_start context commands args)

/-- **The loop has exactly the result of the pass.** -/
theorem parses_iff {result : Result V} :
    Parses b context commands args result ↔
      conclude b (pass b context commands args) = some result := by
  constructor
  · intro h
    exact Loop.outcome_unique parse_outcome (show Loop.Outcome _ _ (some result) from h)
  · intro h
    have hout : Loop.Outcome (turn b) (start context commands args)
        (conclude b (pass b context commands args)) := parse_outcome
    rwa [h] at hout

/-- A run that succeeds enters `FinalState` at the end of its pass, and ends with
what that makes of the context. -/
theorem parses_true_iff {result : ParserContext V} :
    Parses b context commands args (.returned true result) ↔
      ∃ entry, pass b context commands args = .ok entry ∧
        FinalState.settle b entry = .ok (.terminate, result) := by
  rw [parses_iff]
  constructor
  · intro h
    rcases hpass : pass b context commands args with (⟨message, context'⟩ | fault | _) | entry
    · simp [hpass, conclude] at h
    · simp [hpass, conclude] at h
    · cases b <;> simp [hpass, conclude] at h
    · refine ⟨entry, rfl, ?_⟩
      rw [hpass] at h
      simp only [conclude, Option.some.injEq] at h
      cases hsettle : FinalState.settle b entry with
      | error fault => simp [hsettle, verdict] at h
      | ok p =>
          obtain ⟨status, context'⟩ := p
          rw [hsettle] at h
          obtain rfl | ⟨message, rfl⟩ := settle_status hsettle
          · cases h
            rfl
          · cases h
  · rintro ⟨entry, hpass, hsettle⟩
    rw [hpass, conclude, hsettle, verdict]
    simp

/-- Being on the way to the verdict of a pass is kept up by every turn. -/
theorem tracks_of_turn {verdict : Except (Stop V) (ParserContext V)} {cfg cfg' : Config V}
    (h : cfg.Tracks b verdict) (hturn : turn b cfg = .inl cfg') : cfg'.Tracks b verdict := by
  obtain ⟨phase, context, tokens, hmatches, rfl⟩ | ⟨hstate, rfl, hdelivers⟩ := h
  · obtain ⟨phase', context', tokens', hmatches', hmoves⟩ |
      ⟨tokens', hstate, hdelivers, hscan⟩ := moves_of_turn hmatches hturn
    · exact .inl ⟨phase', context', tokens', hmatches', hmoves.scan_eq⟩
    · exact .inr ⟨hstate, hscan, fun _ => ⟨tokens', hdelivers⟩⟩
  · right
    cases b with
    | release =>
        rw [turn_of_dashDash hstate (.inl rfl)] at hturn
        cases hturn
        exact ⟨rfl, rfl, by simp⟩
    | debug =>
        obtain ⟨tokens, hdelivers⟩ := hdelivers rfl
        cases tokens with
        | nil =>
            rw [turn_of_dashDash_endOfInput hstate hdelivers] at hturn
            cases hturn
        | cons token tokens =>
            rw [turn_of_dashDash hstate (.inr (ne_endOfInput_of_delivers hdelivers))] at hturn
            cases hturn
            exact ⟨rfl, rfl, fun _ => ⟨tokens, delivers_next hdelivers _ _⟩⟩

/-- Every configuration of a run is on the way to the verdict of its pass. -/
theorem tracks_of_reachable {cfg : Config V} (h : Reachable b context commands args cfg) :
    cfg.Tracks b (pass b context commands args) :=
  Loop.invariant_of_reaches (Config.Tracks b (pass b context commands args))
    (.inl ⟨_, _, _, matches_start context commands args, rfl⟩)
    (fun _ _ htracks hturn => tracks_of_turn htracks hturn) h

/-- A run that succeeds enters `FinalState` once, with the context its pass ends with. -/
theorem entersFinal_of_parses {entry result : ParserContext V}
    (h : Parses b context commands args (.returned true result))
    (hpass : pass b context commands args = .ok entry) :
    (∃ cfg, Reachable b context commands args cfg ∧ EntersFinal b cfg entry) ∧
      ∀ cfg entry', Reachable b context commands args cfg → EntersFinal b cfg entry' →
        entry' = entry := by
  obtain ⟨cfg, hreach, hlast⟩ := Loop.returns_iff_reaches.mp h
  have henters : EntersFinal b cfg entry := by
    rcases tracks_of_reachable hreach with ⟨phase, context', tokens, hmatches, hscan⟩ |
      ⟨-, hswallowed, -⟩
    · rcases turn_of_matches (b := b) hmatches with ⟨cfg', _, _, _, hturn, -⟩ |
        ⟨cfg', _, hturn, -⟩ | ⟨-, -, -, -, henters⟩
      · simp [hlast] at hturn
      · simp [hlast] at hturn
      · exact henters entry (hscan.trans hpass)
    · rw [hpass] at hswallowed
      cases hswallowed
  refine ⟨⟨cfg, hreach, henters⟩, fun cfg' entry' hreach' henters' => ?_⟩
  obtain rfl := Loop.eq_of_reaches_of_inr hreach hreach' hlast (turn_of_entersFinal henters')
  obtain ⟨d, hdepart, rfl⟩ := henters
  obtain ⟨d', hdepart', rfl⟩ := henters'
  rw [hdepart] at hdepart'
  cases hdepart'
  rfl

end

end Parser

end AsapClap
