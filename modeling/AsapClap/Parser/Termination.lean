import AsapClap.Parser.Faults

/-!
# AsapClap.Parser.Termination

Whether `CmdLineParser::Parse` comes to an end.

The tokenizer returns `EndOfInput` for ever, so the loop ends only if every state
treats it as the end of the run.  `DashDashState` does not.  A run that meets no
configuration that is stuck ends with a result (`terminates_iff`).
-/

namespace AsapClap

namespace Parser

open LongestPrefix

variable {V : Type} {b : Build}

/-- Handling the token ends the run, possibly once it is issued again. -/
inductive EndsRun (b : Build) (cfg : Config V) : Prop
  | now {noErrors : Bool} {context : ParserContext V}
      (h : turn b cfg = .inr (.returned noErrors context))
  | reissued {state : State} {data : Data V} {noErrors : Bool} {context : ParserContext V}
      (hreissue : (machine b).step cfg.state cfg.token cfg.data = .ok (.reissueEvent, state, data))
      (h : turn b { cfg with state, data } = .inr (.returned noErrors context))

/-- The end of the input ends the run, `Parse` returns, and its assertion holds. -/
structure Terminates (b : Build) (context : CommandLineContext V) (commands : List (Command V))
    (args : List String) : Prop where
  ends : ∀ cfg, Reachable b context commands args cfg → cfg.token.1 = .endOfInput → EndsRun b cfg
  returns : ∃ noErrors result, Parses b context commands args (.returned noErrors result)
  asserts : ¬ Parses b context commands args (.faulted (.contract .loopTokenIsNotEndOfInput))

/-! ## The trap -/

/-- Once in `DashDashState`, the end of the input comes. -/
theorem reaches_endOfInput_of_dashDash {cfg : Config V} {tokens : List Token}
    (hstate : cfg.state = .dashDashState) (hdelivers : cfg.Delivers tokens) :
    ∃ cfg', Loop.Reaches (turn b) cfg cfg' ∧ cfg'.state = .dashDashState ∧
      cfg'.token.1 = .endOfInput := by
  induction tokens generalizing cfg with
  | nil => exact ⟨cfg, Loop.reaches_refl cfg, hstate, hdelivers⟩
  | cons token tokens ih =>
      have htoken := ne_endOfInput_of_delivers hdelivers
      have hturn := turn_of_dashDash (b := b) hstate (.inr htoken)
      obtain ⟨cfg', hreach, hend⟩ := ih rfl (delivers_next hdelivers .dashDashState cfg.data)
      exact ⟨cfg', (Loop.reaches_of_inl hturn).trans hreach, hend⟩

/-- A pass that is swallowed ends in `DashDashState`. -/
theorem reaches_endOfInput_of_swallowed {cfg : Config V} {phase : Phase}
    {context : ParserContext V} {tokens : List Token} (h : cfg.Matches phase context tokens)
    (hswallowed : scan b phase context tokens = .error .swallowed) :
    ∃ cfg', Loop.Reaches (turn b) cfg cfg' ∧ cfg'.state = .dashDashState ∧
      cfg'.token.1 = .endOfInput := by
  induction hn : weight phase tokens using Nat.strongRecOn
    generalizing cfg phase context tokens with
  | ind n ih =>
      rcases turn_of_matches (b := b) h with
        ⟨cfg₁, phase', context', tokens', hturn, hmatches, hmoves⟩ |
        ⟨cfg₁, tokens', hturn, hstate, hdelivers, -⟩ | ⟨-, -, -, hne, -⟩
      · obtain ⟨cfg', hreach, hend⟩ := ih _ (hn ▸ hmoves.weight_lt) hmatches
          (hmoves.scan_eq.trans hswallowed) rfl
        exact ⟨cfg', (Loop.reaches_of_inl hturn).trans hreach, hend⟩
      · obtain ⟨cfg', hreach, hend⟩ := reaches_endOfInput_of_dashDash (b := b) hstate hdelivers
        exact ⟨cfg', (Loop.reaches_of_inl hturn).trans hreach, hend⟩
      · exact absurd hswallowed hne

/-! ## Faults -/

theorem turn_of_faults {cfg : Config V} (h : cfg.Faults b) :
    ∃ fault, turn b cfg = .inr (.faulted fault) := by
  obtain ⟨fault, hstep⟩ := h
  exact ⟨fault, by simp [turn, hstep]⟩

/-- What the end of the input does to a configuration that stands for a phase: the run
ends there, or the token is handed on to `ParseOptionsState`. -/
theorem turn_endOfInput {cfg : Config V} {phase : Phase} {context : ParserContext V}
    {tokens : List Token} (h : cfg.Matches phase context tokens)
    (htoken : cfg.token.1 = .endOfInput) :
    cfg.Faults b ∨ (∃ noErrors context', turn b cfg = .inr (.returned noErrors context')) ∨
      ∃ context', HandsOn b phase context cfg.token context' := by
  obtain ⟨hstate, hdata, hwf, -⟩ := h
  rcases finish_follows (b := b) hwf htoken with hfinish | ⟨context', hhand, -⟩
  · cases hpass : finish b phase context with
    | ok entry =>
        rw [hpass] at hfinish
        obtain ⟨d, hdepart, rfl⟩ := hfinish
        rw [← hstate, ← hdata] at hdepart
        have henters : EntersFinal b cfg d.context := ⟨d, hdepart, rfl⟩
        rw [faults_iff_settle henters, turn_of_entersFinal henters]
        rcases hsettle : FinalState.settle b d.context with fault | ⟨status, context'⟩
        · exact .inl ⟨fault, rfl⟩
        · obtain rfl | ⟨message, rfl⟩ := settle_status hsettle
          · exact .inr (.inl ⟨true, _, rfl⟩)
          · exact .inr (.inl ⟨false, _, rfl⟩)
    | error stop =>
        rw [hpass] at hfinish
        cases stop with
        | rejected message context' =>
            have hstops : Stops b phase context cfg.token (.rejected message context') := hfinish
            obtain ⟨result, hturn, hresult⟩ := turn_of_stops hstate hdata hstops (by simp)
            cases hresult
            exact .inr (.inl ⟨_, _, hturn⟩)
        | faulted fault =>
            left
            rw [Config.Faults, hstate, hdata]
            exact ⟨fault, hfinish⟩
        | swallowed => exact absurd hpass (finish_ne_swallowed phase context)
  · exact .inr (.inr ⟨context', hhand⟩)

/-- Of the configurations that stand for a phase, only those that go wrong end a run with
a fault; the assertion of the loop holds for them. -/
theorem faults_of_turn {cfg : Config V} {phase : Phase} {context : ParserContext V}
    {tokens : List Token} {fault : Fault} (h : cfg.Matches phase context tokens)
    (hturn : turn b cfg = .inr (.faulted fault)) : cfg.Faults b := by
  by_cases htoken : cfg.token.1 = .endOfInput
  · rcases turn_endOfInput (b := b) h htoken with hfaults | ⟨noErrors, context', hreturned⟩ |
      ⟨context', -, -, hstep⟩
    · exact hfaults
    · simp [hturn] at hreturned
    · rw [← h.state, ← h.data] at hstep
      simp [turn_of_reissue hstep] at hturn
  · rcases hstep : (machine b).step cfg.state cfg.token cfg.data with fault' | ⟨status, state, data⟩
    · exact ⟨fault', hstep⟩
    · exfalso
      cases status with
      | terminate => simp [turn, hstep] at hturn
      | terminateWithError message => simp [turn, hstep] at hturn
      | reissueEvent => simp [turn, hstep] at hturn
      | continue_ => simp [turn_of_continue hstep htoken] at hturn

/-! ## Whole runs -/

section

variable {context : CommandLineContext V} {commands : List (Command V)} {args : List String}

/-- A run without a configuration that is stuck returns. -/
theorem returns_of_not_stuck (h : ∀ cfg, Reachable b context commands args cfg → ¬ Stuck b cfg) :
    ∃ noErrors result, Parses b context commands args (.returned noErrors result) := by
  have hswallowed : pass b context commands args ≠ .error .swallowed := by
    intro hpass
    obtain ⟨cfg, hreach, hstate, htoken⟩ :=
      reaches_endOfInput_of_swallowed (matches_start context commands args) hpass
    refine h cfg hreach ?_
    rw [Stuck, hstate, htoken]
    trivial
  have hfaulted : ∀ fault, ¬ Parses b context commands args (.faulted fault) := by
    intro fault hparses
    obtain ⟨cfg, hreach, hturn⟩ := Loop.returns_iff_reaches.mp hparses
    obtain ⟨phase, context', tokens, hmatches, -⟩ | ⟨-, hpass, -⟩ := tracks_of_reachable hreach
    · exact h cfg hreach ((faults_iff_stuck hmatches).mp (faults_of_turn hmatches hturn))
    · exact hswallowed hpass
  rcases hconclude : conclude b (pass b context commands args) with _ | ⟨noErrors, result⟩ | fault
  · rcases hpass : pass b context commands args with (⟨message, context'⟩ | fault | _) | entry
    · simp [hpass, conclude] at hconclude
    · simp [hpass, conclude] at hconclude
    · exact absurd hpass hswallowed
    · simp [hpass, conclude] at hconclude
  · exact ⟨noErrors, result, parses_iff.mpr hconclude⟩
  · exact absurd (parses_iff.mpr hconclude) (hfaulted fault)

/-- In a run that returns, every configuration stands for a phase, and what ends the run
there is a return. -/
theorem matches_of_returns {noErrors : Bool} {result : ParserContext V}
    (h : Parses b context commands args (.returned noErrors result)) {cfg : Config V}
    (hreach : Reachable b context commands args cfg) :
    ∃ phase context' tokens, cfg.Matches phase context' tokens := by
  obtain ⟨phase, context', tokens, hmatches, -⟩ | ⟨-, hpass, -⟩ := tracks_of_reachable hreach
  · exact ⟨phase, context', tokens, hmatches⟩
  · rw [parses_iff, hpass] at h
    cases b <;> cases h

/-- **Termination**: in every run, the end of the input ends the run, `Parse` returns and
its assertion holds, exactly if no configuration of the run is stuck. -/
theorem terminates_iff :
    Terminates b context commands args ↔
      ∀ cfg, Reachable b context commands args cfg → ¬ Stuck b cfg := by
  constructor
  · rintro ⟨-, ⟨noErrors, result, hreturns⟩, -⟩ cfg hreach hstuck
    obtain ⟨phase, context', tokens, hmatches⟩ := matches_of_returns hreturns hreach
    obtain ⟨fault, hturn⟩ := turn_of_faults ((faults_iff_stuck hmatches).mpr hstuck)
    have hcfg := (Loop.returns_iff_of_reaches hreach).mp hreturns
    cases Loop.returns_unique hcfg (Loop.returns_of_inr hturn)
  · intro h
    obtain ⟨noErrors, result, hreturns⟩ := returns_of_not_stuck h
    refine ⟨fun cfg hreach htoken => ?_, ⟨noErrors, result, hreturns⟩, fun hasserts => ?_⟩
    · obtain ⟨phase, context', tokens, hmatches⟩ := matches_of_returns hreturns hreach
      rcases turn_endOfInput (b := b) hmatches htoken with hfaults | ⟨_, _, hturn⟩ |
        ⟨context'', -, hwf, hstep⟩
      · exact absurd ((faults_iff_stuck hmatches).mp hfaults) (h cfg hreach)
      · exact .now hturn
      · rw [← hmatches.state, ← hmatches.data] at hstep
        have hturn := turn_of_reissue hstep
        have hreach' := hreach.tail hturn
        have hfinish : Finishes b .ready context'' cfg.token _ := finishes_ready htoken
        obtain ⟨d, hdepart, hcontext⟩ := hfinish
        have henters :
            EntersFinal b { cfg with state := .parseOptionsState, data := _ } context'' :=
          ⟨d, hdepart, hcontext⟩
        have hlast := turn_of_entersFinal henters
        have hcfg := (Loop.returns_iff_of_reaches hreach').mp hreturns
        rw [Loop.returns_unique (Loop.returns_of_inr hlast) hcfg] at hlast
        exact .reissued hstep hlast
    · cases Loop.returns_unique hreturns hasserts

end

/-- A default command without options or arguments. -/
def plain : Command String := .plainDefault

/-- After a `--`, a release build loops for ever and a debug build fails its assertion. -/
theorem not_terminates_dashDash :
    Loop.Diverges (turn .release) (start { programName := "prog" } [plain] ["--"]) ∧
      ¬ Terminates .release { programName := "prog" } [plain] ["--"] ∧
      ¬ Terminates .debug { programName := "prog" } [plain] ["--"] := by
  have hpass : ∀ b, pass b { programName := "prog" } [plain] ["--"] = .error .swallowed :=
    fun _ => rfl
  have hdiverges :
      Loop.Diverges (turn .release) (start { programName := "prog" } [plain] ["--"]) := by
    have hout : Loop.Outcome (turn .release) (start { programName := "prog" } [plain] ["--"])
        (conclude .release (pass .release { programName := "prog" } [plain] ["--"])) :=
      parse_outcome
    rwa [hpass] at hout
  refine ⟨hdiverges, ?_, ?_⟩
  · rintro ⟨-, ⟨noErrors, result, h⟩, -⟩
    exact Loop.not_diverges_of_returns h hdiverges
  · rintro ⟨-, -, h⟩
    exact h (parses_iff.mpr (by rw [hpass]; rfl))

end Parser

end AsapClap
