import AsapClap.Parser.Builds
import AsapClap.Parser.DoubleDash
import AsapClap.Parser.Names
import AsapClap.Parser.Termination

/-!
# AsapClap.Parser.Safety

Commands that no command line can crash: all that they declare has value semantics, and their
positional arguments are all `Rest` arguments, which are never short of tokens.

Progress: no configuration of a run on such commands is stuck, but for `DashDashState`.  So every
run of a release build returns, unless a `--` catches it, and a debug build stops at nothing but a
contract.
-/

namespace AsapClap

/-- Nothing that the parser does with the command can go wrong. -/
structure Command.Safe {V : Type} (c : Command V) : Prop where
  semantics : ∀ o ∈ c.options ++ c.positionalArgs, o.valueSemantic.isSome
  rest : ∀ o ∈ c.positionalArgs, o.isPositionalRest = true

namespace Parser

open Tokenizer

variable {V : Type} {b : Build}

/-! ## Progress -/

theorem mem_of_lastRest {args : List (ClapOption V)} {o : ClapOption V}
    (h : lastRest args = some o) : o ∈ args :=
  List.mem_of_mem_filter (List.mem_of_getLast? h)

/-- `FinalState` is never short of tokens for a safe command. -/
theorem not_finalFaults_of_safe {c : Command V} (h : c.Safe) (context : ParserContext V) :
    ¬ FinalFaults b c context := by
  have hnonRest : nonRest c.positionalArgs = [] := nonRest_eq_nil_iff.mpr h.rest
  intro hfaults
  cases hfaults with
  | unserved hnot =>
      refine hnot ⟨fun _ o ho => ?_, fun o ho hnot => ?_⟩
      · exact (Bool.and_eq_true_iff.mp (h.rest o ho)).1
      · simp [h.rest o ho] at hnot
  | runsOut hlt => simp [hnonRest] at hlt
  | rest hleft hlast hsem =>
      simpa [hsem] using h.semantics _ (List.mem_append_right _ (mem_of_lastRest hlast))
  | asks hassigned hasks =>
      obtain ⟨before, option, behind, hsplit, hsem, -⟩ := hasks
      simpa [hsem] using h.semantics option (by simp [hsplit])

section

variable {context : CommandLineContext V} {commands : List (Command V)} {args : List String}
  {cfg : Config V}

/-- **Progress**: in a release build, a token is never too much for a state. -/
theorem not_stuck (hcommands : ∀ c ∈ commands, c.Safe)
    (hactive : ∀ c, context.activeCommand = some c → c.Safe)
    (hreach : Reachable .release context commands args cfg) (hstate : cfg.state ≠ .dashDashState) :
    ¬ Stuck .release cfg := by
  intro hstuck
  have hover : cfg.data.Over Command.Safe := over_of_reachable hcommands hactive hreach
  obtain ⟨phase, context', tokens, hmatches, hawaits, -⟩ :=
    (orderly_of_reachable hreach).resolve_right hstate
  have hsemantics : ∀ c : Command V, c.Safe → ∀ o ∈ c.options, o.valueSemantic.isSome :=
    fun c hc o ho => hc.semantics o (List.mem_append_left _ ho)
  by_cases htoken : cfg.token.1 = .endOfInput
  · have hnone := not_noSemantics_of_over hmatches hover hsemantics
    have hcontext := context_of_matches hmatches
    rw [Stuck, hmatches.state, htoken] at hstuck
    cases phase with
    | start | ready =>
        obtain ⟨c, hc, hfaults⟩ := hstuck
        exact not_finalFaults_of_safe (hover.active c hc) _ hfaults
    | naming typed =>
        dsimp only [Phase.state] at hstuck
        split at hstuck
        · next hmatched => exact not_finalFaults_of_safe (hover.matched _ hmatched) _ hstuck
        · cases hstuck
        · exact hstuck
    | short value | long value afterEqual => exact hnone (hcontext ▸ hstuck.1)
  · -- an equal sign finds its option waiting for it
    obtain ⟨rfl, hequal, -⟩ := equalSign_of_stuck hmatches hover hsemantics htoken hstuck
    obtain ⟨rest, rfl⟩ := exists_cons_of_delivers hmatches.delivers htoken
    obtain ⟨value, afterEqual, hphase⟩ := hawaits.2 cfg.token rfl hequal
    cases hphase

/-- Nothing goes wrong in a release build. -/
theorem not_parses_faulted (hcommands : ∀ c ∈ commands, c.Safe)
    (hactive : ∀ c, context.activeCommand = some c → c.Safe) (fault : Fault) :
    ¬ Parses .release context commands args (.faulted fault) := by
  intro hparses
  obtain ⟨cfg, hreach, hlast⟩ := Loop.returns_iff_reaches.mp hparses
  by_cases hstate : cfg.state = .dashDashState
  · rw [turn_of_dashDash hstate (.inl rfl)] at hlast
    cases hlast
  · obtain ⟨phase, context', tokens, hmatches, -⟩ :=
      (orderly_of_reachable hreach).resolve_right hstate
    exact not_stuck hcommands hactive hreach hstate
      ((faults_iff_stuck hmatches).mp (faults_of_turn hmatches hlast))

/-- Safe commands get an answer from a release build, or a `--` catches the run. -/
theorem returns_or_diverges (hcommands : ∀ c ∈ commands, c.Safe)
    (hactive : ∀ c, context.activeCommand = some c → c.Safe) (args : List String) :
    (∃ noErrors result, Parses .release context commands args (.returned noErrors result)) ∨
      Loop.Diverges (turn .release) (start context commands args) := by
  have houtcome : Loop.Outcome (turn .release) (start context commands args)
      (conclude .release (pass .release context commands args)) := parse_outcome
  cases hconclude : conclude .release (pass .release context commands args) with
  | none =>
      rw [hconclude] at houtcome
      exact .inr houtcome
  | some result =>
      rw [hconclude] at houtcome
      cases result with
      | returned noErrors result => exact .inl ⟨noErrors, result, houtcome⟩
      | faulted fault => exact absurd houtcome (not_parses_faulted hcommands hactive fault)

/-- A debug build stops at nothing but a contract. -/
theorem returns_or_breaksContract (hcommands : ∀ c ∈ commands, c.Safe)
    (hactive : ∀ c, context.activeCommand = some c → c.Safe) (args : List String) :
    (∃ noErrors result, Parses .debug context commands args (.returned noErrors result)) ∨
      ∃ c, Parses .debug context commands args (.faulted (.contract c)) := by
  obtain ⟨result, hdebug⟩ := exists_parses_debug context commands args
  obtain ⟨c, rfl⟩ | hrelease := turn_guards.returns hdebug
  · exact .inr ⟨c, hdebug⟩
  · cases result with
    | returned noErrors result => exact .inl ⟨noErrors, result, hdebug⟩
    | faulted fault => exact absurd hrelease (not_parses_faulted hcommands hactive fault)

/-- The command of a parse that succeeds is one of a kind where all of them are. -/
theorem activeCommand_of_parses {Q : Command V → Prop} {result : ParserContext V}
    (hcommands : ∀ c ∈ commands, Q c) (hactive : ∀ c, context.activeCommand = some c → Q c)
    (h : Parses b context commands args (.returned true result)) :
    ∃ c, result.activeCommand = some c ∧ Q c := by
  obtain ⟨entry, hpass, hsettle⟩ := parses_true_iff.mp h
  obtain ⟨⟨cfg, hreach, d, hdepart, rfl⟩, -⟩ := entersFinal_of_parses h hpass
  obtain ⟨c, ps, hc, -, hresult, -⟩ := FinalState.settle_terminate hsettle
  have hover : cfg.data.Over Q := over_of_reachable hcommands hactive hreach
  exact ⟨c, hresult, ((preserves_over b Q).depart hover hdepart).active c hc⟩

end

end Parser

end AsapClap
