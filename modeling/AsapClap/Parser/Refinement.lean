import AsapClap.Parser.Run

/-!
# AsapClap.Parser.Refinement

The machine and the pass, step by step.  Behind every beginning of the line that the pass gets
through, a run of `CmdLineParser::Parse` is in the configuration that stands for the phase of the
pass; and it is in no others, but for a token that is handed on once and for what is behind a `--`.
-/

namespace AsapClap

namespace Parser

open LongestPrefix

variable {V : Type}

/-- The pass has come this far, with the rest of the line still to be read. -/
def Passed (b : Build) (context : CommandLineContext V) (commands : List (Command V))
    (args : List String) (phase : Phase) (entry : ParserContext V) (rest : List Token) : Prop :=
  ∃ before, Tokenizer.delivered args = before ++ rest ∧
    advanceAll b (.start, InitialState.new (ParserContext.new context commands)) before =
      .ok (phase, entry)

/-- Where a configuration of a run is in the pass. -/
inductive Config.StandsFor (b : Build) (context : CommandLineContext V)
    (commands : List (Command V)) (args : List String) (cfg : Config V) : Prop
  | passed {phase : Phase} {entry : ParserContext V} {rest : List Token}
      (passed : Passed b context commands args phase entry rest)
      (config : cfg.Matches phase entry rest)
  /-- the token is handed on to `ParseOptionsState` -/
  | handedOn {phase : Phase} {entry entry' : ParserContext V} {rest : List Token}
      (passed : Passed b context commands args phase entry rest)
      (hand : HandsOn b phase entry cfg.token entry') (config : cfg.Matches .ready entry' rest)
  /-- nothing is read any more -/
  | ignoring (state : cfg.state = .dashDashState)
      (swallowed : pass b context commands args = .error .swallowed)

/-- A run is the pass. -/
structure Refines (b : Build) (context : CommandLineContext V) (commands : List (Command V))
    (args : List String) : Prop where
  returns : ∀ result, Parses b context commands args result ↔
    conclude b (pass b context commands args) = some result
  diverges : Loop.Diverges (turn b) (start context commands args) ↔
    conclude b (pass b context commands args) = none
  /-- wherever the pass comes, the run does -/
  reaches : ∀ phase entry rest, Passed b context commands args phase entry rest →
    ∃ cfg, Reachable b context commands args cfg ∧ cfg.Matches phase entry rest
  /-- wherever the run comes, the pass does -/
  follows : ∀ cfg, Reachable b context commands args cfg →
    cfg.StandsFor b context commands args

section

variable {b : Build} {context : CommandLineContext V} {commands : List (Command V)}
  {args : List String} {cfg cfg' : Config V} {phase phase' : Phase}
  {entry entry' : ParserContext V} {token : Token} {rest tokens : List Token}

theorem Passed.advance (h : Passed b context commands args phase entry (token :: rest))
    (hadvance : advance b phase entry token = .ok (phase', entry')) :
    Passed b context commands args phase' entry' rest := by
  obtain ⟨before, htokens, hbefore⟩ := h
  refine ⟨before ++ [token], by simp [htokens], ?_⟩
  rw [advanceAll, List.foldlM_append, ← advanceAll, hbefore]
  simp [hadvance]

/-! ## From the pass to the run -/

/-- A token that is handled where it is met. -/
theorem reaches_of_handles (h : cfg.Matches phase entry (token :: rest))
    (hhandles : Handles b phase entry token (.ok (phase', entry'))) :
    ∃ cfg', Loop.Reaches (turn b) cfg cfg' ∧ cfg'.Matches phase' entry' rest := by
  obtain ⟨hwf, hstep⟩ := hhandles
  obtain ⟨rfl, -⟩ := h.delivers
  rw [← h.state, ← h.data] at hstep
  have hturn := turn_of_continue hstep (ne_endOfInput_of_delivers h.delivers)
  exact ⟨_, Loop.reaches_of_inl hturn, rfl, rfl, hwf, delivers_next h.delivers _ _⟩

/-- **One token**: what takes the pass one step takes the loop one turn or two. -/
theorem reaches_of_advance (h : cfg.Matches phase entry (token :: rest))
    (hadvance : advance b phase entry token = .ok (phase', entry')) :
    ∃ cfg', Loop.Reaches (turn b) cfg cfg' ∧ cfg'.Matches phase' entry' rest := by
  obtain ⟨rfl, -⟩ := id h.delivers
  have htoken := ne_endOfInput_of_delivers h.delivers
  obtain hhandles | ⟨entry₁, hhand, hdispatch⟩ := advance_follows (b := b) h.wf htoken
  · rw [hadvance] at hhandles
    exact reaches_of_handles h hhandles
  · obtain ⟨cfg₁, hturn, h₁⟩ := turn_of_handsOn h hhand
    have hhandles := dispatch_handles (b := b) h₁.wf htoken
    rw [← hdispatch, hadvance] at hhandles
    obtain ⟨cfg', hreach, h'⟩ := reaches_of_handles h₁ hhandles
    exact ⟨cfg', (Loop.reaches_of_inl hturn).trans hreach, h'⟩

/-- Any beginning of the line. -/
theorem reaches_of_advanceAll (h : cfg.Matches phase entry (tokens ++ rest))
    (hadvance : advanceAll b (phase, entry) tokens = .ok (phase', entry')) :
    ∃ cfg', Loop.Reaches (turn b) cfg cfg' ∧ cfg'.Matches phase' entry' rest := by
  induction tokens generalizing cfg phase entry with
  | nil =>
      cases hadvance
      exact ⟨cfg, Loop.reaches_refl cfg, h⟩
  | cons token tokens ih =>
      rw [advanceAll, List.foldlM_cons] at hadvance
      obtain ⟨⟨phase₁, entry₁⟩, hfirst, hrest⟩ := bind_eq_ok.mp hadvance
      obtain ⟨cfg₁, hreach₁, h₁⟩ := reaches_of_advance h hfirst
      obtain ⟨cfg', hreach, h'⟩ := ih h₁ hrest
      exact ⟨cfg', hreach₁.trans hreach, h'⟩

theorem reaches_of_passed (h : Passed b context commands args phase entry rest) :
    ∃ cfg, Reachable b context commands args cfg ∧ cfg.Matches phase entry rest := by
  obtain ⟨before, htokens, hbefore⟩ := h
  have hstart := matches_start context commands args
  rw [htokens] at hstart
  exact reaches_of_advanceAll hstart hbefore

/-! ## From the run to the pass -/

/-- A token that was handed on is what it was for the pass. -/
theorem advance_of_handsOn (hwf : phase.Wf entry) (htoken : token.1 ≠ .endOfInput)
    (hhand : HandsOn b phase entry token entry') :
    advance b phase entry token = advance b .ready entry' token := by
  obtain ⟨-, -, hstep⟩ := hhand
  obtain hhandles | ⟨entry₁, ⟨-, -, hstep₁⟩, hdispatch⟩ := advance_follows (b := b) hwf htoken
  · cases hadvance : advance b phase entry token with
    | ok p =>
        rw [hadvance] at hhandles
        cases hhandles.2.symm.trans hstep
    | error stop =>
        rw [hadvance] at hhandles
        cases stop with
        | rejected message context' =>
            obtain ⟨state, d, hstops, -⟩ := hhandles
            cases hstops.symm.trans hstep
        | faulted fault => cases Eq.trans (Eq.symm hhandles) hstep
        | swallowed =>
            obtain ⟨d, hstops⟩ := hhandles
            cases hstops.symm.trans hstep
  · have hdata := (Prod.mk.inj (Prod.mk.inj (Except.ok.inj (hstep₁.symm.trans hstep))).2).2
    obtain rfl : entry₁ = entry' := by
      rw [← Phase.ready.context_data entry₁, hdata, Phase.ready.context_data]
    exact hdispatch

theorem Passed.scan_eq (h : Passed b context commands args phase entry rest) :
    scan b phase entry rest = pass b context commands args := by
  obtain ⟨before, htokens, hbefore⟩ := h
  rw [pass, htokens, scan_append, hbefore, ok_bind]

theorem Passed.wf (h : Passed b context commands args phase entry rest) : phase.Wf entry := by
  obtain ⟨cfg, -, hmatches⟩ := reaches_of_passed h
  exact hmatches.wf

/-- Where the pass stops, it would have stopped at the token that was handed on. -/
theorem scan_of_handsOn (hwf : phase.Wf entry) (hhand : HandsOn b phase entry token entry')
    (htoken : token.1 ≠ .endOfInput) :
    scan b .ready entry' (token :: rest) = scan b phase entry (token :: rest) := by
  rw [scan_cons, scan_cons, advance_of_handsOn hwf htoken hhand]

/-- **One turn** of the loop: the pass has come one token further, or the token is handed on. -/
theorem standsFor_of_turn (h : cfg.StandsFor b context commands args)
    (hturn : turn b cfg = .inl cfg') : cfg'.StandsFor b context commands args := by
  cases h with
  | @passed phase entry rest hpassed hmatches =>
      obtain ⟨phase', entry', rest', hmatches', hmoves⟩ | ⟨rest', hstate, -, hscan⟩ :=
        moves_of_turn hmatches hturn
      · cases hmoves with
        | handsOn hhand =>
            obtain ⟨-, -, hstep⟩ := id hhand
            rw [← hmatches.state, ← hmatches.data] at hstep
            cases hturn.symm.trans (turn_of_reissue hstep)
            exact .handedOn hpassed hhand hmatches'
        | advances hcons hadvance =>
            subst hcons
            exact .passed (hpassed.advance hadvance) hmatches'
      · exact .ignoring hstate (hpassed.scan_eq.symm.trans hscan)
  | @handedOn phase entry entry' rest hpassed hhand hmatches =>
      obtain ⟨phase', entry₁, rest', hmatches', hmoves⟩ | ⟨rest', hstate, -, hscan⟩ :=
        moves_of_turn hmatches hturn
      · cases hmoves with
        | handsOn hhand' => exact absurd rfl hhand'.1
        | advances hcons hadvance =>
            subst hcons
            have htoken := ne_endOfInput_of_delivers hmatches.delivers
            rw [← advance_of_handsOn hpassed.wf htoken hhand] at hadvance
            exact .passed (hpassed.advance hadvance) hmatches'
      · refine .ignoring hstate (hpassed.scan_eq.symm.trans ?_)
        cases rest with
        | nil => cases hscan
        | cons token rest =>
            obtain ⟨rfl, -⟩ := id hmatches.delivers
            have htoken := ne_endOfInput_of_delivers hmatches.delivers
            exact (scan_of_handsOn hpassed.wf hhand htoken).symm.trans hscan
  | ignoring hstate hswallowed => exact .ignoring (dashDash_of_turn hstate hturn) hswallowed

theorem standsFor_of_reachable (h : Reachable b context commands args cfg) :
    cfg.StandsFor b context commands args :=
  Loop.invariant_of_reaches (Config.StandsFor b context commands args)
    (.passed ⟨[], rfl, rfl⟩ (matches_start context commands args))
    (fun _ _ hstands hturn => standsFor_of_turn hstands hturn) h

/-- **The machine refines the pass**, and the pass the machine: they come through the same line in
the same way, and to the same end. -/
theorem parse_refines_pass (b : Build) (context : CommandLineContext V) (commands : List (Command V))
    (args : List String) : Refines b context commands args where
  returns := fun _ => parses_iff
  diverges := by
    have houtcome : Loop.Outcome (turn b) (start context commands args)
        (conclude b (pass b context commands args)) := parse_outcome
    constructor
    · intro h
      exact Loop.outcome_unique houtcome (show Loop.Outcome _ _ none from h)
    · intro h
      rwa [h] at houtcome
  reaches := fun _ _ _ h => reaches_of_passed h
  follows := fun _ h => standsFor_of_reachable h

end

end Parser

end AsapClap
