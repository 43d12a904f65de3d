import AsapClap.Parser.Run
import AsapClap.Tokenizer.Bundles

/-!
# AsapClap.Parser.Online

What of a line a run of `Parse` depends on.  It sees the line without its bundles, and it reads
token by token: on a line that begins with the same tokens the machine goes through the same
states with the same data, and an error found on the way is final, whatever follows.
-/

namespace AsapClap

variable {V : Type}

namespace Parser

open Tokenizer

variable {b : Build}

/-! ## Lines with the same tokens -/

/-- **Bundles are not seen**: the tokens of a line are those of the line without its bundles,
and of no others, and `Parse` comes to the same on both. -/
theorem reads_unbundled (b : Build) (context : CommandLineContext V)
    (commands : List (Command V)) (args : List String) :
    (∀ args', delivered args = delivered args' ↔ unbundled args = unbundled args') ∧
      ∀ outcome, Loop.Outcome (turn b) (start context commands args) outcome ↔
        Loop.Outcome (turn b) (start context commands (unbundled args)) outcome := by
  refine ⟨delivered_eq_iff args, fun outcome => ?_⟩
  have hargs : Loop.Outcome (turn b) (start context commands args)
      (conclude b (pass b context commands args)) := parse_outcome
  have hunbundled : Loop.Outcome (turn b) (start context commands (unbundled args))
      (conclude b (pass b context commands args)) := by
    have houtcome : Loop.Outcome (turn b) (start context commands (unbundled args))
        (conclude b (pass b context commands (unbundled args))) := parse_outcome
    rwa [pass, delivered_unbundled] at houtcome
  constructor
  · intro h
    exact Loop.outcome_unique hargs h ▸ hunbundled
  · intro h
    exact Loop.outcome_unique hunbundled h ▸ hargs

/-! ## Lines that begin alike -/

/-- The machine is the same, and what is to be read in `cfg` is the beginning of what is to be
read in `cfg'`. -/
structure Config.Continues (cfg cfg' : Config V) : Prop where
  state : cfg'.state = cfg.state
  data : cfg'.data = cfg.data
  delivers : ∃ token tokens rest,
    cfg.Delivers (token :: tokens) ∧ cfg'.Delivers (token :: (tokens ++ rest))

variable {cfg cfg' cfg₁ : Config V}

theorem Config.Continues.token (h : cfg.Continues cfg') :
    cfg'.token = cfg.token ∧ cfg.token.1 ≠ .endOfInput := by
  obtain ⟨token, tokens, rest, hdelivers, hdelivers'⟩ := h.delivers
  exact ⟨hdelivers'.1.trans hdelivers.1.symm, ne_endOfInput_of_delivers hdelivers⟩

theorem Config.Continues.step (h : cfg.Continues cfg') :
    (machine b).step cfg'.state cfg'.token cfg'.data =
      (machine b).step cfg.state cfg.token cfg.data := by
  rw [h.state, h.data, h.token.1]

/-- As long as there are tokens in both lines, the turns are the same. -/
theorem Config.Continues.turn_inl (h : cfg.Continues cfg') (hturn : turn b cfg = .inl cfg₁) :
    cfg₁.token.1 = .endOfInput ∨ ∃ cfg₁', turn b cfg' = .inl cfg₁' ∧ cfg₁.Continues cfg₁' := by
  obtain ⟨htoken, hne⟩ := h.token
  obtain ⟨token, tokens, rest, hdelivers, hdelivers'⟩ := h.delivers
  obtain ⟨hstep, htoken₁, htokenizer⟩ | ⟨hstep, -, hnext⟩ := turn_eq_inl hturn
  · right
    refine ⟨_, turn_of_reissue (h.step.trans hstep), rfl, rfl, token, tokens, rest, ?_, hdelivers'⟩
    obtain ⟨rfl, hremaining, hfree⟩ := hdelivers
    exact ⟨htoken₁, by rw [htokenizer, hremaining], hfree⟩
  · have hnext₁ : cfg.next cfg₁.state cfg₁.data = cfg₁ := by
      rw [Config.next, hnext]
    have hdelivers₁ : cfg₁.Delivers tokens := hnext₁ ▸ delivers_next hdelivers cfg₁.state cfg₁.data
    cases tokens with
    | nil => exact .inl hdelivers₁
    | cons next tokens =>
        have hstep' := h.step.trans hstep
        exact .inr ⟨_, turn_of_continue hstep' (htoken ▸ hne), rfl, rfl, next, tokens, rest,
          hdelivers₁, delivers_next hdelivers' _ _⟩

/-- So is the turn that ends the run. -/
theorem Config.Continues.turn_inr {result : Result V} (h : cfg.Continues cfg')
    (hturn : turn b cfg = .inr result) : turn b cfg' = .inr result := by
  obtain ⟨htoken, hne⟩ := h.token
  unfold turn at hturn ⊢
  rw [h.step]
  split at hturn
  · exact hturn
  · exact hturn
  · exact hturn
  · cases hturn
  · split at hturn
    · next hexpect => simp [hne] at hexpect
    · cases hturn

/-- The line has been read to its end, or the rest of it is ignored. -/
def Config.Done (cfg : Config V) : Prop := cfg.token.1 = .endOfInput ∨ cfg.state = .dashDashState

variable {context : CommandLineContext V} {commands : List (Command V)}
  {args args' : List String}

/-- Where the line has been read, nothing more is. -/
theorem done_of_turn (hreach : Reachable b context commands args cfg) (h : cfg.Done)
    (hturn : turn b cfg = .inl cfg₁) : cfg₁.Done := by
  obtain htoken | hstate := h
  · obtain ⟨phase, context', tokens, hmatches, -⟩ | ⟨hstate, -⟩ := tracks_of_reachable hreach
    · obtain ⟨phase', context'', tokens', hmatches', hmoves⟩ | ⟨tokens', hstate, -⟩ :=
        moves_of_turn hmatches hturn
      · have htokens : tokens = [] := by
          cases tokens with
          | nil => rfl
          | cons token tokens => exact absurd htoken (ne_endOfInput_of_delivers hmatches.delivers)
        subst htokens
        cases hmoves with
        | handsOn => exact .inl hmatches'.delivers
        | advances cons => cases cons
      · exact .inr hstate
    · exact .inr (dashDash_of_turn hstate hturn)
  · exact .inr (dashDash_of_turn hstate hturn)

/-- The two lines are read from their beginning on. -/
theorem continues_start (context : CommandLineContext V) (commands : List (Command V))
    (hbegins : delivered args <+: delivered args') :
    (start context commands args).token.1 = .endOfInput ∨
      (start context commands args).Continues (start context commands args') := by
  have hargs := (matches_start context commands args).delivers
  have hargs' := (matches_start context commands args').delivers
  obtain ⟨rest, hrest⟩ := hbegins
  cases htokens : delivered args with
  | nil =>
      rw [htokens] at hargs
      exact .inl hargs
  | cons token tokens =>
      rw [htokens] at hargs hrest
      rw [← hrest] at hargs'
      exact .inr ⟨rfl, rfl, token, tokens, rest, hargs, hargs'⟩

/-- The end of the line has been delivered, in this configuration or in one before it. -/
def PastEnd (b : Build) (context : CommandLineContext V) (commands : List (Command V))
    (args : List String) (cfg : Config V) : Prop :=
  ∃ cfg₀, Reachable b context commands args cfg₀ ∧ cfg₀.token.1 = .endOfInput ∧
    Loop.Reaches (turn b) cfg₀ cfg

/-- Behind the end of the line nothing more of it is read. -/
theorem PastEnd.done (h : PastEnd b context commands args cfg) : cfg.Done := by
  obtain ⟨cfg₀, hreach₀, htoken, hreach⟩ := h
  induction hreach with
  | refl => exact .inl htoken
  | tail hreach hturn ih => exact done_of_turn (hreach₀.trans hreach) ih hturn

/-- What is reached before the end of a line is reached on every line that begins with it. -/
theorem continues_of_reachable (hbegins : delivered args <+: delivered args')
    (hreach : Reachable b context commands args cfg) :
    PastEnd b context commands args cfg ∨
      ∃ cfg', Reachable b context commands args' cfg' ∧ cfg.Continues cfg' := by
  induction hreach with
  | refl =>
      obtain hend | hcontinues := continues_start context commands hbegins
      · exact .inl ⟨_, Loop.reaches_refl _, hend, Loop.reaches_refl _⟩
      · exact .inr ⟨_, Loop.reaches_refl _, hcontinues⟩
  | tail hreach hturn ih =>
      obtain ⟨cfg₀, hreach₀, htoken, hpast⟩ | ⟨cfg', hreach', hcontinues⟩ := ih
      · exact .inl ⟨cfg₀, hreach₀, htoken, hpast.trans (Loop.reaches_of_inl hturn)⟩
      · obtain hend | ⟨cfg₁', hturn', hcontinues'⟩ := hcontinues.turn_inl hturn
        · have hreached := hreach.trans (Loop.reaches_of_inl hturn)
          exact .inl ⟨_, hreached, hend, Loop.reaches_refl _⟩
        · exact .inr ⟨cfg₁', hreach'.trans (Loop.reaches_of_inl hturn'), hcontinues'⟩

/-- The run ends with this before the end of the line. -/
def EndsEarly (b : Build) (context : CommandLineContext V) (commands : List (Command V))
    (args : List String) (result : Result V) : Prop :=
  ∃ cfg, Reachable b context commands args cfg ∧ cfg.token.1 ≠ .endOfInput ∧
    turn b cfg = .inr result

/-- Where `--` was met, every token is ignored. -/
theorem not_dashDash_of_inr {result : Result V} (htoken : cfg.token.1 ≠ .endOfInput)
    (hturn : turn b cfg = .inr result) : cfg.state ≠ .dashDashState := by
  intro hstate
  rw [turn_of_dashDash hstate (.inr htoken)] at hturn
  cases hturn

/-- Before the end of the line, a run only ends with an error. -/
theorem not_success_of_endsEarly {context' : ParserContext V}
    (h : EndsEarly b context commands args (.returned true context')) : False := by
  obtain ⟨cfg, hreach, htoken, hturn⟩ := h
  obtain ⟨phase, context'', tokens, hmatches, -⟩ | ⟨hstate, -⟩ := tracks_of_reachable hreach
  · obtain ⟨hstate, hdata, hwf, -⟩ := hmatches
    obtain hhandles | ⟨context₁, ⟨-, -, hstep⟩, -⟩ := advance_follows (b := b) hwf htoken
    · cases hadvance : advance b phase context'' cfg.token with
      | ok p =>
          rw [hadvance] at hhandles
          obtain ⟨-, hstep⟩ := hhandles
          rw [← hstate, ← hdata] at hstep
          cases hturn.symm.trans (turn_of_continue hstep htoken)
      | error stop =>
          rw [hadvance] at hhandles
          by_cases hswallowed : stop = .swallowed
          · obtain ⟨d, hstep⟩ : Stops b phase context'' cfg.token .swallowed :=
              hswallowed ▸ hhandles
            rw [← hstate, ← hdata] at hstep
            cases hturn.symm.trans (turn_of_continue hstep htoken)
          · obtain ⟨result, hturn', hresult⟩ := turn_of_stops hstate hdata hhandles hswallowed
            cases hturn.symm.trans hturn'
            cases stop with
            | rejected message context₁ => cases hresult
            | faulted fault => cases hresult
            | swallowed => exact hswallowed rfl
    · rw [← hstate, ← hdata] at hstep
      cases hturn.symm.trans (turn_of_reissue hstep)
  · exact not_dashDash_of_inr htoken hturn hstate

/-- The line `args'` is read on from where `args` ends. -/
structure ReadsOn (b : Build) (context : CommandLineContext V) (commands : List (Command V))
    (args args' : List String) : Prop where
  /-- until the end of `args` the machine handles the same tokens with the same data -/
  handles : ∀ cfg, Reachable b context commands args cfg → ¬ PastEnd b context commands args cfg →
    ∃ cfg', Reachable b context commands args' cfg' ∧ cfg'.state = cfg.state ∧
      cfg'.token = cfg.token ∧ cfg'.data = cfg.data
  /-- an end that comes before the end of `args` comes on both lines -/
  ends : ∀ result, EndsEarly b context commands args result →
    EndsEarly b context commands args' result
  /-- and is not a success -/
  fails : ∀ context', ¬ EndsEarly b context commands args (.returned true context')

/-- **Reading on**: on a line that begins with the tokens of another one, the machine goes on
from where it was at the end of that one, and an error on the way there is final. -/
theorem run_of_prefix_continues (hbegins : delivered args <+: delivered args') :
    ReadsOn b context commands args args' where
  handles := by
    intro cfg hreach hpast
    obtain ⟨cfg', hreach', hcontinues⟩ :=
      (continues_of_reachable hbegins hreach).resolve_left hpast
    exact ⟨cfg', hreach', hcontinues.state, hcontinues.token.1, hcontinues.data⟩
  ends := by
    intro result hearly
    obtain ⟨cfg, hreach, htoken, hturn⟩ := hearly
    obtain hpast | ⟨cfg', hreach', hcontinues⟩ := continues_of_reachable hbegins hreach
    · obtain hend | hstate := hpast.done
      · exact absurd hend htoken
      · exact absurd hstate (not_dashDash_of_inr htoken hturn)
    · exact ⟨cfg', hreach', hcontinues.token.1 ▸ htoken, hcontinues.turn_inr hturn⟩
  fails := fun _ => not_success_of_endsEarly

theorem run_of_prefix_continues_unknown :
    ReadsOn .release { programName := "prog" } [(Command.plainDefault : Command String)]
      ["-q", "--unknown"] ["-q", "--unknown=1", "more"] :=
  run_of_prefix_continues (by decide)

end Parser

end AsapClap
