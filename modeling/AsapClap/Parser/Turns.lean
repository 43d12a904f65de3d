import AsapClap.Parser.Run

/-!
# AsapClap.Parser.Turns

How many turns the loop of `Parse` takes: two for each token of the line at most and two more, or
it never ends.
-/

namespace AsapClap

namespace Parser

variable {V : Type} {b : Build} {cfg cfg' : Config V} {tokens tokens' : List Token}

theorem delivers_unique (h : cfg.Delivers tokens) (h' : cfg.Delivers tokens') :
    tokens = tokens' := by
  cases tokens with
  | nil =>
      cases tokens' with
      | nil => rfl
      | cons token' tokens' =>
          obtain ⟨rfl, -, hne⟩ := h'
          exact absurd h (hne _ (.head _))
  | cons token tokens =>
      obtain ⟨rfl, hremaining, hne⟩ := h
      cases tokens' with
      | nil => exact absurd h' (hne _ (.head _))
      | cons token' tokens' =>
          obtain ⟨rfl, hremaining', -⟩ := h'
          rw [← hremaining, ← hremaining']

/-- No turn leaves more to be delivered. -/
theorem length_le_of_turn {token : Token} (hturn : turn b cfg = .inl cfg')
    (h : cfg.Delivers (token :: tokens)) (h' : cfg'.Delivers tokens') :
    tokens'.length ≤ tokens.length + 1 := by
  obtain ⟨-, htoken, htokenizer⟩ | ⟨-, -, hnext⟩ := turn_eq_inl hturn
  · have hsame : cfg'.Delivers (token :: tokens) := by
      rwa [Config.Delivers, htoken, htokenizer]
    rw [delivers_unique h' hsame, List.length_cons]
  · have hcfg' : cfg.next cfg'.state cfg'.data = cfg' := by rw [Config.next, hnext]
    have hrest := delivers_next h cfg'.state cfg'.data
    rw [hcfg'] at hrest
    rw [delivers_unique h' hrest]
    exact Nat.le_succ _

/-- What is left of a run takes so many turns, if it ends. -/
inductive Left (cfg : Config V) (n : Nat) : Prop
  | matching {phase : Phase} {context : ParserContext V} {tokens : List Token}
      (h : cfg.Matches phase context tokens) (hn : weight phase tokens ≤ n)
  | dashDash {tokens : List Token} (hstate : cfg.state = .dashDashState)
      (h : cfg.Delivers tokens) (hn : tokens.length ≤ n)

/-- One turn less is left, or the run ends, or it never does. -/
theorem left_of_turn {n : Nat} (h : Left cfg n) :
    (∃ cfg' m, turn b cfg = .inl cfg' ∧ Left cfg' m ∧ m < n) ∨
      (∃ result, turn b cfg = .inr result) ∨ Loop.Diverges (turn b) cfg := by
  cases h with
  | @matching phase context tokens h hn =>
      obtain ⟨cfg', phase', context', tokens', hturn, hmatches, hmoves⟩ |
        ⟨cfg', tokens', hturn, hstate, hdelivers, hscan⟩ | ⟨result, hturn, -⟩ :=
          turn_of_matches (b := b) h
      · exact .inl ⟨cfg', _, hturn, .matching hmatches le_rfl, hmoves.weight_lt.trans_le hn⟩
      · cases tokens with
        | nil => exact absurd hscan (finish_ne_swallowed phase context)
        | cons token tokens =>
            have hlength := length_le_of_turn hturn h.delivers hdelivers
            refine .inl ⟨cfg', _, hturn, .dashDash hstate hdelivers le_rfl, ?_⟩
            simp only [weight, List.length_cons] at hn
            omega
      · exact .inr (.inl ⟨result, hturn⟩)
  | @dashDash tokens hstate h hn =>
      cases tokens with
      | nil =>
          cases b with
          | debug => exact .inr (.inl ⟨_, turn_of_dashDash_endOfInput hstate h⟩)
          | release => exact .inr (.inr (diverges_of_dashDash hstate))
      | cons token tokens =>
          have htoken := ne_endOfInput_of_delivers h
          exact .inl ⟨_, tokens.length, turn_of_dashDash hstate (.inr htoken),
            .dashDash rfl (delivers_next h _ _) le_rfl, hn⟩

/-- **Turns**: the loop of `Parse` ends within two turns for each token and two more, or never. -/
theorem parses_iff_run {context : CommandLineContext V} {commands : List (Command V)}
    {args : List String} {result : Result V} :
    Parses b context commands args result ↔
      Loop.run (turn b) (2 * (Tokenizer.delivered args).length + 2)
        (start context commands args) = some result := by
  have hleft : Left (start context commands args) (2 * (Tokenizer.delivered args).length + 1) :=
    .matching (matches_start context commands args) (by simp [weight])
  exact ⟨fun h => Loop.run_of_variant Left (fun _ _ => left_of_turn) hleft h, fun h => ⟨_, h⟩⟩

end Parser

end AsapClap
