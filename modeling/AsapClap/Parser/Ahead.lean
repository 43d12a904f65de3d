import AsapClap.Parser.Alike
import AsapClap.Parser.Contents

/-!
# AsapClap.Parser.Ahead

The tokens of a line ahead of some other token than a value: with that token the command is
known to be the one that the tokens ahead of it choose, and the token itself is dispatched
once whatever is pending is settled.
-/

namespace AsapClap

namespace Parser

open LongestPrefix Errors

variable {V : Type} {b : Build}

/-! ## Beginnings of lines -/

/-- Behind the command, tokens stay behind it. -/
theorem advanceAll_ok {c : Command V} {p p' : Phase × ParserContext V} {tokens : List Token}
    (hphase : p.1.BehindCommand p.2) (hcommand : p.2.activeCommand = some c)
    (h : advanceAll b p tokens = .ok p') :
    p'.1.BehindCommand p'.2 ∧ p'.2.activeCommand = some c ∧
      p'.2.allowLongOptionValueWithNoEqual = p.2.allowLongOptionValueWithNoEqual := by
  induction tokens generalizing p with
  | nil =>
      cases h
      exact ⟨hphase, hcommand, rfl⟩
  | cons token tokens ih =>
      rw [advanceAll, List.foldlM_cons] at h
      obtain ⟨q, hadvance, h⟩ := bind_eq_ok.mp h
      obtain ⟨hphase', hcommand', hstep⟩ := advance_ok hphase hcommand hadvance
      obtain ⟨hphase'', hcommand'', hallow⟩ := ih hphase' hcommand' h
      exact ⟨hphase'', hcommand'', hallow.trans hstep.allowLong_eq⟩

/-- What is pending is settled. -/
def release : Phase → ParserContext V → Except (Stop V) (ParserContext V)
  | .short value, context | .long value _, context => accept (leaveOption value context)
  | _, context => .ok context

/-- Behind the command, a token that has nothing to do with what is pending is dispatched
once that is settled. -/
theorem advance_other {phase : Phase} {context : ParserContext V} {token : Token}
    (hphase : phase.BehindCommand context) (hvalue : token.1 ≠ .value)
    (hequal : token.1 ≠ .equalSign) :
    advance b phase context token = release phase context >>= (dispatch b · token) := by
  cases phase with
  | start | naming typed => exact hphase.elim
  | ready => rfl
  | short value => exact advance_short_other hvalue
  | long value afterEqual => exact advance_long_other hvalue hequal

/-- That is also what the end of the tokens does. -/
theorem release_eq_finish {phase : Phase} {context : ParserContext V}
    (hphase : phase.BehindCommand context) : release phase context = finish b phase context := by
  cases phase with
  | start | naming typed => exact hphase.elim
  | ready | short | long => rfl

theorem release_ok {phase : Phase} {context context' : ParserContext V}
    (hphase : phase.BehindCommand context) (h : release phase context = .ok context') :
    Settles (phase.pending context) context context' :=
  settles_of_finish hphase ((release_eq_finish (b := .debug) hphase).symm.trans h)

/-! ## An option with its value -/

section

variable {context : ParserContext V} {option : ClapOption V} {semantics : ValueSemantics V}

/-- A value behind the short form is offered to the option. -/
theorem scan_short_value (hoption : context.activeOption = some option)
    (hsem : option.valueSemantic = some semantics) (v : String) (rest : List Token) :
    scan b (.short none) context ((.value, v) :: rest) =
      offer b option semantics (.short (some v)) true context v >>= fun p =>
        scan b p.1 p.2 rest := by
  rw [scan_cons, advance, continueShort, activeSemantics_of_some hoption hsem]
  rfl

/-- So is a value behind the long form and an equal sign, where the implicit value does not
stand in for it. -/
theorem scan_long_value (hoption : context.activeOption = some option)
    (hsem : option.valueSemantic = some semantics) (equal v : String) (rest : List Token) :
    scan b (.long none false) context ((.equalSign, equal) :: (.value, v) :: rest) =
      offer b option semantics (.long (some v) true) false context v >>= fun p =>
        scan b p.1 p.2 rest := by
  rw [scan_cons, advance, continueLong, activeSemantics_of_some hoption hsem]
  change scan b (.long none true) context ((.value, v) :: rest) = _
  rw [scan_cons, advance, continueLong_value (.inr rfl), activeSemantics_of_some hoption hsem]
  rfl

end

/-! ## The command ahead -/

theorem leadingValues_append {token : Token} (h : token.1 ≠ .value) (tokens rest : List Token) :
    leadingValues (tokens ++ token :: rest) = leadingValues tokens := by
  induction tokens with
  | nil => exact leadingValues_other h rest
  | cons t tokens ih =>
      by_cases ht : t.1 = .value
      · obtain ⟨text, rfl⟩ := Token.exists_text ht
        rw [List.cons_append, leadingValues_value, leadingValues_value, ih]
      · rw [List.cons_append, leadingValues_other ht, leadingValues_other ht]

theorem length_probed_le (commands : List (Command V)) (tokens : List Token) :
    (probed commands tokens).length ≤ tokens.length := by
  have hlead : (leadingValues tokens).length ≤ tokens.length := by
    rw [leadingValues, List.length_map]
    exact (List.takeWhile_sublist _).length_le
  exact (probe_isPrefix_line (leadingValues tokens)).length_le.trans hlead

section

variable {context : ParserContext V} {typed segments : List String} {c : Command V}

theorem select_of_longest (h : longest Command.path context.commands typed = some c) :
    select typed segments context =
      (.ok { context with activeCommand := some c } : Except (Stop V) (ParserContext V)) := by
  rw [select, h]

theorem select_of_default (h : longest Command.path context.commands typed = none)
    (hdefault : lastDefault context.commands = some c) :
    select typed segments context = (.ok { context with
      activeCommand := some c
      positionalTokens := context.positionalTokens ++ typed } :
        Except (Stop V) (ParserContext V)) := by
  rw [select, h, hdefault]

theorem select_of_none (h : longest Command.path context.commands typed = none)
    (hdefault : lastDefault context.commands = none) :
    select typed segments context =
      (.error (.rejected (unrecognizedCommand segments) context) :
        Except (Stop V) (ParserContext V)) := by
  rw [select, h, hdefault]

end

theorem probed_append {token : Token} (h : token.1 ≠ .value) (commands : List (Command V))
    (tokens rest : List Token) :
    probed commands (tokens ++ token :: rest) = probed commands tokens := by
  rw [probed, leadingValues_append h, probed]

/-- Words that begin the path of a command are collected up to there, whatever comes behind the
first token other than a value. -/
theorem scan_start_append {context : ParserContext V} {tokens : List Token} {token : Token}
    (hne : probed context.commands tokens ≠ []) (h : token.1 ≠ .value) (rest : List Token) :
    ∃ segments, scan b .start context (tokens ++ token :: rest) =
      select (probed context.commands tokens) segments context >>=
        (scan b .ready · (tokens.drop (probed context.commands tokens).length ++
          token :: rest)) := by
  have hprobed := probed_append h context.commands tokens rest
  have hstart := scan_start (b := b) context (tokens ++ token :: rest)
  obtain ⟨-, segments, hscan⟩ :=
    hstart.resolve_right fun hno => hne (hprobed.symm.trans hno.1)
  refine ⟨segments, ?_⟩
  rw [hscan, hprobed,
    List.drop_append_of_le_length (length_probed_le context.commands tokens)]
  -- the token is there, so the pass does not end with the selection
  have hcons : tokens.drop (probed context.commands tokens).length ++ token :: rest ≠ [] :=
    List.append_ne_nil_of_right_ne_nil _ (List.cons_ne_nil token rest)
  obtain ⟨t, ts, hts⟩ := List.exists_cons_of_ne_nil hcons
  rw [hts]

/-- With a token other than a value, the line is read by the command chosen ahead of it, or
is rejected for want of one. -/
theorem scan_start_other (context : ParserContext V) (tokens : List Token) :
    (chosen context tokens = none ∧ ∀ token rest, token.1 ≠ .value →
      ∃ message, scan b .start context (tokens ++ token :: rest) =
        .error (.rejected message context)) ∨
    ∃ c context' n, chosen context tokens = some c ∧ context'.activeCommand = some c ∧
      context'.allowLongOptionValueWithNoEqual = context.allowLongOptionValueWithNoEqual ∧
      context'.ovm = context.ovm ∧
      ∀ token rest, token.1 ≠ .value → scan b .start context (tokens ++ token :: rest) =
        scan b .ready context' (tokens.drop n ++ token :: rest) := by
  by_cases hnil : probed context.commands tokens = []
  · have hscan := fun (token : Token) (rest : List Token) (h : token.1 ≠ .value) =>
      ((scan_start (b := b) context (tokens ++ token :: rest)).resolve_left
        fun hne => hne.1 ((probed_append h context.commands tokens rest).trans hnil)).2
    cases hactive : context.activeCommand with
    | none =>
        refine .inl ⟨by rw [chosen, if_pos hnil, hactive], fun token rest h => ?_⟩
        refine ((hscan token rest h).resolve_left fun hsome => ?_).2
        rw [hactive] at hsome
        cases hsome.1
    | some c =>
        refine .inr ⟨c, context, 0, by rw [chosen, if_pos hnil, hactive], hactive, rfl,
          rfl, fun token rest h => ?_⟩
        refine ((hscan token rest h).resolve_right fun hnone => ?_).2
        rw [hactive] at hnone
        cases hnone.1
  · have hchosen : chosen context tokens = (longest Command.path context.commands
        (leadingValues tokens)).or (lastDefault context.commands) := if_neg hnil
    rw [hchosen]
    cases hlong : longest Command.path context.commands (leadingValues tokens) with
    | some c =>
        refine .inr ⟨c, { context with activeCommand := some c },
          (probed context.commands tokens).length, rfl, rfl, rfl, rfl, fun token rest h => ?_⟩
        obtain ⟨segments, hscan⟩ := scan_start_append (b := b) hnil h rest
        rw [hscan, select_of_longest ((longest_probed _ _).trans hlong), ok_bind]
    | none =>
        have hnone := (longest_probed context.commands tokens).trans hlong
        cases hdefault : lastDefault context.commands with
        | some c =>
            refine .inr ⟨c, { context with
              activeCommand := some c
              positionalTokens := context.positionalTokens ++ probed context.commands tokens },
              (probed context.commands tokens).length, rfl, rfl, rfl, rfl, fun token rest h => ?_⟩
            obtain ⟨segments, hscan⟩ := scan_start_append (b := b) hnil h rest
            rw [hscan, select_of_default hnone hdefault, ok_bind]
        | none =>
            refine .inl ⟨rfl, fun token rest h => ?_⟩
            obtain ⟨segments, hscan⟩ := scan_start_append (b := b) hnil h rest
            exact ⟨unrecognizedCommand segments, by
              rw [hscan, select_of_none hnone hdefault, error_bind]⟩

end Parser

end AsapClap
