import AsapClap.Parser.Run

/-!
# AsapClap.Parser.Selection

Which command a command line selects.

The values before the first other token are the `leadingValues`.  The pass types
them into the filters of `IdentifyCommandState` as long as some path goes on like
that, then settles on the command at the longest path among them; without one,
on the default command.
-/

namespace AsapClap

namespace Parser

open LongestPrefix

variable {V : Type} {b : Build}

/-- The values before the first token that is not one. -/
def leadingValues (tokens : List Token) : List String :=
  (tokens.takeWhile fun t => t.1 = .value).map Prod.snd

@[simp] theorem leadingValues_nil : leadingValues [] = [] := rfl

@[simp] theorem leadingValues_value (text : String) (tokens : List Token) :
    leadingValues ((.value, text) :: tokens) = text :: leadingValues tokens := by
  simp [leadingValues]

theorem leadingValues_other {token : Token} (h : token.1 ≠ .value) (tokens : List Token) :
    leadingValues (token :: tokens) = [] := by
  simp [leadingValues, h]

/-- The leading values are the texts of the first tokens. -/
theorem leadingValues_append_drop (tokens : List Token) :
    (leadingValues tokens).map (Prod.mk .value) ++ tokens.drop (leadingValues tokens).length =
      tokens := by
  induction tokens with
  | nil => rfl
  | cons token tokens ih =>
      by_cases h : token.1 = .value
      · obtain ⟨text, rfl⟩ := Token.exists_text h
        simpa using ih
      · simp [leadingValues_other h]

/-! ## The naming phase -/

theorem drop_cons_sub {α : Type} {m n : Nat} (h : m < n) (x : α) (xs : List α) :
    (x :: xs).drop (n - m) = xs.drop (n - (m + 1)) := by
  rw [show n - m = n - (m + 1) + 1 by omega, List.drop_succ_cons]

/-- The naming phase goes on while some path does, and what is left is dispatched
once a command is selected. -/
theorem scan_naming (typed : List String) (context : ParserContext V) (tokens : List Token) :
    ∃ segments, scan b (.naming typed) context tokens =
      let probed := probeFrom Command.path context.commands typed (leadingValues tokens)
      match tokens.drop (probed.length - typed.length) with
      | [] => finish b (.naming probed) context
      | rest => select probed segments context >>= (scan b .ready · rest) := by
  induction tokens generalizing typed with
  | nil => exact ⟨[], by simp [probeFrom, scan]⟩
  | cons token tokens ih =>
      by_cases hvalue : token.1 = .value
      · obtain ⟨text, rfl⟩ := Token.exists_text hvalue
        by_cases hnil : candidates Command.path context.commands (typed ++ [text]) = []
        · refine ⟨typed ++ [text], ?_⟩
          simp [probeFrom, hnil, scan, advance, continueNaming]
        · obtain ⟨segments, hscan⟩ := ih (typed ++ [text])
          refine ⟨segments, ?_⟩
          have hlen : typed.length < (probeFrom Command.path context.commands
              (typed ++ [text]) (leadingValues tokens)).length :=
            (Nat.lt_of_lt_of_le (by simp) (prefix_probeFrom (typed ++ [text]) _).length_le)
          have hstep : scan b (.naming typed) context ((.value, text) :: tokens) =
              scan b (.naming (typed ++ [text])) context tokens := by
            simp [scan, advance, continueNaming, hnil]
          rw [hstep, hscan, leadingValues_value, probeFrom, if_neg hnil]
          simp only [drop_cons_sub hlen, List.length_append, List.length_singleton]
      · refine ⟨typed, ?_⟩
        simp [leadingValues_other hvalue, probeFrom, scan, advance_naming_other hvalue]
        rfl

/-! ## The start -/

/-- How much of a command line goes into a search for a command. -/
def probed (commands : List (Command V)) (tokens : List Token) : List String :=
  probe Command.path commands (leadingValues tokens)

theorem longest_probed (commands : List (Command V)) (tokens : List Token) :
    longest Command.path commands (probed commands tokens) =
      longest Command.path commands (leadingValues tokens) :=
  longest_probe (fun c _ => c.path_ne_nil) _

/-- A first token that starts no path is dispatched to the active command. -/
theorem scan_start_of_no_path {context : ParserContext V} {token : Token}
    (hpath : token.1 = .value → InitialState.maybeCommand context token.2 = false)
    (tokens : List Token) :
    context.activeCommand.isSome ∧
        scan b .start context (token :: tokens) = scan b .ready context (token :: tokens) ∨
      context.activeCommand = none ∧
        ∃ message, scan b .start context (token :: tokens) =
          .error (.rejected message context) := by
  cases hactive : context.activeCommand with
  | some command =>
      left
      refine ⟨rfl, ?_⟩
      have hbegin : begin b context token = dispatch b context token := by
        obtain ⟨tokenType, text⟩ := token
        cases tokenType with
        | value => simp [begin, hactive, hpath rfl]
        | _ => simp [begin, hactive]
      rw [scan, scan, advance, advance, hbegin]
  | none =>
      right
      refine ⟨rfl, ?_⟩
      obtain ⟨tokenType, text⟩ := token
      cases tokenType with
      | value => exact ⟨_, by rw [scan, advance, begin, hpath rfl, hactive]; rfl⟩
      | _ => exact ⟨Errors.missingCommand context, by simp [scan, advance, begin, hactive]⟩

/-- The pass from its start: either a command is searched among the values
probed, or the active command is there from the start. -/
theorem scan_start (context : ParserContext V) (tokens : List Token) :
    (probed context.commands tokens ≠ [] ∧ ∃ segments, scan b .start context tokens =
      match tokens.drop (probed context.commands tokens).length with
      | [] => finish b (.naming (probed context.commands tokens)) context
      | rest => select (probed context.commands tokens) segments context >>=
          (scan b .ready · rest)) ∨
    probed context.commands tokens = [] ∧
      (context.activeCommand.isSome ∧
          scan b .start context tokens = scan b .ready context tokens ∨
        context.activeCommand = none ∧
          ∃ message, scan b .start context tokens = .error (.rejected message context)) := by
  cases tokens with
  | nil =>
      right
      refine ⟨rfl, ?_⟩
      cases hactive : context.activeCommand with
      | some command => exact .inl ⟨rfl, by simp [scan, finish, hactive]⟩
      | none => exact .inr ⟨rfl, _, by simp [scan, finish, hactive]; rfl⟩
  | cons token tokens =>
      by_cases hvalue : token.1 = .value
      · obtain ⟨text, rfl⟩ := Token.exists_text hvalue
        by_cases hnil : candidates Command.path context.commands [text] = []
        · right
          have hmaybe : InitialState.maybeCommand context text = false := by
            rw [← Bool.not_eq_true, maybeCommand_iff, not_not]
            exact hnil
          exact ⟨by simp [probed, probe, probeFrom, hnil],
            scan_start_of_no_path (fun _ => hmaybe) tokens⟩
        · left
          have hprobed : probed context.commands ((.value, text) :: tokens) =
              probeFrom Command.path context.commands [text] (leadingValues tokens) := by
            simp [probed, probe, probeFrom, hnil]
          have hpre : [text] <+: probed context.commands ((.value, text) :: tokens) := by
            rw [hprobed]
            exact prefix_probeFrom _ _
          have hlen : 0 < (probed context.commands ((.value, text) :: tokens)).length :=
            Nat.lt_of_lt_of_le Nat.one_pos hpre.length_le
          have hstep : scan b .start context ((.value, text) :: tokens) =
              scan b (.naming [text]) context tokens := by
            simp [scan, advance, begin, maybeCommand_iff.mpr hnil]
          obtain ⟨segments, hscan⟩ := scan_naming (b := b) [text] context tokens
          refine ⟨List.ne_nil_of_length_pos hlen, segments, ?_⟩
          rw [hstep, hscan, ← hprobed]
          have hdrop := drop_cons_sub hlen (TokenType.value, text) tokens
          rw [Nat.sub_zero] at hdrop
          simp only [hdrop, List.length_singleton, Nat.zero_add]
      · right
        exact ⟨by simp [probed, leadingValues_other hvalue, probe, probeFrom],
          scan_start_of_no_path (fun h => absurd h hvalue) tokens⟩

/-- The phases of the pass up to the choice of a command. -/
inductive Selected (context : ParserContext V) (tokens : List Token) :
    ParserContext V → List Token → Prop
  | matched {command : Command V}
      (h : longest Command.path context.commands (leadingValues tokens) = some command) :
      Selected context tokens { context with activeCommand := some command }
        (tokens.drop (probed context.commands tokens).length)
  | fallback {command : Command V} (hprobed : probed context.commands tokens ≠ [])
      (h : longest Command.path context.commands (leadingValues tokens) = none)
      (hdefault : lastDefault context.commands = some command) :
      Selected context tokens
        { context with
          activeCommand := some command
          positionalTokens := context.positionalTokens ++ probed context.commands tokens }
        (tokens.drop (probed context.commands tokens).length)
  | direct (h : probed context.commands tokens = []) (hactive : context.activeCommand.isSome) :
      Selected context tokens context tokens

theorem selected_of_select {context context' : ParserContext V} {tokens : List Token}
    {segments : List String} (hprobed : probed context.commands tokens ≠ [])
    (h : select (probed context.commands tokens) segments context =
      (.ok context' : Except (Stop V) (ParserContext V))) :
    Selected context tokens context' (tokens.drop (probed context.commands tokens).length) := by
  rw [select, longest_probed] at h
  split at h
  · next hlong =>
    cases h
    exact .matched hlong
  · next hlong hdef =>
    cases h
    exact .fallback hprobed hlong hdef
  · cases h

theorem finish_naming_ok {typed : List String} {context entry : ParserContext V}
    (h : finish b (.naming typed) context = .ok entry) :
    select typed typed context = (.ok entry : Except (Stop V) (ParserContext V)) := by
  obtain ⟨context', hselect, h⟩ := bind_eq_ok.mp h
  split at h
  · cases hexpect : b.expect .tokenIsNotEndOfInput false with
    | error fault =>
        rw [hexpect] at h
        cases h
    | ok _ =>
        rw [hexpect] at h
        cases h
        exact hselect
  · cases h
    exact hselect

/-- A pass that gets to its end has selected a command on the way. -/
theorem selected_of_scan {context entry : ParserContext V} {tokens : List Token}
    (h : scan b .start context tokens = .ok entry) :
    ∃ context' rest, Selected context tokens context' rest ∧
      scan b .ready context' rest = .ok entry := by
  rcases scan_start (b := b) context tokens with ⟨hprobed, segments, hscan⟩ |
    ⟨hprobed, ⟨hactive, hscan⟩ | ⟨-, message, hscan⟩⟩
  · rw [hscan] at h
    cases hrest : tokens.drop (probed context.commands tokens).length with
    | nil =>
        rw [hrest] at h
        exact ⟨entry, _, selected_of_select hprobed (finish_naming_ok h), by rw [hrest]; rfl⟩
    | cons token rest =>
        rw [hrest] at h
        obtain ⟨context', hselect, h⟩ := bind_eq_ok.mp h
        exact ⟨context', _, selected_of_select hprobed hselect, by rw [hrest]; exact h⟩
  · exact ⟨context, tokens, .direct hprobed hactive, hscan ▸ h⟩
  · rw [hscan] at h
    cases h

end Parser

end AsapClap
