import AsapClap.Parser.Callbacks
import AsapClap.Parser.Run
import AsapClap.Tokenizer.Image

/-!
# AsapClap.Parser.DoubleDash

What a `--` does to a command line.  Other parsers take everything behind it for positional;
here `DashDashState` is not left again, not even for the end of the input.

So what is behind a `--` never matters, and no line with one is ever parsed with success.  In a
release build the part of the line in front decides alone: where that would get to `FinalState`,
the run goes on for ever, and everything else ends as if the line ended there.
-/

namespace AsapClap

namespace Parser

open Tokenizer LongestPrefix

variable {V : Type} {b : Build}

/-! ## The pass -/

section

variable {phase : Phase} {context : ParserContext V} {token : Token} {tokens rest : List Token}

/-- Whatever the phase, nothing goes on behind a `--`. -/
theorem advance_dashDash_ne_ok (htoken : token.1 = .dashDash) {p : Phase × ParserContext V} :
    advance b phase context token ≠ .ok p := by
  obtain ⟨text, rfl⟩ := Token.exists_text htoken
  cases phase with
  | start =>
      intro h
      change (if context.activeCommand.isSome then _ else _) = _ at h
      split at h <;> cases h
  | ready => exact fun h => by cases h
  | naming typed =>
      intro h
      rw [advance_naming_other (by simp)] at h
      obtain ⟨context', -, h⟩ := bind_eq_ok.mp h
      cases h
  | short value =>
      intro h
      rw [advance_short_other (by simp)] at h
      obtain ⟨context', -, h⟩ := bind_eq_ok.mp h
      cases h
  | long value afterEqual =>
      intro h
      rw [advance_long_other (by simp) (by simp)] at h
      obtain ⟨context', -, h⟩ := bind_eq_ok.mp h
      cases h

/-- In a release build, a `--` comes to what the end of the line would come to, except that what
would get to `FinalState` is swallowed. -/
theorem scan_dashDash (htoken : token.1 = .dashDash) :
    scan .release phase context (token :: rest) =
      finish .release phase context >>= fun _ => .error .swallowed := by
  obtain ⟨text, rfl⟩ := Token.exists_text htoken
  cases phase with
  | start =>
      change (if context.activeCommand.isSome then _ else _) >>= _ =
        (if context.activeCommand.isSome then _ else _) >>= _
      split <;> rfl
  | ready => rfl
  | naming typed =>
      rw [scan, advance_naming_other (by simp), finish]
      cases select typed typed context with
      | error stop => rfl
      | ok context' => cases (longest Command.path context.commands typed).isNone <;> rfl
  | short value =>
      rw [scan, advance_short_other (by simp), finish]
      cases accept (leaveOption value context) <;> rfl
  | long value afterEqual =>
      rw [scan, advance_long_other (by simp) (by simp), finish]
      cases accept (leaveOption value context) <;> rfl

/-- In release builds what is in front of `--` is scanned, and then the rest is swallowed. -/
theorem scan_append_dashDash (htoken : token.1 = .dashDash) :
    scan .release phase context (tokens ++ token :: rest) =
      scan .release phase context tokens >>= fun _ => .error .swallowed := by
  have hnil := scan_append (b := .release) phase context tokens []
  rw [List.append_nil] at hnil
  rw [scan_append, hnil]
  cases advanceAll .release (phase, context) tokens with
  | error stop => rfl
  | ok p => exact scan_dashDash htoken

/-- No scan gets past `--`. -/
theorem scan_append_dashDash_ne_ok (htoken : token.1 = .dashDash) {entry : ParserContext V} :
    scan b phase context (tokens ++ token :: rest) ≠ .ok entry := by
  rw [scan_append]
  intro h
  obtain ⟨p, -, h⟩ := bind_eq_ok.mp h
  obtain ⟨p', hadvance, -⟩ := bind_eq_ok.mp h
  exact advance_dashDash_ne_ok htoken hadvance

end

/-! ## Getting to the end -/

/-- The run gets to `FinalState`. -/
def GetsToFinal (b : Build) (context : CommandLineContext V) (commands : List (Command V))
    (args : List String) : Prop :=
  ∃ cfg entry, Reachable b context commands args cfg ∧ EntersFinal b cfg entry

section

variable {phase : Phase} {context : ParserContext V} {tokens : List Token} {cfg : Config V}
  {entry : ParserContext V}

/-- The option states know no way to `FinalState`. -/
theorem tryValue_ne_finalState {option : ClapOption V} {semantics : ValueSemantics V}
    {fallback hasData : Bool} {token : String} {context' : ParserContext V}
    {value : Option String} (hoption : context.activeOption = some option)
    (hsem : option.valueSemantic = some semantics) :
    tryValue option semantics fallback token context ≠
      .ok (.transitionTo .finalState hasData, context', value) := by
  intro h
  obtain ⟨-, -, haction | haction⟩ | ⟨-, -, message, haction⟩ := tryValue_ok hoption hsem h
  all_goals cases haction

/-- `IdentifyCommandState` goes to `FinalState` at the end of input only. -/
theorem identify_finalState {token : Token} {d d' : Data V} {hasData : Bool}
    (h : IdentifyCommandState.handle b token d = .ok (.transitionTo .finalState hasData, d')) :
    token.1 = .endOfInput := by
  obtain ⟨tokenType, text⟩ := token
  by_cases hvalue : tokenType = .value
  · subst hvalue
    change IdentifyCommandState.handleValue b text d = _ at h
    simp only [IdentifyCommandState.handleValue, bind_eq_ok] at h
    obtain ⟨-, -, h⟩ := h
    split at h
    · split at h
      · cases h
      · obtain ⟨-, -, h⟩ := bind_eq_ok.mp h
        cases h
      · cases h
    · cases h
  · rw [IdentifyCommandState.handle_of_ne_value hvalue] at h
    obtain ⟨-, -, h⟩ := bind_eq_ok.mp h
    split at h
    · cases tokenType <;> first | rfl | cases h
    · obtain ⟨-, -, h⟩ := bind_eq_ok.mp h
      cases h
    · cases h

/-- Only the end of the input takes a state to `FinalState`. -/
theorem token_of_finalState {state : State} {token : Token} {d d' : Data V} {hasData : Bool}
    (h : (machine b).handle state token d = .ok (.transitionTo .finalState hasData, d')) :
    token.1 = .endOfInput := by
  obtain ⟨tokenType, text⟩ := token
  cases state with
  | initialState =>
      have haction : InitialState.handle (tokenType, text) d = .transitionTo .finalState hasData :=
        congrArg Prod.fst (Except.ok.inj h)
      cases tokenType <;> simp only [InitialState.handle] at haction <;>
        split at haction <;> try split at haction
      all_goals first | rfl | cases haction
  | identifyCommandState => exact identify_finalState h
  | parseOptionsState =>
      cases tokenType with
      | endOfInput => rfl
      | equalSign =>
          obtain ⟨message, -, h⟩ := bind_eq_ok.mp h
          cases h
      | _ => cases h
  | parseShortOptionState =>
      obtain ⟨haction, -⟩ | ⟨-, option, semantics, context, value, hoption, hsem, htry, -⟩ :=
        shortHandle_ok h
      · cases haction
      · exact absurd htry (tryValue_ne_finalState hoption hsem)
  | parseLongOptionState =>
      obtain ⟨haction, -⟩ | ⟨⟨message, haction⟩, -⟩ | ⟨haction, -⟩ |
        ⟨-, option, semantics, context, value, hoption, hsem, htry, -⟩ := longHandle_ok h
      · cases haction
      · cases haction
      · cases haction
      · exact absurd htry (tryValue_ne_finalState hoption hsem)
  | dashDashState | finalState => cases h

/-- A configuration that enters `FinalState` is at the end of its pass. -/
theorem scan_of_entersFinal (h : cfg.Matches phase context tokens)
    (hfinal : EntersFinal b cfg entry) : ∃ entry', scan b phase context tokens = .ok entry' := by
  obtain ⟨d, hdepart, -⟩ := hfinal
  obtain ⟨d₁, hhandle, -⟩ := Fsm.StateMachine.depart_eq_enters hdepart
  have htoken := token_of_finalState hhandle
  obtain ⟨hstate, hdata, hwf, hdelivers⟩ := id h
  have htokens : tokens = [] := by
    cases tokens with
    | nil => rfl
    | cons token rest => exact absurd htoken (hdelivers.2.2 _ (hdelivers.1 ▸ .head rest))
  subst htokens
  obtain ⟨text, htext⟩ := Token.exists_text htoken
  rw [hstate, hdata, htext] at hhandle
  change ∃ entry', finish b phase context = .ok entry'
  cases phase with
  | start =>
      have haction : InitialState.handle (.endOfInput, text) (Phase.start.data context) =
          .transitionTo .finalState true := congrArg Prod.fst (Except.ok.inj hhandle)
      rw [InitialState.handle] at haction
      split at haction
      · next hactive => exact ⟨_, if_pos hactive⟩
      · cases haction
  | naming typed =>
      replace hhandle := (handleOther_naming hwf.2.1 context (by simp)).symm.trans hhandle
      cases hlong : longest Command.path context.commands typed with
      | some command => exact ⟨{ context with activeCommand := some command }, by
          simp [finish, select, hlong]⟩
      | none =>
          rw [hlong] at hhandle
          cases hdefault : lastDefault context.commands with
          | none =>
              rw [hdefault] at hhandle
              cases hhandle
          | some command =>
              rw [hdefault] at hhandle
              obtain ⟨-, -, hhandle⟩ := bind_eq_ok.mp hhandle
              cases hhandle
  | ready => exact ⟨_, rfl⟩
  | short value => cases hhandle
  | long value afterEqual => cases hhandle

variable {context : CommandLineContext V} {commands : List (Command V)} {args : List String}

/-- A run gets to `FinalState` exactly if its pass gets to the end. -/
theorem getsToFinal_iff :
    GetsToFinal b context commands args ↔ ∃ entry, pass b context commands args = .ok entry := by
  constructor
  · rintro ⟨cfg, entry, hreach, hfinal⟩
    obtain ⟨phase, context', tokens, hmatches, hscan⟩ | ⟨hstate, -⟩ := tracks_of_reachable hreach
    · exact hscan ▸ scan_of_entersFinal hmatches hfinal
    · obtain ⟨d, hdepart, -⟩ := hfinal
      rw [hstate] at hdepart
      cases hdepart
  · rintro ⟨entry, hpass⟩
    have hparses : Parses b context commands args (verdict (FinalState.settle b entry)) :=
      parses_iff.mpr (by rw [hpass, conclude])
    obtain ⟨cfg, hreach, hlast⟩ := Loop.returns_iff_reaches.mp hparses
    refine ⟨cfg, entry, hreach, ?_⟩
    obtain ⟨phase, context', tokens, hmatches, hscan⟩ | ⟨-, hswallowed, -⟩ :=
      tracks_of_reachable hreach
    · obtain ⟨cfg', _, _, _, hturn, -⟩ | ⟨cfg', _, hturn, -⟩ | ⟨-, -, -, -, henters⟩ :=
        turn_of_matches (b := b) hmatches
      · simp [hlast] at hturn
      · simp [hlast] at hturn
      · exact henters entry (hscan.trans hpass)
    · rw [hpass] at hswallowed
      cases hswallowed

end

/-! ## Lines -/

section

variable {phase : Phase} {context : ParserContext V} {token : Token} {tokens : List Token}

/-- A sequence does not swallow if its parts do not. -/
theorem bind_ne_swallowed {α β : Type} {x : Except (Stop V) α} {f : α → Except (Stop V) β}
    (hx : x ≠ .error .swallowed) (hf : ∀ a, f a ≠ .error .swallowed) :
    (x >>= f) ≠ .error .swallowed := by
  cases x with
  | error stop => exact fun h => hx (congrArg Except.error (Except.error.inj h))
  | ok a => exact hf a

theorem lift_ne_swallowed {α : Type} {x : Except Fault α} :
    (lift x : Except (Stop V) α) ≠ .error .swallowed := by
  cases x <;> simp

theorem select_ne_swallowed {typed segments : List String} :
    select typed segments context ≠ .error .swallowed := by
  rw [select]
  split <;> simp

/-- Only `--` is swallowed by `dispatch`. -/
theorem dispatch_ne_swallowed (hdash : token.1 ≠ .dashDash) (hend : token.1 ≠ .endOfInput) :
    dispatch b context token ≠ .error .swallowed := by
  obtain ⟨tokenType, text⟩ := token
  cases tokenType with
  | value => simp [dispatch]
  | longOption | shortOption | loneDash =>
      exact bind_ne_swallowed accept_ne_swallowed fun _ => by simp
  | equalSign => exact bind_ne_swallowed lift_ne_swallowed fun _ => by simp
  | dashDash => exact absurd rfl hdash
  | endOfInput => exact absurd rfl hend

theorem offer_ne_swallowed {option : ClapOption V} {semantics : ValueSemantics V} {taken : Phase}
    {fallback : Bool} {text : String} :
    offer b option semantics taken fallback context text ≠ .error .swallowed := by
  unfold offer
  split
  · simp
  · exact dispatch_ne_swallowed (by simp) (by simp)
  · exact bind_ne_swallowed lift_ne_swallowed fun _ => by simp

/-- A short name and what is behind it swallow nothing but `--`. -/
theorem continueShort_ne_swallowed {value : Option String} (hdash : token.1 ≠ .dashDash)
    (hend : token.1 ≠ .endOfInput) : continueShort b value context token ≠ .error .swallowed := by
  have hdispatch : ∀ context' : ParserContext V,
      dispatch b context' token ≠ .error .swallowed :=
    fun _ => dispatch_ne_swallowed hdash hend
  by_cases hvalue : token.1 = .value
  · obtain ⟨text, rfl⟩ := Token.exists_text hvalue
    refine bind_ne_swallowed lift_ne_swallowed fun p => ?_
    obtain ⟨option, semantics?⟩ := p
    dsimp only
    split
    · exact hdispatch context
    · exact bind_ne_swallowed lift_ne_swallowed fun _ => offer_ne_swallowed
  · change advance b (.short value) context token ≠ .error .swallowed
    rw [advance_short_other hvalue]
    exact bind_ne_swallowed accept_ne_swallowed hdispatch

/-- A long name and what is behind it swallow nothing but `--`. -/
theorem continueLong_ne_swallowed {value : Option String} {afterEqual : Bool}
    (hdash : token.1 ≠ .dashDash) (hend : token.1 ≠ .endOfInput) :
    continueLong b value afterEqual context token ≠ .error .swallowed := by
  have hdispatch : ∀ context' : ParserContext V,
      dispatch b context' token ≠ .error .swallowed :=
    fun _ => dispatch_ne_swallowed hdash hend
  by_cases hvalue : token.1 = .value
  · obtain ⟨text, rfl⟩ := Token.exists_text hvalue
    refine bind_ne_swallowed lift_ne_swallowed fun p => ?_
    obtain ⟨option, semantics?⟩ := p
    dsimp only
    split
    · exact hdispatch context
    · split
      · exact bind_ne_swallowed lift_ne_swallowed fun _ => by simp
      · exact bind_ne_swallowed lift_ne_swallowed fun _ => offer_ne_swallowed
  · by_cases hequal : token.1 = .equalSign
    · obtain ⟨text, rfl⟩ := Token.exists_text hequal
      exact bind_ne_swallowed lift_ne_swallowed fun _ => by simp
    · change advance b (.long value afterEqual) context token ≠ .error .swallowed
      rw [advance_long_other hvalue hequal]
      exact bind_ne_swallowed accept_ne_swallowed hdispatch

/-- Only a `--` is swallowed. -/
theorem token_of_swallowed (hend : token.1 ≠ .endOfInput)
    (h : advance b phase context token = .error .swallowed) : token.1 = .dashDash := by
  by_contra hdash
  have hdispatch : ∀ context' : ParserContext V,
      dispatch b context' token ≠ .error .swallowed :=
    fun _ => dispatch_ne_swallowed hdash hend
  refine absurd h ?_
  obtain ⟨tokenType, text⟩ := token
  cases phase with
  | start => cases tokenType <;> (simp only [advance, begin]; split <;> try split) <;>
      first | exact hdispatch _ | simp
  | naming typed =>
      by_cases hvalue : tokenType = .value
      · subst hvalue
        rw [advance, continueNaming]
        split
        · simp
        · exact bind_ne_swallowed select_ne_swallowed hdispatch
      · rw [advance_naming_other hvalue]
        exact bind_ne_swallowed select_ne_swallowed hdispatch
  | ready => exact hdispatch context
  | short value => exact continueShort_ne_swallowed hdash hend
  | long value afterEqual => exact continueLong_ne_swallowed hdash hend

/-- A pass that is swallowed gets as far as a `--`. -/
theorem exists_of_scan_swallowed (htokens : ∀ t ∈ tokens, t.1 ≠ .endOfInput)
    (h : scan .release phase context tokens = .error .swallowed) :
    ∃ front token rest, tokens = front ++ token :: rest ∧ token.1 = .dashDash ∧
      ∃ entry, scan .release phase context front = .ok entry := by
  induction tokens generalizing phase context with
  | nil => exact absurd h (finish_ne_swallowed phase context)
  | cons token tokens ih =>
      by_cases hdash : token.1 = .dashDash
      · refine ⟨[], token, tokens, rfl, hdash, ?_⟩
        rw [scan_dashDash hdash] at h
        change ∃ entry, finish .release phase context = .ok entry
        cases hfinish : finish .release phase context with
        | ok entry => exact ⟨entry, rfl⟩
        | error stop =>
            rw [hfinish] at h
            cases h
            exact absurd hfinish (finish_ne_swallowed phase context)
      · rw [scan_cons] at h
        cases hadvance : advance .release phase context token with
        | error stop =>
            rw [hadvance] at h
            cases h
            exact absurd (token_of_swallowed (htokens token (.head _)) hadvance) hdash
        | ok p =>
            rw [hadvance] at h
            obtain ⟨front, dashDash, rest, rfl, hdashDash, entry, hscan⟩ :=
              ih (fun t ht => htokens t (.tail _ ht)) h
            refine ⟨token :: front, dashDash, rest, rfl, hdashDash, entry, ?_⟩
            rw [scan_cons, hadvance]
            exact hscan

end

/-- The argument `--` is one token. -/
theorem delivered_doubleDash {before : List String} (hbefore : "" ∉ before)
    (behind : List String) :
    delivered (before ++ "--" :: behind) =
      delivered before ++ (.dashDash, "--") :: delivered behind := by
  rw [delivered_append hbefore, delivered_cons (by decide)]
  rfl

/-- The first token of a `--` comes from the first `--` of the line. -/
theorem exists_of_delivered {args : List String} {front rest : List Token} {token : Token}
    (hdelivered : delivered args = front ++ token :: rest) (htoken : token.1 = .dashDash)
    (hfront : ∀ t ∈ front, t.1 ≠ .dashDash) :
    ∃ before behind, args = before ++ "--" :: behind ∧ "" ∉ before ∧
      delivered before = front := by
  induction args generalizing front with
  | nil => simp at hdelivered
  | cons arg args ih =>
      by_cases hempty : arg = ""
      · simp [hempty] at hdelivered
      by_cases hdash : arg = "--"
      · refine ⟨[], args, by rw [hdash]; rfl, List.not_mem_nil, ?_⟩
        subst hdash
        cases front with
        | nil => rfl
        | cons t front =>
            rw [delivered_cons hempty] at hdelivered
            have ht : (.dashDash, "--") = t := (List.cons.inj hdelivered).1
            exact absurd (congrArg Prod.fst ht.symm) (hfront t (.head _))
      · rw [delivered_cons hempty] at hdelivered
        have hnone : ∀ t ∈ tokenize arg, t.1 ≠ .dashDash :=
          fun t ht htoken => hdash (eq_doubleDash_of_mem ht htoken)
        obtain ⟨front', rfl, hdelivered'⟩ : ∃ front', front = tokenize arg ++ front' ∧
            delivered args = front' ++ token :: rest := by
          obtain hbehind | ⟨rest', hrest, hdelivered'⟩ := List.append_eq_append_iff.mp hdelivered
          · exact hbehind
          · cases rest' with
            | nil => exact ⟨[], by simpa using hrest.symm, hdelivered'.symm⟩
            | cons t rest' =>
                obtain rfl := (List.cons.inj hdelivered').1
                exact absurd htoken (hnone token (by simp [hrest]))
        obtain ⟨before, behind, rfl, hbefore, rfl⟩ :=
          ih hdelivered' fun t ht => hfront t (List.mem_append_right _ ht)
        refine ⟨arg :: before, behind, rfl, ?_, delivered_cons hempty before⟩
        simpa [@eq_comm _ "" arg, hempty] using hbefore

section

variable {context : CommandLineContext V} {commands : List (Command V)} {args : List String}

/-- In a release build, exactly a pass that is swallowed goes on for ever. -/
theorem diverges_iff_swallowed :
    Loop.Diverges (turn .release) (start context commands args) ↔
      pass .release context commands args = .error .swallowed := by
  have houtcome : Loop.Outcome (turn .release) (start context commands args)
      (conclude .release (pass .release context commands args)) := parse_outcome
  constructor
  · intro h
    have hnone := Loop.outcome_unique houtcome
      (show Loop.Outcome (turn .release) (start context commands args) none from h)
    rcases hpass : pass .release context commands args with
      (⟨message, context'⟩ | fault | _) | entry
    · simp [hpass, conclude] at hnone
    · simp [hpass, conclude] at hnone
    · rfl
    · simp [hpass, conclude] at hnone
  · intro hpass
    rwa [hpass] at houtcome

/-- The line in front of `--` is read, and the rest is swallowed. -/
theorem pass_doubleDash {before : List String} (hbefore : "" ∉ before) (behind : List String) :
    pass .release context commands (before ++ "--" :: behind) =
      pass .release context commands before >>= fun _ => .error .swallowed := by
  rw [pass, delivered_doubleDash hbefore]
  exact scan_append_dashDash rfl

/-- A line with a `--` goes on for ever where what is in front of one gets to `FinalState`. -/
theorem diverges_iff_doubleDash :
    Loop.Diverges (turn .release) (start context commands args) ↔
      ∃ before behind, args = before ++ "--" :: behind ∧ "" ∉ before ∧
        GetsToFinal .release context commands before := by
  simp only [diverges_iff_swallowed, getsToFinal_iff]
  constructor
  · intro h
    obtain ⟨front, token, rest, hdelivered, htoken, entry, hscan⟩ :=
      exists_of_scan_swallowed (delivered_ne_endOfInput args) h
    have hfront : ∀ t ∈ front, t.1 ≠ .dashDash := by
      intro t ht hdash
      obtain ⟨front', rest', rfl⟩ := List.append_of_mem ht
      exact scan_append_dashDash_ne_ok hdash hscan
    obtain ⟨before, behind, hargs, hbefore, rfl⟩ := exists_of_delivered hdelivered htoken hfront
    exact ⟨before, behind, hargs, hbefore, entry, hscan⟩
  · rintro ⟨before, behind, rfl, hbefore, entry, hpass⟩
    rw [pass_doubleDash hbefore, hpass]
    rfl

end

/-- What becomes of the lines with a `--`. -/
structure LosesBehindDoubleDash (context : CommandLineContext V) (commands : List (Command V)) :
    Prop where
  /-- no build ever parses one with success -/
  fails : ∀ b before behind result, "" ∉ before →
    ¬ Parses b context commands (before ++ "--" :: behind) (.returned true result)
  /-- these are all the lines a release build never comes to an end of -/
  diverges : ∀ args, Loop.Diverges (turn .release) (start context commands args) ↔
    ∃ before behind, args = before ++ "--" :: behind ∧ "" ∉ before ∧
      GetsToFinal .release context commands before
  /-- the others end as if the line ended there -/
  ends : ∀ before behind, "" ∉ before → ¬ GetsToFinal .release context commands before →
    ∀ result, Parses .release context commands (before ++ "--" :: behind) result ↔
      Parses .release context commands before result

/-- **What a `--` does**: the rest of the line is lost, and with it all that could have ended
well. -/
theorem doubleDash_cuts_line (context : CommandLineContext V) (commands : List (Command V)) :
    LosesBehindDoubleDash context commands where
  fails := by
    intro b before behind result hbefore h
    obtain ⟨entry, hentry, -⟩ := parses_true_iff.mp h
    rw [pass, delivered_doubleDash hbefore] at hentry
    exact scan_append_dashDash_ne_ok rfl hentry
  diverges := fun args => diverges_iff_doubleDash
  ends := by
    intro before behind hbefore hfinal result
    rw [getsToFinal_iff] at hfinal
    rw [parses_iff, parses_iff, pass_doubleDash hbefore]
    cases hpass : pass .release context commands before with
    | ok entry => exact absurd ⟨entry, hpass⟩ hfinal
    | error stop => rfl

end Parser

end AsapClap
