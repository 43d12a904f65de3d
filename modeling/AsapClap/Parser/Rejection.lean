import AsapClap.Parser.Lacking
import AsapClap.Parser.Misnaming

/-!
# AsapClap.Parser.Rejection

Which command lines are rejected, and with which message, said of the command line alone: the
counterpart of `AsapClap.Parser.Acceptance`.

A line is rejected for want of a command, for the first name that is not in its place, or for what
it leaves to `FinalState`.
-/

namespace AsapClap

namespace Parser

open Errors LongestPrefix Tokenizer

variable {V : Type} {b : Build} {c : Command V}

/-! ## What a command line is rejected for -/

/-- The message for a line that chooses no command; it shows the values up to the first one that
no path goes on with. -/
def unchosen (context : ParserContext V) (tokens : List Token) : String :=
  if leadingValues tokens = [] then missingCommand context
  else unrecognizedCommand
    ((leadingValues tokens).take ((probed context.commands tokens).length + 1))

/-- Every token is in its place. -/
def AllInPlace (c : Command V) (context : ParserContext V) (tokens : List Token) : Prop :=
  ∀ before token behind, tokens = before ++ token :: behind →
    InPlace c context.allowLongOptionValueWithNoEqual (fun k => context.ovm.hasOption k = true)
      before token behind

/-- What a command line is rejected for, and the message. -/
inductive Rejected (b : Build) (context : ParserContext V) (tokens : List Token) : String → Prop
  /-- it chooses no command -/
  | command (chosen : chosen context tokens = none) :
      Rejected b context tokens (unchosen context tokens)
  /-- a name is wrong, the first one that is -/
  | name {c : Command V} {front behind : List Token} {name : Token} {message : String}
      (chosen : chosen context tokens = some c) (split : tokens = front ++ name :: behind)
      (isName : IsName name) (inPlace : AllInPlace c context front)
      (misnamed : Misnamed b c (gathered c context front) name behind message) :
      Rejected b context tokens message
  /-- values are left that no positional argument takes -/
  | leftOver {c : Command V} (chosen : chosen context tokens = some c)
      (inTime : InTime b context.commands tokens) (inPlace : AllInPlace c context tokens)
      (served : Served b c.positionalArgs) (noRest : lastRest c.positionalArgs = none)
      (more : c.positionalArgs.length < (gathered c context tokens).positionalTokens.length) :
      Rejected b context tokens (unexpectedPositionalArguments { gathered c context tokens with
        positionalTokens :=
          (gathered c context tokens).positionalTokens.drop c.positionalArgs.length })
  /-- something required is lacking -/
  | lacking {c : Command V} {ps : List (ClapOption V × String)} {o : ClapOption V}
      (chosen : chosen context tokens = some c)
      (inTime : InTime b context.commands tokens) (inPlace : AllInPlace c context tokens)
      (faultless : ¬ FinalFaults b c (gathered c context tokens))
      (assigned : assigned c.positionalArgs (gathered c context tokens).positionalTokens = some ps)
      (lacks : FirstLacks (c.options ++ c.positionalArgs)
        ((gathered c context tokens).ovm.storeAll (ps.filterMap positionalEntry)) o) :
      Rejected b context tokens (missingRequiredOption (some c) o)

/-- The parse fails, and this is the message it writes. -/
def Rejects (b : Build) (context : CommandLineContext V) (commands : List (Command V))
    (args : List String) (message : String) : Prop :=
  ∃ result, Parses b context commands args (.returned false result) ∧
    result.err = context.err ++ context.programName ++ ": " ++ message ++ "\n"

/-- Which command lines are rejected, and with which message. -/
structure RejectsExactly (b : Build) (context : CommandLineContext V)
    (commands : List (Command V)) (args : List String) : Prop where
  /-- a parse fails for the lines that there is something to reject for -/
  fails : (∃ result, Parses b context commands args (.returned false result)) ↔
    ∃ message, Rejected b (initial context commands) (delivered args) message
  /-- what it writes is the message -/
  writes : ∀ message, Rejects b context commands args message ↔
    Rejected b (initial context commands) (delivered args) message
  /-- and there is only one -/
  only : ∀ message message', Rejected b (initial context commands) (delivered args) message →
    Rejected b (initial context commands) (delivered args) message' → message = message'

/-! ## Without a command -/

section

variable {context : ParserContext V} {tokens : List Token}

/-- The search for a command shows what it has got to, and the value behind that. -/
theorem scan_naming_unchosen (typed : List String)
    (hlong : longest Command.path context.commands
      (probeFrom Command.path context.commands typed (leadingValues tokens)) = none)
    (hdefault : lastDefault context.commands = none) :
    scan b (.naming typed) context tokens = .error (.rejected (unrecognizedCommand
      ((typed ++ leadingValues tokens).take ((probeFrom Command.path context.commands typed
        (leadingValues tokens)).length + 1))) context) := by
  induction tokens generalizing typed with
  | nil =>
      rw [scan, finish, select_of_none (by simpa [probeFrom] using hlong) hdefault]
      simp [probeFrom, List.take_of_length_le]
  | cons token tokens ih =>
      by_cases hvalue : token.1 = .value
      · obtain ⟨text, rfl⟩ := Token.exists_text hvalue
        by_cases hnil : candidates Command.path context.commands (typed ++ [text]) = []
        · simp only [leadingValues_value, probeFrom, if_pos hnil] at hlong ⊢
          have hadvance : advance b (.naming typed) context (.value, text) =
              .error (.rejected (unrecognizedCommand (typed ++ [text])) context) := by
            simp [advance, continueNaming, hnil, select_of_none hlong hdefault]
          rw [scan_cons, hadvance, List.take_length_add_append]
          simp
        · have hstep : scan b (.naming typed) context ((.value, text) :: tokens) =
              scan b (.naming (typed ++ [text])) context tokens := by
            simp [scan, advance, continueNaming, hnil]
          simp only [leadingValues_value, probeFrom, if_neg hnil] at hlong ⊢
          rw [hstep, ih (typed ++ [text]) hlong]
          simp
      · simp only [leadingValues_other hvalue, probeFrom] at hlong ⊢
        rw [scan_cons, advance_naming_other hvalue, select_of_none hlong hdefault]
        simp [List.take_of_length_le]

/-- A line that chooses no command is rejected for it. -/
theorem scan_of_unchosen (h : chosen context tokens = none) :
    scan b .start context tokens = .error (.rejected (unchosen context tokens) context) := by
  rw [chosen] at h
  cases tokens with
  | nil =>
      have hactive : context.activeCommand = none := h
      simp [scan, finish, hactive, unchosen]
  | cons token tokens =>
      by_cases hvalue : token.1 = .value
      · obtain ⟨text, rfl⟩ := Token.exists_text hvalue
        rw [unchosen, if_neg (by simp), probed, probe]
        rw [← longest_probed, probed, probe] at h
        by_cases hnil : candidates Command.path context.commands [text] = []
        · simp only [leadingValues_value, probeFrom, List.nil_append, if_pos hnil, if_true] at h ⊢
          have hmaybe : InitialState.maybeCommand context text = false := by
            rw [← Bool.not_eq_true, maybeCommand_iff, not_not]
            exact hnil
          simp [scan, advance, begin, hmaybe, h]
        · simp only [leadingValues_value, probeFrom, List.nil_append, if_neg hnil] at h ⊢
          have hpre : [text] <+: probeFrom Command.path context.commands [text]
              (leadingValues tokens) := prefix_probeFrom _ _
          have hne : probeFrom Command.path context.commands [text] (leadingValues tokens) ≠ [] :=
            fun hnil => by simp [hnil] at hpre
          rw [if_neg hne, Option.or_eq_none_iff] at h
          have hstep : scan b .start context ((.value, text) :: tokens) =
              scan b (.naming [text]) context tokens := by
            simp [scan, advance, begin, maybeCommand_iff.mpr hnil]
          rw [hstep, scan_naming_unchosen [text] h.1 h.2]
          rfl
      · rw [unchosen, if_pos (leadingValues_other hvalue tokens)]
        have hactive : context.activeCommand = none := by
          simpa [probed, probe, probeFrom, leadingValues_other hvalue] using h
        obtain ⟨tokenType, text⟩ := token
        cases tokenType with
        | value => exact absurd rfl hvalue
        | _ => simp [scan, advance, begin, hactive]

end

/-! ## The line up to FinalState -/

section

variable {context context' context₁ context₂ entry : ParserContext V} {name token : Token}
  {front front' behind rest rest₁ rest₂ tokens : List Token} {message text : String}

/-- The command is chosen ahead of the first token that is no value. -/
theorem chosen_append (hvalue : token.1 ≠ .value) :
    chosen context (front ++ token :: behind) = chosen context front := by
  rw [chosen, probed_append hvalue, leadingValues_append hvalue, chosen]

theorem Selected.append (h : Selected context front context' rest) (hvalue : token.1 ≠ .value)
    (behind : List Token) :
    Selected context (front ++ token :: behind) context' (rest ++ token :: behind) := by
  have hprobed := probed_append hvalue context.commands front behind
  have hlead := leadingValues_append hvalue front behind
  have hrest : rest ++ token :: behind = (front ++ token :: behind).drop
      (probed context.commands (front ++ token :: behind)).length := by
    rw [h.rest_eq, hprobed, List.drop_append_of_le_length (length_probed_le _ _)]
  rw [hrest]
  cases h with
  | matched hlong => exact .matched (hlead ▸ hlong)
  | fallback hne hlong hdefault =>
      rw [← hprobed]
      exact .fallback (hprobed ▸ hne) (hlead ▸ hlong) hdefault
  | direct hnil hactive =>
      rw [hprobed, hnil]
      exact .direct (hprobed.trans hnil) hactive

theorem Selected.unique (h₁ : Selected context tokens context₁ rest₁)
    (h₂ : Selected context tokens context₂ rest₂) : context₁ = context₂ ∧ rest₁ = rest₂ := by
  refine ⟨?_, h₁.rest_eq.trans h₂.rest_eq.symm⟩
  cases h₁ with
  | matched hlong =>
      cases h₂ with
      | matched hlong' => rw [Option.some.inj (hlong.symm.trans hlong')]
      | fallback _ hlong' => simp [hlong] at hlong'
      | direct hnil => exact absurd hnil (probed_ne_nil_of_longest hlong)
  | fallback hne hlong hdefault =>
      cases h₂ with
      | matched hlong' => simp [hlong] at hlong'
      | fallback _ _ hdefault' => rw [Option.some.inj (hdefault.symm.trans hdefault')]
      | direct hnil => exact absurd hnil hne
  | direct hnil =>
      cases h₂ with
      | matched hlong' => exact absurd hnil (probed_ne_nil_of_longest hlong')
      | fallback hne => exact absurd hnil hne
      | direct => rfl

/-- Once a command is selected, only the end of the line can still go wrong before the rest of it
is read. -/
theorem scan_start_of_selected (h : Selected context tokens context' rest) :
    scan b .start context tokens = scan b .ready context' rest ∨
      rest = [] ∧ ∃ fault, scan b .start context tokens = .error (.faulted fault) := by
  obtain ⟨hprobed, segments, hstart⟩ | ⟨hprobed, hstart⟩ := scan_start (b := b) context tokens
  · rw [hstart, ← h.rest_eq]
    cases rest with
    | nil =>
        simp only [finish, select_of_selected h hprobed, ok_bind, longest_probed]
        cases longest Command.path context.commands (leadingValues tokens) with
        | some command => exact .inl rfl
        | none =>
            cases b with
            | debug => exact .inr ⟨trivial, _, rfl⟩
            | release => exact .inl rfl
    | cons token rest =>
        left
        simp only [select_of_selected h hprobed, ok_bind]
  · cases h with
    | matched hlong => exact absurd hprobed (probed_ne_nil_of_longest hlong)
    | fallback hne => exact absurd hprobed hne
    | direct _ hactive =>
        obtain ⟨-, hscan⟩ | ⟨hnone, -⟩ := hstart
        · exact .inl hscan
        · simp [hnone] at hactive

theorem misnamed_congr (hcommand : context.activeCommand = context'.activeCommand)
    (hovm : context.ovm = context'.ovm)
    (hallow : context.allowLongOptionValueWithNoEqual = context'.allowLongOptionValueWithNoEqual)
    (h : Misnamed b c context name behind message) : Misnamed b c context' name behind message := by
  cases h with
  | unknown resolve =>
      have hmessage : unrecognizedOption context name.2 = unrecognizedOption context' name.2 := by
        rw [unrecognizedOption, unrecognizedOption, hcommand]
      rw [hmessage]
      exact .unknown resolve
  | @again o message resolve semantics once stored reported =>
      refine .again resolve semantics once (hovm ▸ stored) ?_
      rw [← reported]
      simp only [illegalMultipleOccurrence, atName, hcommand, hovm]
      rfl
  | @unmarked o message resolve single semantics unmarked reported =>
      refine .unmarked resolve (hovm ▸ single) semantics (hallow ▸ unmarked) ?_
      rw [← reported]
      simp [needsEqualSign, optionSyntaxError, atName, hcommand]
  | @missing o message resolve single semantics marked takes reported =>
      refine .missing resolve (hovm ▸ single) semantics (hallow ▸ marked) (hallow ▸ takes) ?_
      rw [← reported]
      simp [missingValueForOption, atName, hcommand]

theorem allInPlace_iff : AllInPlace c context tokens ↔
    InOrderFrom c context.allowLongOptionValueWithNoEqual
      (fun k => context.ovm.hasOption k = true) tokens :=
  inOrderFrom_iff.symm

/-- What the tokens ahead of a name make of the context. -/
theorem gathered_of_scan (hselected : Selected context front context' rest)
    (hactive : context'.activeCommand = some c)
    (hchain : ((.value, text) :: front).IsChain Attached)
    (h : scan b .ready context' rest = .ok entry) :
    entry.activeCommand = some c ∧ Untouched context entry ∧
      entry.positionalTokens = (gathered c context front).positionalTokens ∧
      entry.ovm = (gathered c context front).ovm := by
  have hready : Phase.ready.BehindCommand context' := trivial
  obtain ⟨hcommand, huntouched⟩ := kept_of_scan hready hactive h
  have hsingle : SingleEqualSigns front := by
    refine hchain.tail.imp fun s t hattached hs ht => ?_
    rw [hattached ht] at hs
    cases hs
  obtain ⟨c', hentry⟩ := summary_of_selected hselected hsingle h
  obtain rfl : c = c' := Option.some.inj (hcommand.symm.trans hentry.activeCommand)
  refine ⟨hcommand, ?_, hentry.gathered_eq⟩
  cases hselected with
  | matched => exact ((Untouched.refl context).with _ _ _ _ _).trans huntouched
  | fallback => exact ((Untouched.refl context).with _ _ _ _ _).trans huntouched
  | direct => exact huntouched

/-- The tokens ahead of a name are selected from in the same way as the line. -/
theorem selected_ahead (hselected : Selected context tokens context' (rest ++ token :: behind))
    (hvalue : token.1 ≠ .value) :
    ∃ front, tokens = front ++ token :: behind ∧ Selected context front context' rest := by
  obtain ⟨c, hactive⟩ := hselected.exists_activeCommand
  have htokens := probed_append_drop context.commands tokens
  rw [← hselected.rest_eq, ← List.append_assoc] at htokens
  refine ⟨_, htokens.symm, ?_⟩
  rw [← htokens] at hselected
  have hchosen := chosen_eq_some_iff.mpr ⟨_, _, hselected, hactive⟩
  rw [chosen_append hvalue] at hchosen
  obtain ⟨context₂, rest₂, hahead, -⟩ := chosen_eq_some_iff.mp hchosen
  obtain ⟨rfl, hrest⟩ := hselected.unique (hahead.append hvalue behind)
  obtain rfl := List.append_cancel_right hrest
  exact hahead

/-- A pass that is rejected is rejected for want of a command or for a name. -/
theorem rejected_of_scan (hchain : ((.value, text) :: tokens).IsChain Attached)
    (h : scan b .start context tokens = .error (.rejected message context')) :
    Rejected b context tokens message ∧ Untouched context context' := by
  cases hchosen : chosen context tokens with
  | none =>
      rw [scan_of_unchosen hchosen] at h
      cases h
      exact ⟨.command hchosen, .refl _⟩
  | some c =>
      obtain ⟨context₁, rest, hselected, hactive⟩ := chosen_eq_some_iff.mp hchosen
      obtain hstart | ⟨-, fault, hfault⟩ := scan_start_of_selected (b := b) hselected
      · have htokens := probed_append_drop context.commands tokens
        rw [← hselected.rest_eq] at htokens
        rw [← htokens] at hchain
        obtain ⟨text', hrest⟩ := isChain_behind_values _ hchain
        obtain ⟨front', name, behind, entry, rfl, hname, hscan, hmisnamed, huntouched⟩ :=
          exists_misnamed_of_scan hactive hrest.tail
            (not_equalSign_of_attached hrest (by simp)) (hstart.symm.trans h)
        obtain ⟨front, rfl, hahead⟩ := selected_ahead hselected (not_value_of_isName hname)
        rw [htokens, ← List.cons_append] at hchain
        have hchain' := hchain.left_of_append
        obtain ⟨hcommand, hkept, -, hovm⟩ := gathered_of_scan hahead hactive hchain' hscan
        exact ⟨.name hchosen rfl hname
          (allInPlace_iff.mpr ((hahead.exists_scan_iff hactive hchain').mp ⟨entry, hscan⟩))
          (misnamed_congr hcommand hovm hkept.allowLong hmisnamed), hkept.trans huntouched⟩
      · rw [hfault] at h
        cases h

/-- A line with a name that is wrong, and ahead of it only tokens in their places, is rejected for
the name. -/
theorem exists_rejected_of_name (hchain : ((.value, text) :: (front ++ name :: behind)).IsChain
    Attached) (hchosen : chosen context (front ++ name :: behind) = some c) (hname : IsName name)
    (hinPlace : AllInPlace c context front)
    (hmisnamed : Misnamed b c (gathered c context front) name behind message) :
    ∃ context', scan b .start context (front ++ name :: behind) =
      .error (.rejected message context') := by
  have hvalue := not_value_of_isName hname
  rw [chosen_append hvalue] at hchosen
  rw [← List.cons_append] at hchain
  obtain ⟨context₁, rest, hselected, hactive⟩ := chosen_eq_some_iff.mp hchosen
  obtain ⟨entry, hscan⟩ := (hselected.exists_scan_iff (b := b) hactive hchain.left_of_append).mpr
    (allInPlace_iff.mp hinPlace)
  obtain ⟨hcommand, hkept, -, hovm⟩ :=
    gathered_of_scan hselected hactive hchain.left_of_append hscan
  have hstart := (scan_start_of_selected (b := b) (hselected.append hvalue behind)).resolve_right
    (by simp)
  rw [hstart]
  exact exists_rejected_of_scan hactive hchain.right_of_append hname hscan
    (misnamed_congr hcommand.symm hovm.symm hkept.allowLong.symm hmisnamed)

end

/-! ## The whole line -/

section

variable {context : CommandLineContext V} {commands : List (Command V)} {args : List String}
  {last entry result : ParserContext V} {message message' : String}

/-- What a parse that fails writes. -/
theorem err_reportError (h : Untouched (initial context commands) last) :
    (reportError last message).err =
      context.err ++ context.programName ++ ": " ++ message ++ "\n" := by
  obtain ⟨activeCommand, hinitial⟩ := initial_eq context commands
  rw [reportError, h.err, h.programName, hinitial]
  rfl

theorem message_of_err (h : result.err =
      context.err ++ context.programName ++ ": " ++ message ++ "\n")
    (h' : result.err = context.err ++ context.programName ++ ": " ++ message' ++ "\n") :
    message = message' := by
  have hlists := congrArg String.toList (h.symm.trans h')
  exact String.toList_inj.mp (by simpa using hlists)

theorem untouched_of_pass (h : pass b context commands args = .ok entry) :
    Untouched (initial context commands) entry := by
  obtain ⟨context', rest, hselected, hscan⟩ := selected_of_scan h
  obtain ⟨c, hactive⟩ := hselected.exists_activeCommand
  exact (gathered_of_scan hselected hactive (isChain_delivered args (.value, "")) hscan).2.1

/-- For `FinalState` it is the tokens and the values that count. -/
theorem settle_rejected_congr {before before' : ParserContext V}
    (hcommand : before.activeCommand = some c) (hcommand' : before'.activeCommand = some c)
    (htokens : before.positionalTokens = before'.positionalTokens)
    (hovm : before.ovm = before'.ovm)
    (h : ∃ last, FinalState.settle b before = .ok (.terminateWithError message, last)) :
    ∃ last, FinalState.settle b before' = .ok (.terminateWithError message, last) := by
  rw [FinalState.settle_rejected_iff hcommand'] at *
  rw [FinalState.settle_rejected_iff hcommand, htokens, hovm] at h
  refine h.imp (fun h => ?_) fun h => ?_
  · obtain ⟨hserved, hrest, hmore, rfl⟩ := h
    refine ⟨hserved, hrest, hmore, ?_⟩
    rw [unexpectedPositionalArguments, unexpectedPositionalArguments, hcommand, hcommand']
  · exact ⟨mt (finalFaults_congr htokens.symm hovm.symm) h.1, h.2⟩

/-- What `FinalState` rejects it rejects for what the line has left. -/
theorem rejected_of_settle (hpass : pass b context commands args = .ok entry)
    (hsettle : FinalState.settle b entry = .ok (.terminateWithError message, last)) :
    Rejected b (initial context commands) (delivered args) message := by
  obtain ⟨c, hentry⟩ := entry_of_pass hpass
  obtain ⟨htime, c', hchosen, hinOrder⟩ :=
    (exists_scan_iff (isChain_delivered args (.value, ""))).mp ⟨entry, hpass⟩
  obtain rfl := Option.some.inj (hchosen.symm.trans hentry.chosen)
  obtain ⟨htokens, hovm⟩ := hentry.gathered_eq
  have hinPlace := allInPlace_iff.mpr hinOrder
  have hend : ∃ last, FinalState.settle b
      (gathered c' (initial context commands) (delivered args)) =
        .ok (.terminateWithError message, last) :=
    settle_rejected_congr hentry.activeCommand rfl htokens hovm ⟨last, hsettle⟩
  obtain ⟨hserved, hrest, hmore, rfl⟩ | ⟨hfaultless, ps, o, hassigned, hlacks, rfl⟩ :=
    (FinalState.settle_rejected_iff rfl).mp hend
  · exact .leftOver hchosen htime hinPlace hserved hrest hmore
  · exact .lacking hchosen htime hinPlace hfaultless hassigned hlacks

theorem rejects_of_settle (hchosen : chosen (initial context commands) (delivered args) = some c)
    (htime : InTime b (initial context commands).commands (delivered args))
    (hinPlace : AllInPlace c (initial context commands) (delivered args))
    (hend : ∃ last, FinalState.settle b (gathered c (initial context commands) (delivered args)) =
      .ok (.terminateWithError message, last)) : Rejects b context commands args message := by
  obtain ⟨entry, hpass⟩ : ∃ entry, pass b context commands args = .ok entry :=
    (exists_scan_iff (isChain_delivered args (.value, ""))).mpr
      ⟨htime, c, hchosen, allInPlace_iff.mp hinPlace⟩
  obtain ⟨c', hentry⟩ := entry_of_pass hpass
  obtain rfl := Option.some.inj (hchosen.symm.trans hentry.chosen)
  obtain ⟨htokens, hovm⟩ := hentry.gathered_eq
  obtain ⟨last, hsettle⟩ :=
    settle_rejected_congr rfl hentry.activeCommand htokens.symm hovm.symm hend
  exact ⟨_, parses_iff.mpr (by rw [hpass, conclude, hsettle]; rfl),
    err_reportError ((untouched_of_pass hpass).settle hsettle)⟩

/-- A parse that fails has something to reject the line for, and says so. -/
theorem rejected_of_parses (h : Parses b context commands args (.returned false result)) :
    ∃ message, result.err = context.err ++ context.programName ++ ": " ++ message ++ "\n" ∧
      Rejected b (initial context commands) (delivered args) message := by
  rw [parses_iff] at h
  rcases hpass : pass b context commands args with (⟨message, last⟩ | fault | _) | entry
  · rw [hpass] at h
    cases h
    obtain ⟨hrejected, huntouched⟩ :=
      rejected_of_scan (isChain_delivered args (.value, "")) hpass
    exact ⟨message, err_reportError huntouched, hrejected⟩
  · rw [hpass] at h
    cases h
  · rw [hpass] at h
    cases b <;> cases h
  · rw [hpass, conclude] at h
    rcases hsettle : FinalState.settle b entry with fault | ⟨status, last⟩
    · rw [hsettle] at h
      cases h
    · rw [hsettle] at h
      obtain rfl | ⟨message, rfl⟩ := settle_status hsettle <;> cases h
      exact ⟨message, err_reportError ((untouched_of_pass hpass).settle hsettle),
        rejected_of_settle hpass hsettle⟩

theorem rejects_of_rejected (h : Rejected b (initial context commands) (delivered args) message) :
    Rejects b context commands args message := by
  have hstop : ∀ last, pass b context commands args = .error (.rejected message last) →
      Rejects b context commands args message := by
    intro last hpass
    exact ⟨_, parses_iff.mpr (by rw [hpass]; rfl), err_reportError
      (rejected_of_scan (isChain_delivered args (.value, "")) hpass).2⟩
  cases h with
  | command hchosen => exact hstop _ (scan_of_unchosen hchosen)
  | name hchosen hsplit hname hinPlace hmisnamed =>
      have hchain := isChain_delivered args (.value, "")
      rw [hsplit] at hchain hchosen
      obtain ⟨last, hscan⟩ := exists_rejected_of_name hchain hchosen hname hinPlace hmisnamed
      exact hstop last (by rw [pass, hsplit, hscan])
  | leftOver hchosen htime hinPlace hserved hrest hmore =>
      exact rejects_of_settle hchosen htime hinPlace
        ((FinalState.settle_rejected_iff rfl).mpr (.inl ⟨hserved, hrest, hmore, rfl⟩))
  | lacking hchosen htime hinPlace hfaultless hassigned hlacks =>
      exact rejects_of_settle hchosen htime hinPlace ((FinalState.settle_rejected_iff rfl).mpr
        (.inr ⟨hfaultless, _, _, hassigned, hlacks, rfl⟩))

theorem rejects_iff : Rejects b context commands args message ↔
    Rejected b (initial context commands) (delivered args) message := by
  refine ⟨fun h => ?_, rejects_of_rejected⟩
  obtain ⟨result, hparses, herr⟩ := h
  obtain ⟨message', herr', hrejected⟩ := rejected_of_parses hparses
  rwa [message_of_err herr herr']

/-- A parse fails for the lines that there is something to reject for. -/
theorem exists_parses_false_iff :
    (∃ result, Parses b context commands args (.returned false result)) ↔
      ∃ message, Rejected b (initial context commands) (delivered args) message := by
  constructor
  · intro h
    obtain ⟨result, hparses⟩ := h
    exact (rejected_of_parses hparses).imp fun _ => And.right
  · intro h
    obtain ⟨message, hrejected⟩ := h
    exact (rejects_of_rejected hrejected).imp fun _ => And.left

/-- **Rejection**: a parse fails exactly for the lines that choose no command, have a name that is
not in its place or leave something over or lacking, and the one message that is due is what it
writes. -/
theorem parse_fails_iff_rejected (b : Build) (context : CommandLineContext V) (commands : List (Command V))
    (args : List String) : RejectsExactly b context commands args where
  fails := exists_parses_false_iff
  writes := fun _ => rejects_iff
  only := by
    intro message message' h h'
    obtain ⟨result, hparses, herr⟩ := rejects_of_rejected h
    obtain ⟨result', hparses', herr'⟩ := rejects_of_rejected h'
    obtain rfl : result = result' := by
      have hresult := Loop.returns_unique hparses hparses'
      cases hresult
      rfl
    exact message_of_err herr herr'

end

end Parser

end AsapClap
