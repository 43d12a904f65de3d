import AsapClap.Numbers
import AsapClap.Parser.Once

/-!
# AsapClap.Parser.Reports

Which error an option is reported with when it does not get its value.  The option
states document three errors, but one of them is reported in the place of another.
-/

namespace AsapClap

variable {V : Type}

namespace Parser

open Errors Fsm

/-! ## Errors and their texts -/

/-- The run ends at this token, with that error. -/
def EndsAt (b : Build) (cfg : Config V) (error : ParserContext V → Except Fault String) : Prop :=
  ∃ before message, error before = .ok message ∧
    turn b cfg = .inr (.returned false (reportError before message))

section

variable {b : Build} {cfg cfg' : Config V} {before before' context : ParserContext V}
  {message message' : String}

/-- Of two errors that leave the same line behind, one ends with the end of the other. -/
theorem suffix_of_reportError (h : reportError before message = reportError before' message')
    {cs cs' ending ending' : List Char} (hmessage : message.toList = cs ++ ending)
    (hmessage' : message'.toList = cs' ++ ending') : ending <:+ ending' ∨ ending' <:+ ending := by
  have herr := congrArg (fun context => context.err.toList) h
  simp only [reportError, String.toList_append, hmessage, hmessage', ← List.append_assoc] at herr
  have hline := List.append_cancel_right herr
  exact List.suffix_or_suffix_of_suffix (List.suffix_append _ ending)
    (hline ▸ List.suffix_append _ ending')

theorem toList_appendOptionalMessage (front ending : String) :
    (appendOptionalMessage (front ++ ending) "").toList =
      front.toList ++ (ending ++ ".").toList := by
  simp [appendOptionalMessage]

theorem missingValueForOption_ne_invalidValueForOption {token : String}
    (hmissing : missingValueForOption before = .ok message)
    (hinvalid : invalidValueForOption before' token = .ok message') :
    reportError before message ≠ reportError before' message' := by
  intro h
  obtain ⟨option, -, hmissing⟩ := bind_eq_ok.mp hmissing
  obtain ⟨option', -, hinvalid⟩ := bind_eq_ok.mp hinvalid
  cases hmissing
  cases hinvalid
  have hsuffix := suffix_of_reportError h (toList_appendOptionalMessage _ _)
    (toList_appendOptionalMessage _ _)
  revert hsuffix
  decide

theorem illegalMultipleOccurrence_ne_unrecognizedOption {token : String}
    (hillegal : illegalMultipleOccurrence b before = .ok message) :
    reportError before message ≠ reportError before' (unrecognizedOption before' token) := by
  intro h
  simp only [illegalMultipleOccurrence, bind_eq_ok] at hillegal
  obtain ⟨-, -, option, -, -, -, hillegal⟩ := hillegal
  split at hillegal
  · cases hillegal
  · cases hillegal
  · cases hillegal
    have hsuffix := suffix_of_reportError h (toList_appendOptionalMessage _ _)
      (toList_appendOptionalMessage _ _)
    revert hsuffix
    decide

/-- A run that goes on has no error. -/
theorem not_endsAt_of_inl {error : ParserContext V → Except Fault String}
    (h : turn b cfg = .inl cfg') : ¬EndsAt b cfg error := by
  intro ⟨before, message, _, hturn⟩
  rw [h] at hturn
  cases hturn

theorem not_endsAt_of_fault {error : ParserContext V → Except Fault String} {fault : Fault}
    (h : turn b cfg = .inr (.faulted fault)) : ¬EndsAt b cfg error := by
  intro ⟨before, message, _, hturn⟩
  rw [h] at hturn
  cases hturn

/-- An option without a value is not reported for a value that is wrong. -/
theorem not_endsAt_invalid (token : String) (h : EndsAt b cfg missingValueForOption) :
    ¬EndsAt b cfg (invalidValueForOption · token) := by
  intro ⟨before', message', hinvalid, hturn'⟩
  obtain ⟨before, message, hmissing, hturn⟩ := h
  rw [hturn, Sum.inr.injEq, Result.returned.injEq] at hturn'
  exact missingValueForOption_ne_invalidValueForOption hmissing hinvalid hturn'.2

end

/-! ## An option that waits for its value -/

section

variable {b : Build} {cfg : Config V} {o : ClapOption V}

theorem waiting_eq_some_iff : cfg.waiting = some o ↔ cfg.data.context.activeOption = some o ∧
    (cfg.state = .parseShortOptionState ∧ cfg.data.shortValue = none ∨
      cfg.state = .parseLongOptionState ∧ cfg.data.longValue = none) := by
  unfold Config.waiting
  split <;> simp_all [and_comm]

/-- The next token is not for the option: it is no value, and no equal sign behind a long name. -/
def Config.LeavesOption (cfg : Config V) : Prop :=
  cfg.token.1 ≠ .value ∧ (cfg.state = .parseLongOptionState → cfg.token.1 ≠ .equalSign)

theorem turn_of_terminateWithError {state : State} {d : Data V} {message : String}
    (h : (machine b).step cfg.state cfg.token cfg.data =
      .ok (.terminateWithError message, state, d)) :
    turn b cfg = .inr (.returned false (reportError d.context message)) := by
  simp [turn, h]

theorem turn_of_error {fault : Fault}
    (h : (machine b).step cfg.state cfg.token cfg.data = .error fault) :
    turn b cfg = .inr (.faulted fault) := by
  simp [turn, h]

/-- Both states are left for `ParseOptionsState`, and ask for the implicit value on the way. -/
theorem depart_of_leaves (b : Build) (hwaiting : cfg.waiting = some o)
    (hleaves : cfg.LeavesOption) :
    (machine b).handle cfg.state cfg.token cfg.data =
        .ok (.transitionTo .parseOptionsState false, cfg.data) ∧
      (∀ status context, leaveOption none cfg.data.context = .ok (status, context) →
        ∃ d, d.context = context ∧
          (machine b).onLeave cfg.state cfg.token cfg.data = .ok (status, d)) ∧
      ∀ fault, leaveOption none cfg.data.context = .error fault →
        (machine b).onLeave cfg.state cfg.token cfg.data = .error fault := by
  obtain ⟨-, ⟨hstate, hnone⟩ | ⟨hstate, hnone⟩⟩ := waiting_eq_some_iff.mp hwaiting
  · have hhandle := handle_short_other (b := b) hleaves.1 cfg.data
    rw [hstate, onLeave_shortState, hnone]
    refine ⟨hhandle, fun status context hleave => ?_, fun fault hleave => by rw [hleave]; rfl⟩
    rw [hleave]
    exact ⟨_, by split <;> rfl, rfl⟩
  · have hhandle := handle_long_other (b := b) hleaves.1 (hleaves.2 hstate) cfg.data
    rw [hstate, onLeave_longState, hnone]
    refine ⟨hhandle, fun status context hleave => ?_, fun fault hleave => by rw [hleave]; rfl⟩
    rw [hleave]
    exact ⟨_, by split <;> rfl, rfl⟩

/-- The option is left. -/
theorem endsAt_missing_of_leaves {semantics : ValueSemantics V} (hwaiting : cfg.waiting = some o)
    (hsem : o.valueSemantic = some semantics) (himplicit : o.implicit = none)
    (hleaves : cfg.LeavesOption) : EndsAt b cfg missingValueForOption := by
  obtain ⟨hoption, -⟩ := waiting_eq_some_iff.mp hwaiting
  obtain ⟨message, hmessage, hleave⟩ :=
    leaveOption_missing hoption (by simp [hsem]) himplicit
  obtain ⟨hhandle, hleft, -⟩ := depart_of_leaves b hwaiting hleaves
  obtain ⟨d, hcontext, honLeave⟩ := hleft _ _ hleave
  have hturn := turn_of_terminateWithError (StateMachine.step_of_leaveError hhandle honLeave)
  exact ⟨cfg.data.context, message, hmessage, hcontext ▸ hturn⟩

/-- Without value semantics there is nothing to ask for an implicit value. -/
theorem faults_of_leaves (hwaiting : cfg.waiting = some o) (hsem : o.valueSemantic = none)
    (hleaves : cfg.LeavesOption) : ∃ fault, turn b cfg = .inr (.faulted fault) := by
  obtain ⟨hoption, -⟩ := waiting_eq_some_iff.mp hwaiting
  have hleave : leaveOption none cfg.data.context = .error .nullPointer := by
    rw [leaveOption_none hoption, hsem]
    rfl
  obtain ⟨hhandle, -, hfault⟩ := depart_of_leaves b hwaiting hleaves
  exact ⟨_, turn_of_error (StateMachine.step_of_leave_error hhandle (hfault _ hleave))⟩

/-- The option is offered a value: in the default mode, both states try it. -/
theorem handle_waiting_value (b : Build) (text : String) {semantics : ValueSemantics V}
    (hwaiting : cfg.waiting = some o) (hsem : o.valueSemantic = some semantics)
    (hallow : cfg.data.context.allowLongOptionValueWithNoEqual = true) :
    ∃ fallback, ∃ data : ParserContext V → Option String → Data V,
      (∀ context value, (data context value).context = context) ∧
      (machine b).handle cfg.state (.value, text) cfg.data =
        (fun p => (p.1, data p.2.1 p.2.2)) <$>
          tryValue o semantics fallback text cfg.data.context := by
  obtain ⟨hoption, hstate⟩ := waiting_eq_some_iff.mp hwaiting
  have hactive := activeSemantics_of_some (b := b) hoption hsem
  obtain ⟨hstate, hnone⟩ | ⟨hstate, hnone⟩ := hstate
  · refine ⟨true, fun context value => { cfg.data with context, shortValue := value },
      fun _ _ => rfl, ?_⟩
    rw [hstate]
    change ParseShortOptionState.handleValue b text cfg.data = _
    simp only [ParseShortOptionState.handleValue, hactive, ok_bind, hnone, Option.isSome_none,
      Bool.false_eq_true, if_false, deref_some]
    rfl
  · refine ⟨!cfg.data.afterEqualSign,
      fun context value => { cfg.data with context, longValue := value }, fun _ _ => rfl, ?_⟩
    rw [hstate]
    change ParseLongOptionState.handleValue b text cfg.data = _
    simp only [ParseLongOptionState.handleValue, hactive, ok_bind, hnone, Option.isSome_none,
      Bool.false_eq_true, if_false, hallow, Bool.not_true, Bool.and_false, deref_some]
    rfl

theorem endsAt_missing_of_value {semantics : ValueSemantics V} {text : String}
    (hwaiting : cfg.waiting = some o) (hsem : o.valueSemantic = some semantics)
    (himplicit : o.implicit = none)
    (hallow : cfg.data.context.allowLongOptionValueWithNoEqual = true)
    (htoken : cfg.token = (.value, text)) (hparse : o.parse text = none) :
    EndsAt b cfg missingValueForOption := by
  obtain ⟨hoption, -⟩ := waiting_eq_some_iff.mp hwaiting
  obtain ⟨fallback, data, hcontext, hhandle⟩ :=
    handle_waiting_value b text hwaiting hsem hallow
  obtain ⟨message, hmessage, -⟩ := leaveOption_missing hoption (by simp [hsem]) himplicit
  rw [ClapOption.parse, hsem, Option.bind_some] at hparse
  rw [ClapOption.implicit, hsem, Option.bind_some] at himplicit
  rw [tryValue_of_missing hoption hsem hparse (.inr himplicit), hmessage] at hhandle
  rw [← htoken] at hhandle
  refine ⟨cfg.data.context, message, hmessage, ?_⟩
  have hturn := turn_of_terminateWithError (StateMachine.step_of_reportError hhandle)
  rwa [hcontext] at hturn

theorem goesOn_of_value {semantics : ValueSemantics V} {text : String} {value : V}
    (hwaiting : cfg.waiting = some o) (hsem : o.valueSemantic = some semantics)
    (hallow : cfg.data.context.allowLongOptionValueWithNoEqual = true)
    (htoken : cfg.token = (.value, text)) (hparse : o.parse text = some value) :
    ∃ cfg', turn b cfg = .inl cfg' := by
  obtain ⟨fallback, data, -, hhandle⟩ :=
    handle_waiting_value b text hwaiting hsem hallow
  rw [ClapOption.parse, hsem, Option.bind_some] at hparse
  rw [tryValue_of_parse hparse, ← htoken] at hhandle
  exact ⟨_, turn_of_continue (StateMachine.step_of_doNothing hhandle) (by simp [htoken])⟩

theorem faults_of_value {text : String} (hwaiting : cfg.waiting = some o)
    (hsem : o.valueSemantic = none) (htoken : cfg.token = (.value, text))
    (hallow : cfg.data.context.allowLongOptionValueWithNoEqual = true) :
    ∃ fault, turn b cfg = .inr (.faulted fault) := by
  obtain ⟨hoption, hstate⟩ := waiting_eq_some_iff.mp hwaiting
  have hactive := activeSemantics_eq (b := b) hoption
  have hhandle : ∃ fault, (machine b).handle cfg.state (.value, text) cfg.data =
      .error fault := by
    obtain ⟨hstate, hnone⟩ | ⟨hstate, hnone⟩ := hstate
    · rw [hstate]
      change ∃ fault, ParseShortOptionState.handleValue b text cfg.data = _
      cases b <;> simp [ParseShortOptionState.handleValue, hactive, hnone, hsem]
    · rw [hstate]
      change ∃ fault, ParseLongOptionState.handleValue b text cfg.data = _
      cases b <;> simp [ParseLongOptionState.handleValue, hactive, hnone, hsem, hallow]
  obtain ⟨fault, hhandle⟩ := hhandle
  rw [← htoken] at hhandle
  exact ⟨fault, turn_of_error (StateMachine.step_of_handle_error hhandle)⟩

/-- An equal sign behind a long name is kept, and the option still waits. -/
theorem turn_of_equalSign (hwaiting : cfg.waiting = some o)
    (hstate : cfg.state = .parseLongOptionState) (htoken : cfg.token.1 = .equalSign) :
    (∃ cfg', turn b cfg = .inl cfg') ∨
      o.valueSemantic = none ∧ ∃ fault, turn b cfg = .inr (.faulted fault) := by
  obtain ⟨hoption, -⟩ := waiting_eq_some_iff.mp hwaiting
  obtain ⟨text, htoken⟩ := Token.exists_text htoken
  have hactive := activeSemantics_eq (b := b) hoption
  have hhandle : (machine b).handle cfg.state cfg.token cfg.data =
      ParseLongOptionState.handleEqualSign b cfg.data := by rw [hstate, htoken]; rfl
  rw [ParseLongOptionState.handleEqualSign, hactive] at hhandle
  split at hhandle
  · next hnone =>
      exact .inr ⟨hnone.2, _, turn_of_error (StateMachine.step_of_handle_error hhandle)⟩
  · exact .inl ⟨_, turn_of_continue (StateMachine.step_of_doNothing hhandle) (by simp [htoken])⟩

/-- What the next token does to an option that waits for its value and has no implicit one. -/
theorem waiting_cases (hwaiting : cfg.waiting = some o) (himplicit : o.implicit = none)
    (hallow : cfg.data.context.allowLongOptionValueWithNoEqual = true) :
    o.valueSemantic.isSome ∧ EndsAt b cfg missingValueForOption ∧
        (cfg.LeavesOption ∨ ∃ text, cfg.token = (.value, text) ∧ o.parse text = none) ∨
      (∃ cfg', turn b cfg = .inl cfg') ∧ ¬cfg.LeavesOption ∧
        (∀ text, cfg.token = (.value, text) → o.parse text ≠ none) ∨
      o.valueSemantic = none ∧ ∃ fault, turn b cfg = .inr (.faulted fault) := by
  by_cases hvalue : cfg.token.1 = .value
  · obtain ⟨text, htoken⟩ := Token.exists_text hvalue
    have hstays : ¬cfg.LeavesOption := fun h => h.1 hvalue
    cases hsem : o.valueSemantic with
    | none => exact .inr (.inr ⟨rfl, faults_of_value hwaiting hsem htoken hallow⟩)
    | some semantics =>
        cases hparse : o.parse text with
        | none =>
            exact .inl ⟨rfl, endsAt_missing_of_value hwaiting hsem himplicit hallow htoken hparse,
              .inr ⟨text, htoken, hparse⟩⟩
        | some value =>
            refine .inr (.inl ⟨goesOn_of_value hwaiting hsem hallow htoken hparse, hstays, ?_⟩)
            intro text' htoken'
            rw [htoken] at htoken'
            cases htoken'
            simp [hparse]
  · have hno : ∀ text, cfg.token = (.value, text) → o.parse text ≠ none := by
      intro text htoken
      simp [htoken] at hvalue
    by_cases hleaves : cfg.LeavesOption
    · cases hsem : o.valueSemantic with
      | none => exact .inr (.inr ⟨rfl, faults_of_leaves hwaiting hsem hleaves⟩)
      | some semantics =>
          exact .inl ⟨rfl, endsAt_missing_of_leaves hwaiting hsem himplicit hleaves, .inl hleaves⟩
    · obtain ⟨hstate, hequal⟩ : cfg.state = .parseLongOptionState ∧ cfg.token.1 = .equalSign := by
        simpa [Config.LeavesOption, hvalue] using hleaves
      obtain hgoes | hfaults := turn_of_equalSign (b := b) hwaiting hstate hequal
      · exact .inr (.inl ⟨hgoes, hleaves, hno⟩)
      · exact .inr (.inr hfaults)

/-- An option that waits for its value and has no implicit one is reported as documented: with an
invalid value if the value offered does not parse, and with a missing one if there is none. -/
structure ReportsOption (b : Build) (cfg : Config V) (o : ClapOption V) : Prop where
  invalid : EndsAt b cfg (invalidValueForOption · cfg.token.2) ↔
    ∃ text, cfg.token = (.value, text) ∧ o.parse text = none
  missing : EndsAt b cfg missingValueForOption ↔ cfg.LeavesOption

/-- The option has value semantics, and a value that is offered to it parses. -/
structure Suits (cfg : Config V) (o : ClapOption V) : Prop where
  parses : ∀ text, cfg.token = (.value, text) → o.parse text ≠ none
  semantics : cfg.LeavesOption → o.valueSemantic ≠ none

theorem reportsOption_iff (hwaiting : cfg.waiting = some o) (himplicit : o.implicit = none)
    (hallow : cfg.data.context.allowLongOptionValueWithNoEqual = true) :
    ReportsOption b cfg o ↔ Suits cfg o := by
  obtain ⟨hsem, hmissing, hwhy⟩ | ⟨⟨cfg', hturn⟩, hstays, hparses⟩ | ⟨hsem, fault, hturn⟩ :=
    waiting_cases (b := b) hwaiting himplicit hallow
  · have hinvalid := not_endsAt_invalid cfg.token.2 hmissing
    constructor
    · intro h
      exact ⟨fun text htoken hparse => hinvalid (h.invalid.mpr ⟨text, htoken, hparse⟩),
        fun _ => Option.isSome_iff_ne_none.mp hsem⟩
    · intro h
      have hno : ¬∃ text, cfg.token = (.value, text) ∧ o.parse text = none :=
        fun ⟨text, htoken, hparse⟩ => h.parses text htoken hparse
      exact ⟨iff_of_false hinvalid hno, iff_of_true hmissing (hwhy.resolve_right hno)⟩
  · have hno : ¬∃ text, cfg.token = (.value, text) ∧ o.parse text = none :=
      fun ⟨text, htoken, hparse⟩ => hparses text htoken hparse
    refine iff_of_true ⟨?_, ?_⟩ ⟨hparses, fun hleaves => absurd hleaves hstays⟩
    · exact iff_of_false (not_endsAt_of_inl hturn) hno
    · exact iff_of_false (not_endsAt_of_inl hturn) hstays
  · have hnone : ∀ text, o.parse text = none := fun text => by simp [ClapOption.parse, hsem]
    constructor
    · intro h
      refine ⟨fun text htoken hparse => ?_, fun hleaves => ?_⟩
      · exact not_endsAt_of_fault hturn (h.invalid.mpr ⟨text, htoken, hparse⟩)
      · exact absurd (h.missing.mpr hleaves) (not_endsAt_of_fault hturn)
    · intro h
      refine ⟨iff_of_false (not_endsAt_of_fault hturn) ?_,
        iff_of_false (not_endsAt_of_fault hturn) fun hleaves => h.semantics hleaves hsem⟩
      intro ⟨text, htoken, hparse⟩
      exact h.parses text htoken hparse

end

/-! ## An option that is named -/

section

variable {b : Build} {cfg : Config V} {c : Command V} {context : ParserContext V}

/-- The token is the name of an option. -/
def IsName (token : Token) : Prop :=
  token.1 = .shortOption ∨ token.1 = .loneDash ∨ token.1 = .longOption

/-- `ParseOptionsState` leads to the option state that looks the name up. -/
theorem step_of_isName (hstate : cfg.state = .parseOptionsState) (hname : IsName cfg.token) :
    ∃ flag, ∃ find : Command V → Option (ClapOption V), ∃ target,
      (∀ c, find c = c.resolve cfg.token) ∧
      (machine b).step cfg.state cfg.token cfg.data =
        (fun p => (p.1, target, { cfg.data with context := p.2 })) <$>
          enterOption b flag find cfg.token.2 true cfg.data.context := by
  obtain ⟨tokenizer, ⟨tokenType, text⟩, state, d⟩ := cfg
  obtain rfl : state = .parseOptionsState := hstate
  have hshort : tokenType = .shortOption ∨ tokenType = .loneDash →
      (machine b).step .parseOptionsState (tokenType, text) d =
        (fun p => (p.1, .parseShortOptionState, { d with context := p.2 })) <$>
          enterOption b ("-" ++ text) (·.findShortOption text) text true d.context := by
    intro htype
    have hhandle : (machine b).handle .parseOptionsState (tokenType, text) d =
        .ok (.transitionTo .parseShortOptionState true, d) := by
      obtain rfl | rfl := htype <;> rfl
    have honEnter : (machine b).onEnter .parseShortOptionState (tokenType, text) true d =
        enterOption b ("-" ++ text) (·.findShortOption text) text true d.context >>=
          fun p => .ok (p.1, { d with context := p.2 }) := by
      obtain rfl | rfl := htype <;> rfl
    rw [StateMachine.step_of_transition hhandle rfl, honEnter]
    cases enterOption b ("-" ++ text) (·.findShortOption text) text true d.context <;> rfl
  obtain rfl | rfl | rfl : tokenType = .shortOption ∨ tokenType = .loneDash ∨
      tokenType = .longOption := hname
  · exact ⟨_, _, _, fun _ => rfl, hshort (.inl rfl)⟩
  · exact ⟨_, _, _, fun _ => rfl, hshort (.inr rfl)⟩
  · refine ⟨"--" ++ text, (·.findLongOption text), .parseLongOptionState, fun _ => rfl, ?_⟩
    have hhandle : (machine b).handle .parseOptionsState (.longOption, text) d =
        .ok (.transitionTo .parseLongOptionState true, d) := rfl
    have honEnter : (machine b).onEnter .parseLongOptionState (.longOption, text) true d =
        enterOption b ("--" ++ text) (·.findLongOption text) text true d.context >>=
          fun p => .ok (p.1, { d with context := p.2 }) := rfl
    rw [StateMachine.step_of_transition hhandle rfl, honEnter]
    cases enterOption b ("--" ++ text) (·.findLongOption text) text true d.context <;> rfl

/-- The ways to enter an option state. -/
theorem enterOption_cases (b : Build) (flag text : String)
    (find : Command V → Option (ClapOption V)) (hcommand : context.activeCommand = some c) :
    (find c = none ∧ enterOption b flag find text true context =
        .ok (.terminateWithError
            (unrecognizedOption { context with activeOptionFlag := flag } text),
          { context with activeOptionFlag := flag })) ∨
      find c ≠ none ∧ ((∃ context', enterOption b flag find text true context =
          .ok (.continue_, context')) ∨
        (∃ before message, illegalMultipleOccurrence b before = .ok message ∧
          enterOption b flag find text true context =
            .ok (.terminateWithError message, before)) ∨
        ∃ fault, enterOption b flag find text true context = .error fault) := by
  cases hfind : find c with
  | none => exact .inl ⟨rfl, by simp [enterOption, hcommand, hfind]⟩
  | some option =>
      refine .inr ⟨by simp, ?_⟩
      cases hcheck : checkMultipleOccurrence
          { context with activeOptionFlag := flag, activeOption := some option } with
      | error fault => exact .inr (.inr ⟨fault, by simp [enterOption, hcommand, hfind, hcheck]⟩)
      | ok single =>
          cases single with
          | true => exact .inl ⟨_, by simp [enterOption, hcommand, hfind, hcheck]; rfl⟩
          | false =>
              cases hmessage : illegalMultipleOccurrence b
                  { context with activeOptionFlag := flag, activeOption := some option } with
              | error fault =>
                  exact .inr (.inr
                    ⟨fault, by simp [enterOption, hcommand, hfind, hcheck, hmessage]⟩)
              | ok message =>
                  exact .inr (.inl ⟨_, message, hmessage,
                    by simp [enterOption, hcommand, hfind, hcheck, hmessage]⟩)

/-- A name is reported as unrecognized exactly if no option of the command has it. -/
theorem endsAt_unrecognized_iff (hstate : cfg.state = .parseOptionsState)
    (hname : IsName cfg.token) (hcommand : cfg.data.context.activeCommand = some c) :
    EndsAt b cfg (fun before => .ok (unrecognizedOption before cfg.token.2)) ↔
      c.resolve cfg.token = none := by
  obtain ⟨flag, find, target, hfind, hstep⟩ := step_of_isName (b := b) hstate hname
  rw [← hfind c]
  obtain ⟨hnone, henter⟩ | ⟨hsome, ⟨context, henter⟩ | ⟨before, message, hmessage, henter⟩ |
    ⟨fault, henter⟩⟩ := enterOption_cases b flag cfg.token.2 find hcommand
  · rw [henter] at hstep
    exact iff_of_true ⟨{ cfg.data.context with activeOptionFlag := flag }, _, rfl,
      turn_of_terminateWithError hstep⟩ hnone
  · rw [henter] at hstep
    have htoken : cfg.token.1 ≠ .endOfInput := by
      obtain h | h | h := hname <;> simp [h]
    exact iff_of_false (not_endsAt_of_inl (turn_of_continue hstep htoken)) hsome
  · rw [henter] at hstep
    refine iff_of_false ?_ hsome
    intro ⟨before', message', hmessage', hturn⟩
    cases hmessage'
    rw [turn_of_terminateWithError hstep, Sum.inr.injEq, Result.returned.injEq] at hturn
    exact illegalMultipleOccurrence_ne_unrecognizedOption hmessage hturn.2
  · rw [henter] at hstep
    exact iff_of_false (not_endsAt_of_fault (turn_of_error hstep)) hsome

end

/-! ## Whole runs -/

/-- In a run, every option is reported the way the option states document it. -/
structure ReportsAsDocumented (b : Build) (context : CommandLineContext V)
    (commands : List (Command V)) (args : List String) : Prop where
  option : ∀ cfg o, Reachable b context commands args cfg → cfg.waiting = some o →
    o.implicit = none → ReportsOption b cfg o
  unrecognized : ∀ cfg c, Reachable b context commands args cfg →
    cfg.state = .parseOptionsState → IsName cfg.token →
    cfg.data.context.activeCommand = some c →
    (EndsAt b cfg (fun before => .ok (unrecognizedOption before cfg.token.2)) ↔
      c.resolve cfg.token = none)

/-- **Errors are reported as documented** exactly in the runs in which no value is offered in vain:
a value that does not parse is reported as a missing one. -/
theorem reportsAsDocumented_iff (b : Build) (context : CommandLineContext V)
    (commands : List (Command V)) (args : List String)
    (hallow : context.allowLongOptionValueWithNoEqual = true) :
    ReportsAsDocumented b context commands args ↔
      ∀ cfg o, Reachable b context commands args cfg → cfg.waiting = some o →
        o.implicit = none → Suits cfg o := by
  have hreports : ∀ cfg o, Reachable b context commands args cfg → cfg.waiting = some o →
      o.implicit = none → (ReportsOption b cfg o ↔ Suits cfg o) := by
    intro cfg o hreach hwaiting himplicit
    exact reportsOption_iff hwaiting himplicit
      ((untouched_of_reachable hreach).allowLong.trans hallow)
  constructor
  · intro h cfg o hreach hwaiting himplicit
    exact (hreports cfg o hreach hwaiting himplicit).mp (h.option cfg o hreach hwaiting himplicit)
  · intro h
    constructor
    · intro cfg o hreach hwaiting himplicit
      exact (hreports cfg o hreach hwaiting himplicit).mpr (h cfg o hreach hwaiting himplicit)
    · intro cfg c _ hstate hname hcommand
      exact endsAt_unrecognized_iff hstate hname hcommand

/-- A number of copies. -/
def copies : ClapOption (BitVec 32) where
  key := "copies"
  shortName := "n"
  valueSemantic := some
    { parseValue := fun token =>
        let (done, value) := parseSigned token 0#32
        if done then some value else none }

/-- A default command that makes copies. -/
def copier : Command (BitVec 32) := { Command.plainDefault with options := [copies] }

/-- `3` is a number. -/
theorem reportsAsDocumented_copier :
    ReportsAsDocumented .debug { programName := "prog" } [copier] ["-n", "3"] := by
  have hsuits : ∀ cfg, Reachable .debug { programName := "prog" } [copier] ["-n", "3"] cfg →
      ∀ o, cfg.waiting = some o → Suits cfg o := by
    -- the name, which `InitialState` hands on, the value, and the end of the input
    refine Loop.forall_reaches_of_inl rfl (fun o hwaiting => by cases hwaiting) ?_
    refine Loop.forall_reaches_of_inl rfl (fun o hwaiting => by cases hwaiting) ?_
    refine Loop.forall_reaches_of_inl rfl (fun o hwaiting => ?_) ?_
    · obtain rfl : copies = o := Option.some.inj hwaiting
      refine ⟨fun text htoken => ?_, fun _ => by simp [copies]⟩
      obtain rfl : "3" = text := congrArg Prod.snd htoken
      decide
    · refine Loop.forall_reaches_of_inl rfl (fun o hwaiting => by cases hwaiting) ?_
      exact Loop.forall_reaches_of_inr rfl fun o hwaiting => by cases hwaiting
  exact (reportsAsDocumented_iff _ _ _ _ rfl).mpr fun cfg o hreach hwaiting _ =>
    hsuits cfg hreach o hwaiting

/-- `many` is no number, but the option is said to have no value on the command line. -/
theorem not_reportsAsDocumented_copier :
    ¬ReportsAsDocumented .debug { programName := "prog" } [copier] ["-n", "many"] := by
  intro h
  obtain ⟨cfg, hafter, hwaiting, htoken⟩ : ∃ cfg, Loop.after (turn .debug) 2
      (start { programName := "prog" } [copier] ["-n", "many"]) = some cfg ∧
      cfg.waiting = some copies ∧ cfg.token = (.value, "many") := ⟨_, rfl, rfl, rfl⟩
  have hreach := Loop.reaches_of_after hafter
  have hreports := h.option cfg copies hreach hwaiting rfl
  have hparse : copies.parse "many" = none := by decide
  have hmissing := hreports.missing.mp (endsAt_missing_of_value hwaiting rfl rfl
    (untouched_of_reachable hreach).allowLong htoken hparse)
  exact hmissing.1 (by rw [htoken])

/-! ## Long names without an equal sign -/

/-- The option typed with its long name has no value yet, and the next token is a value with no
equal sign in front. -/
structure Config.OffersUnmarked (cfg : Config V) (o : ClapOption V) : Prop where
  state : cfg.state = .parseLongOptionState
  waiting : cfg.waiting = some o
  unmarked : cfg.data.afterEqualSign = false
  value : cfg.token.1 = .value

/-- The syntax error of an option without an equal sign. -/
def needsEqualSign (context : ParserContext V) : Except Fault String :=
  optionSyntaxError context
    ("option name must be followed by '=' sign because this option " ++
      "takes a value and does not have an implicit one")

/-- The implicit value is stored and the value is left to `ParseOptionsState`, so that the run goes
on as behind an option that was typed alone; there is no syntax error. -/
structure FallsBack (b : Build) (cfg : Config V) (o : ClapOption V) (value : V) (text : String) :
    Prop where
  handsOn : ∃ cfg', Loop.Reaches (turn b) cfg cfg' ∧ cfg'.state = .parseOptionsState ∧
    cfg'.token = cfg.token ∧ cfg'.tokenizer = cfg.tokenizer ∧
    cfg'.data.context = cfg.data.context.storeValue o value text false
  noSyntaxError : ¬EndsAt b cfg needsEqualSign

section

variable {b : Build} {cfg : Config V} {o : ClapOption V}

/-- The equal sign is asked for before the implicit value is. -/
theorem endsAt_needsEqualSign (h : cfg.OffersUnmarked o) (hsem : o.valueSemantic.isSome)
    (hallow : cfg.data.context.allowLongOptionValueWithNoEqual = false) :
    EndsAt b cfg needsEqualSign := by
  obtain ⟨hstate, hwaiting, hunmarked, hvalue⟩ := h
  obtain ⟨text, htoken⟩ := Token.exists_text hvalue
  obtain ⟨semantics, hsem⟩ := Option.isSome_iff_exists.mp hsem
  obtain ⟨hoption, hwaits⟩ := waiting_eq_some_iff.mp hwaiting
  have hnone : cfg.data.longValue = none := by
    obtain ⟨hshort, -⟩ | ⟨-, hnone⟩ := hwaits
    · rw [hstate] at hshort
      cases hshort
    · exact hnone
  have hactive := activeSemantics_of_some (b := b) hoption hsem
  obtain ⟨message, hmessage⟩ : ∃ message, needsEqualSign cfg.data.context = .ok message := by
    rw [needsEqualSign, optionSyntaxError, hoption, deref_some, ok_bind]
    exact ⟨_, rfl⟩
  have hhandle : (machine b).handle cfg.state cfg.token cfg.data =
      .ok (.reportError message, cfg.data) := by
    rw [hstate, htoken]
    change ParseLongOptionState.handleValue b text cfg.data = _
    unfold needsEqualSign at hmessage
    simp only [ParseLongOptionState.handleValue, hactive, ok_bind, hnone, Option.isSome_none,
      Bool.false_eq_true, if_false, hunmarked, hallow, Bool.not_false, Bool.and_self, if_true,
      hmessage]
    rfl
  exact ⟨_, message, hmessage, turn_of_terminateWithError
    (StateMachine.step_of_reportError hhandle)⟩

/-- A run that ends at a token goes no further. -/
theorem eq_of_endsAt {error : ParserContext V → Except Fault String} (h : EndsAt b cfg error) :
    ∀ cfg', Loop.Reaches (turn b) cfg cfg' → cfg' = cfg := by
  obtain ⟨before, message, -, hturn⟩ := h
  exact Loop.forall_reaches_of_inr hturn rfl

/-- **In the strict mode no option falls back** on its implicit value when a value is behind its
long name: the run always ends with the syntax error. -/
theorem not_fallsBack {context : CommandLineContext V} {commands : List (Command V)}
    {args : List String} {value : V} {text : String}
    (hallow : context.allowLongOptionValueWithNoEqual = false)
    (hreach : Reachable b context commands args cfg) (h : cfg.OffersUnmarked o)
    (himplicit : o.implicit = some (value, text)) :
    EndsAt b cfg needsEqualSign ∧ (∀ cfg', Loop.Reaches (turn b) cfg cfg' → cfg' = cfg) ∧
      ¬FallsBack b cfg o value text := by
  obtain ⟨semantics, hsem, -⟩ := Option.bind_eq_some_iff.mp himplicit
  have hends : EndsAt b cfg needsEqualSign := endsAt_needsEqualSign h (by simp [hsem])
    ((untouched_of_reachable hreach).allowLong.trans hallow)
  exact ⟨hends, eq_of_endsAt hends, fun hfalls => hfalls.noSyntaxError hends⟩

end

/-- A flag, and a default command that has it. -/
def dryRun : ClapOption (Any Unit) where
  key := "dry-run"
  longName := "dry-run"
  valueSemantic := some ValueSemantics.flag

def mover : Command (Any Unit) := { Command.plainDefault with options := [dryRun] }

/-- The context of a line in the strict mode. -/
def strict : CommandLineContext (Any Unit) where
  allowLongOptionValueWithNoEqual := false
  programName := "prog"

theorem offersUnmarked_mover : ∃ cfg, Reachable .debug strict [mover] ["--dry-run", "apple"] cfg ∧
    cfg.OffersUnmarked dryRun := by
  obtain ⟨cfg, hafter, hstate, hwaiting, hunmarked, htoken⟩ : ∃ cfg,
      Loop.after (turn .debug) 2 (start strict [mover] ["--dry-run", "apple"]) = some cfg ∧
        cfg.state = .parseLongOptionState ∧ cfg.waiting = some dryRun ∧
        cfg.data.afterEqualSign = false ∧ cfg.token = (.value, "apple") :=
    ⟨_, rfl, rfl, rfl, rfl, rfl⟩
  exact ⟨cfg, Loop.reaches_of_after hafter, hstate, hwaiting, hunmarked, by rw [htoken]⟩

theorem not_fallsBack_mover : ∃ cfg, EndsAt .debug cfg needsEqualSign ∧
    (∀ cfg', Loop.Reaches (turn .debug) cfg cfg' → cfg' = cfg) ∧
    ¬FallsBack .debug cfg dryRun (.flag true) "true" := by
  obtain ⟨cfg, hreach, hoffers⟩ := offersUnmarked_mover
  exact ⟨cfg, not_fallsBack rfl hreach hoffers rfl⟩

/-- `apple` is no value of the flag, which has an implicit one: it is rejected all the same. -/
theorem rejects_apple : ∃ cfg, Reachable .debug strict [mover] ["--dry-run", "apple"] cfg ∧
    cfg.OffersUnmarked dryRun ∧ dryRun.implicit = some (.flag true, "true") ∧
    ¬FallsBack .debug cfg dryRun (.flag true) "true" := by
  obtain ⟨cfg, hreach, hoffers⟩ := offersUnmarked_mover
  have hends : EndsAt .debug cfg needsEqualSign :=
    endsAt_needsEqualSign hoffers rfl (untouched_of_reachable hreach).allowLong
  exact ⟨cfg, hreach, hoffers, rfl, fun hfalls => hfalls.noSyntaxError hends⟩

end Parser

end AsapClap
