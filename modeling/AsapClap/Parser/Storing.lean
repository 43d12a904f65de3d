import AsapClap.Parser.Contracts

/-!
# AsapClap.Parser.Storing

What a callback of a state may do to the context: an option state stores at most one
value, and only for an option that waits for one; and no state ever writes to the
streams, the name of the program or the settings.
-/

namespace AsapClap

variable {V : Type}

namespace Parser

open Errors

/-! ## Storing one value -/

/-- Storing a value counts for its own key alone. -/
theorem occurrencesOf_storeValue {context : ParserContext V} {p : ClapOption V} {value : V}
    {text k : String} {defaulted : Bool} :
    (context.storeValue p value text defaulted).ovm.occurrencesOf k =
      context.ovm.occurrencesOf k + if p.key = k then 1 else 0 := by
  unfold ParserContext.storeValue OptionValuesMap.storeValue OptionValuesMap.occurrencesOf
  rw [Multimap.values_store]
  split <;> simp

/-- One value more for the active option, which has value semantics. -/
inductive StoresOne (context : ParserContext V) : ParserContext V → Prop
  | mk {p : ClapOption V} (value : V) (text : String) (active : context.activeOption = some p)
      (semantics : p.valueSemantic.isSome = true) :
      StoresOne context (context.storeValue p value text false)

section

variable {b : Build} {context context' : ParserContext V} {status : Status}

/-- An option state is left with the values it has, or with the implicit value of an option that
has none. -/
theorem storesOne_of_leaveOption {value : Option String}
    (h : leaveOption value context = .ok (status, context')) :
    context' = context ∨ value = none ∧ StoresOne context context' := by
  obtain ⟨-, -, rfl⟩ | ⟨-, ⟨-, rfl⟩ |
    ⟨hnone, option, semantics, v, text, hoption, hsem, -, rfl⟩⟩ := leaveOption_ok h
  · exact .inl rfl
  · exact .inl rfl
  · exact .inr ⟨hnone, .mk v text hoption (by simp [hsem])⟩

/-- A value offered to an option is stored for it, or its implicit one is, or nothing is. -/
theorem storesOne_of_tryValue {option : ClapOption V} {semantics : ValueSemantics V}
    {fallback : Bool} {token : String} {action : Action} {value : Option String}
    (hoption : context.activeOption = some option) (hsem : option.valueSemantic = some semantics)
    (h : tryValue option semantics fallback token context = .ok (action, context', value)) :
    value = none ∧ context' = context ∨ value ≠ none ∧ StoresOne context context' := by
  obtain ⟨⟨parsed, text, rfl⟩, hvalue, -⟩ | ⟨rfl, hnone, -⟩ := tryValue_ok hoption hsem h
  · exact .inr ⟨Option.isSome_iff_ne_none.mp hvalue, .mk parsed text hoption (by simp [hsem])⟩
  · exact .inl ⟨hnone, rfl⟩

/-- An option state is entered with the option and its name put down, and nothing stored. -/
theorem enterOption_context {flag token : String} {find : Command V → Option (ClapOption V)}
    {hasData : Bool} (h : enterOption b flag find token hasData context = .ok (status, context')) :
    ∃ option, context' =
      { context with activeOptionFlag := flag, activeOption := option } := by
  obtain ⟨command, -, ⟨-, heq⟩ | ⟨option, -, -, -, heq⟩⟩ := enterOption_ok h
  · exact ⟨_, heq⟩
  · exact ⟨_, heq⟩

end

/-! ## The option states -/

section

variable {b : Build} {d d' : Data V} {event : Token} {action : Action}

/-- A short option that waits for a value takes one, or has none when it is left. -/
theorem shortHandle_values (h : ParseShortOptionState.handle b event d = .ok (action, d')) :
    d'.context = d.context ∧ d'.shortValue = d.shortValue ∨
      d.shortValue = none ∧ d'.shortValue ≠ none ∧ StoresOne d.context d'.context := by
  obtain ⟨-, rfl⟩ | ⟨hnone, option, semantics, context, value, hoption, hsem, htry, rfl⟩ :=
    shortHandle_ok h
  · exact .inl ⟨rfl, rfl⟩
  · obtain ⟨rfl, rfl⟩ | ⟨hne, hstores⟩ := storesOne_of_tryValue hoption hsem htry
    · exact .inl ⟨rfl, hnone.symm⟩
    · exact .inr ⟨hnone, hne, hstores⟩

/-- A long option takes one value at most, and only when it has none yet. -/
theorem longHandle_values (h : ParseLongOptionState.handle b event d = .ok (action, d')) :
    d'.context = d.context ∧ d'.longValue = d.longValue ∨
      d.longValue = none ∧ d'.longValue ≠ none ∧ StoresOne d.context d'.context := by
  obtain ⟨-, rfl⟩ | ⟨-, rfl⟩ | ⟨-, rfl⟩ |
    ⟨hnone, option, semantics, context, value, hoption, hsem, htry, rfl⟩ := longHandle_ok h
  · exact .inl ⟨rfl, rfl⟩
  · exact .inl ⟨rfl, rfl⟩
  · exact .inl ⟨rfl, rfl⟩
  · obtain ⟨rfl, rfl⟩ | ⟨hne, hstores⟩ := storesOne_of_tryValue hoption hsem htry
    · exact .inl ⟨rfl, hnone.symm⟩
    · exact .inr ⟨hnone, hne, hstores⟩

end

/-! ## What is never written to -/

/-- The settings, the streams and the commands are the same. -/
structure Untouched (context context' : ParserContext V) : Prop where
  allowLong : context'.allowLongOptionValueWithNoEqual = context.allowLongOptionValueWithNoEqual
  out : context'.out = context.out
  err : context'.err = context.err
  programName : context'.programName = context.programName
  commands : context'.commands = context.commands

section

variable {b : Build} {base context context' : ParserContext V} {status : Status}

theorem Untouched.refl (context : ParserContext V) : Untouched context context :=
  ⟨rfl, rfl, rfl, rfl, rfl⟩

/-- All but these may be replaced. -/
theorem Untouched.with (h : Untouched base context) (ovm : OptionValuesMap V)
    (command : Option (Command V)) (option : Option (ClapOption V)) (flag : String)
    (tokens : List String) :
    Untouched base { context with
      ovm := ovm
      activeCommand := command
      activeOption := option
      activeOptionFlag := flag
      positionalTokens := tokens } :=
  ⟨h.allowLong, h.out, h.err, h.programName, h.commands⟩

/-- To store a value leaves the settings, the streams and the commands alone. -/
theorem Untouched.storesOne (h : Untouched base context) (hstores : StoresOne context context') :
    Untouched base context' := by
  cases hstores with
  | mk value text active semantics => exact h.with _ _ _ _ _

/-- So does leaving an option. -/
theorem Untouched.leaveOption {value : Option String} (h : Untouched base context)
    (hleave : leaveOption value context = .ok (status, context')) : Untouched base context' := by
  obtain rfl | ⟨-, hstores⟩ := storesOne_of_leaveOption hleave
  · exact h
  · exact h.storesOne hstores

/-- So does the check of the options, whose errors are returned and not yet written. -/
theorem Untouched.checkRequiredOptions {options : List (ClapOption V)} {message : Option String}
    (h : Untouched base context)
    (hcheck : FinalState.checkRequiredOptions options context = .ok (message, context')) :
    Untouched base context' := by
  induction options generalizing context with
  | nil =>
      cases hcheck
      exact h
  | cons option options ih =>
      unfold FinalState.checkRequiredOptions at hcheck
      split at hcheck
      · exact ih h hcheck
      · obtain ⟨semantics, -, hcheck⟩ := bind_eq_ok.mp hcheck
        split at hcheck
        · exact ih (h.with _ _ _ _ _) hcheck
        · split at hcheck
          · cases hcheck
            exact h
          · exact ih h hcheck

/-- So do both checks. -/
theorem Untouched.validate {command : Command V} (h : Untouched base context)
    (hvalidate : FinalState.validate command context = .ok (status, context')) :
    Untouched base context' := by
  rw [FinalState.validate_eq] at hvalidate
  obtain ⟨⟨message, context₁⟩, hcheck, hvalidate⟩ := bind_eq_ok.mp hvalidate
  have hchecked := h.checkRequiredOptions hcheck
  cases message <;> cases hvalidate <;> exact hchecked

/-- So does all of `FinalState`. -/
theorem Untouched.settle (h : Untouched base context)
    (hsettle : FinalState.settle b context = .ok (status, context')) : Untouched base context' := by
  cases hcommand : context.activeCommand with
  | none => simp [FinalState.settle, hcommand] at hsettle
  | some command =>
      obtain ⟨ps, -, heq, -⟩ | ⟨ps, left, -, -, -, heq, -⟩ | ⟨-, -, heq⟩ | ⟨fault, -, heq, -⟩ :=
        FinalState.settle_cases (b := b) hcommand
      · rw [heq] at hsettle
        exact Untouched.validate (h.with _ _ _ _ _) hsettle
      · rw [heq] at hsettle
        cases hsettle
        exact h.with _ _ _ _ _
      · rw [heq] at hsettle
        cases hsettle
      · rw [heq] at hsettle
        cases hsettle

end

section

variable {b : Build} {base : ParserContext V} {d d' : Data V} {event : Token} {state : State}

/-- `Handle` of each state. -/
theorem untouched_handle {action : Action} (h : Untouched base d.context)
    (hhandle : (machine b).handle state event d = .ok (action, d')) :
    Untouched base d'.context := by
  cases state with
  | initialState | dashDashState | finalState =>
      cases hhandle
      exact h
  | identifyCommandState =>
      obtain ⟨command, tokens, hcontext⟩ := identifyHandle_context hhandle
      rw [hcontext]
      exact h.with _ _ _ _ _
  | parseOptionsState =>
      obtain ⟨-, rfl⟩ | ⟨rfl, -⟩ := optionsHandle_ok hhandle
      · exact h.with _ _ _ _ _
      · exact h
  | parseShortOptionState =>
      obtain ⟨hcontext, -⟩ | ⟨-, -, hstores⟩ := shortHandle_values hhandle
      · exact hcontext ▸ h
      · exact h.storesOne hstores
  | parseLongOptionState =>
      obtain ⟨hcontext, -⟩ | ⟨-, -, hstores⟩ := longHandle_values hhandle
      · exact hcontext ▸ h
      · exact h.storesOne hstores

/-- `OnLeave` of each state. -/
theorem untouched_onLeave {status : Status} (h : Untouched base d.context)
    (hleave : (machine b).onLeave state event d = .ok (status, d')) :
    Untouched base d'.context := by
  cases state with
  | parseShortOptionState => exact h.leaveOption (shortLeave_ok hleave).1
  | parseLongOptionState => exact h.leaveOption (longLeave_ok hleave).1
  | initialState | identifyCommandState | parseOptionsState | dashDashState | finalState =>
      cases hleave
      exact h

/-- `OnEnter` of each state. -/
theorem untouched_onEnter {hasData : Bool} {status : Status} (h : Untouched base d.context)
    (hentered : (machine b).onEnter state event hasData d = .ok (status, d')) :
    Untouched base d'.context := by
  cases state with
  | initialState =>
      cases hentered
      exact h
  | identifyCommandState =>
      rw [identifyEnter_context hentered]
      exact h
  | parseOptionsState =>
      rw [optionsEnter_context hentered]
      exact h
  | parseShortOptionState =>
      obtain ⟨-, context, henter, rfl⟩ := shortOnEnter_ok hentered
      obtain ⟨option, rfl⟩ := enterOption_context henter
      exact h.with _ _ _ _ _
  | parseLongOptionState =>
      obtain ⟨-, context, henter, rfl⟩ := longOnEnter_ok hentered
      obtain ⟨option, rfl⟩ := enterOption_context henter
      exact h.with _ _ _ _ _
  | dashDashState =>
      obtain ⟨-, -, hentered⟩ := bind_eq_ok.mp hentered
      cases hentered
      exact h
  | finalState =>
      obtain ⟨context, hsettle, rfl⟩ := finalOnEnter_ok hentered
      exact h.settle hsettle

/-- **No step** of the machine touches what belongs to the CLI: all that a run writes, the loop
writes at its end. -/
theorem preserves_untouched (b : Build) (base : ParserContext V) :
    (machine b).Preserves fun d => Untouched base d.context where
  handle := untouched_handle
  onLeave := untouched_onLeave
  onEnter := untouched_onEnter

/-- In a run, nothing is written to the streams or the settings. -/
theorem untouched_of_reachable {context : CommandLineContext V} {commands : List (Command V)}
    {args : List String} {cfg : Config V} (h : Reachable b context commands args cfg) :
    Untouched (ParserContext.new context commands) cfg.data.context := by
  refine invariant_of_reachable
    (fun _ d => Untouched (ParserContext.new context commands) d.context) ?_
    (fun hd hstep _ => (preserves_untouched b _).step hd hstep) h
  change Untouched _ (InitialState.new (ParserContext.new context commands))
  unfold InitialState.new
  split
  · exact (Untouched.refl _).with _ _ _ _ _
  · exact .refl _

end

end Parser

end AsapClap
