import AsapClap.Parser.Reissue
import AsapClap.Parser.Names

/-!
# AsapClap.Parser.Once

Options that are not repeatable.  `CheckMultipleOccurrence` counts the values that
are stored, so it is right only if the value of an occurrence is stored before the
next one is looked at: an option state that has no value yet has an option without
values, and it stores one before it lets go.
-/

namespace AsapClap

variable {V : Type}

/-! ## Options that may occur once -/

/-- An option of the command that is not repeatable, and whose key no other option and no
positional argument has. -/
structure Command.Single (c : Command V) (o : ClapOption V) : Prop where
  mem : o ∈ c.options
  notRepeatable : ∀ semantics, o.valueSemantic = some semantics → semantics.isRepeatable = false
  unshared : ∀ o' ∈ c.options, o'.key = o.key → o' = o
  notPositional : ∀ p ∈ c.positionalArgs, p.key ≠ o.key

/-- How many values such an option may have: without value semantics it gets none. -/
def ClapOption.limit (o : ClapOption V) : Nat := if o.valueSemantic.isSome then 1 else 0

namespace Parser

open Errors

/-- No option of the active command that may occur once has more values than that. -/
def AtMostOnce (context : ParserContext V) : Prop :=
  ∀ c o, context.activeCommand = some c → c.Single o →
    context.ovm.occurrencesOf o.key ≤ o.limit

/-- The active option, if it may occur once, has no value yet. -/
def NotYet (context : ParserContext V) : Prop :=
  ∀ c o p, context.activeCommand = some c → context.activeOption = some p → c.Single o →
    p.key = o.key → p = o ∧ context.ovm.occurrencesOf o.key = 0

/-- What holds of the values while a state is the current one. -/
def ValuesIn : State → Data V → Prop
  | .initialState, d | .identifyCommandState, d => ∀ k, d.context.ovm.values k = []
  | .parseShortOptionState, d =>
      AtMostOnce d.context ∧ (d.shortValue = none → NotYet d.context)
  | .parseLongOptionState, d => AtMostOnce d.context ∧ (d.longValue = none → NotYet d.context)
  | .parseOptionsState, d | .dashDashState, d | .finalState, d => AtMostOnce d.context

/-- What holds of them when a state is about to be entered. -/
def ValuesEntering (state : State) (d : Data V) : Prop :=
  AtMostOnce d.context ∧
    (state = .initialState ∨ state = .identifyCommandState → ∀ k, d.context.ovm.values k = [])

/-! ## Storing one value -/

theorem atMostOnce_of_empty {context : ParserContext V} (h : ∀ k, context.ovm.values k = []) :
    AtMostOnce context := by
  intro c o _ _
  simp [OptionValuesMap.occurrencesOf, h]

/-- The value of an option that has none yet is its first. -/
theorem atMostOnce_of_storesOne {context context' : ParserContext V} (h : AtMostOnce context)
    (hnot : NotYet context) (hcommand : context'.activeCommand = context.activeCommand)
    (hstores : StoresOne context context') : AtMostOnce context' := by
  obtain ⟨value, text, hactive, hsem⟩ := hstores
  intro c o hc ho
  rw [hcommand] at hc
  rw [occurrencesOf_storeValue]
  split
  · next hkey =>
      obtain ⟨rfl, hnone⟩ := hnot c o _ hc hactive ho hkey
      simp [hnone, ClapOption.limit, hsem]
  · exact h c o hc ho

/-! ## The option states -/

section

variable {b : Build} {context context' : ParserContext V} {status : Status}

/-- An option passes the check if it has no value yet or is repeatable. -/
theorem checkMultipleOccurrence_ok {option : ClapOption V}
    (hoption : context.activeOption = some option)
    (h : checkMultipleOccurrence context = .ok true) :
    context.ovm.occurrencesOf option.key = 0 ∨
      ∃ semantics, option.valueSemantic = some semantics ∧ semantics.isRepeatable = true := by
  unfold checkMultipleOccurrence at h
  rw [hoption, deref_some, ok_bind] at h
  split at h
  · exact .inl (by omega)
  · obtain ⟨semantics, hsem, h⟩ := bind_eq_ok.mp h
    rw [deref_eq_ok] at hsem
    exact .inr ⟨semantics, hsem, Except.ok.inj h⟩

theorem atMostOnce_of_enterOption {flag token : String}
    {find : Command V → Option (ClapOption V)} {hasData : Bool} (hle : AtMostOnce context)
    (h : enterOption b flag find token hasData context = .ok (status, context')) :
    AtMostOnce context' := by
  obtain ⟨option, rfl⟩ := enterOption_context h
  exact hle

/-- An option state that is entered has an option without values, if it may occur once. -/
theorem notYet_of_enterOption {flag token : String} {find : Command V → Option (ClapOption V)}
    {hasData : Bool}
    (hfind : ∀ command option, find command = some option → option ∈ command.options)
    (hstatus : status = .continue_ ∨ status = .reissueEvent)
    (h : enterOption b flag find token hasData context = .ok (status, context')) :
    NotYet context' := by
  obtain ⟨command, hcommand, ⟨⟨message, rfl⟩, -⟩ | ⟨option, hfound, -, hcheck, rfl⟩⟩ :=
    enterOption_ok h
  · simp at hstatus
  · intro c o p hc hp ho hkey
    cases hp
    obtain rfl : command = c := Option.some.inj (hcommand.symm.trans hc)
    obtain rfl := ho.unshared option (hfind command option hfound) hkey
    refine ⟨rfl, ?_⟩
    obtain hnone | ⟨semantics, hsem, hrepeatable⟩ := checkMultipleOccurrence_ok rfl hcheck
    · exact hnone
    · rw [ho.notRepeatable semantics hsem] at hrepeatable
      cases hrepeatable

end

/-! ## FinalState -/

section

variable {b : Build} {context context' : ParserContext V} {status : Status}

/-- A default is stored only under a key without values. -/
theorem occurrencesOf_checkRequiredOptions {options : List (ClapOption V)} {k : String} {n : Nat}
    {message : Option String}
    (hdefault : ∀ p ∈ options, p.key = k → p.valueSemantic.isSome = true → 1 ≤ n)
    (hle : context.ovm.occurrencesOf k ≤ n)
    (h : FinalState.checkRequiredOptions options context = .ok (message, context')) :
    context'.ovm.occurrencesOf k ≤ n ∧ context'.activeCommand = context.activeCommand := by
  induction options generalizing context with
  | nil =>
      cases h
      exact ⟨hle, rfl⟩
  | cons option options ih =>
      have hrest := fun p hp => hdefault p (List.mem_cons_of_mem option hp)
      unfold FinalState.checkRequiredOptions at h
      split at h
      · exact ih hrest hle h
      · next hnone =>
          rw [Bool.not_eq_true, OptionValuesMap.hasOption_eq_false_iff] at hnone
          obtain ⟨semantics, hsem, h⟩ := bind_eq_ok.mp h
          rw [deref_eq_ok] at hsem
          split at h
          · next value text happly =>
              have hstored :
                  (context.storeValue option value text false).ovm.occurrencesOf k ≤ n := by
                rw [occurrencesOf_storeValue]
                split
                · next hkey =>
                    have hone := hdefault option List.mem_cons_self hkey (by simp [hsem])
                    rw [hkey] at hnone
                    simp only [OptionValuesMap.occurrencesOf, hnone, List.length_nil]
                    omega
                · exact hle
              obtain ⟨hcount, hactive⟩ := ih hrest hstored h
              exact ⟨hcount, hactive⟩
          · split at h
            · cases h
              exact ⟨hle, rfl⟩
            · exact ih hrest hle h

theorem atMostOnce_of_validate {command : Command V}
    (hcommand : context.activeCommand = some command) (hle : AtMostOnce context)
    (h : FinalState.validate command context = .ok (status, context')) : AtMostOnce context' := by
  rw [FinalState.validate_eq] at h
  obtain ⟨⟨message, context₁⟩, hcheck, h⟩ := bind_eq_ok.mp h
  have hcontext : context₁ = context' := by
    cases message <;> cases h <;> rfl
  subst hcontext
  have hdefault : ∀ o, command.Single o → ∀ p ∈ command.options ++ command.positionalArgs,
      p.key = o.key → p.valueSemantic.isSome = true → 1 ≤ o.limit := by
    intro o ho p hp hkey hsem
    obtain hp | hp := List.mem_append.mp hp
    · rw [← ho.unshared p hp hkey, ClapOption.limit, if_pos hsem]
    · exact absurd hkey (ho.notPositional p hp)
  intro c o hc ho
  by_cases hsame : c = command
  · subst hsame
    exact (occurrencesOf_checkRequiredOptions (hdefault o ho) (hle c o hcommand ho) hcheck).1
  · have hactive := (occurrencesOf_checkRequiredOptions (k := o.key)
      (n := context.ovm.occurrencesOf o.key + 1) (fun _ _ _ _ => by omega) (by omega) hcheck).2
    rw [hactive, hcommand] at hc
    exact absurd (Option.some.inj hc).symm hsame

/-- Positional arguments store nothing under the key of an option that shares it with none of
them. -/
theorem atMostOnce_of_storePositionals {command : Command V}
    (hcommand : context.activeCommand = some command) (hle : AtMostOnce context)
    {ps : List (ClapOption V × String)} (hps : ∀ p ∈ ps, p.1 ∈ command.positionalArgs)
    (tokens : List String) :
    AtMostOnce { FinalState.storePositionals context ps with positionalTokens := tokens } := by
  intro c o hc ho
  obtain rfl : command = c := Option.some.inj (hcommand.symm.trans hc)
  have hkept : (context.ovm.storeAll (ps.filterMap positionalEntry)).values o.key =
      context.ovm.values o.key :=
    values_storeAll_positionalEntry (fun p hp => ho.notPositional p.1 (hps p hp)) context.ovm
  have hsame : OptionValuesMap.occurrencesOf
      (context.ovm.storeAll (ps.filterMap positionalEntry)) o.key =
      context.ovm.occurrencesOf o.key := congrArg List.length hkept
  exact hsame.trans_le (hle command o hcommand ho)

theorem atMostOnce_of_settle (hle : AtMostOnce context)
    (h : FinalState.settle b context = .ok (status, context')) : AtMostOnce context' := by
  cases hcommand : context.activeCommand with
  | none => simp [FinalState.settle, hcommand] at h
  | some command =>
      obtain ⟨ps, hassigned, hsettle, -⟩ | ⟨ps, left, htake, -, -, hsettle, -⟩ |
        ⟨-, -, hsettle⟩ | ⟨fault, -, hsettle, -⟩ :=
        FinalState.settle_cases (b := b) hcommand
      · rw [hsettle] at h
        have hstored := atMostOnce_of_storePositionals hcommand hle (mem_of_assigned hassigned) []
        have hactive : ({ FinalState.storePositionals context ps with positionalTokens := [] } :
            ParserContext V).activeCommand = some command := hcommand
        exact atMostOnce_of_validate hactive hstored h
      · rw [hsettle] at h
        cases h
        exact atMostOnce_of_storePositionals hcommand hle (mem_of_takePositionals htake) left
      · rw [hsettle] at h
        cases h
      · rw [hsettle] at h
        cases h

end

/-! ## The machine -/

section

variable {b : Build} {d d' : Data V} {event : Token} {action : Action} {status : Status}

/-- What holds of the values in a state, its `Handle` keeps. -/
theorem valuesIn_of_handle {state : State} (hd : ValuesIn state d)
    (h : (machine b).handle state event d = .ok (action, d')) : ValuesIn state d' := by
  cases state with
  | initialState =>
      cases h
      exact hd
  | identifyCommandState =>
      intro k
      obtain ⟨command, tokens, hcontext⟩ := identifyHandle_context h
      rw [hcontext]
      exact hd k
  | parseOptionsState =>
      obtain ⟨-, rfl⟩ | ⟨rfl, -⟩ := optionsHandle_ok h
      · exact hd
      · exact hd
  | parseShortOptionState =>
      obtain ⟨hle, hnot⟩ := hd
      have hchoice := (sameMembers_of_shortHandle h).choice
      obtain ⟨hcontext, hvalue⟩ | ⟨hnone, hsome, hstores⟩ := shortHandle_values h
      · rw [ValuesIn, hcontext, hvalue]
        exact ⟨hle, hnot⟩
      · exact ⟨atMostOnce_of_storesOne hle (hnot hnone) hchoice.activeCommand hstores,
          fun hnone' => absurd hnone' hsome⟩
  | parseLongOptionState =>
      obtain ⟨hle, hnot⟩ := hd
      have hchoice := (sameMembers_of_longHandle h).choice
      obtain ⟨hcontext, hvalue⟩ | ⟨hnone, hsome, hstores⟩ := longHandle_values h
      · rw [ValuesIn, hcontext, hvalue]
        exact ⟨hle, hnot⟩
      · exact ⟨atMostOnce_of_storesOne hle (hnot hnone) hchoice.activeCommand hstores,
          fun hnone' => absurd hnone' hsome⟩
  | dashDashState | finalState =>
      cases h
      exact hd

theorem atMostOnce_of_valuesIn {state : State} (h : ValuesIn state d) : AtMostOnce d.context := by
  cases state with
  | initialState | identifyCommandState => exact atMostOnce_of_empty h
  | parseShortOptionState | parseLongOptionState => exact h.1
  | parseOptionsState | dashDashState | finalState => exact h

theorem tryValue_target {option : ClapOption V} {semantics : ValueSemantics V} {fallback : Bool}
    {token : String} {context context' : ParserContext V} {value : Option String} {target : State}
    {hasData : Bool} (hoption : context.activeOption = some option)
    (hsem : option.valueSemantic = some semantics)
    (h : tryValue option semantics fallback token context =
      .ok (.transitionTo target hasData, context', value)) : target = .parseOptionsState := by
  obtain ⟨-, -, haction | haction⟩ | ⟨-, -, message, haction⟩ := tryValue_ok hoption hsem h
  · cases haction
  · cases haction
    rfl
  · cases haction

/-- An option state only lets go to `ParseOptionsState`. -/
theorem shortHandle_target {target : State} {hasData : Bool}
    (h : ParseShortOptionState.handle b event d = .ok (.transitionTo target hasData, d')) :
    target = .parseOptionsState := by
  obtain ⟨haction, -⟩ | ⟨-, option, semantics, context, value, hoption, hsem, htry, -⟩ :=
    shortHandle_ok h
  · cases haction
    rfl
  · exact tryValue_target hoption hsem htry

theorem longHandle_target {target : State} {hasData : Bool}
    (h : ParseLongOptionState.handle b event d = .ok (.transitionTo target hasData, d')) :
    target = .parseOptionsState := by
  obtain ⟨haction, -⟩ | ⟨⟨message, haction⟩, -⟩ | ⟨haction, -⟩ |
    ⟨-, option, semantics, context, value, hoption, hsem, htry, -⟩ := longHandle_ok h
  · cases haction
    rfl
  · cases haction
  · cases haction
  · exact tryValue_target hoption hsem htry

theorem identifyHandle_target {target : State} {hasData : Bool}
    (h : IdentifyCommandState.handle b event d = .ok (.transitionTo target hasData, d')) :
    target ≠ .initialState ∧ target ≠ .identifyCommandState := by
  obtain ⟨d₁, -, hidentifies⟩ := identifyHandle_ok h
  cases hidentifies with
  | matched target found leaves => obtain rfl | rfl | rfl := leaves <;> simp
  | fallsBack => simp
  | stays hstays => exact absurd rfl (hstays target hasData)

/-- Only `InitialState` leads to `IdentifyCommandState`. -/
theorem target_of_handle {state target : State} {hasData : Bool}
    (h : handle b state event d = .ok (.transitionTo target hasData, d'))
    (htarget : target = .initialState ∨ target = .identifyCommandState) :
    state = .initialState := by
  cases state with
  | initialState => rfl
  | identifyCommandState =>
      obtain ⟨hinitial, hidentify⟩ := identifyHandle_target h
      exact absurd htarget (not_or.mpr ⟨hinitial, hidentify⟩)
  | parseOptionsState =>
      obtain ⟨haction, -⟩ | ⟨-, ⟨message, haction⟩ | ⟨target', haction, hother⟩⟩ :=
        optionsHandle_ok h
      · cases haction
      · cases haction
      · cases haction
        obtain rfl | rfl := htarget <;> simp at hother
  | parseShortOptionState =>
      rw [shortHandle_target h] at htarget
      simp at htarget
  | parseLongOptionState =>
      rw [longHandle_target h] at htarget
      simp at htarget
  | dashDashState | finalState => cases h

/-- An option state is left with one value more for its option, if it had none. -/
theorem atMostOnce_of_leaveOption {value : Option String} {context context' : ParserContext V}
    (hle : AtMostOnce context) (hnot : value = none → NotYet context)
    (h : leaveOption value context = .ok (status, context')) : AtMostOnce context' := by
  obtain rfl | ⟨hnone, hstores⟩ := storesOne_of_leaveOption h
  · exact hle
  · exact atMostOnce_of_storesOne hle (hnot hnone) (sameChoice_of_leaveOption h).activeCommand
      hstores

/-- A state is left with at most one value for every option that may occur once. -/
theorem valuesEntering_of_leave {state target : State} {hasData : Bool} {d₁ d₂ : Data V}
    (hd : ValuesIn state d)
    (hhandle : (machine b).handle state event d = .ok (.transitionTo target hasData, d₁))
    (hleave : (machine b).onLeave state event d₁ = .ok (status, d₂)) :
    AtMostOnce d₂.context ∧ status ≠ .reissueEvent ∧
      (status = .continue_ → ValuesEntering target d₂) := by
  have hd₁ := valuesIn_of_handle hd hhandle
  have hle : AtMostOnce d₂.context := by
    cases state with
    | parseShortOptionState =>
        exact atMostOnce_of_leaveOption hd₁.1 hd₁.2 (shortLeave_ok hleave).1
    | parseLongOptionState =>
        exact atMostOnce_of_leaveOption hd₁.1 hd₁.2 (longLeave_ok hleave).1
    | identifyCommandState =>
        cases hleave
        exact atMostOnce_of_empty hd₁
    | initialState | parseOptionsState | dashDashState | finalState =>
        cases hleave
        exact atMostOnce_of_valuesIn hd₁
  refine ⟨hle, status_of_onLeave hleave, fun _ => ⟨hle, fun htarget => ?_⟩⟩
  obtain rfl := target_of_handle hhandle htarget
  cases hleave
  exact hd₁

/-- A state that is entered and does not end the run begins with what holds in it. -/
theorem valuesIn_of_enter {target : State} {hasData : Bool} (hd : ValuesEntering target d)
    (h : (machine b).onEnter target event hasData d = .ok (status, d')) :
    AtMostOnce d'.context ∧
      (status = .continue_ ∨ status = .reissueEvent → ValuesIn target d') := by
  obtain ⟨hle, hempty⟩ := hd
  cases target with
  | initialState =>
      cases h
      exact ⟨hle, fun _ => hempty (.inl rfl)⟩
  | identifyCommandState =>
      have hempty' : ∀ k, d'.context.ovm.values k = [] := by
        rw [identifyEnter_context h]
        exact hempty (.inr rfl)
      exact ⟨atMostOnce_of_empty hempty', fun _ => hempty'⟩
  | parseOptionsState =>
      have hle' : AtMostOnce d'.context := optionsEnter_context h ▸ hle
      exact ⟨hle', fun _ => hle'⟩
  | parseShortOptionState =>
      obtain ⟨-, context, henter, rfl⟩ := shortOnEnter_ok h
      have hle' := atMostOnce_of_enterOption hle henter
      refine ⟨hle', fun hstatus => ⟨hle', fun _ => ?_⟩⟩
      exact notYet_of_enterOption (fun _ _ => List.mem_of_find?_eq_some) hstatus henter
  | parseLongOptionState =>
      obtain ⟨-, context, henter, rfl⟩ := longOnEnter_ok h
      have hle' := atMostOnce_of_enterOption hle henter
      refine ⟨hle', fun hstatus => ⟨hle', fun _ => ?_⟩⟩
      exact notYet_of_enterOption (fun _ _ => List.mem_of_find?_eq_some) hstatus henter
  | dashDashState =>
      obtain ⟨-, -, h⟩ := bind_eq_ok.mp h
      cases h
      exact ⟨hle, fun _ => hle⟩
  | finalState =>
      obtain ⟨context, hsettle, rfl⟩ := finalOnEnter_ok h
      have hle' := atMostOnce_of_settle hle hsettle
      exact ⟨hle', fun _ => hle'⟩

/-- The options that may occur once have at most one value, in every state. -/
theorem stateInvariant (b : Build) :
    (machine b (V := V)).StateInvariant ValuesIn ValuesEntering fun d => AtMostOnce d.context where
  out := atMostOnce_of_valuesIn
  handle := valuesIn_of_handle
  leave := valuesEntering_of_leave
  enter := valuesIn_of_enter

end

/-! ## Whole runs -/

section

variable {b : Build} {cfg : Config V}

theorem atMostOnce_of_returned {noErrors : Bool} {context : ParserContext V}
    (h : ValuesIn cfg.state cfg.data) (hturn : turn b cfg = .inr (.returned noErrors context)) :
    AtMostOnce context := by
  unfold turn at hturn
  split at hturn
  · cases hturn
  · next state data hstep =>
      cases hturn
      exact ((stateInvariant b).step h hstep).1
  · next message state data hstep =>
      cases hturn
      exact ((stateInvariant b).step h hstep).1
  · cases hturn
  · split at hturn <;> cases hturn

variable {context : CommandLineContext V} {commands : List (Command V)} {args : List String}

theorem valuesIn_of_reachable (hovm : context.ovm = ∅)
    (h : Reachable b context commands args cfg) : ValuesIn cfg.state cfg.data := by
  refine invariant_of_reachable ValuesIn ?_
    (fun hvalues hstep hstatus => ((stateInvariant b).step hvalues hstep).2 hstatus) h
  intro k
  have hinitial : (InitialState.new (ParserContext.new context commands)).ovm = context.ovm := by
    unfold InitialState.new
    split <;> rfl
  change (InitialState.new (ParserContext.new context commands)).ovm.values k = []
  rw [hinitial, hovm]
  rfl

/-- The option of an option state that has no value yet. -/
def Config.waiting (cfg : Config V) : Option (ClapOption V) :=
  match cfg.state with
  | .parseShortOptionState =>
      if cfg.data.shortValue.isNone then cfg.data.context.activeOption else none
  | .parseLongOptionState =>
      if cfg.data.longValue.isNone then cfg.data.context.activeOption else none
  | _ => none

/-- The run ends with the error for one occurrence too many of this option, which shows a value that
is there, and the values of the option are the same as before. -/
def RefusesAgain (b : Build) (context : CommandLineContext V) (commands : List (Command V))
    (args : List String) (cfg : Config V) (o : ClapOption V) : Prop :=
  ∃ before message,
    Parses b context commands args (.returned false (reportError before message)) ∧
    before.activeOption = some o ∧ illegalMultipleOccurrence b before = .ok message ∧
    before.ovm.values o.key = cfg.data.context.ovm.values o.key

/-- The run ends with the error for an option without a value, and nothing is stored. -/
def MissesValue (b : Build) (context : CommandLineContext V) (commands : List (Command V))
    (args : List String) (cfg : Config V) (p : ClapOption V) : Prop :=
  ∃ before message,
    Parses b context commands args (.returned false (reportError before message)) ∧
    before.activeOption = some p ∧ missingValueForOption before = .ok message ∧
    before.ovm = cfg.data.context.ovm

/-- Every option that may occur once has at most one value, in every state of a run and when it
ends. -/
structure OccursOnce (b : Build) (context : CommandLineContext V) (commands : List (Command V))
    (args : List String) : Prop where
  reachable : ∀ cfg c o, Reachable b context commands args cfg →
    cfg.data.context.activeCommand = some c → c.Single o →
    cfg.data.context.ovm.occurrencesOf o.key ≤ 1
  returned : ∀ noErrors result c o, Parses b context commands args (.returned noErrors result) →
    result.activeCommand = some c → c.Single o → result.ovm.occurrencesOf o.key ≤ 1

/-- The next token names an option that may occur once and has a value. -/
structure Config.NamesAgain (cfg : Config V) (c : Command V) (o : ClapOption V) : Prop where
  command : cfg.data.context.activeCommand = some c
  single : c.Single o
  names : c.resolve cfg.token = some o
  given : cfg.data.context.ovm.values o.key ≠ []

end

/-! ## Another occurrence -/

section

variable {b : Build} {cfg : Config V} {c : Command V} {o : ClapOption V}
  {context : ParserContext V} {token : Token}

/-- The error for another occurrence can be put into words. -/
theorem illegalMultipleOccurrence_ok (b : Build) (hoption : context.activeOption = some o)
    (hvalues : context.ovm.values o.key ≠ []) :
    ∃ message, illegalMultipleOccurrence b context = .ok message := by
  have hcontains : context.ovm.contains o.key = true := OptionValuesMap.hasOption_iff.mpr hvalues
  have hcount : 0 < context.ovm.occurrencesOf o.key :=
    OptionValuesMap.occurrencesOf_pos_iff.mpr hvalues
  obtain ⟨value, rest, hcons⟩ := List.exists_cons_of_ne_nil hvalues
  simp [illegalMultipleOccurrence, hoption, hcount, OptionValuesMap.valuesOf?, hcontains, hcons]

/-- An option that may occur once is not entered when it has a value. -/
theorem enterOption_again (flag text : String) (find : Command V → Option (ClapOption V))
    (hcommand : context.activeCommand = some c) (ho : c.Single o) (hfind : find c = some o)
    (hle : AtMostOnce context) (hvalues : context.ovm.values o.key ≠ []) :
    ∃ message before, enterOption b flag find text true context =
        .ok (.terminateWithError message, before) ∧
      before.activeOption = some o ∧ before.ovm = context.ovm ∧
      illegalMultipleOccurrence b before = .ok message := by
  have hpos : 0 < context.ovm.occurrencesOf o.key :=
    OptionValuesMap.occurrencesOf_pos_iff.mpr hvalues
  have hlimit := hle c o hcommand ho
  -- an option without value semantics gets no value
  have hsome : o.valueSemantic.isSome = true := by
    by_contra hnone
    rw [ClapOption.limit, if_neg hnone] at hlimit
    omega
  obtain ⟨semantics, hsem⟩ := Option.isSome_iff_exists.mp hsome
  have hcheck : checkMultipleOccurrence
      { context with activeOptionFlag := flag, activeOption := some o } = .ok false := by
    simp [checkMultipleOccurrence, hpos.ne', hsem, ho.notRepeatable semantics hsem]
  obtain ⟨message, hmessage⟩ : ∃ message, illegalMultipleOccurrence b
      { context with activeOptionFlag := flag, activeOption := some o } = .ok message :=
    illegalMultipleOccurrence_ok b rfl hvalues
  refine ⟨message, { context with activeOptionFlag := flag, activeOption := some o }, ?_, rfl, rfl,
    hmessage⟩
  simp [enterOption, hcommand, hfind, hcheck, hmessage]

/-- Nor does its token get anywhere once no option waits for a value. -/
theorem dispatch_again (hcommand : context.activeCommand = some c) (ho : c.Single o)
    (hresolve : c.resolve token = some o) (hle : AtMostOnce context)
    (hvalues : context.ovm.values o.key ≠ []) :
    ∃ message before, dispatch b context token = .error (.rejected message before) ∧
      before.activeOption = some o ∧ before.ovm = context.ovm ∧
      illegalMultipleOccurrence b before = .ok message := by
  obtain ⟨tokenType, text⟩ := token
  cases tokenType with
  | shortOption | loneDash =>
      obtain ⟨message, before, henter, hrefused⟩ := enterOption_again (b := b)
        ("-" ++ text) text (·.findShortOption text) hcommand ho hresolve hle hvalues
      exact ⟨message, before, by rw [dispatch, henter]; rfl, hrefused⟩
  | longOption =>
      obtain ⟨message, before, henter, hrefused⟩ := enterOption_again (b := b)
        ("--" ++ text) text (·.findLongOption text) hcommand ho hresolve hle hvalues
      exact ⟨message, before, by rw [dispatch, henter]; rfl, hrefused⟩
  | _ => cases hresolve

theorem ne_of_resolve (h : c.resolve token = some o) :
    token.1 ≠ .value ∧ token.1 ≠ .equalSign ∧ token.1 ≠ .endOfInput := by
  obtain ⟨tokenType, text⟩ := token
  cases tokenType with
  | shortOption | loneDash | longOption => simp
  | _ => cases h

end

section

variable {b : Build} {context : CommandLineContext V} {commands : List (Command V)}
  {args : List String} {cfg : Config V} {c : Command V} {o p : ClapOption V}
  {phase : Phase} {shared : ParserContext V} {rest : List Token}

/-- A run whose pass stops at the next token ends with that error. -/
theorem parses_of_rejected {message : String} {before : ParserContext V}
    (hreach : Reachable b context commands args cfg)
    (hmatches : cfg.Matches phase shared (cfg.token :: rest))
    (hadvance : advance b phase shared cfg.token = .error (.rejected message before)) :
    Parses b context commands args (.returned false (reportError before message)) := by
  rw [Parses, Loop.returns_iff_of_reaches hreach]
  have houtcome := outcome_of_matches (b := b) hmatches
  rwa [scan_cons, hadvance, error_bind, conclude] at houtcome

/-- An option that waits for a value is not the one that has one: it is left with its implicit
value, and the values of the other one stay. -/
theorem leaveOption_given {value : Option String} (hle : AtMostOnce shared)
    (hnot : value = none → NotYet shared) (hcommand : shared.activeCommand = some c)
    (ho : c.Single o) (hvalues : shared.ovm.values o.key ≠ [])
    (hoption : shared.activeOption = some p) (himplicit : value = none → p.implicit.isSome) :
    ∃ left, leaveOption value shared = .ok (.continue_, left) ∧ left.activeCommand = some c ∧
      left.ovm.values o.key = shared.ovm.values o.key ∧ AtMostOnce left := by
  cases value with
  | some value => exact ⟨shared, leaveOption_some value shared, hcommand, rfl, hle⟩
  | none =>
      obtain ⟨⟨default, text⟩, himplicit⟩ := Option.isSome_iff_exists.mp (himplicit rfl)
      obtain ⟨semantics, hsem, happly⟩ := Option.bind_eq_some_iff.mp himplicit
      have hleave : leaveOption none shared =
          .ok (.continue_, shared.storeValue p default text false) := by
        rw [leaveOption_none hoption, hsem, deref_some, ok_bind, happly]
        rfl
      have hkey : p.key ≠ o.key := by
        intro hkey
        obtain ⟨-, hnone⟩ := hnot rfl c o p hcommand hoption ho hkey
        exact hvalues (List.length_eq_zero_iff.mp hnone)
      refine ⟨_, hleave, hcommand, ?_, atMostOnce_of_leaveOption hle hnot hleave⟩
      unfold ParserContext.storeValue OptionValuesMap.storeValue
      rw [Multimap.values_store, if_neg hkey, List.append_nil]

theorem leaveOption_missing (hoption : shared.activeOption = some p)
    (hsem : p.valueSemantic.isSome = true) (himplicit : p.implicit = none) :
    ∃ message, missingValueForOption shared = .ok message ∧
      leaveOption none shared = .ok (.terminateWithError message, shared) := by
  obtain ⟨semantics, hsem⟩ := Option.isSome_iff_exists.mp hsem
  have happly : semantics.applyImplicit = none := by
    simpa [ClapOption.implicit, hsem] using himplicit
  refine ⟨_, by rw [missingValueForOption, hoption, deref_some, ok_bind]; rfl, ?_⟩
  rw [leaveOption_none hoption, hsem, deref_some, ok_bind, happly, missingValueForOption, hoption]
  rfl

/-- An option state without a value has the active option waiting. -/
theorem waiting_of_matches {tokens : List Token}
    (h : cfg.Matches phase shared tokens) (hoption : shared.activeOption = some p)
    (hphase : phase = .short none ∨ ∃ afterEqual, phase = .long none afterEqual) :
    cfg.waiting = some p := by
  unfold Config.waiting
  rw [h.state, h.data]
  obtain rfl | ⟨afterEqual, rfl⟩ := hphase
  · exact hoption
  · exact hoption

/-- Once the option in front is settled, another occurrence is refused. -/
theorem refusesAgain_of_advance {left : ParserContext V}
    (hreach : Reachable b context commands args cfg) (h : cfg.NamesAgain c o)
    (hmatches : cfg.Matches phase shared (cfg.token :: rest))
    (hadvance : advance b phase shared cfg.token = dispatch b left cfg.token)
    (hleft : left.activeCommand = some c) (hle : AtMostOnce left)
    (hsame : left.ovm.values o.key = shared.ovm.values o.key) :
    RefusesAgain b context commands args cfg o := by
  obtain ⟨-, ho, hnames, hgiven⟩ := h
  rw [context_of_matches hmatches, ← hsame] at hgiven
  obtain ⟨message, before, hdispatch, hoption, hbefore, hmessage⟩ :=
    dispatch_again (b := b) hleft ho hnames hle hgiven
  refine ⟨before, message, ?_, hoption, hmessage, ?_⟩
  · exact parses_of_rejected hreach hmatches (hadvance.trans hdispatch)
  · rw [hbefore, hsame, context_of_matches hmatches]

/-- Another occurrence is refused behind an option that has a value or an implicit one. -/
theorem refusesAgain_of_leaveOption {value : Option String}
    (hreach : Reachable b context commands args cfg) (h : cfg.NamesAgain c o)
    (hmatches : cfg.Matches phase shared (cfg.token :: rest))
    (hadvance : advance b phase shared cfg.token =
      accept (leaveOption value shared) >>= (dispatch b · cfg.token))
    (hvalues : AtMostOnce shared ∧ (value = none → NotYet shared))
    (hoption : shared.activeOption = some p) (himplicit : value = none → p.implicit.isSome) :
    RefusesAgain b context commands args cfg o := by
  obtain ⟨hcommand, ho, -, hgiven⟩ := id h
  rw [context_of_matches hmatches] at hcommand hgiven
  obtain ⟨left, hleave, hleft, hsame, hle⟩ :=
    leaveOption_given hvalues.1 hvalues.2 hcommand ho hgiven hoption himplicit
  rw [hleave, accept_continue, ok_bind] at hadvance
  exact refusesAgain_of_advance hreach h hmatches hadvance hleft hle hsame

/-- Another occurrence of an option that has a value is refused, behind whatever option it stands
that does not wait for a value of its own. -/
theorem refusesAgain_of_namesAgain (hovm : context.ovm = ∅)
    (hreach : Reachable b context commands args cfg) (h : cfg.NamesAgain c o)
    (hstate : cfg.state ≠ .dashDashState)
    (hwaiting : ∀ p, cfg.waiting = some p → p.implicit.isSome) :
    RefusesAgain b context commands args cfg o := by
  obtain ⟨hvalue, hequal, hend⟩ := ne_of_resolve h.names
  obtain ⟨phase, shared, tokens, hmatches, -⟩ :=
    (orderly_of_reachable hreach).resolve_right hstate
  obtain ⟨rest, rfl⟩ := exists_cons_of_delivers hmatches.delivers hend
  have hvalues := valuesIn_of_reachable hovm hreach
  rw [hmatches.state, hmatches.data] at hvalues
  obtain ⟨hcommand, -, -, hgiven⟩ := id h
  rw [context_of_matches hmatches] at hcommand hgiven
  cases phase with
  | start | naming => exact absurd (hvalues o.key) hgiven
  | ready => exact refusesAgain_of_advance hreach h hmatches rfl hcommand hvalues rfl
  | short value =>
      obtain ⟨p, hoption⟩ := Option.isSome_iff_exists.mp hmatches.wf.2
      refine refusesAgain_of_leaveOption hreach h hmatches (advance_short_other hvalue) hvalues
        hoption fun hnone => ?_
      subst hnone
      exact hwaiting p (waiting_of_matches hmatches hoption (.inl rfl))
  | long value afterEqual =>
      obtain ⟨p, hoption⟩ := Option.isSome_iff_exists.mp hmatches.wf.2
      refine refusesAgain_of_leaveOption hreach h hmatches (advance_long_other hvalue hequal)
        hvalues hoption fun hnone => ?_
      subst hnone
      exact hwaiting p (waiting_of_matches hmatches hoption (.inr ⟨afterEqual, rfl⟩))

/-- Where an option waits for a value and has no implicit one, the run ends with that. -/
theorem missesValue_of_waiting (hreach : Reachable b context commands args cfg)
    (hnames : c.resolve cfg.token = some o) (hwaiting : cfg.waiting = some p)
    (hsem : p.valueSemantic.isSome = true) (himplicit : p.implicit = none) :
    MissesValue b context commands args cfg p := by
  obtain ⟨hvalue, hequal, hend⟩ := ne_of_resolve hnames
  have hstate : cfg.state ≠ .dashDashState := by
    intro hstate
    simp [Config.waiting, hstate] at hwaiting
  obtain ⟨phase, shared, tokens, hmatches, -⟩ :=
    (orderly_of_reachable hreach).resolve_right hstate
  obtain ⟨rest, rfl⟩ := exists_cons_of_delivers hmatches.delivers hend
  have hcontext := context_of_matches hmatches
  have hends : shared.activeOption = some p →
      advance b phase shared cfg.token =
        accept (leaveOption none shared) >>= (dispatch b · cfg.token) →
      MissesValue b context commands args cfg p := by
    intro hoption hadvance
    obtain ⟨message, hmessage, hleave⟩ := leaveOption_missing hoption hsem himplicit
    rw [hleave, accept_terminateWithError, error_bind] at hadvance
    exact ⟨shared, message, parses_of_rejected hreach hmatches hadvance, hoption, hmessage,
      by rw [hcontext]⟩
  unfold Config.waiting at hwaiting
  rw [hmatches.state, hmatches.data] at hwaiting
  cases phase with
  | start | naming | ready => cases hwaiting
  | short value =>
      cases value with
      | some value => cases hwaiting
      | none => exact hends hwaiting (advance_short_other hvalue)
  | long value afterEqual =>
      cases value with
      | some value => cases hwaiting
      | none => exact hends hwaiting (advance_long_other hvalue hequal)

/-- In every run, the options that may occur once have at most one value, and another occurrence of
one that has a value is refused at once. -/
structure RefusesRepeats (b : Build) (context : CommandLineContext V) (commands : List (Command V))
    (args : List String) : Prop where
  once : OccursOnce b context commands args
  refused : ∀ cfg c o, Reachable b context commands args cfg → cfg.NamesAgain c o →
    RefusesAgain b context commands args cfg o

/-- The same, but a repeated option is not seen behind a `--`, and an option in front of it that is
still without a value comes first. -/
structure RefusesRepeatsInTurn (b : Build) (context : CommandLineContext V)
    (commands : List (Command V)) (args : List String) : Prop where
  once : OccursOnce b context commands args
  refused : ∀ cfg c o, Reachable b context commands args cfg → cfg.NamesAgain c o →
    cfg.state ≠ .dashDashState → (∀ p, cfg.waiting = some p → p.implicit.isSome) →
    RefusesAgain b context commands args cfg o
  missing : ∀ cfg c o p, Reachable b context commands args cfg → cfg.NamesAgain c o →
    cfg.waiting = some p → p.valueSemantic.isSome → p.implicit = none →
    MissesValue b context commands args cfg p

theorem limit_le_one (o : ClapOption V) : o.limit ≤ 1 := by
  unfold ClapOption.limit
  split <;> omega

theorem occursOnce (hovm : context.ovm = ∅) : OccursOnce b context commands args where
  reachable := by
    intro cfg c o hreach hcommand ho
    have hle := atMostOnce_of_valuesIn (valuesIn_of_reachable hovm hreach) c o hcommand ho
    exact hle.trans (limit_le_one o)
  returned := by
    intro noErrors result c o hparses hcommand ho
    obtain ⟨cfg, hreach, hlast⟩ := Loop.returns_iff_reaches.mp hparses
    have hle := atMostOnce_of_returned (valuesIn_of_reachable hovm hreach) hlast c o hcommand ho
    exact hle.trans (limit_le_one o)

/-- **Options that may occur once have at most one value**, and a run that meets one again ends with
the error that says so, or with that of the option in front that has no value. -/
theorem refusesRepeatsInTurn (b : Build) (context : CommandLineContext V)
    (commands : List (Command V)) (args : List String) (hovm : context.ovm = ∅) :
    RefusesRepeatsInTurn b context commands args where
  once := occursOnce hovm
  refused := fun _ _ _ hreach h hstate hwaiting =>
    refusesAgain_of_namesAgain hovm hreach h hstate hwaiting
  missing := fun _ _ _ _ hreach h hwaiting hsem himplicit =>
    missesValue_of_waiting hreach h.names hwaiting hsem himplicit

end

/-- An option with the name of somebody to call, and one with how loudly. -/
def called : ClapOption String where
  key := "called"
  longName := "called"
  valueSemantic := some ValueSemantics.text

def loudness : ClapOption String where
  key := "loudness"
  longName := "loudness"
  valueSemantic := some ValueSemantics.text

/-- A default command with both. -/
def callOut : Command String := { Command.plainDefault with options := [called, loudness] }

theorem refusesRepeatsInTurn_callOut :
    RefusesRepeatsInTurn .debug { programName := "prog" } [callOut]
      ["--called=bob", "--loudness", "--called=al"] :=
  refusesRepeatsInTurn _ _ _ _ rfl

theorem single_called : callOut.Single called where
  mem := List.mem_cons_self
  notRepeatable := by
    intro semantics hsem
    cases hsem
    rfl
  unshared := by simp [callOut, called, loudness]
  notPositional := by simp [callOut, Command.plainDefault]

/-- In front of the second `--called` there is an option without a value, and that is the error. -/
theorem not_refusesRepeats_callOut :
    ¬RefusesRepeats .debug { programName := "prog" } [callOut]
      ["--called=bob", "--loudness", "--called=al"] := by
  intro h
  obtain ⟨cfg, hafter, htoken, hcommand, hvalues⟩ : ∃ cfg, Loop.after (turn .debug) 6
      (start { programName := "prog" } [callOut]
        ["--called=bob", "--loudness", "--called=al"]) = some cfg ∧
      cfg.token = (.longOption, "called") ∧ cfg.data.context.activeCommand = some callOut ∧
      cfg.data.context.ovm.values "called" = [⟨"bob", "bob", false⟩] :=
    ⟨_, rfl, rfl, rfl, rfl⟩
  have hnames : cfg.NamesAgain callOut called := by
    refine ⟨hcommand, single_called, ?_, ?_⟩
    · rw [htoken]
      rfl
    · rw [called, hvalues]
      simp
  obtain ⟨before, message, hparses, hcalled, -, -⟩ :=
    h.refused cfg callOut called (Loop.reaches_of_after hafter) hnames
  obtain ⟨result, hrun, hloudness⟩ : ∃ result, Loop.run (turn .debug) 7
      (start { programName := "prog" } [callOut]
        ["--called=bob", "--loudness", "--called=al"]) = some (.returned false result) ∧
      result.activeOption = some loudness := ⟨_, rfl, rfl⟩
  cases Loop.returns_unique hparses ⟨7, hrun⟩
  have hsame : called = loudness := Option.some.inj (hcalled.symm.trans hloudness)
  exact absurd (congrArg ClapOption.key hsame) (by decide)

end Parser

end AsapClap
