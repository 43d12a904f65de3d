import AsapClap.Parser.Invariant
import AsapClap.Parser.Storing
import AsapClap.Parser.Final

/-!
# AsapClap.Parser.History

What a run has done stays done: from one configuration to a later one values are only added to
the map, each of them supplied by an option of a known command, a command that was selected is
not given up, and nothing is written but the line of an error at the very end.
-/

namespace AsapClap

variable {V : Type}

/-- What an option can put into the map: what a token parses to, its implicit value or its
default. -/
inductive ClapOption.Supplies (o : ClapOption V) : OptionValue V → Prop
  | parsed {value : V} {token : String} (defaulted : Bool) (h : o.parse token = some value) :
      o.Supplies ⟨value, token, defaulted⟩
  | implicit {value : V} {text : String} (h : o.implicit = some (value, text)) :
      o.Supplies ⟨value, text, false⟩
  | default {value : V} {text : String} (h : o.default? = some (value, text)) :
      o.Supplies ⟨value, text, false⟩

namespace Parser

open Errors

/-- The options and positional arguments of these commands. -/
def Declared (Q : Command V → Prop) (o : ClapOption V) : Prop :=
  ∃ c, Q c ∧ o ∈ c.options ++ c.positionalArgs

/-- An entry of the map that a declared option supplies. -/
def IsSupplied (Q : Command V → Prop) (e : String × OptionValue V) : Prop :=
  ∃ o, Declared Q o ∧ o.key = e.1 ∧ o.Supplies e.2

/-- From one context to a later one, values are added and nothing is written. -/
structure Adds (Q : Command V → Prop) (base context : ParserContext V) : Prop where
  untouched : Untouched base context
  stored : ∃ es, (∀ e ∈ es, IsSupplied Q e) ∧ context.ovm = base.ovm.storeAll es

section

variable {b : Build} {Q : Command V → Prop} {base context context' : ParserContext V}
  {status : Status}

theorem Adds.refl (Q : Command V → Prop) (context : ParserContext V) : Adds Q context context :=
  ⟨.refl _, [], by simp, rfl⟩

/-- All but the map may be replaced. -/
theorem Adds.with (h : Adds Q base context) (command : Option (Command V))
    (option : Option (ClapOption V)) (flag : String) (tokens : List String) :
    Adds Q base { context with
      activeCommand := command
      activeOption := option
      activeOptionFlag := flag
      positionalTokens := tokens } :=
  ⟨h.untouched.with _ _ _ _ _, h.stored⟩

/-- Entries that options supply may be put behind the others. -/
theorem Adds.storeAll (h : Adds Q base context) (es : List (String × OptionValue V))
    (hes : ∀ e ∈ es, IsSupplied Q e) :
    Adds Q base { context with ovm := context.ovm.storeAll es } := by
  obtain ⟨es', hes', hovm⟩ := h.stored
  refine ⟨h.untouched.with _ _ _ _ _, es' ++ es, ?_, ?_⟩
  · intro e he
    exact (List.mem_append.mp he).elim (hes' e) (hes e)
  · rw [Multimap.storeAll_append, ← hovm]

/-- So may one value, by the option that is to have it. -/
theorem Adds.storeValue (h : Adds Q base context) {o : ClapOption V} {value : V} {text : String}
    {defaulted : Bool} (ho : Declared Q o) (hsupplies : o.Supplies ⟨value, text, defaulted⟩) :
    Adds Q base (context.storeValue o value text defaulted) := by
  refine h.storeAll [(o.key, ⟨value, text, defaulted⟩)] ?_
  intro e he
  obtain rfl := List.mem_singleton.mp he
  exact ⟨o, ho, rfl, hsupplies⟩

/-- A value under a key was there, or an option with the key supplies it. -/
theorem exists_supplies_of_mem {es : List (String × OptionValue V)}
    (hes : ∀ e ∈ es, IsSupplied Q e) {ovm : OptionValuesMap V} {k : String} {v : OptionValue V}
    (h : v ∈ (ovm.storeAll es).values k) :
    v ∈ ovm.values k ∨ ∃ o, Declared Q o ∧ o.key = k ∧ o.Supplies v := by
  rw [Multimap.values_storeAll] at h
  obtain hold | hnew := List.mem_append.mp h
  · exact .inl hold
  · obtain ⟨e, he, rfl⟩ := List.mem_map.mp hnew
    obtain ⟨hmem, hkey⟩ := List.mem_filter.mp he
    obtain ⟨o, ho, heq, hsupplies⟩ := hes e hmem
    exact .inr ⟨o, ho, heq.trans (of_decide_eq_true hkey), hsupplies⟩

/-! ## The option states -/

/-- The implicit value that an option is left with is one it supplies. -/
theorem Adds.leaveOption {value : Option String} (h : Adds Q base context)
    (hactive : ∀ o, context.activeOption = some o → Declared Q o)
    (hleave : leaveOption value context = .ok (status, context')) : Adds Q base context' := by
  obtain ⟨-, -, rfl⟩ | ⟨-, ⟨-, rfl⟩ |
    ⟨-, option, semantics, v, text, hoption, hsem, himplicit, rfl⟩⟩ := leaveOption_ok hleave
  · exact h
  · exact h
  · exact h.storeValue (hactive option hoption)
      (.implicit (by simp [ClapOption.implicit, hsem, himplicit]))

/-- A value that is offered to an option is stored as what it parses to, or the implicit one is. -/
theorem Adds.tryValue {option : ClapOption V} {semantics : ValueSemantics V} {fallback : Bool}
    {token : String} {action : Action} {value : Option String} (h : Adds Q base context)
    (hactive : ∀ o, context.activeOption = some o → Declared Q o)
    (hoption : context.activeOption = some option) (hsem : option.valueSemantic = some semantics)
    (htry : tryValue option semantics fallback token context = .ok (action, context', value)) :
    Adds Q base context' := by
  cases hparse : semantics.parse token with
  | some parsed =>
      rw [tryValue_of_parse hparse] at htry
      cases htry
      exact h.storeValue (hactive option hoption)
        (.parsed false (by simp [ClapOption.parse, hsem, hparse]))
  | none =>
      by_cases hmissing : fallback = false ∨ semantics.applyImplicit = none
      · rw [tryValue_of_missing hoption hsem hparse hmissing] at htry
        obtain ⟨message, -, htry⟩ := bind_eq_ok.mp htry
        cases htry
        exact h
      · obtain ⟨hfallback, himplicit⟩ := not_or.mp hmissing
        obtain ⟨⟨parsed, text⟩, himplicit⟩ := Option.ne_none_iff_exists'.mp himplicit
        obtain rfl : fallback = true := by simpa using hfallback
        rw [tryValue_of_implicit hoption hsem hparse himplicit] at htry
        cases htry
        exact h.storeValue (hactive option hoption)
          (.implicit (by simp [ClapOption.implicit, hsem, himplicit]))

/-! ## FinalState -/

/-- The check of the options stores their defaults; the induction is on the options. -/
theorem Adds.checkRequiredOptions {options : List (ClapOption V)} {message : Option String}
    (h : Adds Q base context) (hoptions : ∀ o ∈ options, Declared Q o)
    (hcheck : FinalState.checkRequiredOptions options context = .ok (message, context')) :
    Adds Q base context' := by
  induction options generalizing context with
  | nil =>
      cases hcheck
      exact h
  | cons option options ih =>
      obtain ⟨hoption, hoptions⟩ := List.forall_mem_cons.mp hoptions
      unfold FinalState.checkRequiredOptions at hcheck
      split at hcheck
      · exact ih h hoptions hcheck
      · obtain ⟨semantics, hsem, hcheck⟩ := bind_eq_ok.mp hcheck
        rw [deref_eq_ok] at hsem
        split at hcheck
        · next value text hdefault =>
          refine ih (h.storeValue hoption (.default ?_)) hoptions hcheck
          simp [ClapOption.default?, hsem, hdefault]
        · split at hcheck
          · cases hcheck
            exact h
          · exact ih h hoptions hcheck

/-- Both checks do, and change nothing else. -/
theorem Adds.validate {command : Command V} (h : Adds Q base context)
    (hcommand : Q command)
    (hvalidate : FinalState.validate command context = .ok (status, context')) :
    Adds Q base context' := by
  rw [FinalState.validate_eq] at hvalidate
  obtain ⟨⟨message, context₁⟩, hcheck, hvalidate⟩ := bind_eq_ok.mp hvalidate
  have hchecked := h.checkRequiredOptions (fun o ho => ⟨command, hcommand, ho⟩) hcheck
  cases message <;> cases hvalidate <;> exact hchecked

/-- What the positional arguments make of their tokens. -/
theorem Adds.storePositionals {command : Command V} {ps : List (ClapOption V × String)}
    (h : Adds Q base context) (hcommand : Q command)
    (hps : ∀ p ∈ ps, p.1 ∈ command.positionalArgs) (tokens : List String) :
    Adds Q base
      { FinalState.storePositionals context ps with positionalTokens := tokens } := by
  refine (h.storeAll (ps.filterMap positionalEntry) ?_).with _ _ _ _
  intro e he
  obtain ⟨p, hp, hentry⟩ := List.mem_filterMap.mp he
  obtain ⟨value, hparse, rfl⟩ := Option.map_eq_some_iff.mp hentry
  exact ⟨p.1, ⟨command, hcommand, List.mem_append_right _ (hps p hp)⟩, rfl, .parsed true hparse⟩

/-- **The end of a parse** adds the positional values and the defaults. -/
theorem Adds.settle (h : Adds Q base context)
    (hactive : ∀ c, context.activeCommand = some c → Q c)
    (hsettle : FinalState.settle b context = .ok (status, context')) : Adds Q base context' := by
  cases hcommand : context.activeCommand with
  | none => simp [FinalState.settle, hcommand] at hsettle
  | some command =>
      obtain ⟨ps, hassigned, heq, -⟩ | ⟨ps, left, htake, -, -, heq, -⟩ | ⟨-, -, heq⟩ |
        ⟨fault, -, heq, -⟩ := FinalState.settle_cases (b := b) hcommand
      · rw [heq] at hsettle
        exact (h.storePositionals (hactive _ hcommand) (mem_of_assigned hassigned) []).validate
          (hactive _ hcommand) hsettle
      · rw [heq] at hsettle
        cases hsettle
        exact h.storePositionals (hactive _ hcommand) (mem_of_takePositionals htake) left
      · rw [heq] at hsettle
        cases hsettle
      · rw [heq] at hsettle
        cases hsettle

end

/-! ## Whole runs -/

section

variable {b : Build} {Q : Command V → Prop} {base : ParserContext V} {d d' : Data V}
  {event : Token} {state : State}

/-- The active option is one of the command that is active. -/
theorem Data.Over.declared (h : d.Over Q) :
    ∀ o, d.context.activeOption = some o → Declared Q o := by
  intro o ho
  obtain ⟨c, hc, hmem⟩ := h.option o ho
  exact ⟨c, hc, List.mem_append_left _ hmem⟩

/-- `Handle` of each state: only the option states store anything. -/
theorem adds_handle {action : Action} (hover : d.Over Q) (h : Adds Q base d.context)
    (hhandle : (machine b).handle state event d = .ok (action, d')) : Adds Q base d'.context := by
  cases state with
  | initialState | dashDashState | finalState =>
      cases hhandle
      exact h
  | identifyCommandState =>
      obtain ⟨command, tokens, hcontext⟩ := identifyHandle_context hhandle
      rw [hcontext]
      exact h.with _ _ _ _
  | parseOptionsState =>
      obtain ⟨-, rfl⟩ | ⟨rfl, -⟩ := optionsHandle_ok hhandle
      · exact h.with _ _ _ _
      · exact h
  | parseShortOptionState =>
      obtain ⟨-, rfl⟩ | ⟨-, option, semantics, context, value, hoption, hsem, htry, rfl⟩ :=
        shortHandle_ok hhandle
      · exact h
      · exact h.tryValue hover.declared hoption hsem htry
  | parseLongOptionState =>
      obtain ⟨-, rfl⟩ | ⟨-, rfl⟩ | ⟨-, rfl⟩ |
        ⟨-, option, semantics, context, value, hoption, hsem, htry, rfl⟩ := longHandle_ok hhandle
      · exact h
      · exact h
      · exact h
      · exact h.tryValue hover.declared hoption hsem htry

/-- `OnLeave` stores at most an implicit value. -/
theorem adds_onLeave {status : Status} (hover : d.Over Q) (h : Adds Q base d.context)
    (hleave : (machine b).onLeave state event d = .ok (status, d')) : Adds Q base d'.context := by
  cases state with
  | parseShortOptionState => exact h.leaveOption hover.declared (shortLeave_ok hleave).1
  | parseLongOptionState => exact h.leaveOption hover.declared (longLeave_ok hleave).1
  | initialState | identifyCommandState | parseOptionsState | dashDashState | finalState =>
      cases hleave
      exact h

/-- `OnEnter` stores in `FinalState` alone. -/
theorem adds_onEnter {hasData : Bool} {status : Status} (hover : d.Over Q)
    (h : Adds Q base d.context)
    (hentered : (machine b).onEnter state event hasData d = .ok (status, d')) :
    Adds Q base d'.context := by
  cases state with
  | initialState =>
      cases hentered
      exact h
  | identifyCommandState =>
      rw [identifyEnter_context hentered]
      exact h
  | parseOptionsState =>
      rw [optionsEnter_context hentered]
      exact h
  | parseShortOptionState =>
      obtain ⟨-, context, henter, rfl⟩ := shortOnEnter_ok hentered
      obtain ⟨option, rfl⟩ := enterOption_context henter
      exact h.with _ _ _ _
  | parseLongOptionState =>
      obtain ⟨-, context, henter, rfl⟩ := longOnEnter_ok hentered
      obtain ⟨option, rfl⟩ := enterOption_context henter
      exact h.with _ _ _ _
  | dashDashState =>
      obtain ⟨-, -, hentered⟩ := bind_eq_ok.mp hentered
      cases hentered
      exact h
  | finalState =>
      obtain ⟨context, hsettle, rfl⟩ := finalOnEnter_ok hentered
      exact h.settle hover.active hsettle

/-- So no step of the machine takes anything back that was there at `base`. -/
theorem preserves_adds (b : Build) (Q : Command V → Prop) (base : ParserContext V) :
    (machine b).Preserves fun d => d.Over Q ∧ Adds Q base d.context where
  handle := fun h hhandle =>
    ⟨(preserves_over b Q).handle h.1 hhandle, adds_handle h.1 h.2 hhandle⟩
  onLeave := fun h hleave =>
    ⟨(preserves_over b Q).onLeave h.1 hleave, adds_onLeave h.1 h.2 hleave⟩
  onEnter := fun h hentered =>
    ⟨(preserves_over b Q).onEnter h.1 hentered, adds_onEnter h.1 h.2 hentered⟩

end

/-! ## The command -/

/-- The states behind the command. -/
def State.ReadsOptions : State → Prop
  | .parseOptionsState | .parseShortOptionState | .parseLongOptionState | .dashDashState => True
  | .initialState | .identifyCommandState | .finalState => False

/-- The command is kept, and the positional tokens are kept in order. -/
structure Keeps (base context : ParserContext V) : Prop where
  activeCommand : context.activeCommand = base.activeCommand
  positionalTokens : base.positionalTokens <+: context.positionalTokens

section

variable {b : Build} {base context context' : ParserContext V} {d d' : Data V} {event : Token}
  {state : State}

theorem Keeps.refl (context : ParserContext V) : Keeps context context :=
  ⟨rfl, List.prefix_rfl⟩

/-- To store a value is not to touch the command or the positional tokens. -/
theorem Keeps.storesOne (h : Keeps base context) (hstores : StoresOne context context') :
    Keeps base context' := by
  cases hstores with
  | mk value text active semantics => exact ⟨h.activeCommand, h.positionalTokens⟩

/-- Nor is to leave an option; and its token is not handed on from there. -/
theorem Keeps.leaveOption {value : Option String} {status : Status} (h : Keeps base context)
    (hleave : Parser.leaveOption value context = .ok (status, context')) :
    Keeps base context' ∧ status ≠ .reissueEvent := by
  obtain ⟨⟨message, rfl⟩, -, rfl⟩ | ⟨rfl, ⟨-, rfl⟩ | ⟨-, option, -, value, text, -, -, -, rfl⟩⟩ :=
    leaveOption_ok hleave
  · exact ⟨h, by simp⟩
  · exact ⟨h, by simp⟩
  · exact ⟨⟨h.activeCommand, h.positionalTokens⟩, by simp⟩

/-- Behind the command, `Handle` appends to the positional tokens at most. -/
theorem keeps_handle {action : Action} (hstate : state.ReadsOptions) (h : Keeps base d.context)
    (hhandle : (machine b).handle state event d = .ok (action, d')) : Keeps base d'.context := by
  cases state with
  | initialState | identifyCommandState | finalState => exact hstate.elim
  | parseOptionsState =>
      obtain ⟨-, rfl⟩ | ⟨rfl, -⟩ := optionsHandle_ok hhandle
      · exact ⟨h.activeCommand, h.positionalTokens.trans (List.prefix_append _ _)⟩
      · exact h
  | parseShortOptionState =>
      obtain ⟨hcontext, -⟩ | ⟨-, -, hstores⟩ := shortHandle_values hhandle
      · exact hcontext ▸ h
      · exact h.storesOne hstores
  | parseLongOptionState =>
      obtain ⟨hcontext, -⟩ | ⟨-, -, hstores⟩ := longHandle_values hhandle
      · exact hcontext ▸ h
      · exact h.storesOne hstores
  | dashDashState =>
      cases hhandle
      exact h

/-- From the states behind the command there is no way back. -/
theorem readsOptions_of_transition {target : State} {hasData : Bool}
    (hstate : state.ReadsOptions)
    (hhandle : (machine b).handle state event d = .ok (.transitionTo target hasData, d')) :
    target.ReadsOptions ∨ target = .finalState := by
  cases state with
  | initialState | identifyCommandState | finalState => exact hstate.elim
  | parseOptionsState =>
      obtain ⟨haction, -⟩ | ⟨-, ⟨message, haction⟩ | ⟨target', haction, htarget⟩⟩ :=
        optionsHandle_ok hhandle
      · cases haction
      · cases haction
      · cases haction
        rcases htarget with rfl | rfl | rfl | rfl
        · exact .inl trivial
        · exact .inl trivial
        · exact .inl trivial
        · exact .inr rfl
  | parseShortOptionState =>
      obtain ⟨haction, -⟩ | ⟨-, option, semantics, context, value, hoption, hsem, htry, -⟩ :=
        shortHandle_ok hhandle
      · cases haction
        exact .inl trivial
      · obtain ⟨-, -, haction | haction⟩ | ⟨-, -, message, haction⟩ := tryValue_ok hoption hsem htry
        all_goals cases haction
        exact .inl trivial
  | parseLongOptionState =>
      obtain ⟨haction, -⟩ | ⟨⟨message, haction⟩, -⟩ | ⟨haction, -⟩ |
        ⟨-, option, semantics, context, value, hoption, hsem, htry, -⟩ := longHandle_ok hhandle
      · cases haction
        exact .inl trivial
      · cases haction
      · cases haction
      · obtain ⟨-, -, haction | haction⟩ | ⟨-, -, message, haction⟩ := tryValue_ok hoption hsem htry
        all_goals cases haction
        exact .inl trivial
  | dashDashState => cases hhandle

/-- `OnLeave` does not touch them. -/
theorem keeps_onLeave {status : Status} (hstate : state.ReadsOptions) (h : Keeps base d.context)
    (hleave : (machine b).onLeave state event d = .ok (status, d')) :
    Keeps base d'.context ∧ status ≠ .reissueEvent := by
  cases state with
  | parseShortOptionState => exact h.leaveOption (shortLeave_ok hleave).1
  | parseLongOptionState => exact h.leaveOption (longLeave_ok hleave).1
  | initialState | identifyCommandState | finalState => exact hstate.elim
  | parseOptionsState | dashDashState =>
      cases hleave
      exact ⟨h, by simp⟩

/-- Nor does `OnEnter`, but for `FinalState`, where no further token is handled. -/
theorem keeps_onEnter {hasData : Bool} {status : Status} (hstate : state.ReadsOptions)
    (h : Keeps base d.context)
    (hentered : (machine b).onEnter state event hasData d = .ok (status, d')) :
    Keeps base d'.context := by
  cases state with
  | initialState | identifyCommandState | finalState => exact hstate.elim
  | parseOptionsState =>
      rw [optionsEnter_context hentered]
      exact h
  | parseShortOptionState =>
      obtain ⟨-, context, henter, rfl⟩ := shortOnEnter_ok hentered
      obtain ⟨option, rfl⟩ := enterOption_context henter
      exact ⟨h.activeCommand, h.positionalTokens⟩
  | parseLongOptionState =>
      obtain ⟨-, context, henter, rfl⟩ := longOnEnter_ok hentered
      obtain ⟨option, rfl⟩ := enterOption_context henter
      exact ⟨h.activeCommand, h.positionalTokens⟩
  | dashDashState =>
      obtain ⟨-, -, hentered⟩ := bind_eq_ok.mp hentered
      cases hentered
      exact h

/-- Behind the command, it is kept to the end, and the positional tokens up to `FinalState`. -/
theorem stateInvariant_keeps (b : Build) (base : ParserContext V) :
    (machine b).StateInvariant
      (fun state d => state.ReadsOptions ∧ Keeps base d.context)
      (fun state d => (state.ReadsOptions ∨ state = .finalState) ∧ Keeps base d.context)
      (fun d => d.context.activeCommand = base.activeCommand) where
  out := fun h => h.2.activeCommand
  handle := fun h hhandle => ⟨h.1, keeps_handle h.1 h.2 hhandle⟩
  leave := by
    intro s e d t hasData d₁ status d₂ h hhandle hleave
    obtain ⟨hkeeps, hstatus⟩ := keeps_onLeave h.1 (keeps_handle h.1 h.2 hhandle) hleave
    exact ⟨hkeeps.activeCommand, hstatus, fun _ => ⟨readsOptions_of_transition h.1 hhandle, hkeeps⟩⟩
  enter := by
    intro t e hasData d status d' h hentered
    obtain ⟨hstate | rfl, hkeeps⟩ := h
    · have hkeeps' := keeps_onEnter hstate hkeeps hentered
      exact ⟨hkeeps'.activeCommand, fun _ => ⟨hstate, hkeeps'⟩⟩
    · obtain ⟨context, hsettle, rfl⟩ := finalOnEnter_ok hentered
      refine ⟨(sameChoice_of_settle hsettle).activeCommand.trans hkeeps.activeCommand, ?_⟩
      intro hstatus
      obtain rfl | ⟨message, rfl⟩ := settle_status hsettle
      · simp at hstatus
      · simp at hstatus

end

/-! ## From any configuration on -/

/-- A command a run knows of. -/
def Known (context : CommandLineContext V) (commands : List (Command V)) (c : Command V) : Prop :=
  c ∈ commands ∨ context.activeCommand = some c

/-- What the end of a run makes of its last context. -/
def Ends (last : ParserContext V) : Result V → Prop
  | .returned true result => result = last
  | .returned false result => ∃ message, result = reportError last message
  | .faulted _ => False

/-- From each configuration of a run on, nothing that was done is undone. -/
structure Remembers (b : Build) (context : CommandLineContext V) (commands : List (Command V))
    (args : List String) : Prop where
  /-- values are added, and nothing is written -/
  adds : ∀ cfg cfg', Reachable b context commands args cfg → Loop.Reaches (turn b) cfg cfg' →
    Adds (Known context commands) cfg.data.context cfg'.data.context
  /-- the command and the positional tokens are kept -/
  keeps : ∀ cfg cfg', Reachable b context commands args cfg → cfg.state.ReadsOptions →
    Loop.Reaches (turn b) cfg cfg' →
    cfg'.state.ReadsOptions ∧ Keeps cfg.data.context cfg'.data.context
  /-- all that is written at the end is the line of an error -/
  ends : ∀ cfg noErrors result, Reachable b context commands args cfg →
    Parses b context commands args (.returned noErrors result) →
    ∃ last, Adds (Known context commands) cfg.data.context last ∧
      (cfg.state.ReadsOptions → last.activeCommand = cfg.data.context.activeCommand) ∧
      Ends last (.returned noErrors result)

section

variable {b : Build} {cfg cfg' : Config V} {context : CommandLineContext V}
  {commands : List (Command V)} {args : List String} {noErrors : Bool} {result : ParserContext V}

/-- A run returns with the context of its last step, behind which an error is reported. -/
theorem turn_eq_returned (h : turn b cfg = .inr (.returned noErrors result)) :
    ∃ status state d, (machine b).step cfg.state cfg.token cfg.data = .ok (status, state, d) ∧
      Ends d.context (.returned noErrors result) := by
  rw [turn] at h
  split at h
  · cases h
  · next state d hstep =>
    cases h
    exact ⟨_, state, d, hstep, rfl⟩
  · next message state d hstep =>
    cases h
    exact ⟨_, state, d, hstep, message, rfl⟩
  · cases h
  · split at h <;> cases h

/-- All options that a run meets are of commands it was given, or of the one that was active. -/
theorem over_known (hreach : Reachable b context commands args cfg) :
    cfg.data.Over (Known context commands) :=
  over_of_reachable (fun _ => .inl) (fun _ => .inr) hreach

/-- From any reachable configuration on, by induction on the turns of the loop. -/
theorem adds_of_reaches (hreach : Reachable b context commands args cfg)
    (h : Loop.Reaches (turn b) cfg cfg') :
    cfg'.data.Over (Known context commands) ∧
      Adds (Known context commands) cfg.data.context cfg'.data.context := by
  refine Loop.invariant_of_reaches (fun cfg' => cfg'.data.Over (Known context commands) ∧
    Adds (Known context commands) cfg.data.context cfg'.data.context) ⟨over_known hreach, .refl _ _⟩
    ?_ h
  intro cfg₁ cfg₂ hinv hturn
  obtain ⟨status, -, hstep⟩ := exists_step_of_turn hturn
  exact (preserves_adds b _ _).step hinv hstep

/-- Once a command is selected, it stays, and so do the positional tokens. -/
theorem keeps_of_reaches (hstate : cfg.state.ReadsOptions)
    (h : Loop.Reaches (turn b) cfg cfg') :
    cfg'.state.ReadsOptions ∧ Keeps cfg.data.context cfg'.data.context := by
  refine Loop.invariant_of_reaches
    (fun cfg' => cfg'.state.ReadsOptions ∧ Keeps cfg.data.context cfg'.data.context)
    ⟨hstate, .refl _⟩ ?_ h
  intro cfg₁ cfg₂ hinv hturn
  obtain ⟨status, hstatus, hstep⟩ := exists_step_of_turn hturn
  exact ((stateInvariant_keeps b _).step hinv hstep).2 hstatus

/-- Behind a configuration of a run that returns there is the last context, of which its end makes
the result. -/
theorem exists_last (hreach : Reachable b context commands args cfg)
    (h : Parses b context commands args (.returned noErrors result)) :
    ∃ last, Adds (Known context commands) cfg.data.context last ∧
      (∀ c, last.activeCommand = some c → Known context commands c) ∧
      (cfg.state.ReadsOptions → last.activeCommand = cfg.data.context.activeCommand) ∧
      Ends last (.returned noErrors result) := by
  have hreturns := (Loop.returns_iff_of_reaches hreach).mp h
  obtain ⟨cfg', hreach', hlast⟩ := Loop.returns_iff_reaches.mp hreturns
  obtain ⟨status, state, d, hstep, hends⟩ := turn_eq_returned hlast
  obtain ⟨hover, hadds⟩ := (preserves_adds b _ _).step (adds_of_reaches hreach hreach') hstep
  refine ⟨d.context, hadds, hover.active, ?_, hends⟩
  intro hstate
  exact ((stateInvariant_keeps b _).step (keeps_of_reaches hstate hreach') hstep).1

/-- **A run remembers**: from any configuration on, what is stored, the command and the positional
tokens are kept, and all that is written is the line of an error at the end. -/
theorem run_only_appends (b : Build) (context : CommandLineContext V) (commands : List (Command V))
    (args : List String) : Remembers b context commands args where
  adds := fun _ _ hreach h => (adds_of_reaches hreach h).2
  keeps := fun _ _ _ hstate h => keeps_of_reaches hstate h
  ends := by
    intro cfg noErrors result hreach hparses
    obtain ⟨last, hadds, -, hkeeps, hends⟩ := exists_last hreach hparses
    exact ⟨last, hadds, hkeeps, hends⟩

end

end Parser

end AsapClap
