import AsapClap.Parser.Agreement
import AsapClap.Parser.Selection

/-!
# AsapClap.Parser.Registration

What the commands of a CLI mean for a command line: when they are registered in another order, when
more of them are, and when others are registered at their paths.

The pass looks at the commands in three ways only: for a default command, for the paths that go on
from what was typed, and for the longest path that was.  Lists of commands that answer these alike
for a line are parsed alike with it.
-/

namespace AsapClap

namespace Parser

open Errors LongestPrefix Relate

variable {V : Type} {b : Build} {commands : List (Command V)}

/-! ## Contexts that differ in their commands -/

/-- The second context is the first one with these commands. -/
abbrev Relisted (commands : List (Command V)) (c₁ c₂ : ParserContext V) : Prop :=
  c₂ = { c₁ with commands }

/-- Two passes stop for the same reason, with the same message, but for the commands that the
message about a missing one lists. -/
inductive StopRelisted (commands : List (Command V)) : Stop V → Stop V → Prop
  | rejected (message : String) (context : ParserContext V) :
      StopRelisted commands (.rejected message context)
        (.rejected message { context with commands })
  | missing (context : ParserContext V) :
      StopRelisted commands (.rejected (missingCommand context) context)
        (.rejected (missingCommand { context with commands }) { context with commands })
  | faulted (fault : Fault) : StopRelisted commands (.faulted fault) (.faulted fault)
  | swallowed : StopRelisted commands .swallowed .swallowed

/-- A status beside a context. -/
abbrev BesideRelisted (commands : List (Command V)) (r₁ r₂ : Status × ParserContext V) : Prop :=
  r₂.1 = r₁.1 ∧ Relisted commands r₁.2 r₂.2

section

variable {context : ParserContext V}

/-- What a computation of a state succeeds or is rejected with is the same beside the list. -/
theorem accept_relisted {x₁ x₂ : Except Fault (Status × ParserContext V)}
    (h : Agree Eq (BesideRelisted commands) x₁ x₂) :
    Agree (StopRelisted commands) (Relisted commands) (accept x₁) (accept x₂) := by
  cases h with
  | error h =>
      cases h
      exact .error (.faulted _)
  | @ok r₁ r₂ h =>
      obtain ⟨status, c₁⟩ := r₁
      obtain ⟨status', c₂⟩ := r₂
      obtain ⟨hstatus, hcontext⟩ := h
      obtain rfl : status' = status := hstatus
      obtain rfl : c₂ = { c₁ with commands } := hcontext
      cases status' <;> first | exact .ok rfl | exact .error (.rejected _ _)

theorem lift_relisted {α : Type} (x : Except Fault α) :
    Agree (StopRelisted commands) Eq (lift x) (lift x) := by
  cases x with
  | ok a => exact .ok rfl
  | error fault => exact .error (.faulted fault)

/-- Entering an option looks at the active command, not at the list of commands. -/
theorem enterOption_relisted (flag token : String) (find : Command V → Option (ClapOption V)) :
    Agree Eq (BesideRelisted commands) (enterOption b flag find token true context)
      (enterOption b flag find token true { context with commands }) := by
  refine Agree.bind_same (fun _ => rfl) _ fun _ _ => ?_
  refine Agree.bind_same (fun _ => rfl) _ fun _ _ => ?_
  refine Agree.bind_same (fun _ => rfl) _ fun command _ => ?_
  cases find command with
  | none => exact .ok ⟨rfl, rfl⟩
  | some option =>
      refine Agree.bind_same (fun _ => rfl) _ fun single _ => ?_
      cases single with
      | true => exact .ok ⟨rfl, rfl⟩
      | false => exact Agree.bind_same (fun _ => rfl) _ fun message _ => .ok ⟨rfl, rfl⟩

/-- An option left without a value stores its implicit one or reports that it has none, whatever
other commands there are. -/
theorem tryImplicitValue_relisted :
    Agree Eq (fun r₁ r₂ => r₂.1 = r₁.1 ∧ Relisted commands r₁.2 r₂.2) (tryImplicitValue context)
      (tryImplicitValue { context with commands }) := by
  refine Agree.bind_same (fun _ => rfl) _ fun option _ => ?_
  refine Agree.bind_same (fun _ => rfl) _ fun semantics _ => ?_
  cases semantics.applyImplicit with
  | none => exact .ok ⟨rfl, rfl⟩
  | some value => exact .ok ⟨rfl, rfl⟩

/-- So does leaving an option state. -/
theorem leaveOption_relisted (value : Option String) :
    Agree Eq (BesideRelisted commands) (leaveOption value context)
      (leaveOption value { context with commands }) := by
  cases value with
  | some value => exact .ok ⟨rfl, rfl⟩
  | none =>
      refine tryImplicitValue_relisted.bind fun r₁ r₂ _ _ hr => ?_
      obtain ⟨done, c₁⟩ := r₁
      obtain ⟨done', c₂⟩ := r₂
      obtain ⟨hdone, hcontext⟩ := hr
      obtain rfl : done' = done := hdone
      obtain rfl : c₂ = { c₁ with commands } := hcontext
      cases done' with
      | true => exact .ok ⟨rfl, rfl⟩
      | false =>
          refine Agree.bind_same (fun _ => rfl) _ fun option _ => ?_
          refine Agree.bind_same (fun _ => rfl) _ fun semantics _ => ?_
          cases semantics.isRequired with
          | true => exact Agree.bind_same (fun _ => rfl) _ fun message _ => .ok ⟨rfl, rfl⟩
          | false => exact .ok ⟨rfl, rfl⟩

/-! ## The pass behind the command -/

/-- The phases in which the command is known. -/
def Phase.IsReading : Phase → Prop
  | .start | .naming _ => False
  | _ => True

/-- The same phase behind the command, and the context with these commands. -/
structure StepRelisted (commands : List (Command V)) (r₁ r₂ : Phase × ParserContext V) :
    Prop where
  phase : r₂.1 = r₁.1
  reading : r₁.1.IsReading
  context : Relisted commands r₁.2 r₂.2

/-- Behind the command, a token is dispatched by the options of that command alone. -/
theorem dispatch_relisted (context : ParserContext V) (token : Token) :
    Agree (StopRelisted commands) (StepRelisted commands) (dispatch b context token)
      (dispatch b { context with commands } token) := by
  obtain ⟨tokenType, text⟩ := token
  cases tokenType with
  | value => exact .ok ⟨rfl, trivial, rfl⟩
  | longOption | shortOption | loneDash =>
      exact (accept_relisted (enterOption_relisted _ _ _)).bind
        fun _ _ _ _ hentered => .ok ⟨rfl, trivial, hentered⟩
  | equalSign =>
      refine (lift_relisted (optionSyntaxError context)).bind fun message message' _ _ h => ?_
      obtain rfl := h
      exact .error (.rejected message context)
  | dashDash | endOfInput => exact .error .swallowed

/-- A value that is offered to an option is taken, or refused, whatever other commands there are. -/
theorem offer_relisted {option : ClapOption V} {semantics : ValueSemantics V} {taken : Phase}
    {fallback : Bool} {token : String} (htaken : taken.IsReading) :
    Agree (StopRelisted commands) (StepRelisted commands)
      (offer b option semantics taken fallback context token)
      (offer b option semantics taken fallback { context with commands } token) := by
  cases hparse : semantics.parse token with
  | some value =>
      rw [offer_of_parse hparse, offer_of_parse hparse]
      exact .ok ⟨rfl, htaken, rfl⟩
  | none =>
      by_cases hmissing : fallback = false ∨ semantics.applyImplicit = none
      · rw [offer_of_missing hparse hmissing, offer_of_missing hparse hmissing]
        refine (lift_relisted (missingValueForOption context)).bind fun message message' _ _ h => ?_
        obtain rfl := h
        exact .error (.rejected message context)
      · obtain ⟨hfallback, himplicit⟩ := not_or.mp hmissing
        obtain ⟨⟨value, valueAsText⟩, himplicit⟩ := Option.ne_none_iff_exists'.mp himplicit
        obtain rfl : fallback = true := by simpa using hfallback
        rw [offer_of_implicit hparse himplicit, offer_of_implicit hparse himplicit]
        exact dispatch_relisted (context.storeValue option value valueAsText false) _

/-- A token that ends the option in front of it. -/
theorem leave_relisted (value : Option String) (token : Token) :
    Agree (StopRelisted commands) (StepRelisted commands)
      (accept (leaveOption value context) >>= (dispatch b · token))
      (accept (leaveOption value { context with commands }) >>= (dispatch b · token)) := by
  refine (accept_relisted (leaveOption_relisted value)).bind fun c₁ c₂ _ _ h => ?_
  obtain rfl : c₂ = { c₁ with commands } := h
  exact dispatch_relisted _ token

/-- A token behind a short name. -/
theorem continueShort_relisted (value : Option String) (token : Token) :
    Agree (StopRelisted commands) (StepRelisted commands) (continueShort b value context token)
      (continueShort b value { context with commands } token) := by
  obtain ⟨tokenType, text⟩ := token
  cases tokenType with
  | value =>
      refine (lift_relisted (activeSemantics b context)).bind fun p p' _ _ h => ?_
      obtain rfl := h
      obtain ⟨option, semantics?⟩ := p
      cases value with
      | some value =>
          simp only [Option.isSome_some, if_true]
          exact dispatch_relisted context _
      | none =>
          refine (lift_relisted (deref semantics?)).bind fun semantics semantics' _ _ h => ?_
          obtain rfl := h
          exact offer_relisted trivial
  | _ => exact leave_relisted value _

/-- A token behind a long name. -/
theorem continueLong_relisted (value : Option String) (afterEqual : Bool) (token : Token) :
    Agree (StopRelisted commands) (StepRelisted commands)
      (continueLong b value afterEqual context token)
      (continueLong b value afterEqual { context with commands } token) := by
  obtain ⟨tokenType, text⟩ := token
  cases tokenType with
  | equalSign =>
      exact (lift_relisted (activeSemantics b context)).bind
        fun _ _ _ _ _ => .ok ⟨rfl, trivial, rfl⟩
  | value =>
      refine (lift_relisted (activeSemantics b context)).bind fun p p' _ _ h => ?_
      obtain rfl := h
      obtain ⟨option, semantics?⟩ := p
      cases value with
      | some value =>
          simp only [Option.isSome_some, if_true]
          exact dispatch_relisted context _
      | none =>
          cases !afterEqual && !context.allowLongOptionValueWithNoEqual with
          | true =>
              simp only [Option.isSome_none, Bool.false_eq_true, if_false, if_true]
              refine (lift_relisted (optionSyntaxError context _)).bind
                fun message message' _ _ h => ?_
              obtain rfl := h
              exact .error (.rejected message context)
          | false =>
              simp only [Option.isSome_none, Bool.false_eq_true, if_false]
              refine (lift_relisted (deref semantics?)).bind fun semantics semantics' _ _ h => ?_
              obtain rfl := h
              exact offer_relisted trivial
  | _ => exact leave_relisted value _

/-- One token, in a phase behind the command: the list of commands is no longer looked at. -/
theorem advance_relisted {phase : Phase} (hphase : phase.IsReading) (token : Token) :
    Agree (StopRelisted commands) (StepRelisted commands) (advance b phase context token)
      (advance b phase { context with commands } token) := by
  cases phase with
  | start => exact hphase.elim
  | naming typed => exact hphase.elim
  | ready => exact dispatch_relisted _ token
  | short value => exact continueShort_relisted value token
  | long value afterEqual => exact continueLong_relisted value afterEqual token

/-- The end of the line, in such a phase. -/
theorem finish_relisted {phase : Phase} (hphase : phase.IsReading) :
    Agree (StopRelisted commands) (Relisted commands) (finish b phase context)
      (finish b phase { context with commands }) := by
  cases phase with
  | start => exact hphase.elim
  | naming typed => exact hphase.elim
  | ready => exact .ok rfl
  | short value => exact accept_relisted (leaveOption_relisted value)
  | long value afterEqual => exact accept_relisted (leaveOption_relisted value)

/-- The rest of a line behind the command, by induction on its tokens. -/
theorem scan_relisted (commands : List (Command V)) {phase : Phase} (hphase : phase.IsReading)
    (context : ParserContext V) (tokens : List Token) :
    Agree (StopRelisted commands) (Relisted commands) (scan b phase context tokens)
      (scan b phase { context with commands } tokens) := by
  induction tokens generalizing phase context with
  | nil => exact finish_relisted hphase
  | cons token tokens ih =>
      rw [scan_cons, scan_cons]
      refine (advance_relisted hphase token).bind fun r₁ r₂ _ _ h => ?_
      obtain ⟨phase₁, c₁⟩ := r₁
      obtain ⟨phase₂, c₂⟩ := r₂
      obtain ⟨hsame, hreading, hcontext⟩ := h
      obtain rfl : phase₂ = phase₁ := hsame
      obtain rfl : c₂ = { c₁ with commands } := hcontext
      exact ih hreading c₁

end

/-! ## The end of the parse -/

namespace FinalState

variable {context : ParserContext V}

/-- The passes over the positional arguments. -/
abbrev PassRelisted (commands : List (Command V)) (pass₁ pass₂ : Pass V) : Prop :=
  pass₂ = { pass₁ with context := { pass₁.context with commands } }

/-- A positional value is stored by the option it goes to. -/
theorem storePositional_relisted (option : ClapOption V) (token : String) :
    Agree Eq (Relisted commands) (storePositional b option context token)
      (storePositional b option { context with commands } token) := by
  refine Agree.bind_same (fun _ => rfl) _ fun _ _ => ?_
  refine Agree.bind_same (fun _ => rfl) _ fun semantics _ => ?_
  cases semantics.parse token with
  | some value => exact .ok rfl
  | none => exact .ok rfl

/-- One turn of the loop over the positional arguments. -/
theorem assign_relisted (pass : Pass V) (option : ClapOption V) :
    Agree Eq (PassRelisted commands) (assign b pass option)
      (assign b { pass with context := { pass.context with commands } } option) := by
  obtain ⟨context, beforeRest, restOption⟩ := pass
  refine Agree.bind_same (fun _ => rfl) _ fun _ _ => ?_
  have hstored : ∀ (token : String) (tokens : ParserContext V → List String),
      (∀ c, tokens { c with commands } = tokens c) →
      Agree Eq (PassRelisted commands)
        (storePositional b option context token >>= fun c =>
          .ok ⟨{ c with positionalTokens := tokens c }, beforeRest, restOption⟩)
        (storePositional b option { context with commands } token >>= fun c =>
          .ok ⟨{ c with positionalTokens := tokens c }, beforeRest, restOption⟩) := by
    intro token tokens htokens
    refine (storePositional_relisted option token).bind fun c₁ c₂ _ _ h => ?_
    obtain rfl : c₂ = { c₁ with commands } := h
    exact .ok (by rw [PassRelisted, htokens])
  cases option.isPositionalRest with
  | true => exact .ok rfl
  | false =>
      cases beforeRest with
      | true =>
          obtain ⟨line, commands', activeOption, activeOptionFlag, positionalTokens⟩ := context
          cases positionalTokens with
          | nil => exact .error rfl
          | cons token tokens => exact hstored token (fun _ => tokens) fun _ => rfl
      | false =>
          simp only [Bool.false_eq_true, if_false]
          cases context.positionalTokens.getLast? with
          | none => exact .error rfl
          | some token => exact hstored token (fun c => c.positionalTokens.dropLast) fun _ => rfl

/-- The check of the options reads the map and the options of the command; the induction is on
these. -/
theorem checkRequiredOptions_relisted (options : List (ClapOption V)) (context : ParserContext V) :
    Agree Eq (fun r₁ r₂ => r₂.1 = r₁.1 ∧ Relisted commands r₁.2 r₂.2)
      (checkRequiredOptions options context)
      (checkRequiredOptions options { context with commands }) := by
  induction options generalizing context with
  | nil => exact .ok ⟨rfl, rfl⟩
  | cons option options ih =>
      simp only [checkRequiredOptions]
      split
      · exact ih context
      · refine Agree.bind_same (fun _ => rfl) _ fun semantics _ => ?_
        cases semantics.applyDefault with
        | some value => exact ih (context.storeValue option value.1 value.2 false)
        | none =>
            cases option.isRequired with
            | true => exact .ok ⟨rfl, rfl⟩
            | false => exact ih context

/-- Both checks at the end of `OnEnter`; the message names the active command only. -/
theorem validate_relisted (command : Command V) (context : ParserContext V) :
    Agree Eq (BesideRelisted commands) (validate command context)
      (validate command { context with commands }) := by
  rw [validate_eq, validate_eq]
  refine (checkRequiredOptions_relisted _ context).bind fun r₁ r₂ _ _ h => ?_
  obtain ⟨message, c₁⟩ := r₁
  obtain ⟨message', c₂⟩ := r₂
  obtain ⟨hmessage, hcontext⟩ := h
  obtain rfl : message' = message := hmessage
  obtain rfl : c₂ = { c₁ with commands } := hcontext
  cases message' with
  | none => exact .ok ⟨rfl, rfl⟩
  | some message => exact .ok ⟨rfl, rfl⟩

/-- **The end of a parse** does not look at the list of commands. -/
theorem settle_relisted (commands : List (Command V)) (context : ParserContext V) :
    Agree Eq (BesideRelisted commands) (settle b context) (settle b { context with commands }) := by
  refine Agree.bind_same (fun _ => rfl) _ fun command _ => ?_
  have hfold : Agree Eq (PassRelisted commands)
      (command.positionalArgs.foldlM (assign b) { context })
      (command.positionalArgs.foldlM (assign b) { context := { context with commands } }) := by
    refine Agree.foldlM (fun pass₁ pass₂ option _ h => ?_) rfl
    obtain rfl := h
    exact assign_relisted pass₁ option
  refine hfold.bind fun pass₁ pass₂ _ _ h => ?_
  obtain rfl := h
  obtain ⟨context', -, restOption⟩ := pass₁
  obtain ⟨line, commands', activeOption, activeOptionFlag, positionalTokens⟩ := context'
  cases positionalTokens with
  | nil => exact validate_relisted command _
  | cons token tokens =>
      cases restOption with
      | none => exact .ok ⟨rfl, rfl⟩
      | some option =>
          refine Agree.bind (R := Relisted commands) (Agree.foldlM (fun c₁ c₂ token _ h => ?_) rfl)
            fun c₁ c₂ _ _ h => ?_
          · obtain rfl := h
            exact storePositional_relisted option token
          · obtain rfl := h
            exact validate_relisted command { c₁ with positionalTokens := [] }

end FinalState

/-! ## The choice of a command -/

/-- Two lists of commands that give the same answers for a line. -/
structure AnswersAlike (commands commands' : List (Command V)) (line : List String) : Prop where
  first : commands'.find? Command.isDefault = commands.find? Command.isDefault
  last : lastDefault commands' = lastDefault commands
  goesOn : ∀ typed, typed <+: line → typed ≠ [] →
    (candidates Command.path commands' typed = [] ↔ candidates Command.path commands typed = [])
  longest : longest Command.path commands' line = longest Command.path commands line

/-- No path goes on like the line behind what was typed of it. -/
structure Settled (commands : List (Command V)) (typed line : List String) : Prop where
  begins : typed <+: line
  stop : ∀ v, typed ++ [v] <+: line → candidates Command.path commands (typed ++ [v]) = []

section

variable {context : ParserContext V} {commands' : List (Command V)} {line : List String}

/-- What has been typed so far is enough to tell the command of the whole line. -/
theorem Settled.longest {typed : List String} (h : Settled commands typed line) :
    LongestPrefix.longest Command.path commands typed =
      LongestPrefix.longest Command.path commands line :=
  longest_of_settled h.begins h.stop

/-- A search that is over with the one list is over with the other. -/
theorem AnswersAlike.settled {typed : List String} (h : AnswersAlike commands commands' line)
    (hsettled : Settled commands typed line) : Settled commands' typed line where
  begins := hsettled.begins
  stop := fun v hv => (h.goesOn (typed ++ [v]) hv (by simp)).mpr (hsettled.stop v hv)

/-- Where the search is over, both lists have the same command at the longest path typed. -/
theorem AnswersAlike.longest_typed {typed : List String}
    (h : AnswersAlike commands commands' line) (hsettled : Settled commands typed line) :
    LongestPrefix.longest Command.path commands' typed =
      LongestPrefix.longest Command.path commands typed := by
  rw [(h.settled hsettled).longest, hsettled.longest, h.longest]

/-- With the whole line typed, the search is over. -/
theorem settled_of_eq {typed : List String} (h : typed = line) : Settled commands typed line where
  begins := h ▸ List.prefix_rfl
  stop := by
    intro v hv
    have hlength := hv.length_le
    rw [← h, List.length_append, List.length_singleton] at hlength
    omega

/-- Both lists select the same command, or none. -/
theorem select_relisted {typed : List String} (h : AnswersAlike context.commands commands line)
    (htyped : Settled context.commands typed line) (segments : List String) :
    Agree (StopRelisted commands) (Relisted commands)
      (select typed segments context : Except (Stop V) (ParserContext V))
      (select typed segments { context with commands }) := by
  simp only [select, h.longest_typed htyped, h.last]
  cases longest Command.path context.commands typed with
  | some command => exact .ok rfl
  | none =>
      cases lastDefault context.commands with
      | some command => exact .ok rfl
      | none => exact .error (.rejected _ _)

/-- The line ends while a command is searched. -/
theorem finish_naming_relisted {typed : List String}
    (h : AnswersAlike context.commands commands line)
    (htyped : Settled context.commands typed line) :
    Agree (StopRelisted commands) (Relisted commands) (finish b (.naming typed) context)
      (finish b (.naming typed) { context with commands }) := by
  refine (select_relisted h htyped typed).bind fun c₁ c₂ _ _ hselect => ?_
  obtain rfl : c₂ = { c₁ with commands } := hselect
  simp only [h.longest_typed htyped]
  split
  · exact (lift_relisted _).bind fun _ _ _ _ _ => .ok rfl
  · exact .ok rfl

/-- The search for a command goes on for as many values with the one list as with the other; the
induction is on the tokens that are left. -/
theorem scan_naming_relisted (h : AnswersAlike context.commands commands line)
    (typed : List String) (tokens : List Token) (hline : typed ++ leadingValues tokens = line) :
    Agree (StopRelisted commands) (Relisted commands) (scan b (.naming typed) context tokens)
      (scan b (.naming typed) { context with commands } tokens) := by
  have hready : ∀ (typed segments : List String) (tokens : List Token),
      Settled context.commands typed line →
      Agree (StopRelisted commands) (Relisted commands)
        (select typed segments context >>= (scan b .ready · tokens))
        (select typed segments { context with commands } >>= (scan b .ready · tokens)) := by
    intro typed segments tokens htyped
    refine (select_relisted h htyped segments).bind fun c₁ c₂ _ _ hselect => ?_
    obtain rfl : c₂ = { c₁ with commands } := hselect
    exact scan_relisted commands (show Phase.ready.IsReading from trivial) c₁ tokens
  induction tokens generalizing typed with
  | nil =>
      rw [leadingValues_nil, List.append_nil] at hline
      exact finish_naming_relisted h (settled_of_eq hline)
  | cons token tokens ih =>
      rw [scan_cons, scan_cons]
      by_cases hvalue : token.1 = .value
      · obtain ⟨text, rfl⟩ := Token.exists_text hvalue
        rw [leadingValues_value] at hline
        have hnext : typed ++ [text] ++ leadingValues tokens = line := by simpa using hline
        have hgoesOn := h.goesOn (typed ++ [text]) ⟨_, hnext⟩ (by simp)
        by_cases hnil : candidates Command.path context.commands (typed ++ [text]) = []
        · have hsettled : Settled context.commands typed line := by
            refine ⟨⟨_, hline⟩, ?_⟩
            intro v hv
            have hsame : typed ++ [v] = typed ++ [text] :=
              (List.prefix_of_prefix_length_le hv ⟨_, hnext⟩ (by simp)).eq_of_length (by simp)
            rw [hsame]
            exact hnil
          simp only [advance, continueNaming, hgoesOn.mpr hnil, hnil, ne_eq, not_true_eq_false,
            if_false, bind_assoc]
          exact hready typed (typed ++ [text]) ((.value, text) :: tokens) hsettled
        · simp only [advance, continueNaming, hgoesOn.not.mpr hnil, hnil, ne_eq, not_false_eq_true,
            if_true, ok_bind]
          exact ih (typed ++ [text]) hnext
      · rw [leadingValues_other hvalue, List.append_nil] at hline
        rw [advance_naming_other hvalue, advance_naming_other hvalue, bind_assoc, bind_assoc]
        exact hready typed typed (token :: tokens) (settled_of_eq hline)

/-- The whole line, from its first token on. -/
theorem scan_start_relisted (context : ParserContext V) {tokens : List Token}
    (h : AnswersAlike context.commands commands (leadingValues tokens)) :
    Agree (StopRelisted commands) (Relisted commands) (scan b .start context tokens)
      (scan b .start { context with commands } tokens) := by
  have hready (token : Token) (tokens : List Token) :=
    scan_relisted (b := b) commands (show Phase.ready.IsReading from trivial) context
      (token :: tokens)
  cases tokens with
  | nil =>
      simp only [scan, finish]
      split
      · exact .ok rfl
      · exact .error (.missing context)
  | cons token tokens =>
      by_cases hvalue : token.1 = .value
      · obtain ⟨text, rfl⟩ := Token.exists_text hvalue
        rw [leadingValues_value] at h
        have hgoesOn := h.goesOn [text] (by simp) (by simp)
        by_cases hnil : candidates Command.path context.commands [text] = []
        · have hmaybe : InitialState.maybeCommand context text = false :=
            Bool.eq_false_iff.mpr fun htrue => maybeCommand_iff.mp htrue hnil
          have hmaybe' : InitialState.maybeCommand { context with commands } text = false :=
            Bool.eq_false_iff.mpr fun htrue => maybeCommand_iff.mp htrue (hgoesOn.mpr hnil)
          rw [scan_cons, scan_cons]
          simp only [advance, begin, hmaybe, hmaybe', Bool.false_eq_true, if_false]
          cases context.activeCommand.isSome with
          | true => exact hready (.value, text) tokens
          | false => exact .error (.rejected _ context)
        · have hmaybe := maybeCommand_iff.mpr hnil
          have hmaybe' : InitialState.maybeCommand { context with commands } text = true :=
            maybeCommand_iff.mpr (hgoesOn.not.mpr hnil)
          rw [scan_cons, scan_cons]
          simp only [advance, begin, hmaybe, hmaybe', if_true]
          exact scan_naming_relisted h [text] tokens (by simp)
      · obtain ⟨tokenType, text⟩ := token
        have hother : ∀ c : ParserContext V, scan b .start c ((tokenType, text) :: tokens) =
            if c.activeCommand.isSome then scan b .ready c ((tokenType, text) :: tokens)
            else .error (.rejected (missingCommand c) c) := by
          intro c
          cases hactive : c.activeCommand.isSome <;> cases tokenType <;>
            first | exact absurd rfl hvalue | simp [scan, advance, begin, hactive]
        rw [hother, hother]
        cases context.activeCommand.isSome with
        | true => exact hready (tokenType, text) tokens
        | false => exact .error (.missing context)

end

/-! ## Whole runs -/

/-- The same result with these commands, which only the message about a missing command lists. -/
inductive ResultRelisted (commands : List (Command V)) : Result V → Result V → Prop
  | returned (noErrors : Bool) (context : ParserContext V) :
      ResultRelisted commands (.returned noErrors context)
        (.returned noErrors { context with commands })
  | missing (context : ParserContext V) :
      ResultRelisted commands (.returned false (reportError context (missingCommand context)))
        (.returned false (reportError { context with commands }
          (missingCommand { context with commands })))
  | faulted (fault : Fault) : ResultRelisted commands (.faulted fault) (.faulted fault)

/-- `Parse` comes to the same with either list of commands. -/
def ParsesRelisted (b : Build) (context : CommandLineContext V)
    (commands commands' : List (Command V)) (args : List String) : Prop :=
  (∀ result, Parses b context commands args result →
      ∃ result', Parses b context commands' args result' ∧
        ResultRelisted commands' result result') ∧
    ∀ result', Parses b context commands' args result' →
      ∃ result, Parses b context commands args result ∧ ResultRelisted commands' result result'

section

variable {context : CommandLineContext V} {commands' : List (Command V)} {args : List String}

/-- Passes that come to the same beside the list make results that do. -/
theorem conclude_relisted {pass₁ pass₂ : Except (Stop V) (ParserContext V)}
    (h : Agree (StopRelisted commands) (Relisted commands) pass₁ pass₂) :
    Option.Rel (ResultRelisted commands) (conclude b pass₁) (conclude b pass₂) := by
  cases h with
  | @ok c₁ c₂ h =>
      obtain rfl := h
      refine .some ?_
      have hsettle := FinalState.settle_relisted (b := b) commands c₁
      generalize FinalState.settle b c₁ = x₁ at hsettle ⊢
      generalize FinalState.settle b { c₁ with commands } = x₂ at hsettle ⊢
      cases hsettle with
      | error h =>
          obtain rfl := h
          exact .faulted _
      | @ok r₁ r₂ h =>
          obtain ⟨status, c₁⟩ := r₁
          obtain ⟨status', c₂⟩ := r₂
          obtain ⟨hstatus, hcontext⟩ := h
          obtain rfl : status' = status := hstatus
          obtain rfl : c₂ = { c₁ with commands } := hcontext
          cases status' with
          | terminateWithError message => exact .returned false (reportError c₁ message)
          | _ => exact .returned true c₁
  | error h =>
      cases h with
      | rejected message c => exact .some (.returned false (reportError c message))
      | missing c => exact .some (.missing c)
      | faulted fault => exact .some (.faulted fault)
      | swallowed =>
          cases b with
          | debug => exact .some (.faulted _)
          | release => exact .none

/-- Lists of commands that answer alike for a line are parsed alike with it. -/
theorem parsesRelisted_of_answersAlike
    (h : AnswersAlike commands commands' (leadingValues (Tokenizer.delivered args))) :
    ParsesRelisted b context commands commands' args := by
  have hinitial : InitialState.new (ParserContext.new context commands') =
      { InitialState.new (ParserContext.new context commands) with commands := commands' } := by
    simp only [InitialState.new, ParserContext.new, h.first]
    cases commands.find? Command.isDefault <;> rfl
  have hcommands : (InitialState.new (ParserContext.new context commands)).commands = commands := by
    rw [InitialState.new]
    split <;> rfl
  have hscan := scan_start_relisted (b := b) (InitialState.new (ParserContext.new context commands))
    (by rw [hcommands]; exact h)
  rw [← hinitial] at hscan
  have hconclude := conclude_relisted (b := b) hscan
  simp only [ParsesRelisted, parses_iff, pass]
  generalize conclude b (scan b .start (InitialState.new (ParserContext.new context commands))
    (Tokenizer.delivered args)) = o₁ at hconclude
  generalize conclude b (scan b .start (InitialState.new (ParserContext.new context commands'))
    (Tokenizer.delivered args)) = o₂ at hconclude
  cases hconclude with
  | none => simp
  | some h =>
      constructor
      · intro result hresult
        obtain rfl := Option.some.inj hresult
        exact ⟨_, rfl, h⟩
      · intro result hresult
        obtain rfl := Option.some.inj hresult
        exact ⟨_, rfl, h⟩

end

/-! ## Another order, more commands, other commands -/

section

variable {commands' : List (Command V)}

/-- Of commands with distinct paths, at most one is at each path. -/
theorem filter_path_eq (hperm : commands'.Perm commands)
    (hpaths : (commands.map Command.path).Nodup) (p : List String) :
    commands'.filter (fun c => c.path = p) = commands.filter (fun c => c.path = p) := by
  have hlength : (commands.filter fun c => c.path = p).length ≤ 1 := by
    have hnodup := hpaths.sublist ((List.filter_sublist (p := fun c => decide (c.path = p))).map
      Command.path)
    have hall : ∀ q ∈ (commands.filter fun c => decide (c.path = p)).map Command.path, q = p := by
      intro q hq
      obtain ⟨c, hc, rfl⟩ := List.mem_map.mp hq
      simpa using (List.mem_filter.mp hc).2
    rw [List.eq_replicate_of_mem hall, List.nodup_replicate, List.length_map] at hnodup
    exact hnodup
  have hfilter := hperm.filter (fun c => decide (c.path = p))
  generalize commands.filter (fun c => decide (c.path = p)) = at_p at hlength hfilter
  cases at_p with
  | nil => exact hfilter.eq_nil
  | cons c others =>
      obtain rfl : others = [] := by simpa using hlength
      exact hfilter.eq_singleton

/-- What is at each path decides everything but which paths go on. -/
theorem longest_congr {line : List String}
    (h : ∀ p, p <+: line → lastAt Command.path commands' p = lastAt Command.path commands p) :
    longest Command.path commands' line = longest Command.path commands line := by
  rw [longest, longest]
  congr 1
  refine List.filterMap_congr fun p hp => h p ((List.mem_inits p line).mp hp)

/-- Of commands with distinct paths the longest match, and the default command, is the same in any
order. -/
theorem answersAlike_of_perm (hperm : commands'.Perm commands)
    (hpaths : (commands.map Command.path).Nodup) (line : List String) :
    AnswersAlike commands commands' line := by
  have hdefault : commands'.filter Command.isDefault = commands.filter Command.isDefault := by
    have hpath : (Command.isDefault : Command V → Bool) = fun c => decide (c.path = [""]) := by
      funext c
      rw [Bool.eq_iff_iff, Command.isDefault_iff, decide_eq_true_iff]
    rw [hpath]
    exact filter_path_eq hperm hpaths [""]
  refine ⟨?_, ?_, fun typed _ _ => ?_, ?_⟩
  · rw [← List.head?_filter, ← List.head?_filter, hdefault]
  · rw [lastDefault, lastDefault, hdefault]
  · have hcandidates := hperm.filter fun c => typed.isPrefixOf c.path
    exact ⟨fun h => (List.perm_nil.mp (h ▸ hcandidates.symm)),
      fun h => List.perm_nil.mp (h ▸ hcandidates)⟩
  · exact longest_congr fun p _ => by rw [lastAt, lastAt, filter_path_eq hperm hpaths]

/-- A command whose path does not begin as the line does. -/
theorem answersAlike_of_insert {before behind : List (Command V)} {c : Command V}
    {line : List String} (hdefault : c.isDefault = false)
    (hfirst : ∀ v ∈ line.head?, c.path.head? ≠ some v) :
    AnswersAlike (before ++ behind) (before ++ c :: behind) line := by
  have hpath : ∀ p, p <+: line → ¬ p <+: c.path ∨ p = [] := by
    intro p hp
    cases p with
    | nil => exact .inr rfl
    | cons v p =>
        refine .inl fun hc => ?_
        obtain ⟨rest, rfl⟩ := hp
        obtain ⟨others, hothers⟩ := hc
        exact hfirst v rfl (by rw [← hothers]; rfl)
  refine ⟨?_, ?_, fun typed htyped hne => ?_, ?_⟩
  · simp [List.find?_append, hdefault]
  · simp [lastDefault, hdefault]
  · have hc : typed.isPrefixOf c.path = false := by
      rw [← Bool.not_eq_true, List.isPrefixOf_iff_prefix]
      exact (hpath typed htyped).resolve_right hne
    simp [candidates, hc]
  · refine longest_congr fun p hp => ?_
    have hc : c.path ≠ p := by
      intro heq
      obtain hnot | hnil := hpath p hp
      · exact hnot (heq ▸ List.prefix_rfl)
      · exact c.path_ne_nil (heq.trans hnil)
    simp [lastAt, hc]

/-- What a command with this path may be replaced by without a line to notice: anything with the
path, where the line does not lead to it. -/
inductive Replaces (commands : List (Command V)) (line : List String) (c : Command V) :
    Command V → Prop
  | same : Replaces commands line c c
  | other {c' : Command V} (path : c'.path = c.path) (not_default : c.isDefault = false)
      (elsewhere : ∀ d, longest Command.path commands line = some d → d.path ≠ c.path) :
      Replaces commands line c c'

/-- A command is replaced by one that is typed in the same way. -/
theorem Replaces.path_eq {line : List String} {c c' : Command V}
    (h : Replaces commands line c c') : c'.path = c.path := by
  cases h with
  | same => rfl
  | other hpath => exact hpath

/-- Commands that are the same where they are asked for. -/
theorem filter_eq_of_forall₂ {R : Command V → Command V → Prop} {p : Command V → Bool}
    (h : List.Forall₂ R commands commands')
    (hp : ∀ c c', R c c' → p c' = p c ∧ (p c = true → c' = c)) :
    commands'.filter p = commands.filter p := by
  induction h with
  | nil => rfl
  | @cons c c' commands commands' hR _ ih =>
      obtain ⟨hsame, heq⟩ := hp c c' hR
      rw [List.filter_cons, List.filter_cons, ih, hsame]
      split
      · next hc => rw [heq hc]
      · rfl

/-- So the two lists have the same paths, in the same places. -/
theorem map_path_eq_of_forall₂
    (h : List.Forall₂ (fun c c' : Command V => c'.path = c.path) commands commands') :
    commands'.map Command.path = commands.map Command.path := by
  induction h with
  | nil => rfl
  | cons hpath _ ih => rw [List.map_cons, List.map_cons, hpath, ih]

/-- Whether a path goes on with what is typed is a matter of the paths alone. -/
theorem candidates_eq_nil_iff {typed : List String} :
    candidates Command.path commands typed = [] ↔
      ∀ p ∈ commands.map Command.path, ¬ typed <+: p := by
  rw [List.eq_nil_iff_forall_not_mem]
  simp [mem_candidates]

/-- The paths say which command is led to, and that one is the same. -/
theorem answersAlike_of_replaces {line : List String}
    (h : List.Forall₂ (Replaces commands line) commands commands') :
    AnswersAlike commands commands' line := by
  have hpaths : commands'.map Command.path = commands.map Command.path :=
    map_path_eq_of_forall₂ (h.imp fun _ _ => Replaces.path_eq)
  have hmem : ∀ c' ∈ commands', ∃ c ∈ commands, c.path = c'.path := by
    intro c' hc'
    have hpath : c'.path ∈ commands.map Command.path := hpaths ▸ List.mem_map_of_mem hc'
    exact List.mem_map.mp hpath
  have hdefault : commands'.filter Command.isDefault = commands.filter Command.isDefault := by
    refine filter_eq_of_forall₂ h fun c c' hreplaces => ?_
    cases hreplaces with
    | same => exact ⟨rfl, fun _ => rfl⟩
    | other hpath hnot =>
        refine ⟨?_, fun htrue => absurd htrue (by simp [hnot])⟩
        rw [Bool.eq_iff_iff, Command.isDefault_iff, Command.isDefault_iff, hpath]
  refine ⟨?_, ?_, fun typed _ _ => ?_, ?_⟩
  · rw [← List.head?_filter, ← List.head?_filter, hdefault]
  · rw [lastDefault, lastDefault, hdefault]
  · rw [candidates_eq_nil_iff, candidates_eq_nil_iff, hpaths]
  · cases hlongest : longest Command.path commands line with
    | none =>
        rw [longest_eq_none] at hlongest ⊢
        intro c' hc' hpre
        obtain ⟨c, hc, hpath⟩ := hmem c' hc'
        exact hlongest c hc (hpath ▸ hpre)
    | some d =>
        obtain ⟨hpre, hlonger, hlast⟩ := longest_eq_some.mp hlongest
        refine longest_eq_some.mpr ⟨hpre, ?_, ?_⟩
        · intro c' hc' hpre'
          obtain ⟨c, hc, hpath⟩ := hmem c' hc'
          rw [← hpath] at hpre' ⊢
          exact hlonger c hc hpre'
        · rw [lastAt, filter_eq_of_forall₂ h]
          · exact hlast
          · intro c c' hreplaces
            cases hreplaces with
            | same => exact ⟨rfl, fun _ => rfl⟩
            | other hpath _ helsewhere =>
                refine ⟨by rw [hpath], fun hat => ?_⟩
                exact absurd (of_decide_eq_true hat).symm (helsewhere d hlongest)

variable {context : CommandLineContext V}

/-- **Registration order**: with distinct paths, the order in which commands are registered means
nothing to any command line. -/
theorem order_irrelevant (hperm : commands'.Perm commands)
    (hpaths : (commands.map Command.path).Nodup) (args : List String) :
    ParsesRelisted b context commands commands' args :=
  parsesRelisted_of_answersAlike (answersAlike_of_perm hperm hpaths _)

def up : Command String where
  path := ["up"]
  path_ne_nil := by decide
  path_valid := by decide

def down : Command String where
  path := ["down"]
  path_ne_nil := by decide
  path_valid := by decide

/-- `up` and `down`, registered in either order. -/
theorem order_irrelevant_upDown :
    ParsesRelisted .debug { programName := "prog" } [up, down] [down, up] ["down"] :=
  order_irrelevant (.swap up down []) (by decide) ["down"]

/-- **More commands**: a command that is registered, other than a default one, means nothing to the
command lines that do not begin as its path does. -/
theorem more_commands {before behind : List (Command V)} {c : Command V} {args : List String}
    (hdefault : c.isDefault = false)
    (hfirst : ∀ v ∈ (leadingValues (Tokenizer.delivered args)).head?, c.path.head? ≠ some v) :
    ParsesRelisted b context (before ++ behind) (before ++ c :: behind) args :=
  parsesRelisted_of_answersAlike (answersAlike_of_insert hdefault hfirst)

/-- `down`, registered behind `up`, means nothing to the line `up`. -/
theorem more_commands_down :
    ParsesRelisted .debug { programName := "prog" } ([up] ++ []) ([up] ++ [down]) ["up"] :=
  more_commands rfl (by decide)

/-- **Isolation**: what is registered at the paths that a command line does not lead to means nothing
to it. -/
theorem other_commands_irrelevant {args : List String}
    (h : List.Forall₂ (Replaces commands (leadingValues (Tokenizer.delivered args))) commands
      commands') : ParsesRelisted b context commands commands' args :=
  parsesRelisted_of_answersAlike (answersAlike_of_replaces h)

/-- Another command at the path of `down`. -/
def downLoudly : Command String :=
  { down with
    options := [{ key := "loud", longName := "loud", valueSemantic := none }]
    about := "With noise." }

/-- Nor does it matter to that line which command is at the path `down`. -/
theorem other_commands_irrelevant_downLoudly :
    ParsesRelisted .debug { programName := "prog" } [up, down] [up, downLoudly] ["up"] :=
  other_commands_irrelevant (.cons .same (.cons (.other rfl rfl (by decide)) .nil))

end

end Parser

end AsapClap
