import AsapClap.Parser.Run

/-!
# AsapClap.Parser.Values

What becomes of the tokens behind the command: the reference semantics of options
and values, as functions of the list of tokens alone.

* `occurrences` — every option typed, with the value it is given;
* `marks` — every value, and whether an option takes it.

A pass that gets to its end has stored exactly the occurrences, in order, and has
kept exactly the values no option takes (`summary_of_scan`).
-/

namespace AsapClap

variable {V : Type}

/-! ## Reference semantics -/

/-- The option a token names. -/
def Command.resolve (c : Command V) : Token → Option (ClapOption V)
  | (.shortOption, name) | (.loneDash, name) => c.findShortOption name
  | (.longOption, name) => c.findLongOption name
  | _ => none

/-- The value directly behind an option, possibly behind an equal sign. -/
def directValue : List Token → Option String
  | (.value, text) :: _ => some text
  | (.equalSign, _) :: (.value, text) :: _ => some text
  | _ => none

/-- What an option makes of a value offered to it. -/
def ClapOption.parse (o : ClapOption V) (text : String) : Option V :=
  o.valueSemantic.bind (·.parse text)

/-- The implicit value of an option, and its text. -/
def ClapOption.implicit (o : ClapOption V) : Option (V × String) :=
  o.valueSemantic.bind (·.applyImplicit)

/-- The value an option is given by the tokens behind it: the direct value if it
parses, else the implicit value. -/
def ClapOption.given (o : ClapOption V) (following : List Token) : Option (V × String) :=
  match (directValue following).bind fun text => (o.parse text).map (·, text) with
  | some value => some value
  | none => o.implicit

/-- The options typed, each with the value it is given. -/
def occurrences (c : Command V) : List Token → List (ClapOption V × Option (V × String))
  | [] => []
  | token :: tokens => match c.resolve token with
      | some option => (option, option.given tokens) :: occurrences c tokens
      | none => occurrences c tokens

/-- The values typed, each with whether an option takes it; `pending` is the
option that is offered the next value. -/
def marks (c : Command V) : Option (ClapOption V) → List Token → List (String × Bool)
  | _, [] => []
  | pending, (.value, text) :: tokens =>
      (text, (pending.bind (·.parse text)).isSome) :: marks c none tokens
  | pending, (.equalSign, _) :: tokens => marks c pending tokens
  | _, token :: tokens => marks c (c.resolve token) tokens

/-- The values no option takes. -/
def freeValues (c : Command V) (pending : Option (ClapOption V)) (tokens : List Token) :
    List String :=
  ((marks c pending tokens).filter fun m => !m.2).map Prod.fst

/-- The texts of the `Value` tokens. -/
def values (tokens : List Token) : List String :=
  (tokens.filter fun t => t.1 = .value).map Prod.snd

/-- The map entry of an option that is given a value. -/
def entryOf (p : ClapOption V × Option (V × String)) : Option (String × OptionValue V) :=
  p.2.map fun value => (p.1.key, ⟨value.1, value.2, false⟩)

section

variable {c : Command V}

@[simp] theorem resolve_value (text : String) : c.resolve (.value, text) = none := rfl

@[simp] theorem resolve_equalSign (text : String) : c.resolve (.equalSign, text) = none := rfl

@[simp] theorem occurrences_value (text : String) (tokens : List Token) :
    occurrences c ((.value, text) :: tokens) = occurrences c tokens := rfl

@[simp] theorem occurrences_equalSign (text : String) (tokens : List Token) :
    occurrences c ((.equalSign, text) :: tokens) = occurrences c tokens := rfl

/-- A name is an occurrence of its option, with the value behind it. -/
theorem occurrences_cons_of_some {token : Token} {option : ClapOption V}
    (h : c.resolve token = some option) (tokens : List Token) :
    occurrences c (token :: tokens) = (option, option.given tokens) :: occurrences c tokens := by
  simp [occurrences, h]

/-- A token that names an option begins a new occurrence. -/
theorem marks_cons_of_some {token : Token} {option : ClapOption V}
    (h : c.resolve token = some option) (pending : Option (ClapOption V)) (tokens : List Token) :
    marks c pending (token :: tokens) = marks c (some option) tokens := by
  obtain ⟨tokenType, text⟩ := token
  cases tokenType with
  | value => cases h
  | equalSign => cases h
  | _ => rw [← h]; rfl

@[simp] theorem freeValues_nil (pending : Option (ClapOption V)) :
    freeValues c pending [] = [] := by
  cases pending <;> rfl

/-- A value is free unless the option that is waiting takes it. -/
theorem freeValues_value (pending : Option (ClapOption V)) (text : String)
    (tokens : List Token) :
    freeValues c pending ((.value, text) :: tokens) =
      (if (pending.bind (·.parse text)).isSome then [] else [text]) ++
        freeValues c none tokens := by
  cases h : (pending.bind (·.parse text)).isSome <;> simp [freeValues, marks, h]

/-- An equal sign leaves the option waiting. -/
theorem freeValues_equalSign (pending : Option (ClapOption V)) (text : String)
    (tokens : List Token) :
    freeValues c pending ((.equalSign, text) :: tokens) = freeValues c pending tokens := by
  cases pending <;> rfl

/-- A name makes its option wait. -/
theorem freeValues_cons_of_some {token : Token} {option : ClapOption V}
    (h : c.resolve token = some option) (pending : Option (ClapOption V)) (tokens : List Token) :
    freeValues c pending (token :: tokens) = freeValues c (some option) tokens := by
  simp only [freeValues, marks_cons_of_some h]

end

namespace Parser

variable {b : Build} {c : Command V}

/-! ## Steps of the pass -/

/-- The option that is offered the next value, and whether an equal sign was. -/
def Phase.pending (context : ParserContext V) : Phase → Option (ClapOption V × Bool)
  | .short none => context.activeOption.map (·, false)
  | .long none afterEqual => context.activeOption.map (·, afterEqual)
  | _ => none

/-- An option without a value gets its implicit one. -/
inductive Settles : Option (ClapOption V × Bool) → ParserContext V → ParserContext V → Prop
  | none (context : ParserContext V) : Settles none context context
  | implicit {option : ClapOption V} {afterEqual : Bool} {value : V} {text : String}
      (context : ParserContext V) (h : option.implicit = some (value, text)) :
      Settles (some (option, afterEqual)) context (context.storeValue option value text false)

/-- One token behind the command. -/
inductive Step (c : Command V) : Option (ClapOption V × Bool) → ParserContext V → Token →
    Option (ClapOption V × Bool) → ParserContext V → Prop
  | positional (context : ParserContext V) (text : String) :
      Step c none context (.value, text) none
        { context with positionalTokens := context.positionalTokens ++ [text] }
  | taken {option : ClapOption V} {afterEqual : Bool} {value : V} {text : String}
      (context : ParserContext V) (h : option.parse text = some value) :
      Step c (some (option, afterEqual)) context (.value, text) none
        (context.storeValue option value text false)
  | declined {option : ClapOption V} {value : V} {text valueAsText : String}
      (context : ParserContext V) (h : option.parse text = none)
      (himplicit : option.implicit = some (value, valueAsText)) :
      Step c (some (option, false)) context (.value, text) none
        { context.storeValue option value valueAsText false with
          positionalTokens := context.positionalTokens ++ [text] }
  | equalSign {option : ClapOption V} {afterEqual : Bool} {text : String}
      (context : ParserContext V) :
      Step c (some (option, afterEqual)) context (.equalSign, text) (some (option, true)) context
  | equalSignTaken {text : String} (context : ParserContext V) :
      Step c none context (.equalSign, text) none context
  | option {pending : Option (ClapOption V × Bool)} {context context' : ParserContext V}
      {token : Token} {option : ClapOption V} (flag : String)
      (hsettles : Settles pending context context') (hresolve : c.resolve token = some option) :
      Step c pending context token (some (option, false))
        { context' with activeOptionFlag := flag, activeOption := some option }

/-- The phases behind the command. -/
def Phase.BehindCommand (context : ParserContext V) : Phase → Prop
  | .ready => True
  | .short _ | .long _ _ => context.activeOption.isSome
  | _ => False

/-- What is accepted has no error. -/
theorem accept_eq_ok {x : Except Fault (Status × ParserContext V)} {context : ParserContext V}
    (h : accept x = .ok context) :
    ∃ status, x = .ok (status, context) ∧ ∀ message, status ≠ .terminateWithError message := by
  obtain fault | ⟨status, context'⟩ := x
  · cases h
  · cases status <;> cases h <;> exact ⟨_, rfl, by simp⟩

/-- Once the command is known and no option waits, a value is positional and any
other token names an option. -/
theorem dispatch_ok {context context' : ParserContext V} {token : Token} {phase' : Phase}
    (hcommand : context.activeCommand = some c)
    (h : dispatch b context token = .ok (phase', context')) :
    (∃ text, token = (.value, text) ∧ phase' = .ready ∧
        context' = { context with positionalTokens := context.positionalTokens ++ [text] }) ∨
      ∃ option flag, c.resolve token = some option ∧
        (phase' = .short none ∨ phase' = .long none false) ∧
        context' = { context with activeOptionFlag := flag, activeOption := some option } := by
  have henter : ∀ {flag text : String} {find : Command V → Option (ClapOption V)}
      {context' : ParserContext V},
      accept (enterOption b flag find text true context) = .ok context' →
      ∃ option, find c = some option ∧
        context' = { context with activeOptionFlag := flag, activeOption := some option } := by
    intro flag text find context' haccept
    obtain ⟨status, hok, hstatus⟩ := accept_eq_ok haccept
    obtain ⟨command, hactive, hentered⟩ := enterOption_ok hok
    obtain rfl : c = command := by simpa [hcommand] using hactive
    obtain ⟨⟨message, rfl⟩, -⟩ | ⟨option, hfind, -, -, hcontext⟩ := hentered
    · exact absurd rfl (hstatus message)
    · exact ⟨option, hfind, hcontext⟩
  obtain ⟨tokenType, text⟩ := token
  cases tokenType with
  | value =>
      cases h
      exact .inl ⟨text, rfl, rfl, rfl⟩
  | shortOption | loneDash =>
      obtain ⟨context₁, haccept, h⟩ := bind_eq_ok.mp h
      cases h
      obtain ⟨option, hfind, rfl⟩ := henter haccept
      exact .inr ⟨option, _, hfind, .inl rfl, rfl⟩
  | longOption =>
      obtain ⟨context₁, haccept, h⟩ := bind_eq_ok.mp h
      cases h
      obtain ⟨option, hfind, rfl⟩ := henter haccept
      exact .inr ⟨option, _, hfind, .inr rfl, rfl⟩
  | equalSign =>
      obtain ⟨message, -, h⟩ := bind_eq_ok.mp h
      cases h
  | dashDash | endOfInput => cases h

/-- Leaving an option state settles its option. -/
theorem leave_ok {context context' : ParserContext V} {value : Option String}
    {option : ClapOption V} (hoption : context.activeOption = some option)
    (h : accept (leaveOption value context) = .ok context') (afterEqual : Bool) :
    Settles (if value.isSome then none else some (option, afterEqual)) context context' := by
  obtain ⟨status, hok, hstatus⟩ := accept_eq_ok h
  rcases leaveOption_ok hok with ⟨⟨message, rfl⟩, -⟩ | ⟨-, ⟨hvalue, rfl⟩ |
    ⟨rfl, option', semantics, v, text, hactive, hsem, himplicit, rfl⟩⟩
  · exact absurd rfl (hstatus message)
  · rw [if_pos hvalue]
    exact .none _
  · obtain rfl : option = option' := Option.some.inj (hoption.symm.trans hactive)
    exact .implicit _ (by simp [ClapOption.implicit, hsem, himplicit])

/-- What an option does with a value offered to it. -/
theorem offer_ok {context context' : ParserContext V} {option : ClapOption V}
    {semantics : ValueSemantics V} {taken phase' : Phase} {fallback : Bool} {text : String}
    (hsem : option.valueSemantic = some semantics)
    (h : offer b option semantics taken fallback context text = .ok (phase', context')) :
    (∃ value, option.parse text = some value ∧ phase' = taken ∧
        context' = context.storeValue option value text false) ∨
      ∃ value valueAsText, fallback = true ∧ option.parse text = none ∧
        option.implicit = some (value, valueAsText) ∧ phase' = .ready ∧
        context' = { context.storeValue option value valueAsText false with
          positionalTokens := context.positionalTokens ++ [text] } := by
  have hparse' : option.parse text = semantics.parse text := by simp [ClapOption.parse, hsem]
  cases hparse : semantics.parse text with
  | some value =>
      rw [offer_of_parse hparse] at h
      cases h
      exact .inl ⟨value, hparse'.trans hparse, rfl, rfl⟩
  | none =>
      by_cases hmissing : fallback = false ∨ semantics.applyImplicit = none
      · rw [offer_of_missing hparse hmissing] at h
        obtain ⟨message, -, h⟩ := bind_eq_ok.mp h
        cases h
      · obtain ⟨hfallback, himplicit⟩ := not_or.mp hmissing
        obtain ⟨⟨value, valueAsText⟩, himplicit⟩ := Option.ne_none_iff_exists'.mp himplicit
        obtain rfl : fallback = true := by simpa using hfallback
        rw [offer_of_implicit hparse himplicit] at h
        cases h
        exact .inr ⟨value, valueAsText, rfl, hparse'.trans hparse,
          by simp [ClapOption.implicit, hsem, himplicit], rfl, rfl⟩

/-- To settle an option keeps the command. -/
theorem Settles.activeCommand_eq {pending : Option (ClapOption V × Bool)}
    {context context' : ParserContext V} (h : Settles pending context context') :
    context'.activeCommand = context.activeCommand := by
  cases h <;> rfl

/-- A token that is dispatched once the pending option is settled. -/
theorem step_of_dispatch {pending : Option (ClapOption V × Bool)}
    {context context₁ context' : ParserContext V} {token : Token} {phase' : Phase}
    (hsettles : Settles pending context context₁) (hcommand : context.activeCommand = some c)
    (hvalue : token.1 = .value → pending = none)
    (h : dispatch b context₁ token = .ok (phase', context')) :
    phase'.BehindCommand context' ∧ context'.activeCommand = some c ∧
      Step c pending context token (phase'.pending context') context' := by
  have hcommand₁ : context₁.activeCommand = some c := hsettles.activeCommand_eq.trans hcommand
  obtain ⟨text, rfl, rfl, rfl⟩ | ⟨option, flag, hresolve, hphase, rfl⟩ := dispatch_ok hcommand₁ h
  · obtain rfl := hvalue rfl
    cases hsettles
    exact ⟨trivial, hcommand, .positional _ text⟩
  · rcases hphase with rfl | rfl <;> exact ⟨rfl, hcommand₁, .option flag hsettles hresolve⟩

/-- A value offered to an option, as a step. -/
theorem step_of_offer {context context' : ParserContext V} {option : ClapOption V}
    {semantics : ValueSemantics V} (taken : Phase) {phase' : Phase} {afterEqual : Bool}
    {text : String} (hoption : context.activeOption = some option)
    (hcommand : context.activeCommand = some c) (hsem : option.valueSemantic = some semantics)
    (htaken : ∀ context : ParserContext V, context.activeOption.isSome →
      taken.BehindCommand context ∧ taken.pending context = none)
    (h : offer b option semantics taken (!afterEqual) context text = .ok (phase', context')) :
    phase'.BehindCommand context' ∧ context'.activeCommand = some c ∧
      Step c (some (option, afterEqual)) context (.value, text) (phase'.pending context')
        context' := by
  rcases offer_ok hsem h with ⟨value, hparse, rfl, rfl⟩ |
    ⟨value, valueAsText, hfallback, hparse, himplicit, rfl, rfl⟩
  · obtain ⟨hbehind, hpending⟩ := htaken (context.storeValue option value text false)
      (by simp [ParserContext.storeValue, hoption])
    refine ⟨hbehind, hcommand, ?_⟩
    rw [hpending]
    exact .taken context hparse
  · obtain rfl : afterEqual = false := by simpa using hfallback
    exact ⟨trivial, hcommand, .declined context hparse himplicit⟩

/-- A step from behind a short name. -/
theorem advance_short_ok {phase' : Phase} {context context' : ParserContext V} {token : Token}
    {option : ClapOption V} {value : Option String} (hoption : context.activeOption = some option)
    (hcommand : context.activeCommand = some c)
    (h : advance b (.short value) context token = .ok (phase', context')) :
    phase'.BehindCommand context' ∧ context'.activeCommand = some c ∧
      Step c ((Phase.short value).pending context) context token (phase'.pending context')
        context' := by
  have hpending : (Phase.short value).pending context =
      if value.isSome then none else some (option, false) := by
    cases value <;> simp [Phase.pending, hoption]
  rw [hpending]
  by_cases hvalue : token.1 = .value
  · obtain ⟨text, rfl⟩ := Token.exists_text hvalue
    obtain ⟨⟨option', semantics?⟩, hsem, hrest⟩ := bind_eq_ok.mp h
    obtain ⟨hoption', rfl⟩ := activeSemantics_ok (lift_eq_ok.mp hsem)
    obtain rfl : option = option' := by simpa [hoption] using hoption'
    cases value with
    | some value =>
        exact step_of_dispatch (b := b) (.none context) hcommand (fun _ => rfl) hrest
    | none =>
        obtain ⟨semantics, hsem, hoffer⟩ := bind_eq_ok.mp hrest
        rw [lift_eq_ok, deref_eq_ok] at hsem
        exact step_of_offer (b := b) (.short (some text)) hoption hcommand hsem
          (fun _ hactive => ⟨hactive, rfl⟩) hoffer
  · rw [advance_short_other hvalue] at h
    obtain ⟨context₁, hleave, hdispatch⟩ := bind_eq_ok.mp h
    exact step_of_dispatch (leave_ok hoption hleave false) hcommand
      (fun h => absurd h hvalue) hdispatch

/-- A step from behind a long name. -/
theorem advance_long_ok {phase' : Phase} {context context' : ParserContext V} {token : Token}
    {option : ClapOption V} {value : Option String} {afterEqual : Bool}
    (hoption : context.activeOption = some option) (hcommand : context.activeCommand = some c)
    (h : advance b (.long value afterEqual) context token = .ok (phase', context')) :
    phase'.BehindCommand context' ∧ context'.activeCommand = some c ∧
      Step c ((Phase.long value afterEqual).pending context) context token
        (phase'.pending context') context' := by
  have hpending : (Phase.long value afterEqual).pending context =
      if value.isSome then none else some (option, afterEqual) := by
    cases value <;> simp [Phase.pending, hoption]
  rw [hpending]
  by_cases hvalue : token.1 = .value
  · obtain ⟨text, rfl⟩ := Token.exists_text hvalue
    obtain ⟨⟨option', semantics?⟩, hsem, hrest⟩ := bind_eq_ok.mp h
    obtain ⟨hoption', rfl⟩ := activeSemantics_ok (lift_eq_ok.mp hsem)
    obtain rfl : option = option' := by simpa [hoption] using hoption'
    cases value with
    | some value =>
        exact step_of_dispatch (b := b) (.none context) hcommand (fun _ => rfl) hrest
    | none =>
        simp only [Option.isSome_none, Bool.false_eq_true, if_false] at hrest ⊢
        split at hrest
        · obtain ⟨message, -, hrest⟩ := bind_eq_ok.mp hrest
          cases hrest
        · obtain ⟨semantics, hsem, hoffer⟩ := bind_eq_ok.mp hrest
          rw [lift_eq_ok, deref_eq_ok] at hsem
          exact step_of_offer (b := b) (.long (some text) afterEqual) hoption hcommand hsem
            (fun _ hactive => ⟨hactive, rfl⟩) hoffer
  · by_cases hequal : token.1 = .equalSign
    · obtain ⟨text, rfl⟩ := Token.exists_text hequal
      obtain ⟨-, -, hrest⟩ := bind_eq_ok.mp h
      cases hrest
      have hphase : (Phase.long value true).BehindCommand context := by
        simp [Phase.BehindCommand, hoption]
      refine ⟨hphase, hcommand, ?_⟩
      cases value with
      | some value => exact .equalSignTaken context
      | none =>
          have hafter : (Phase.long none true).pending context = some (option, true) := by
            simp [Phase.pending, hoption]
          rw [hafter]
          exact .equalSign context
    · rw [advance_long_other hvalue hequal] at h
      obtain ⟨context₁, hleave, hdispatch⟩ := bind_eq_ok.mp h
      exact step_of_dispatch (leave_ok hoption hleave afterEqual) hcommand
        (fun h => absurd h hvalue) hdispatch

/-- **One token** behind the command, for a pass that goes on. -/
theorem advance_ok {phase phase' : Phase} {context context' : ParserContext V} {token : Token}
    (hphase : phase.BehindCommand context) (hcommand : context.activeCommand = some c)
    (h : advance b phase context token = .ok (phase', context')) :
    phase'.BehindCommand context' ∧ context'.activeCommand = some c ∧
      Step c (phase.pending context) context token (phase'.pending context') context' := by
  cases phase with
  | start | naming typed => exact hphase.elim
  | ready => exact step_of_dispatch (.none context) hcommand (fun _ => rfl) h
  | short value =>
      obtain ⟨option, hoption⟩ := Option.isSome_iff_exists.mp hphase
      exact advance_short_ok hoption hcommand h
  | long value afterEqual =>
      obtain ⟨option, hoption⟩ := Option.isSome_iff_exists.mp hphase
      exact advance_long_ok hoption hcommand h

/-! ## The rest of the line -/

/-- The occurrences with the one of the pending option in front. -/
def pendingOccurrences (c : Command V) :
    Option (ClapOption V × Bool) → List Token → List (ClapOption V × Option (V × String))
  | none, tokens => occurrences c tokens
  | some (option, true), tokens =>
      (option, option.given ((.equalSign, "=") :: tokens)) :: occurrences c tokens
  | some (option, false), tokens => (option, option.given tokens) :: occurrences c tokens

/-- No equal sign directly behind another. -/
def SingleEqualSigns (tokens : List Token) : Prop :=
  tokens.IsChain fun s t => s.1 = .equalSign → t.1 ≠ .equalSign

/-- An equal sign that was typed is not followed by another. -/
def FollowsEqualSign (pending : Option (ClapOption V × Bool)) (tokens : List Token) : Prop :=
  ∀ option, pending = some (option, true) → ∀ t ∈ tokens.head?, t.1 ≠ .equalSign

/-- Without a value behind it an option gets the implicit one. -/
theorem given_of_directValue_none {o : ClapOption V} {following : List Token}
    (h : directValue following = none) : o.given following = o.implicit := by
  simp [ClapOption.given, h]

/-- A value behind the name is taken if it parses. -/
theorem given_value {o : ClapOption V} {text : String} {tokens : List Token} :
    o.given ((.value, text) :: tokens) =
      match o.parse text with
      | some value => some (value, text)
      | none => o.implicit := by
  cases h : o.parse text <;> simp [ClapOption.given, directValue, h]

/-- How the equal sign is spelled does not matter. -/
theorem given_equalSign {o : ClapOption V} (equal equal' : String) (tokens : List Token) :
    o.given ((.equalSign, equal) :: tokens) = o.given ((.equalSign, equal') :: tokens) := by
  have hdirect : directValue ((.equalSign, equal) :: tokens) =
      directValue ((.equalSign, equal') :: tokens) := by
    obtain - | ⟨⟨tokenType, text⟩, tokens⟩ := tokens
    · rfl
    · cases tokenType <;> rfl
  simp only [ClapOption.given, hdirect]

/-- A value behind the equal sign is taken if it parses. -/
theorem given_equalSign_value {o : ClapOption V} {text equal : String} {tokens : List Token} :
    o.given ((.equalSign, equal) :: (.value, text) :: tokens) =
      match o.parse text with
      | some value => some (value, text)
      | none => o.implicit := by
  cases h : o.parse text <;> simp [ClapOption.given, directValue, h]

/-- A token that names an option gives the one before it its implicit value. -/
theorem pendingOccurrences_cons_of_some {pending : Option (ClapOption V × Bool)} {token : Token}
    {option : ClapOption V} (h : c.resolve token = some option) (tokens : List Token) :
    pendingOccurrences c pending (token :: tokens) =
      (pending.map fun p => (p.1, p.1.implicit)).toList ++
        pendingOccurrences c (some (option, false)) tokens := by
  have hdirect : directValue (token :: tokens) = none ∧
      directValue ((.equalSign, "=") :: token :: tokens) = none := by
    obtain ⟨tokenType, text⟩ := token
    cases tokenType with
    | value => cases h
    | equalSign => cases h
    | _ => exact ⟨rfl, rfl⟩
  rcases pending with - | ⟨before, - | -⟩ <;>
    simp [pendingOccurrences, occurrences_cons_of_some h, given_of_directValue_none hdirect.1,
      given_of_directValue_none hdirect.2]

/-- A value ends the occurrence of the pending option. -/
theorem pendingOccurrences_value {pending : Option (ClapOption V × Bool)} {text : String}
    (tokens : List Token) :
    pendingOccurrences c pending ((.value, text) :: tokens) =
      (pending.map fun p => (p.1, match p.1.parse text with
        | some value => some (value, text)
        | none => p.1.implicit)).toList ++ occurrences c tokens := by
  rcases pending with - | ⟨before, - | -⟩ <;>
    simp [pendingOccurrences, given_value, given_equalSign_value]

/-- What one step adds to the contents of the parse. -/
theorem step_contents {pending pending' : Option (ClapOption V × Bool)}
    {context context' : ParserContext V} {token : Token} {tokens : List Token}
    (h : Step c pending context token pending' context')
    (hequal : FollowsEqualSign pending (token :: tokens)) :
    (∃ es, (pendingOccurrences c pending (token :: tokens)).map entryOf =
        es.map some ++ (pendingOccurrences c pending' tokens).map entryOf ∧
      context'.ovm = context.ovm.storeAll es) ∧
    context'.positionalTokens ++ freeValues c (pending'.map Prod.fst) tokens =
      context.positionalTokens ++ freeValues c (pending.map Prod.fst) (token :: tokens) := by
  cases h with
  | positional text =>
      refine ⟨⟨[], ?_, rfl⟩, ?_⟩
      · rw [pendingOccurrences_value]
        rfl
      · simp [freeValues_value]
  | @taken option afterEqual value text _ hparse =>
      refine ⟨⟨[(option.key, ⟨value, text, false⟩)], ?_, rfl⟩, ?_⟩
      · rw [pendingOccurrences_value]
        simp [hparse, entryOf, pendingOccurrences]
      · simp [freeValues_value, hparse, ParserContext.storeValue]
  | @declined option value text valueAsText _ hparse himplicit =>
      refine ⟨⟨[(option.key, ⟨value, valueAsText, false⟩)], ?_, rfl⟩, ?_⟩
      · rw [pendingOccurrences_value]
        simp [hparse, himplicit, entryOf, pendingOccurrences]
      · simp [freeValues_value, hparse]
  | @equalSign option afterEqual text =>
      refine ⟨⟨[], ?_, rfl⟩, ?_⟩
      · cases afterEqual with
        | true => exact absurd rfl (hequal option rfl (.equalSign, text) rfl)
        | false => simp [pendingOccurrences, given_equalSign text "="]
      · simp [freeValues_equalSign]
  | equalSignTaken =>
      refine ⟨⟨[], ?_, rfl⟩, ?_⟩
      · simp [pendingOccurrences]
      · simp [freeValues_equalSign]
  | option flag hsettles hresolve =>
      rw [pendingOccurrences_cons_of_some hresolve, freeValues_cons_of_some hresolve]
      cases hsettles with
      | none => exact ⟨⟨[], rfl, rfl⟩, rfl⟩
      | @implicit option afterEqual value text _ himplicit =>
          refine ⟨⟨[(option.key, ⟨value, text, false⟩)], ?_, rfl⟩, rfl⟩
          simp [himplicit, entryOf]

/-- The contents of a parse: what a pass over the tokens behind the command adds
to the context. -/
structure Summary (c : Command V) (pending : Option (ClapOption V × Bool)) (tokens : List Token)
    (context entry : ParserContext V) : Prop where
  activeCommand : entry.activeCommand = some c
  stored : ∃ es, (pendingOccurrences c pending tokens).map entryOf = es.map some ∧
    entry.ovm = context.ovm.storeAll es
  positional : entry.positionalTokens =
    context.positionalTokens ++ freeValues c (pending.map Prod.fst) tokens

/-- One more step in front of a summary. -/
theorem Summary.cons {pending pending' : Option (ClapOption V × Bool)}
    {context context' entry : ParserContext V} {token : Token} {tokens : List Token}
    (h : Step c pending context token pending' context')
    (hequal : FollowsEqualSign pending (token :: tokens))
    (hrest : Summary c pending' tokens context' entry) :
    Summary c pending (token :: tokens) context entry := by
  obtain ⟨⟨es, hes, hovm⟩, hpos⟩ := step_contents h hequal
  obtain ⟨hcommand, ⟨es', hes', hovm'⟩, hpos'⟩ := hrest
  refine ⟨hcommand, ⟨es ++ es', ?_, ?_⟩, ?_⟩
  · rw [hes, hes', List.map_append]
  · rw [hovm', hovm, Multimap.storeAll_append]
  · rw [hpos', hpos]

/-- At the end of the line the pending option gets its implicit value. -/
theorem summary_of_settles {pending : Option (ClapOption V × Bool)}
    {context entry : ParserContext V} (hcommand : context.activeCommand = some c)
    (h : Settles pending context entry) : Summary c pending [] context entry := by
  cases h with
  | none => exact ⟨hcommand, ⟨[], rfl, rfl⟩, by simp⟩
  | @implicit option afterEqual value text _ himplicit =>
      refine ⟨hcommand, ⟨[(option.key, ⟨value, text, false⟩)], ?_, rfl⟩, ?_⟩
      · cases afterEqual <;>
          simp [pendingOccurrences, ClapOption.given, directValue, himplicit, entryOf, occurrences]
      · simp [ParserContext.storeValue]

/-- With single equal signs no step leads to a second one. -/
theorem followsEqualSign_of_step {pending pending' : Option (ClapOption V × Bool)}
    {context context' : ParserContext V} {token : Token} {tokens : List Token}
    (h : Step c pending context token pending' context')
    (hsingle : SingleEqualSigns (token :: tokens)) : FollowsEqualSign pending' tokens := by
  rintro option hpending t ht
  cases h with
  | equalSign => exact List.IsChain.rel_head? hsingle ht rfl
  | _ => cases hpending

/-- At the end of the tokens an option that waits for a value gets its implicit one. -/
theorem settles_of_finish {phase : Phase} {context entry : ParserContext V}
    (hphase : phase.BehindCommand context) (h : finish b phase context = .ok entry) :
    Settles (phase.pending context) context entry := by
  cases phase with
  | start | naming typed => exact hphase.elim
  | ready =>
      cases h
      exact .none _
  | short value =>
      obtain ⟨option, hoption⟩ := Option.isSome_iff_exists.mp hphase
      have hsettles := leave_ok hoption h false
      cases value <;> simpa [Phase.pending, hoption] using hsettles
  | long value afterEqual =>
      obtain ⟨option, hoption⟩ := Option.isSome_iff_exists.mp hphase
      have hsettles := leave_ok hoption h afterEqual
      cases value <;> simpa [Phase.pending, hoption] using hsettles

/-- **The rest of the line**: a pass that gets to the end has stored every
occurrence and kept every free value, in order. -/
theorem summary_of_scan {phase : Phase} {context entry : ParserContext V} {tokens : List Token}
    (hphase : phase.BehindCommand context) (hcommand : context.activeCommand = some c)
    (hsingle : SingleEqualSigns tokens)
    (hequal : FollowsEqualSign (phase.pending context) tokens)
    (h : scan b phase context tokens = .ok entry) :
    Summary c (phase.pending context) tokens context entry := by
  induction tokens generalizing phase context with
  | nil => exact summary_of_settles hcommand (settles_of_finish hphase h)
  | cons token tokens ih =>
      obtain ⟨⟨phase', context'⟩, hadvance, hrest⟩ := bind_eq_ok.mp h
      obtain ⟨hphase', hcommand', hstep⟩ := advance_ok hphase hcommand hadvance
      exact .cons hstep hequal (ih hphase' hcommand' hsingle.tail
        (followsEqualSign_of_step hstep hsingle) hrest)

end Parser

end AsapClap
