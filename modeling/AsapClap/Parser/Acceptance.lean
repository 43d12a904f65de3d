import AsapClap.Parser.Contents
import AsapClap.Parser.Faults

/-!
# AsapClap.Parser.Acceptance

Which command lines are accepted, said of the command line alone: the command that is chosen, the
options that are known to it, what stands behind each of them, how often they are repeated, and
what is left for `FinalState`.
-/

namespace AsapClap

variable {V : Type}

/-! ## What a command line has to be like -/

/-- Behind the equal sign of an option: a value that parses, or none where there is an implicit
one. -/
def ClapOption.TakesBound (o : ClapOption V) : List Token → Prop
  | (.value, text) :: _ => (o.parse text).isSome
  | _ => o.implicit.isSome

/-- Behind an option: a value that parses or a value and an implicit one, if a value may stand there
without an equal sign; what `TakesBound` says behind an equal sign; else an implicit value. -/
def ClapOption.Takes (freely : Bool) (o : ClapOption V) : List Token → Prop
  | (.value, text) :: _ => freely = true ∧ ((o.parse text).isSome ∨ o.implicit.isSome)
  | (.equalSign, _) :: tokens => o.TakesBound tokens
  | _ => o.implicit.isSome

/-- An option that may be typed again. -/
def ClapOption.IsRepeatable (o : ClapOption V) : Prop :=
  ∃ semantics, o.valueSemantic = some semantics ∧ semantics.isRepeatable = true

namespace Parser

open LongestPrefix Tokenizer

variable {b : Build} {c : Command V}

/-- Whether a value may stand behind the option a token names without an equal sign. -/
def Freely (allow : Bool) (token : Token) : Bool := token.1 ≠ .longOption || allow

/-- The tokens behind the command are in order when these keys have values before them. -/
def InOrderFrom (c : Command V) (allow : Bool) : (String → Prop) → List Token → Prop
  | _, [] => True
  | stored, (.value, _) :: tokens => InOrderFrom c allow stored tokens
  | stored, (.equalSign, _) :: tokens => InOrderFrom c allow stored tokens
  | stored, token :: tokens => ∃ o, c.resolve token = some o ∧
      (stored o.key → o.IsRepeatable) ∧ o.Takes (Freely allow token) tokens ∧
      InOrderFrom c allow (fun k => stored k ∨ k = o.key) tokens

/-! ## One token of the pass -/

section

variable {context context' : ParserContext V} {token : Token} {o : ClapOption V}

/-- An option passes the check if it has value semantics and either may repeat or has no value yet.
-/
theorem checkMultipleOccurrence_eq_true_iff (flag : String) :
    checkMultipleOccurrence { context with activeOptionFlag := flag, activeOption := some o } =
        .ok true ↔
      (context.ovm.hasOption o.key = true → o.IsRepeatable) := by
  rw [OptionValuesMap.hasOption_iff, ← OptionValuesMap.occurrencesOf_pos_iff]
  by_cases hoccurs : context.ovm.occurrencesOf o.key = 0
  · simp [checkMultipleOccurrence, hoccurs]
  · have hpos : 0 < context.ovm.occurrencesOf o.key := Nat.pos_of_ne_zero hoccurs
    cases hsem : o.valueSemantic with
    | none => simp [checkMultipleOccurrence, hoccurs, hpos, ClapOption.IsRepeatable, hsem]
    | some semantics =>
        simp [checkMultipleOccurrence, hoccurs, hpos, ClapOption.IsRepeatable, hsem]

/-- An option state is entered exactly for an option that the command knows and that may occur. -/
theorem accept_enterOption_iff {flag text : String} {find : Command V → Option (ClapOption V)}
    (hcommand : context.activeCommand = some c) :
    accept (enterOption b flag find text true context) = .ok context' ↔
      ∃ o, find c = some o ∧ (context.ovm.hasOption o.key = true → o.IsRepeatable) ∧
        context' = { context with activeOptionFlag := flag, activeOption := some o } := by
  constructor
  · intro h
    obtain ⟨status, hok, hstatus⟩ := accept_eq_ok h
    obtain ⟨command, hactive, hentered⟩ := enterOption_ok hok
    obtain rfl : c = command := Option.some.inj (hcommand.symm.trans hactive)
    obtain ⟨⟨message, rfl⟩, -⟩ | ⟨o, hfind, -, hcheck, rfl⟩ := hentered
    · exact absurd rfl (hstatus message)
    · exact ⟨o, hfind, (checkMultipleOccurrence_eq_true_iff flag).mp hcheck, rfl⟩
  · intro h
    obtain ⟨o, hfind, hrepeat, heq⟩ := h
    have hcheck := (checkMultipleOccurrence_eq_true_iff flag).mpr hrepeat
    simp only [enterOption, takeData_true, ok_bind, hcommand, Option.isSome_some,
      Build.expect_true, deref_some, hfind, hcheck, if_true, pure_eq_ok, accept_continue, heq]

/-- The phase behind a token that names an option. -/
def optionPhase (token : Token) : Phase :=
  if token.1 = .longOption then .long none false else .short none

/-- How an option was typed. -/
def optionFlag (token : Token) : String :=
  (if token.1 = .longOption then "--" else "-") ++ token.2

/-- Once no option waits, a token other than a value has to name an option that may occur. -/
theorem dispatch_ok_iff {p : Phase × ParserContext V} (hcommand : context.activeCommand = some c)
    (hvalue : token.1 ≠ .value) :
    dispatch b context token = .ok p ↔
      ∃ o, c.resolve token = some o ∧ (context.ovm.hasOption o.key = true → o.IsRepeatable) ∧
        p = (optionPhase token,
          { context with activeOptionFlag := optionFlag token, activeOption := some o }) := by
  have henter : ∀ {flag text : String} {find : Command V → Option (ClapOption V)} {phase : Phase},
      (accept (enterOption b flag find text true context) >>= fun context => .ok (phase, context)) =
          .ok p ↔
        ∃ o, find c = some o ∧ (context.ovm.hasOption o.key = true → o.IsRepeatable) ∧
          p = (phase, { context with activeOptionFlag := flag, activeOption := some o }) := by
    intro flag text find phase
    rw [bind_eq_ok]
    constructor
    · intro h
      obtain ⟨context', haccept, h⟩ := h
      cases h
      obtain ⟨o, hfind, hrepeat, rfl⟩ := (accept_enterOption_iff hcommand).mp haccept
      exact ⟨o, hfind, hrepeat, rfl⟩
    · intro h
      obtain ⟨o, hfind, hrepeat, heq⟩ := h
      exact ⟨_, (accept_enterOption_iff hcommand).mpr ⟨o, hfind, hrepeat, rfl⟩, by rw [heq]⟩
  obtain ⟨tokenType, text⟩ := token
  cases tokenType with
  | value => exact absurd rfl hvalue
  | longOption | shortOption | loneDash => exact henter
  | equalSign =>
      refine iff_of_false ?_ (by simp [resolve_equalSign])
      intro h
      obtain ⟨message, -, h⟩ := bind_eq_ok.mp h
      cases h
  | dashDash | endOfInput =>
      refine iff_of_false (by simp [dispatch]) ?_
      intro h
      obtain ⟨o, hresolve, -⟩ := h
      cases hresolve

/-- An option is left exactly with an implicit value. -/
theorem accept_leaveOption_iff (hoption : context.activeOption = some o) :
    accept (leaveOption none context) = .ok context' ↔
      ∃ value text, o.implicit = some (value, text) ∧
        context' = context.storeValue o value text false := by
  rw [leaveOption_none hoption]
  cases hsem : o.valueSemantic with
  | none => simp [ClapOption.implicit, hsem]
  | some semantics =>
      rcases himplicit : semantics.applyImplicit with - | ⟨value, text⟩
      · simp [ClapOption.implicit, hsem, himplicit, Errors.missingValueForOption, hoption]
      · simp [ClapOption.implicit, hsem, himplicit, eq_comm]

/-- A value that is offered is taken, or left where the option makes do with its implicit one. -/
theorem offer_ok_iff {semantics : ValueSemantics V} {taken : Phase} {fallback : Bool}
    {text : String} {p : Phase × ParserContext V} (hsem : o.valueSemantic = some semantics) :
    offer b o semantics taken fallback context text = .ok p ↔
      (∃ value, o.parse text = some value ∧ p = (taken, context.storeValue o value text false)) ∨
        o.parse text = none ∧ fallback = true ∧ ∃ value valueAsText,
          o.implicit = some (value, valueAsText) ∧
          p = (.ready, { context.storeValue o value valueAsText false with
            positionalTokens := context.positionalTokens ++ [text] }) := by
  have hparse' : o.parse text = semantics.parse text := by simp [ClapOption.parse, hsem]
  have himplicit' : o.implicit = semantics.applyImplicit := by simp [ClapOption.implicit, hsem]
  cases hparse : semantics.parse text with
  | some value =>
      rw [offer_of_parse hparse, hparse', hparse]
      simp [eq_comm]
  | none =>
      by_cases hmissing : fallback = false ∨ semantics.applyImplicit = none
      · rw [offer_of_missing hparse hmissing, hparse', himplicit', hparse]
        refine iff_of_false ?_ ?_
        · intro h
          obtain ⟨message, -, h⟩ := bind_eq_ok.mp h
          cases h
        · rintro (⟨value, h, -⟩ | ⟨-, hfallback, value, valueAsText, himplicit, -⟩)
          · cases h
          · simp [hfallback, himplicit] at hmissing
      · obtain ⟨hfallback, himplicit⟩ := not_or.mp hmissing
        obtain ⟨⟨value, valueAsText⟩, himplicit⟩ := Option.ne_none_iff_exists'.mp himplicit
        obtain rfl : fallback = true := by simpa using hfallback
        rw [offer_of_implicit hparse himplicit, hparse', himplicit', hparse, himplicit]
        simp [dispatch, eq_comm, ParserContext.storeValue]

end

/-! ## The tokens behind the command -/

/-- No option waits for a value. -/
def Phase.IsIdle : Phase → Prop
  | .ready | .short (some _) | .long (some _) _ => True
  | .start | .naming _ | .short none | .long none _ => False

/-- What is there under a key once the option that waits has its value. -/
def Phase.Stored (context : ParserContext V) (phase : Phase) (k : String) : Prop :=
  context.ovm.hasOption k = true ∨ ¬ phase.IsIdle ∧ ∃ o, context.activeOption = some o ∧ k = o.key

/-- What is behind the option that waits is in order. -/
def Phase.Served (context : ParserContext V) (tokens : List Token) : Phase → Prop
  | .short none => ∀ o, context.activeOption = some o → o.Takes true tokens
  | .long none false =>
      ∀ o, context.activeOption = some o →
        o.Takes context.allowLongOptionValueWithNoEqual tokens
  | .long none true => ∀ o, context.activeOption = some o → o.TakesBound tokens
  | _ => True

/-- Where the pass is behind the command. -/
structure Phase.Behind (c : Command V) (allow : Bool) (context : ParserContext V) (phase : Phase) :
    Prop where
  behind : phase.BehindCommand context
  command : context.activeCommand = some c
  allow : context.allowLongOptionValueWithNoEqual = allow
  /-- an option that has a value has value semantics -/
  settled : phase.IsIdle → phase = .ready ∨
    ∃ o, context.activeOption = some o ∧ o.valueSemantic.isSome

/-- The pass gets to the end of these tokens exactly if they are in order. -/
def ScansInOrder (b : Build) (c : Command V) (allow : Bool) (tokens : List Token) : Prop :=
  ∀ phase context, Phase.Behind c allow context phase →
    (∀ t ∈ tokens.head?, t.1 = .equalSign → phase = .long none false) →
    ((∃ entry, scan b phase context tokens = .ok entry) ↔
      phase.Served context tokens ∧ InOrderFrom c allow (phase.Stored context) tokens)

section

variable {allow : Bool} {context : ParserContext V} {o : ClapOption V} {token : Token}
  {tokens : List Token} {phase : Phase}

/-- Outside of the option states only what has values counts as stored. -/
theorem Phase.stored_of_isIdle (h : phase.IsIdle) :
    phase.Stored context = fun k => context.ovm.hasOption k = true := by
  funext k
  simp [Phase.Stored, h]

/-- In an option state the active option counts as well: it gets its value before the next token. -/
theorem Phase.stored_of_not_isIdle (h : ¬ phase.IsIdle) (hoption : context.activeOption = some o) :
    phase.Stored context = fun k => context.ovm.hasOption k = true ∨ k = o.key := by
  funext k
  simp [Phase.Stored, h, hoption]

theorem Phase.served_of_isIdle (h : phase.IsIdle) : phase.Served context tokens := by
  obtain - | typed | - | ⟨- | value⟩ | ⟨- | value, afterEqual⟩ := phase
  all_goals first | exact trivial | exact h.elim

/-- A value that is stored adds its option, and no other. -/
theorem hasOption_storeValue (value : V) (text k : String) (defaulted : Bool) :
    (context.storeValue o value text defaulted).ovm.hasOption k = true ↔
      context.ovm.hasOption k = true ∨ k = o.key := by
  rw [OptionValuesMap.hasOption_iff, OptionValuesMap.hasOption_iff, ParserContext.storeValue,
    OptionValuesMap.storeValue, Multimap.values_store]
  by_cases hk : o.key = k
  · simp [hk]
  · simp [hk, Ne.symm hk]

/-- Without an option that waits, the rest of the tokens decides. -/
theorem ScansInOrder.idle (h : ScansInOrder b c allow tokens) (phase : Phase)
    (context : ParserContext V) (hidle : phase.IsIdle)
    (hbehind : phase.Behind c allow context) (hhead : ∀ t ∈ tokens.head?, t.1 ≠ .equalSign)
    {stored : String → Prop} (hstored : ∀ k, context.ovm.hasOption k = true ↔ stored k) :
    (∃ entry, scan b phase context tokens = .ok entry) ↔ InOrderFrom c allow stored tokens := by
  rw [h phase context hbehind fun t ht hequal => absurd hequal (hhead t ht),
    Phase.stored_of_isIdle hidle, and_iff_right (Phase.served_of_isIdle hidle)]
  have heq : (fun k => context.ovm.hasOption k = true) = stored :=
    funext fun k => propext (hstored k)
  rw [heq]

/-- A name in front: its option may occur, finds a value behind it, and counts as stored from there
on. -/
theorem inOrderFrom_cons_of_other {stored : String → Prop} (hvalue : token.1 ≠ .value)
    (hequal : token.1 ≠ .equalSign) :
    InOrderFrom c allow stored (token :: tokens) ↔ ∃ o, c.resolve token = some o ∧
      (stored o.key → o.IsRepeatable) ∧ o.Takes (Freely allow token) tokens ∧
      InOrderFrom c allow (fun k => stored k ∨ k = o.key) tokens := by
  obtain ⟨tokenType, text⟩ := token
  cases tokenType <;> first | exact Iff.rfl | contradiction

/-- Directly behind a name the active option is served as the name requires. -/
theorem served_optionPhase (hoption : context.activeOption = some o)
    (hallow : context.allowLongOptionValueWithNoEqual = allow) :
    (optionPhase token).Served context tokens ↔ o.Takes (Freely allow token) tokens := by
  rw [optionPhase, Freely]
  split
  · next hlong => simp [Phase.Served, hoption, hallow, hlong]
  · next hshort => simp [Phase.Served, hoption, hshort]

/-- Behind a name an option is active. -/
theorem not_isIdle_optionPhase (token : Token) : ¬ (optionPhase token).IsIdle := by
  rw [optionPhase]
  split <;> exact id

/-- Behind a token that names an option, the option is served first. -/
theorem ScansInOrder.entered (h : ScansInOrder b c allow tokens) (context : ParserContext V)
    (hoption : context.activeOption = some o) (hcommand : context.activeCommand = some c)
    (hallow : context.allowLongOptionValueWithNoEqual = allow)
    (hhead : ∀ t ∈ tokens.head?, t.1 = .equalSign → token.1 = .longOption) :
    (∃ entry, scan b (optionPhase token) context tokens = .ok entry) ↔
      o.Takes (Freely allow token) tokens ∧
        InOrderFrom c allow (fun k => context.ovm.hasOption k = true ∨ k = o.key) tokens := by
  have hbehind : (optionPhase token).Behind c allow context := by
    refine ⟨?_, hcommand, hallow, fun hidle => absurd hidle (not_isIdle_optionPhase token)⟩
    rw [optionPhase]
    split <;> simp [Phase.BehindCommand, hoption]
  rw [h _ _ hbehind fun t ht hequal => by rw [optionPhase, if_pos (hhead t ht hequal)],
    served_optionPhase hoption hallow,
    Phase.stored_of_not_isIdle (not_isIdle_optionPhase token) hoption]

/-- A token that names an option, once no option waits. -/
theorem ScansInOrder.named (h : ScansInOrder b c allow tokens) (context : ParserContext V)
    (hcommand : context.activeCommand = some c)
    (hallow : context.allowLongOptionValueWithNoEqual = allow)
    (hhead : ∀ t ∈ tokens.head?, t.1 = .equalSign → token.1 = .longOption)
    (hvalue : token.1 ≠ .value) (hequal : token.1 ≠ .equalSign) {stored : String → Prop}
    (hstored : ∀ k, context.ovm.hasOption k = true ↔ stored k) :
    (∃ entry, (dispatch b context token >>= fun p => scan b p.1 p.2 tokens) = .ok entry) ↔
      InOrderFrom c allow stored (token :: tokens) := by
  obtain rfl : (fun k => context.ovm.hasOption k = true) = stored :=
    funext fun k => propext (hstored k)
  rw [inOrderFrom_cons_of_other hvalue hequal]
  have hentered (o : ClapOption V) := h.entered
    { context with activeOptionFlag := optionFlag token, activeOption := some o }
    (o := o) rfl hcommand hallow hhead
  constructor
  · intro h
    obtain ⟨entry, hscan⟩ := h
    obtain ⟨p, hdispatch, hscan⟩ := bind_eq_ok.mp hscan
    obtain ⟨o, hresolve, hrepeat, rfl⟩ := (dispatch_ok_iff hcommand hvalue).mp hdispatch
    exact ⟨o, hresolve, hrepeat, (hentered o).mp ⟨entry, hscan⟩⟩
  · intro h
    obtain ⟨o, hresolve, hrepeat, hrest⟩ := h
    obtain ⟨entry, hscan⟩ := (hentered o).mpr hrest
    exact ⟨entry, bind_eq_ok.mpr ⟨_, (dispatch_ok_iff hcommand hvalue).mpr
      ⟨o, hresolve, hrepeat, rfl⟩, hscan⟩⟩

theorem behind_ready (hcommand : context.activeCommand = some c)
    (hallow : context.allowLongOptionValueWithNoEqual = allow) :
    Phase.ready.Behind c allow context :=
  ⟨trivial, hcommand, hallow, fun _ => .inl rfl⟩

/-- A value that is offered to an option that waits. -/
theorem ScansInOrder.offered (h : ScansInOrder b c allow tokens)
    {semantics : ValueSemantics V} {taken : Phase} {fallback : Bool} {text : String}
    (hoption : context.activeOption = some o) (hsem : o.valueSemantic = some semantics)
    (hcommand : context.activeCommand = some c)
    (hallow : context.allowLongOptionValueWithNoEqual = allow)
    (hhead : ∀ t ∈ tokens.head?, t.1 ≠ .equalSign) (hidle : taken.IsIdle)
    (htaken : ∀ context : ParserContext V, context.activeOption.isSome →
      taken.BehindCommand context) :
    (∃ entry, (offer b o semantics taken fallback context text >>= fun p =>
        scan b p.1 p.2 tokens) = .ok entry) ↔
      ((o.parse text).isSome ∨ fallback = true ∧ o.implicit.isSome) ∧
        InOrderFrom c allow (fun k => context.ovm.hasOption k = true ∨ k = o.key) tokens := by
  have hstored : ∀ value : V, (∃ entry,
      scan b taken (context.storeValue o value text false) tokens = .ok entry) ↔
        InOrderFrom c allow (fun k => context.ovm.hasOption k = true ∨ k = o.key) tokens := by
    intro value
    refine h.idle taken (context.storeValue o value text false) hidle
      ⟨htaken _ ?_, hcommand, hallow, fun _ => .inr ⟨o, hoption, ?_⟩⟩ hhead
      fun k => hasOption_storeValue value text k false
    · exact Option.isSome_iff_exists.mpr ⟨o, hoption⟩
    · simp [hsem]
  have hleft : ∀ (value : V) (valueAsText : String), (∃ entry,
      scan b .ready { context.storeValue o value valueAsText false with
        positionalTokens := context.positionalTokens ++ [text] } tokens = .ok entry) ↔
        InOrderFrom c allow (fun k => context.ovm.hasOption k = true ∨ k = o.key) tokens :=
    fun value valueAsText => h.idle .ready { context.storeValue o value valueAsText false with
      positionalTokens := context.positionalTokens ++ [text] } trivial
      (behind_ready hcommand hallow) hhead fun k => hasOption_storeValue value valueAsText k false
  constructor
  · intro h
    obtain ⟨entry, hscan⟩ := h
    obtain ⟨p, hoffer, hscan⟩ := bind_eq_ok.mp hscan
    obtain ⟨value, hparse, rfl⟩ | ⟨-, hfallback, value, valueAsText, himplicit, rfl⟩ :=
      (offer_ok_iff hsem).mp hoffer
    · exact ⟨.inl (by simp [hparse]), (hstored value).mp ⟨entry, hscan⟩⟩
    · exact ⟨.inr ⟨hfallback, by simp [himplicit]⟩, (hleft value valueAsText).mp ⟨entry, hscan⟩⟩
  · intro h
    obtain ⟨htakes, hrest⟩ := h
    cases hparse : o.parse text with
    | some value =>
        obtain ⟨entry, hscan⟩ := (hstored value).mpr hrest
        exact ⟨entry, bind_eq_ok.mpr
          ⟨_, (offer_ok_iff hsem).mpr (.inl ⟨value, hparse, rfl⟩), hscan⟩⟩
    | none =>
        obtain ⟨hfallback, himplicit⟩ := htakes.resolve_left (by simp [hparse])
        obtain ⟨⟨value, valueAsText⟩, himplicit⟩ := Option.isSome_iff_exists.mp himplicit
        obtain ⟨entry, hscan⟩ := (hleft value valueAsText).mpr hrest
        exact ⟨entry, bind_eq_ok.mpr ⟨_, (offer_ok_iff hsem).mpr
          (.inr ⟨hparse, hfallback, value, valueAsText, himplicit, rfl⟩), hscan⟩⟩

/-- A token that leaves an option that waits. -/
theorem ScansInOrder.left (h : ScansInOrder b c allow tokens)
    (hoption : context.activeOption = some o) (hcommand : context.activeCommand = some c)
    (hallow : context.allowLongOptionValueWithNoEqual = allow)
    (hhead : ∀ t ∈ tokens.head?, t.1 = .equalSign → token.1 = .longOption)
    (hvalue : token.1 ≠ .value) (hequal : token.1 ≠ .equalSign) :
    (∃ entry, (accept (leaveOption none context) >>= fun context =>
        dispatch b context token >>= fun p => scan b p.1 p.2 tokens) = .ok entry) ↔
      o.implicit.isSome ∧ InOrderFrom c allow
        (fun k => context.ovm.hasOption k = true ∨ k = o.key) (token :: tokens) := by
  have hstored : ∀ (value : V) (text : String), (∃ entry,
      (dispatch b (context.storeValue o value text false) token >>= fun p =>
        scan b p.1 p.2 tokens) = .ok entry) ↔ InOrderFrom c allow
          (fun k => context.ovm.hasOption k = true ∨ k = o.key) (token :: tokens) :=
    fun value text => h.named (context.storeValue o value text false) hcommand hallow hhead hvalue
      hequal fun k => hasOption_storeValue value text k false
  constructor
  · intro h
    obtain ⟨entry, hscan⟩ := h
    obtain ⟨context', hleave, hscan⟩ := bind_eq_ok.mp hscan
    obtain ⟨value, text, himplicit, rfl⟩ := (accept_leaveOption_iff hoption).mp hleave
    exact ⟨by simp [himplicit], (hstored value text).mp ⟨entry, hscan⟩⟩
  · intro h
    obtain ⟨himplicit, hrest⟩ := h
    obtain ⟨⟨value, text⟩, himplicit⟩ := Option.isSome_iff_exists.mp himplicit
    obtain ⟨entry, hscan⟩ := (hstored value text).mpr hrest
    exact ⟨entry, bind_eq_ok.mpr
      ⟨_, (accept_leaveOption_iff hoption).mpr ⟨value, text, himplicit, rfl⟩, hscan⟩⟩

/-! ## One token of the line -/

/-- The token does not name an option, nor does it stand behind one. -/
theorem not_equalSign_of_attached (hchain : (token :: tokens).IsChain Attached)
    (hlong : token.1 ≠ .longOption) : ∀ t ∈ tokens.head?, t.1 ≠ .equalSign :=
  fun t ht hequal => hlong ((List.isChain_cons.mp hchain).1 t ht hequal)

/-- A value once no option waits is kept for the positional arguments. -/
theorem ScansInOrder.kept (h : ScansInOrder b c allow tokens) (hidle : phase.IsIdle)
    (hbehind : phase.Behind c allow context) (hhead : ∀ t ∈ tokens.head?, t.1 ≠ .equalSign)
    (text : String) :
    (∃ entry, scan b phase context ((.value, text) :: tokens) = .ok entry) ↔
      InOrderFrom c allow (fun k => context.ovm.hasOption k = true) tokens := by
  have hready := h.idle .ready
    { context with positionalTokens := context.positionalTokens ++ [text] } trivial
    (behind_ready hbehind.command hbehind.allow) hhead fun _ => Iff.rfl
  have hadvance : advance b phase context (.value, text) =
      .ok (.ready, { context with positionalTokens := context.positionalTokens ++ [text] }) := by
    obtain - | typed | - | ⟨- | value⟩ | ⟨- | value, afterEqual⟩ := phase
    all_goals first | exact hidle.elim | skip
    · rfl
    · obtain hready | ⟨o, hoption, hsem⟩ := hbehind.settled trivial
      · cases hready
      · obtain ⟨semantics, hsem⟩ := Option.isSome_iff_exists.mp hsem
        simp [advance, continueShort, activeSemantics_of_some hoption hsem, dispatch]
    · obtain hready | ⟨o, hoption, hsem⟩ := hbehind.settled trivial
      · cases hready
      · obtain ⟨semantics, hsem⟩ := Option.isSome_iff_exists.mp hsem
        simp [advance, continueLong, activeSemantics_of_some hoption hsem, dispatch]
  rw [scan_cons, hadvance]
  exact hready

/-- A token other than a value once no option waits. -/
theorem ScansInOrder.next (h : ScansInOrder b c allow tokens) (hidle : phase.IsIdle)
    (hbehind : phase.Behind c allow context)
    (hhead : ∀ t ∈ tokens.head?, t.1 = .equalSign → token.1 = .longOption)
    (hvalue : token.1 ≠ .value) (hequal : token.1 ≠ .equalSign) :
    (∃ entry, scan b phase context (token :: tokens) = .ok entry) ↔
      InOrderFrom c allow (fun k => context.ovm.hasOption k = true) (token :: tokens) := by
  have hadvance : advance b phase context token = dispatch b context token := by
    obtain - | typed | - | ⟨- | value⟩ | ⟨- | value, afterEqual⟩ := phase
    all_goals first | exact hidle.elim | skip
    · rfl
    · rw [advance_short_other hvalue, leaveOption_some, accept_continue, ok_bind]
    · rw [advance_long_other hvalue hequal, leaveOption_some, accept_continue, ok_bind]
  rw [scan_cons, hadvance]
  exact h.named context hbehind.command hbehind.allow hhead hvalue hequal fun _ => Iff.rfl

/-- Outside of the option states the next token decides, as `dispatch` does. -/
theorem scansInOrder_cons_idle (h : ScansInOrder b c allow tokens)
    (hchain : (token :: tokens).IsChain Attached) (hidle : phase.IsIdle)
    (hbehind : phase.Behind c allow context) (hequal : token.1 ≠ .equalSign) :
    (∃ entry, scan b phase context (token :: tokens) = .ok entry) ↔
      phase.Served context (token :: tokens) ∧
        InOrderFrom c allow (phase.Stored context) (token :: tokens) := by
  rw [Phase.stored_of_isIdle hidle, and_iff_right (Phase.served_of_isIdle hidle)]
  by_cases hvalue : token.1 = .value
  · obtain ⟨text, rfl⟩ := Token.exists_text hvalue
    exact h.kept hidle hbehind (not_equalSign_of_attached hchain (by simp)) text
  · exact h.next hidle hbehind (fun t ht => (List.isChain_cons.mp hchain).1 t ht) hvalue hequal

/-! ## Behind an option that waits -/

/-- Without a value behind the equal sign only an implicit one is left. -/
theorem takesBound_of_other (hvalue : token.1 ≠ .value) :
    o.TakesBound (token :: tokens) ↔ o.implicit.isSome := by
  obtain ⟨tokenType, text⟩ := token
  cases tokenType <;> first | exact Iff.rfl | contradiction

/-- With neither a value nor an equal sign behind the name only an implicit value is left. -/
theorem takes_of_other {freely : Bool} (hvalue : token.1 ≠ .value) (hequal : token.1 ≠ .equalSign) :
    o.Takes freely (token :: tokens) ↔ o.implicit.isSome := by
  obtain ⟨tokenType, text⟩ := token
  cases tokenType <;> first | exact Iff.rfl | contradiction

/-- An option without value semantics takes nothing. -/
theorem takesBound_of_none (hsem : o.valueSemantic = none) : ¬ o.TakesBound tokens := by
  have hparse : ∀ text, o.parse text = none := fun text => by simp [ClapOption.parse, hsem]
  have himplicit : o.implicit = none := by simp [ClapOption.implicit, hsem]
  unfold ClapOption.TakesBound
  split <;> simp [hparse, himplicit]

/-- An option without value semantics takes nothing. -/
theorem takes_of_none {freely : Bool} (hsem : o.valueSemantic = none) :
    ¬ o.Takes freely tokens := by
  have hparse : ∀ text, o.parse text = none := fun text => by simp [ClapOption.parse, hsem]
  have himplicit : o.implicit = none := by simp [ClapOption.implicit, hsem]
  unfold ClapOption.Takes
  split
  · simp [hparse, himplicit]
  · exact takesBound_of_none hsem
  · simp [himplicit]

/-- Without value semantics, a value behind an option does not get the pass any further. -/
theorem continueShort_none_value (hoption : context.activeOption = some o)
    (hsem : o.valueSemantic = none) (text : String) (p : Phase × ParserContext V) :
    continueShort b none context (.value, text) ≠ .ok p := by
  cases b <;> simp [continueShort, activeSemantics_eq hoption, hsem]

/-- To offer a value to an option without value semantics never goes on. -/
theorem continueLong_none_value (hoption : context.activeOption = some o)
    (hsem : o.valueSemantic = none) (afterEqual : Bool) (text : String)
    (p : Phase × ParserContext V) :
    continueLong b none afterEqual context (.value, text) ≠ .ok p := by
  cases hallow : context.allowLongOptionValueWithNoEqual <;> cases afterEqual <;> cases b <;>
    simp [continueLong, activeSemantics_eq hoption, hsem, hallow, Errors.optionSyntaxError, hoption]

/-- A token that the pass cannot go beyond. -/
theorem not_exists_scan {phase : Phase}
    (hstuck : ∀ p, advance b phase context token ≠ .ok p) :
    ¬ ∃ entry, scan b phase context (token :: tokens) = .ok entry := by
  intro h
  obtain ⟨entry, hscan⟩ := h
  rw [scan_cons] at hscan
  obtain ⟨p, hadvance, -⟩ := bind_eq_ok.mp hscan
  exact hstuck p hadvance

/-- Behind a short name the value is optional, and what is no value leaves the state. -/
theorem scansInOrder_cons_short (h : ScansInOrder b c allow tokens)
    (hchain : (token :: tokens).IsChain Attached)
    (hbehind : (Phase.short none).Behind c allow context) (hequal : token.1 ≠ .equalSign) :
    (∃ entry, scan b (.short none) context (token :: tokens) = .ok entry) ↔
      (Phase.short none).Served context (token :: tokens) ∧
        InOrderFrom c allow ((Phase.short none).Stored context) (token :: tokens) := by
  obtain ⟨o, hoption⟩ := Option.isSome_iff_exists.mp hbehind.behind
  have hserved : (Phase.short none).Served context (token :: tokens) ↔
      o.Takes true (token :: tokens) := by simp [Phase.Served, hoption]
  rw [hserved, Phase.stored_of_not_isIdle id hoption]
  by_cases hvalue : token.1 = .value
  · obtain ⟨text, rfl⟩ := Token.exists_text hvalue
    cases hsem : o.valueSemantic with
    | none =>
        exact iff_of_false (not_exists_scan (continueShort_none_value hoption hsem text))
          fun h => takes_of_none hsem h.1
    | some semantics =>
        have hadvance : advance b (.short none) context (.value, text) =
            offer b o semantics (.short (some text)) true context text := by
          simp [advance, continueShort, activeSemantics_of_some hoption hsem]
        rw [scan_cons, hadvance]
        refine (h.offered hoption hsem hbehind.command hbehind.allow
          (not_equalSign_of_attached hchain (by simp))
          (show (Phase.short (some text)).IsIdle from trivial) fun _ => id).trans ?_
        exact and_congr_left fun _ => by simp [ClapOption.Takes]
  · rw [scan_cons, advance_short_other hvalue, bind_assoc, takes_of_other hvalue hequal]
    exact h.left hoption hbehind.command hbehind.allow
      (fun t ht => (List.isChain_cons.mp hchain).1 t ht) hvalue hequal

/-- An equal sign binds the value behind it to the option that waits. -/
theorem ScansInOrder.bound (h : ScansInOrder b c allow tokens)
    (hoption : context.activeOption = some o) (hcommand : context.activeCommand = some c)
    (hallow : context.allowLongOptionValueWithNoEqual = allow)
    (hhead : ∀ t ∈ tokens.head?, t.1 ≠ .equalSign) (text : String) :
    (∃ entry, scan b (.long none false) context ((.equalSign, text) :: tokens) = .ok entry) ↔
      o.TakesBound tokens ∧
        InOrderFrom c allow (fun k => context.ovm.hasOption k = true ∨ k = o.key) tokens := by
  have hbehind : (Phase.long none true).Behind c allow context :=
    ⟨Option.isSome_of_eq_some hoption, hcommand, hallow, fun hidle => hidle.elim⟩
  have hbound := h (.long none true) context hbehind fun t ht hequal => absurd hequal (hhead t ht)
  rw [Phase.stored_of_not_isIdle id hoption, show
    (Phase.long none true).Served context tokens ↔ o.TakesBound tokens by
      simp [Phase.Served, hoption]] at hbound
  rw [scan_cons]
  cases hsem : o.valueSemantic with
  | none =>
      -- a release build goes on to look for a value, which cannot be stored
      refine iff_of_false ?_ fun h => takesBound_of_none hsem h.1
      intro h
      obtain ⟨entry, hscan⟩ := h
      obtain ⟨p, hadvance, hscan⟩ := bind_eq_ok.mp hscan
      obtain rfl : (.long none true, context) = p := by
        cases b with
        | debug => simp [advance, continueLong, activeSemantics_eq hoption, hsem] at hadvance
        | release => simpa [advance, continueLong, activeSemantics_eq hoption, hsem] using hadvance
      exact takesBound_of_none hsem (hbound.mp ⟨entry, hscan⟩).1
  | some semantics =>
      have hadvance : advance b (.long none false) context (.equalSign, text) =
          .ok (.long none true, context) := by
        simp [advance, continueLong, activeSemantics_of_some hoption hsem]
      rw [hadvance]
      exact hbound

/-- Behind a long name an equal sign binds the value, and without one it has to be allowed. -/
theorem scansInOrder_cons_long (h : ScansInOrder b c allow tokens)
    (hchain : (token :: tokens).IsChain Attached)
    (hbehind : (Phase.long none false).Behind c allow context) :
    (∃ entry, scan b (.long none false) context (token :: tokens) = .ok entry) ↔
      (Phase.long none false).Served context (token :: tokens) ∧
        InOrderFrom c allow ((Phase.long none false).Stored context) (token :: tokens) := by
  obtain ⟨o, hoption⟩ := Option.isSome_iff_exists.mp hbehind.behind
  have hserved : (Phase.long none false).Served context (token :: tokens) ↔
      o.Takes allow (token :: tokens) := by simp [Phase.Served, hoption, hbehind.allow]
  rw [hserved, Phase.stored_of_not_isIdle id hoption]
  by_cases hvalue : token.1 = .value
  · obtain ⟨text, rfl⟩ := Token.exists_text hvalue
    cases hsem : o.valueSemantic with
    | none =>
        exact iff_of_false (not_exists_scan (continueLong_none_value hoption hsem false text))
          fun h => takes_of_none hsem h.1
    | some semantics =>
        cases allow with
        | false =>
            refine iff_of_false (not_exists_scan fun p => ?_) fun h => by
              simp [ClapOption.Takes] at h
            simp [advance, continueLong, activeSemantics_of_some hoption hsem, hbehind.allow,
              Errors.optionSyntaxError, hoption]
        | true =>
            have hadvance : advance b (.long none false) context (.value, text) =
                offer b o semantics (.long (some text) false) true context text := by
              simp [advance, continueLong, activeSemantics_of_some hoption hsem, hbehind.allow]
            rw [scan_cons, hadvance]
            refine (h.offered hoption hsem hbehind.command hbehind.allow
              (not_equalSign_of_attached hchain (by simp))
              (show (Phase.long (some text) false).IsIdle from trivial) fun _ => id).trans ?_
            exact and_congr_left fun _ => by simp [ClapOption.Takes]
  · by_cases hequal : token.1 = .equalSign
    · obtain ⟨tokenType, text⟩ := token
      obtain rfl : tokenType = .equalSign := hequal
      exact h.bound hoption hbehind.command hbehind.allow
        (not_equalSign_of_attached hchain (by simp)) text
    · rw [scan_cons, advance_long_other hvalue hequal, bind_assoc, takes_of_other hvalue hequal]
      exact h.left hoption hbehind.command hbehind.allow
        (fun t ht => (List.isChain_cons.mp hchain).1 t ht) hvalue hequal

/-- Behind the equal sign the value is bound, or the implicit one is taken. -/
theorem scansInOrder_cons_bound (h : ScansInOrder b c allow tokens)
    (hchain : (token :: tokens).IsChain Attached)
    (hbehind : (Phase.long none true).Behind c allow context) (hequal : token.1 ≠ .equalSign) :
    (∃ entry, scan b (.long none true) context (token :: tokens) = .ok entry) ↔
      (Phase.long none true).Served context (token :: tokens) ∧
        InOrderFrom c allow ((Phase.long none true).Stored context) (token :: tokens) := by
  obtain ⟨o, hoption⟩ := Option.isSome_iff_exists.mp hbehind.behind
  have hserved : (Phase.long none true).Served context (token :: tokens) ↔
      o.TakesBound (token :: tokens) := by simp [Phase.Served, hoption]
  rw [hserved, Phase.stored_of_not_isIdle id hoption]
  by_cases hvalue : token.1 = .value
  · obtain ⟨text, rfl⟩ := Token.exists_text hvalue
    cases hsem : o.valueSemantic with
    | none =>
        exact iff_of_false (not_exists_scan (continueLong_none_value hoption hsem true text))
          fun h => takesBound_of_none hsem h.1
    | some semantics =>
        have hadvance : advance b (.long none true) context (.value, text) =
            offer b o semantics (.long (some text) true) false context text := by
          simp [advance, continueLong, activeSemantics_of_some hoption hsem]
        rw [scan_cons, hadvance]
        refine (h.offered hoption hsem hbehind.command hbehind.allow
          (not_equalSign_of_attached hchain (by simp))
          (show (Phase.long (some text) true).IsIdle from trivial) fun _ => id).trans ?_
        exact and_congr_left fun _ => by simp [ClapOption.TakesBound]
  · rw [scan_cons, advance_long_other hvalue hequal, bind_assoc, takesBound_of_other hvalue]
    exact h.left hoption hbehind.command hbehind.allow
      (fun t ht => (List.isChain_cons.mp hchain).1 t ht) hvalue hequal

/-- An option that waits at the end of the line makes do with its implicit value. -/
theorem exists_leaveOption_iff (hoption : context.activeOption = some o) :
    (∃ entry, accept (leaveOption none context) = .ok entry) ↔ o.implicit.isSome := by
  constructor
  · intro h
    obtain ⟨entry, hleave⟩ := h
    obtain ⟨value, text, himplicit, -⟩ := (accept_leaveOption_iff hoption).mp hleave
    simp [himplicit]
  · intro himplicit
    obtain ⟨⟨value, text⟩, himplicit⟩ := Option.isSome_iff_exists.mp himplicit
    exact ⟨_, (accept_leaveOption_iff hoption).mpr ⟨value, text, himplicit, rfl⟩⟩

/-- At the end of the line an active option has its implicit value, or none. -/
theorem scansInOrder_nil : ScansInOrder b c allow [] := by
  intro phase context hbehind _
  refine Iff.trans ?_ (and_iff_left trivial).symm
  obtain - | typed | - | value | ⟨value, afterEqual⟩ := phase
  · exact hbehind.behind.elim
  · exact hbehind.behind.elim
  · exact iff_of_true ⟨context, rfl⟩ trivial
  · cases value with
    | some value => exact iff_of_true ⟨context, rfl⟩ trivial
    | none =>
        obtain ⟨o, hoption⟩ := Option.isSome_iff_exists.mp hbehind.behind
        simpa [Phase.Served, hoption, ClapOption.Takes, scan, finish] using
          exists_leaveOption_iff hoption
  · cases value with
    | some value => exact iff_of_true ⟨context, rfl⟩ trivial
    | none =>
        obtain ⟨o, hoption⟩ := Option.isSome_iff_exists.mp hbehind.behind
        cases afterEqual <;>
          simpa [Phase.Served, hoption, ClapOption.Takes, ClapOption.TakesBound, scan, finish]
            using exists_leaveOption_iff hoption

/-- One token of the line, whatever the phase. -/
theorem scansInOrder_cons (h : ScansInOrder b c allow tokens)
    (hchain : (token :: tokens).IsChain Attached) :
    ScansInOrder b c allow (token :: tokens) := by
  intro phase context hbehind hhead
  have hequal : phase ≠ .long none false → token.1 ≠ .equalSign :=
    fun hphase hequal => hphase (hhead token rfl hequal)
  obtain - | typed | - | ⟨- | value⟩ | ⟨- | value, - | -⟩ := phase
  · exact hbehind.behind.elim
  · exact hbehind.behind.elim
  · exact scansInOrder_cons_idle h hchain trivial hbehind (hequal (by simp))
  · exact scansInOrder_cons_short h hchain hbehind (hequal (by simp))
  · exact scansInOrder_cons_idle h hchain trivial hbehind (hequal (by simp))
  · exact scansInOrder_cons_long h hchain hbehind
  · exact scansInOrder_cons_bound h hchain hbehind (hequal (by simp))
  · exact scansInOrder_cons_idle h hchain trivial hbehind (hequal (by simp))
  · exact scansInOrder_cons_idle h hchain trivial hbehind (hequal (by simp))

/-- **The whole line, by induction on its tokens**: they are accepted exactly if they are in order.
-/
theorem scansInOrder_of_isChain (hchain : tokens.IsChain Attached) :
    ScansInOrder b c allow tokens := by
  induction tokens with
  | nil => exact scansInOrder_nil
  | cons token tokens ih => exact scansInOrder_cons (ih hchain.tail) hchain

end

/-! ## The command -/

/-- In a debug build, the values that are searched for a path do not go on to the end of the line
if no path is found. -/
def InTime (b : Build) (commands : List (Command V)) (tokens : List Token) : Prop :=
  b = .debug → probed commands tokens ≠ [] →
    longest Command.path commands (leadingValues tokens) = none →
      tokens.drop (probed commands tokens).length ≠ []

section

variable {context context' : ParserContext V} {tokens rest : List Token}

/-- A command that the segments lead to is selected. -/
theorem select_of_selected (h : Selected context tokens context' rest)
    (hprobed : probed context.commands tokens ≠ []) (segments : List String) :
    select (probed context.commands tokens) segments context =
      (.ok context' : Except (Stop V) (ParserContext V)) := by
  rw [select, longest_probed]
  cases h with
  | matched hlong => rw [hlong]
  | fallback _ hlong hdefault => rw [hlong, hdefault]
  | direct hnil _ => exact absurd hnil hprobed

/-- What is left to read are the tokens behind the segments. -/
theorem Selected.rest_eq (h : Selected context tokens context' rest) :
    rest = tokens.drop (probed context.commands tokens).length := by
  cases h with
  | matched => rfl
  | fallback => rfl
  | direct hnil _ => rw [hnil]; rfl

/-- The end of the line behind the beginning of a path. -/
theorem finish_naming_iff (h : Selected context tokens context' [])
    (hprobed : probed context.commands tokens ≠ [])
    (hdrop : tokens.drop (probed context.commands tokens).length = []) :
    (∃ entry, finish b (.naming (probed context.commands tokens)) context = .ok entry) ↔
      InTime b context.commands tokens := by
  simp only [finish, select_of_selected h hprobed, ok_bind, longest_probed, InTime, hdrop]
  cases hlong : longest Command.path context.commands (leadingValues tokens) with
  | some command => simp
  | none => cases b <;> simp [hprobed]

/-- The pass gets to its end exactly if a command is selected, in time, and the rest of the line
gets to its end from there. -/
theorem exists_scan_start_iff (context : ParserContext V) (tokens : List Token) :
    (∃ entry, scan b .start context tokens = .ok entry) ↔
      InTime b context.commands tokens ∧ ∃ context' rest, Selected context tokens context' rest ∧
        ∃ entry, scan b .ready context' rest = .ok entry := by
  constructor
  · intro h
    obtain ⟨entry, hscan⟩ := h
    obtain ⟨context', rest, hselected, hrest⟩ := selected_of_scan hscan
    refine ⟨?_, context', rest, hselected, entry, hrest⟩
    obtain ⟨hprobed, segments, hstart⟩ | ⟨hprobed, -⟩ := scan_start (b := b) context tokens
    · cases hdrop : tokens.drop (probed context.commands tokens).length with
      | nil =>
          rw [hselected.rest_eq, hdrop] at hselected
          rw [hstart, hdrop] at hscan
          exact (finish_naming_iff hselected hprobed hdrop).mp ⟨entry, hscan⟩
      | cons token tokens' => exact fun _ _ _ => by simp [hdrop]
    · exact fun _ h => absurd hprobed h
  · intro h
    obtain ⟨htime, context', rest, hselected, entry, hrest⟩ := h
    obtain ⟨hprobed, segments, hstart⟩ | ⟨hprobed, hstart⟩ := scan_start (b := b) context tokens
    · rw [hstart]
      cases hdrop : tokens.drop (probed context.commands tokens).length with
      | nil =>
          rw [hselected.rest_eq, hdrop] at hselected
          exact (finish_naming_iff hselected hprobed hdrop).mpr htime
      | cons token tokens' =>
          rw [hselected.rest_eq, hdrop] at hrest
          refine ⟨entry, ?_⟩
          simp only [select_of_selected hselected hprobed, ok_bind]
          exact hrest
    · cases hselected with
      | matched hlong => exact absurd hprobed (probed_ne_nil_of_longest hlong)
      | fallback h => exact absurd hprobed h
      | direct _ hactive =>
          obtain ⟨-, hscan⟩ | ⟨hnone, -⟩ := hstart
          · exact ⟨entry, hscan ▸ hrest⟩
          · simp [hnone] at hactive

/-- A command is chosen exactly if it is selected. -/
theorem chosen_eq_some_iff : chosen context tokens = some c ↔
    ∃ context' rest, Selected context tokens context' rest ∧ context'.activeCommand = some c := by
  constructor
  · intro h
    rw [chosen] at h
    split at h
    · next hprobed => exact ⟨context, tokens, .direct hprobed (by simp [h]), h⟩
    · next hprobed =>
      cases hlong : longest Command.path context.commands (leadingValues tokens) with
      | some command =>
          rw [hlong, Option.some_or] at h
          exact ⟨_, _, .matched hlong, h⟩
      | none =>
          rw [hlong, Option.none_or] at h
          exact ⟨_, _, .fallback hprobed hlong h, rfl⟩
  · intro h
    obtain ⟨context', rest, hselected, hactive⟩ := h
    rw [← hactive, chosen]
    cases hselected with
    | matched hlong => rw [if_neg (probed_ne_nil_of_longest hlong), hlong, Option.some_or]
    | fallback hprobed hlong hdefault => rw [if_neg hprobed, hlong, Option.none_or, hdefault]
    | direct hprobed _ => rw [if_pos hprobed]

/-- Selecting a command leaves the values and the settings of the context. -/
theorem Selected.frame (h : Selected context tokens context' rest) :
    context'.ovm = context.ovm ∧
      context'.allowLongOptionValueWithNoEqual = context.allowLongOptionValueWithNoEqual := by
  cases h <;> exact ⟨rfl, rfl⟩

/-- Values in front change nothing: the order is about the names. -/
theorem inOrderFrom_values_append (vs : List String) {allow : Bool} {stored : String → Prop} :
    InOrderFrom c allow stored (vs.map (Prod.mk .value) ++ tokens) ↔
      InOrderFrom c allow stored tokens := by
  induction vs with
  | nil => rfl
  | cons v vs ih => exact ih

/-- A selection leaves a command active. -/
theorem Selected.exists_activeCommand (h : Selected context tokens context' rest) :
    ∃ c, context'.activeCommand = some c := by
  cases h with
  | @matched command => exact ⟨command, rfl⟩
  | @fallback command => exact ⟨command, rfl⟩
  | direct _ hactive => exact Option.isSome_iff_exists.mp hactive

/-- Behind values no equal sign stands either. -/
theorem isChain_behind_values {text : String} (vs : List String)
    (h : ((.value, text) :: (vs.map (Prod.mk .value) ++ rest)).IsChain Attached) :
    ∃ text', ((.value, text') :: rest).IsChain Attached := by
  induction vs generalizing text with
  | nil => exact ⟨text, h⟩
  | cons v vs ih => exact ih h.tail

/-- From the selection of a command on, the pass gets to its end exactly if the line is in order
for the command. -/
theorem Selected.exists_scan_iff {text : String} (h : Selected context tokens context' rest)
    (hactive : context'.activeCommand = some c)
    (hchain : ((.value, text) :: tokens).IsChain Attached) :
    (∃ entry, scan b .ready context' rest = .ok entry) ↔
      InOrderFrom c context.allowLongOptionValueWithNoEqual
        (fun k => context.ovm.hasOption k = true) tokens := by
  obtain ⟨hovm, hallow⟩ := h.frame
  have htokens := probed_append_drop context.commands tokens
  rw [← h.rest_eq] at htokens
  rw [← htokens] at hchain ⊢
  obtain ⟨text', hrest⟩ := isChain_behind_values _ hchain
  rw [inOrderFrom_values_append]
  exact (scansInOrder_of_isChain hrest.tail).idle .ready context' trivial
    (behind_ready hactive hallow) (not_equalSign_of_attached hrest (by simp)) fun k => by rw [hovm]

/-- The pass gets to its end exactly if a command is chosen, in time, and the line is in order for
it. -/
theorem exists_scan_iff {text : String}
    (hchain : ((.value, text) :: tokens).IsChain Attached) :
    (∃ entry, scan b .start context tokens = .ok entry) ↔
      InTime b context.commands tokens ∧ ∃ c, chosen context tokens = some c ∧
        InOrderFrom c context.allowLongOptionValueWithNoEqual
          (fun k => context.ovm.hasOption k = true) tokens := by
  rw [exists_scan_start_iff]
  refine and_congr_right fun _ => ?_
  constructor
  · intro h
    obtain ⟨context', rest, hselected, hscan⟩ := h
    obtain ⟨c, hactive⟩ := hselected.exists_activeCommand
    exact ⟨c, chosen_eq_some_iff.mpr ⟨context', rest, hselected, hactive⟩,
      (hselected.exists_scan_iff hactive hchain).mp hscan⟩
  · intro h
    obtain ⟨c, hchosen, hinOrder⟩ := h
    obtain ⟨context', rest, hselected, hactive⟩ := chosen_eq_some_iff.mp hchosen
    exact ⟨context', rest, hselected, (hselected.exists_scan_iff hactive hchain).mpr hinOrder⟩

end

/-! ## Every token in its place -/

/-- A token is in its place between those before and those behind it: an option that is named is
known, takes what stands behind it and, unless it may be repeated, is the first with its key. -/
inductive InPlace (c : Command V) (allow : Bool) (stored : String → Prop) (before : List Token)
    (token : Token) (behind : List Token) : Prop
  | value (h : token.1 = .value)
  | equalSign (h : token.1 = .equalSign)
  | option {o : ClapOption V} (resolve : c.resolve token = some o)
      (takes : o.Takes (Freely allow token) behind)
      (once : ¬ o.IsRepeatable →
        ¬ stored o.key ∧ ∀ t ∈ before, ∀ o', c.resolve t = some o' → o'.key ≠ o.key)

section

variable {allow : Bool} {stored : String → Prop} {before behind tokens : List Token}
  {token first : Token} {o : ClapOption V}

/-- A statement about every token between those before and those behind it. -/
theorem forall_split_cons {α : Type} {P : List α → α → List α → Prop} {x : α} {xs : List α} :
    (∀ before y behind, x :: xs = before ++ y :: behind → P before y behind) ↔
      P [] x xs ∧ ∀ before y behind, xs = before ++ y :: behind → P (x :: before) y behind := by
  constructor
  · intro h
    exact ⟨h [] x xs rfl, fun before y behind hxs => h (x :: before) y behind (by rw [hxs]; rfl)⟩
  · intro hsplit before y behind h
    obtain ⟨hx, hxs⟩ := hsplit
    cases before with
    | nil =>
        cases h
        exact hx
    | cons x' before =>
        cases h
        exact hxs before y behind rfl

/-- A token that names no option is skipped. -/
theorem inPlace_cons_of_none (h : c.resolve first = none) :
    InPlace c allow stored (first :: before) token behind ↔
      InPlace c allow stored before token behind := by
  constructor
  · intro hplace
    obtain hvalue | hequal | ⟨hresolve, htakes, honce⟩ := hplace
    · exact .value hvalue
    · exact .equalSign hequal
    · exact .option hresolve htakes fun hnot =>
        ⟨(honce hnot).1, fun t ht => (honce hnot).2 t (.tail _ ht)⟩
  · intro hplace
    obtain hvalue | hequal | ⟨hresolve, htakes, honce⟩ := hplace
    · exact .value hvalue
    · exact .equalSign hequal
    · exact .option hresolve htakes fun hnot =>
        ⟨(honce hnot).1, List.forall_mem_cons.mpr ⟨by simp [h], (honce hnot).2⟩⟩

/-- A name in front counts as stored behind it. -/
theorem inPlace_cons_of_some (h : c.resolve first = some o) :
    InPlace c allow stored (first :: before) token behind ↔
      InPlace c allow (fun k => stored k ∨ k = o.key) before token behind := by
  constructor
  · intro hplace
    obtain hvalue | hequal | ⟨hresolve, htakes, honce⟩ := hplace
    · exact .value hvalue
    · exact .equalSign hequal
    · refine .option hresolve htakes fun hnot => ?_
      obtain ⟨hstored, hbefore⟩ := honce hnot
      obtain ⟨hfirst, hbefore⟩ := List.forall_mem_cons.mp hbefore
      exact ⟨not_or.mpr ⟨hstored, (hfirst o h).symm⟩, hbefore⟩
  · intro hplace
    obtain hvalue | hequal | ⟨hresolve, htakes, honce⟩ := hplace
    · exact .value hvalue
    · exact .equalSign hequal
    · refine .option hresolve htakes fun hnot => ?_
      obtain ⟨hstored, hbefore⟩ := honce hnot
      obtain ⟨hstored, hfirst⟩ := not_or.mp hstored
      refine ⟨hstored, List.forall_mem_cons.mpr ⟨fun o' ho' => ?_, hbefore⟩⟩
      obtain rfl : o = o' := Option.some.inj (h.symm.trans ho')
      exact Ne.symm hfirst

/-- The line is in order if every token is in its place. -/
theorem inOrderFrom_iff : InOrderFrom c allow stored tokens ↔
    ∀ before token behind, tokens = before ++ token :: behind →
      InPlace c allow stored before token behind := by
  induction tokens generalizing stored with
  | nil => exact iff_of_true trivial fun before token behind h => by simp at h
  | cons first tokens ih =>
      rw [forall_split_cons]
      by_cases hother : first.1 = .value ∨ first.1 = .equalSign
      · have hnone : c.resolve first = none := by
          obtain ⟨tokenType, text⟩ := first
          obtain rfl | rfl := hother <;> rfl
        have hcons : InOrderFrom c allow stored (first :: tokens) ↔
            InOrderFrom c allow stored tokens := by
          obtain ⟨tokenType, text⟩ := first
          obtain rfl | rfl := hother <;> rfl
        have hfirst : InPlace c allow stored [] first tokens :=
          hother.elim .value .equalSign
        simp only [hcons, ih, inPlace_cons_of_none hnone, hfirst, true_and]
      · obtain ⟨hvalue, hequal⟩ := not_or.mp hother
        rw [inOrderFrom_cons_of_other hvalue hequal]
        constructor
        · intro h
          obtain ⟨o, hresolve, hstored, htakes, hrest⟩ := h
          refine ⟨.option hresolve htakes fun hnot => ⟨fun h => hnot (hstored h), by simp⟩, ?_⟩
          simpa only [inPlace_cons_of_some hresolve] using ih.mp hrest
        · intro h
          obtain ⟨hfirst, hrest⟩ := h
          obtain h | h | ⟨hresolve, htakes, honce⟩ := hfirst
          · exact absurd h hvalue
          · exact absurd h hequal
          · refine ⟨_, hresolve, fun h => by_contra fun hnot => (honce hnot).1 h, htakes, ?_⟩
            simpa only [inPlace_cons_of_some hresolve, ih] using hrest

end

/-! ## The whole line -/

/-- What a line leaves for `FinalState`, if all the options typed get a value. -/
def gathered (c : Command V) (context : ParserContext V) (tokens : List Token) : ParserContext V :=
  { context with
    activeCommand := some c
    positionalTokens :=
      context.positionalTokens ++ freeValues c none (behindPath context.commands tokens)
    ovm := context.ovm.storeAll ((occurrences c tokens).filterMap entryOf) }

/-- What a command line has to be like. -/
structure Accepted (b : Build) (context : ParserContext V) (tokens : List Token) (c : Command V) :
    Prop where
  chosen : chosen context tokens = some c
  inTime : InTime b context.commands tokens
  inPlace : ∀ before token behind, tokens = before ++ token :: behind →
    InPlace c context.allowLongOptionValueWithNoEqual (fun k => context.ovm.hasOption k = true)
      before token behind
  faultless : ¬ FinalFaults b c (gathered c context tokens)
  /-- every value that is left has an argument and nothing required is lacking -/
  complete : ∃ ps,
    assigned c.positionalArgs (gathered c context tokens).positionalTokens = some ps ∧
    ¬ Lacks (c.options ++ c.positionalArgs)
      ((gathered c context tokens).ovm.storeAll (ps.filterMap positionalEntry))

section

variable {context : CommandLineContext V} {commands : List (Command V)} {args : List String}

/-- Whether `FinalState` crashes is decided by the positional tokens and the values alone. -/
theorem finalFaults_congr {context context' : ParserContext V}
    (htokens : context.positionalTokens = context'.positionalTokens)
    (hovm : context.ovm = context'.ovm) (h : FinalFaults b c context) :
    FinalFaults b c context' := by
  cases h with
  | unserved h => exact .unserved h
  | runsOut h => exact .runsOut (htokens ▸ h)
  | rest hleft hrest hsem => exact .rest (htokens ▸ hleft) hrest hsem
  | asks hassigned h => exact .asks (htokens ▸ hassigned) (hovm ▸ h)

/-- `FinalState` finds what the line leaves for it. -/
theorem Entry.gathered_eq {context entry : ParserContext V} {tokens : List Token}
    (h : Entry c context tokens entry) :
    entry.positionalTokens = (gathered c context tokens).positionalTokens ∧
      entry.ovm = (gathered c context tokens).ovm := by
  obtain ⟨es, hes, hovm⟩ := h.stored
  refine ⟨h.positional, hovm.trans ?_⟩
  have hfilter : (occurrences c tokens).filterMap entryOf = es := by
    have := congrArg (List.filterMap id) hes
    simpa [List.filterMap_map] using this
  rw [gathered, hfilter]

/-- `FinalState` lets exactly these parses succeed. -/
theorem exists_settle_iff {context entry : ParserContext V} {tokens : List Token}
    (h : Entry c context tokens entry) :
    (∃ result, FinalState.settle b entry = .ok (.terminate, result)) ↔
      ¬ FinalFaults b c (gathered c context tokens) ∧
        ∃ ps, assigned c.positionalArgs (gathered c context tokens).positionalTokens = some ps ∧
          ¬ Lacks (c.options ++ c.positionalArgs)
            ((gathered c context tokens).ovm.storeAll (ps.filterMap positionalEntry)) := by
  obtain ⟨htokens, hovm⟩ := h.gathered_eq
  rw [FinalState.exists_settle_terminate_iff h.activeCommand, htokens, hovm]
  exact and_congr_left fun _ => not_congr
    ⟨finalFaults_congr htokens hovm, finalFaults_congr htokens.symm hovm.symm⟩

/-- What `Parse` accepts satisfies the condition, for the command that it selects. -/
theorem accepted_of_parses {result : ParserContext V}
    (h : Parses b context commands args (.returned true result)) :
    ∃ c, Accepted b (initial context commands) (delivered args) c ∧
      result.activeCommand = some c := by
  obtain ⟨entry, hpass, hsettle⟩ := parses_true_iff.mp h
  obtain ⟨c, hentry⟩ := entry_of_pass hpass
  obtain ⟨htime, c', hchosen, hinOrder⟩ :=
    (exists_scan_iff (isChain_delivered args (.value, ""))).mp ⟨entry, hpass⟩
  obtain rfl := Option.some.inj (hchosen.symm.trans hentry.chosen)
  obtain ⟨hfaultless, hcomplete⟩ := (exists_settle_iff hentry).mp ⟨result, hsettle⟩
  refine ⟨c', ⟨hchosen, htime, inOrderFrom_iff.mp hinOrder, hfaultless, hcomplete⟩, ?_⟩
  rw [FinalState.settle_frame hsettle]
  exact hentry.activeCommand

/-- What satisfies the condition is accepted. -/
theorem parses_of_accepted (h : Accepted b (initial context commands) (delivered args) c) :
    ∃ result, Parses b context commands args (.returned true result) := by
  obtain ⟨entry, hpass⟩ := (exists_scan_iff (isChain_delivered args (.value, ""))).mpr
    ⟨h.inTime, c, h.chosen, inOrderFrom_iff.mpr h.inPlace⟩
  obtain ⟨c', hentry⟩ := entry_of_pass hpass
  obtain rfl := Option.some.inj (hentry.chosen.symm.trans h.chosen)
  obtain ⟨result, hsettle⟩ := (exists_settle_iff hentry).mpr ⟨h.faultless, h.complete⟩
  exact ⟨result, parses_true_iff.mpr ⟨entry, hpass, hsettle⟩⟩

/-- **Acceptance**: a parse succeeds exactly for the command lines that choose a command, have
every token in its place for it and leave it nothing lacking. -/
theorem accepts_iff : (∃ result, Parses b context commands args (.returned true result)) ↔
    ∃ c, Accepted b (initial context commands) (delivered args) c :=
  ⟨fun ⟨_, h⟩ => (accepted_of_parses h).imp fun _ => And.left, fun ⟨_, h⟩ => parses_of_accepted h⟩

end

end Parser

end AsapClap
