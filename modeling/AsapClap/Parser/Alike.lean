import AsapClap.Library.Relate
import AsapClap.Parser.Values

/-!
# AsapClap.Parser.Alike

Two runs of the parser side by side.  Their contexts are `Alike`: they differ in the name an
option was typed with and in what was written, and the first may hold `stale` values in front
of those the second holds.  Whatever the states and the pass do to alike contexts keeps them
alike, as long as no option is typed under whose key there are stale values.
-/

namespace AsapClap

namespace Parser

open Errors Relate Tokenizer

variable {V : Type} {b : Build}

/-! ## Contexts -/

/-- The contexts differ in the flag of the active option and in texts, and in values the
first holds in front of those of the second. -/
structure Alike (stale : String → List (OptionValue V)) (c₁ c₂ : ParserContext V) : Prop where
  allowLong : c₁.allowLongOptionValueWithNoEqual = c₂.allowLongOptionValueWithNoEqual
  commands : c₁.commands = c₂.commands
  activeCommand : c₁.activeCommand = c₂.activeCommand
  activeOption : c₁.activeOption = c₂.activeOption
  positionalTokens : c₁.positionalTokens = c₂.positionalTokens
  values : ∀ k, c₁.ovm.values k = stale k ++ c₂.ovm.values k

/-- Two statuses that only differ in a message. -/
inductive SameStatus : Status → Status → Prop
  | refl (status : Status) : SameStatus status status
  | error (message₁ message₂ : String) :
      SameStatus (.terminateWithError message₁) (.terminateWithError message₂)

/-- Two passes stop for the same reason. -/
inductive SameStop (R : ParserContext V → ParserContext V → Prop) : Stop V → Stop V → Prop
  | rejected {c₁ c₂ : ParserContext V} (message₁ message₂ : String) (h : R c₁ c₂) :
      SameStop R (.rejected message₁ c₁) (.rejected message₂ c₂)
  | faulted (fault : Fault) : SameStop R (.faulted fault) (.faulted fault)
  | swallowed : SameStop R .swallowed .swallowed

section

variable {stale : String → List (OptionValue V)} {c₁ c₂ : ParserContext V}

theorem Alike.refl (c : ParserContext V) : Alike (fun _ => []) c c :=
  ⟨rfl, rfl, rfl, rfl, rfl, fun _ => rfl⟩

/-- One more value under a key goes behind the others. -/
theorem Alike.storeValue (h : Alike stale c₁ c₂) (option : ClapOption V) (value : V)
    (token : String) (defaulted : Bool) :
    Alike stale (c₁.storeValue option value token defaulted)
      (c₂.storeValue option value token defaulted) where
  allowLong := h.allowLong
  commands := h.commands
  activeCommand := h.activeCommand
  activeOption := h.activeOption
  positionalTokens := h.positionalTokens
  values k := by
    simp [ParserContext.storeValue, OptionValuesMap.storeValue, Multimap.values_store, h.values]

theorem Alike.pushPositionals (h : Alike stale c₁ c₂) (tokens : List String) :
    Alike stale { c₁ with positionalTokens := c₁.positionalTokens ++ tokens }
      { c₂ with positionalTokens := c₂.positionalTokens ++ tokens } :=
  { h with positionalTokens := by simp [h.positionalTokens] }

theorem Alike.setPositionals (h : Alike stale c₁ c₂) (tokens : List String) :
    Alike stale { c₁ with positionalTokens := tokens } { c₂ with positionalTokens := tokens } :=
  { h with positionalTokens := rfl }

theorem SameStop.refl {R : ParserContext V → ParserContext V → Prop} (hR : ∀ c, R c c) :
    ∀ stop : Stop V, SameStop R stop stop
  | .rejected message context => .rejected message message (hR context)
  | .faulted fault => .faulted fault
  | .swallowed => .swallowed

theorem SameStop.mono {R S : ParserContext V → ParserContext V → Prop} {stop₁ stop₂ : Stop V}
    (h : SameStop R stop₁ stop₂) (hR : ∀ c₁ c₂, R c₁ c₂ → S c₁ c₂) : SameStop S stop₁ stop₂ := by
  cases h with
  | rejected message₁ message₂ h => exact .rejected message₁ message₂ (hR _ _ h)
  | faulted fault => exact .faulted fault
  | swallowed => exact .swallowed

/-! ## The computations of the states -/

/-- A computation that succeeds with alike contexts is accepted with alike contexts. -/
theorem accept_agree {x₁ x₂ : Except Fault (Status × ParserContext V)}
    (h : Agree Eq (fun r₁ r₂ => SameStatus r₁.1 r₂.1 ∧ Alike stale r₁.2 r₂.2) x₁ x₂) :
    Agree (SameStop (Alike stale)) (Alike stale) (accept x₁) (accept x₂) := by
  cases h with
  | @ok r₁ r₂ h =>
      obtain ⟨status₁, c₁⟩ := r₁
      obtain ⟨status₂, c₂⟩ := r₂
      obtain ⟨hstatus, halike⟩ := h
      cases hstatus with
      | refl => cases status₁ <;> first | exact .ok halike | exact .error (.rejected _ _ halike)
      | error message₁ message₂ => exact .error (.rejected message₁ message₂ halike)
  | error h =>
      cases h
      exact .error (.faulted _)

/-- Crashes agree if the fallible parts do. -/
theorem lift_agree {α α' : Type} {R : α → α' → Prop} {x₁ : Except Fault α} {x₂ : Except Fault α'}
    (h : Agree Eq R x₁ x₂) : Agree (SameStop (Alike stale)) R (lift x₁) (lift x₂) := by
  cases h with
  | ok h => exact .ok h
  | error h =>
      cases h
      exact .error (.faulted _)

theorem lift_agree_same {α : Type} (x : Except Fault α) :
    Agree (SameStop (Alike stale)) Eq (lift x) (lift x) := by
  cases x with
  | ok a => exact .ok rfl
  | error fault => exact .error (.faulted fault)

/-- Both contexts have the same descriptor at hand. -/
theorem activeSemantics_alike (h : Alike stale c₁ c₂) :
    activeSemantics b c₁ = activeSemantics b c₂ := by
  simp only [activeSemantics, h.activeOption]

/-- The message names the option as it was typed, which is the same. -/
theorem optionSyntaxError_agree (h : Alike stale c₁ c₂) (message : String) :
    Agree Eq (fun _ _ => True) (optionSyntaxError c₁ message) (optionSyntaxError c₂ message) := by
  simp only [optionSyntaxError, h.activeOption]
  cases c₂.activeOption with
  | none => exact .error rfl
  | some option => exact .ok trivial

/-- The message about a missing value is the same. -/
theorem missingValueForOption_agree (h : Alike stale c₁ c₂) :
    Agree Eq (fun _ _ => True) (missingValueForOption c₁) (missingValueForOption c₂) := by
  simp only [missingValueForOption, h.activeOption]
  cases c₂.activeOption with
  | none => exact .error rfl
  | some option => exact .ok trivial

/-- Without stale values under a key, the values under it are the same. -/
theorem Alike.values_eq (h : Alike stale c₁ c₂) {k : String} (hk : stale k = []) :
    c₁.ovm.values k = c₂.ovm.values k := by
  rw [h.values, hk, List.nil_append]

theorem contains_congr {m₁ m₂ : OptionValuesMap V} {k : String}
    (h : m₁.values k = m₂.values k) : m₁.contains k = m₂.contains k := by
  rw [Bool.eq_iff_iff, Multimap.contains_iff, Multimap.contains_iff, h]

/-- The check reads the values of one key, which nothing is left over for. -/
theorem checkMultipleOccurrence_alike {option : ClapOption V} (h : Alike stale c₁ c₂)
    (hoption : c₁.activeOption = some option) (hkey : stale option.key = []) :
    checkMultipleOccurrence c₁ = checkMultipleOccurrence c₂ := by
  simp only [checkMultipleOccurrence, ← h.activeOption, hoption, deref_some, ok_bind,
    OptionValuesMap.occurrencesOf, h.values_eq hkey]
  rfl

/-- A repeated option is reported alike. -/
theorem illegalMultipleOccurrence_agree {option : ClapOption V} (h : Alike stale c₁ c₂)
    (hoption : c₁.activeOption = some option) (hkey : stale option.key = []) (message : String) :
    Agree Eq (fun _ _ => True) (illegalMultipleOccurrence b c₁ message)
      (illegalMultipleOccurrence b c₂ message) := by
  have hvalues := h.values_eq hkey
  simp only [illegalMultipleOccurrence, ← h.activeOption, hoption, Option.isSome_some,
    Build.expect_true, deref_some, ok_bind, OptionValuesMap.occurrencesOf,
    OptionValuesMap.valuesOf?, hvalues, contains_congr hvalues]
  refine Agree.bind_same (fun _ => rfl) _ fun _ _ => ?_
  split
  · exact .error rfl
  · exact .error rfl
  · exact .ok trivial

/-- An option found on both sides is entered on both sides, whatever it was typed with. -/
theorem enterOption_agree {c : Command V} {flag₁ flag₂ token₁ token₂ : String}
    {find₁ find₂ : Command V → Option (ClapOption V)} (h : Alike stale c₁ c₂)
    (hcommand : c₁.activeCommand = some c) (hfind : find₁ c = find₂ c)
    (hkey : ∀ option, find₁ c = some option → stale option.key = []) :
    Agree Eq (fun r₁ r₂ => SameStatus r₁.1 r₂.1 ∧ Alike stale r₁.2 r₂.2)
      (enterOption b flag₁ find₁ token₁ true c₁) (enterOption b flag₂ find₂ token₂ true c₂) := by
  have hcommand₂ : c₂.activeCommand = some c := h.activeCommand ▸ hcommand
  simp only [enterOption, takeData_true, ok_bind, hcommand, hcommand₂, Option.isSome_some,
    Build.expect_true, deref_some, ← hfind]
  cases hoption : find₁ c with
  | none => exact .ok ⟨.error _ _, { h with }⟩
  | some option =>
      have hentered : Alike stale { c₁ with activeOptionFlag := flag₁, activeOption := some option }
          { c₂ with activeOptionFlag := flag₂, activeOption := some option } :=
        { h with activeOption := rfl }
      simp only [checkMultipleOccurrence_alike hentered rfl (hkey option hoption)]
      refine Agree.bind_same (fun _ => rfl) _ fun single _ => ?_
      cases single with
      | true => exact .ok ⟨.refl _, hentered⟩
      | false =>
          exact (illegalMultipleOccurrence_agree hentered rfl (hkey option hoption) "").bind
            fun message₁ message₂ _ _ _ => .ok ⟨.error message₁ message₂, hentered⟩

/-- An option is left alike, with whatever value it has. -/
theorem leaveOption_agree {value₁ value₂ : Option String} {option : ClapOption V}
    (h : Alike stale c₁ c₂) (hoption : c₁.activeOption = some option)
    (hvalue : value₁.isSome = value₂.isSome) :
    Agree Eq (fun r₁ r₂ => SameStatus r₁.1 r₂.1 ∧ Alike stale r₁.2 r₂.2)
      (leaveOption value₁ c₁) (leaveOption value₂ c₂) := by
  cases value₁ with
  | some value₁ =>
      obtain ⟨value₂, rfl⟩ := Option.isSome_iff_exists.mp hvalue.symm
      rw [leaveOption_some, leaveOption_some]
      exact .ok ⟨.refl _, h⟩
  | none =>
      obtain rfl : value₂ = none := by simpa using hvalue.symm
      rw [leaveOption_none hoption, leaveOption_none (h.activeOption ▸ hoption)]
      refine Agree.bind_same (fun _ => rfl) _ fun semantics _ => ?_
      cases semantics.applyImplicit with
      | some value => exact .ok ⟨.refl _, h.storeValue option value.1 value.2 false⟩
      | none =>
          exact (missingValueForOption_agree h).bind
            fun message₁ message₂ _ _ _ => .ok ⟨.error message₁ message₂, h⟩

/-! ## The pass -/

/-- The same phase, or one behind an option typed with its short name and one behind the
same option typed with its long name. -/
inductive SamePhase : Phase → Phase → Prop
  | refl (phase : Phase) : SamePhase phase phase
  | renamed (value : Option String) {afterEqual : Bool} (h : value.isSome ∨ afterEqual = false) :
      SamePhase (.short value) (.long value afterEqual)

/-- A token is dispatched alike, if nothing is left over for the option that it names. -/
theorem dispatch_agree {c : Command V} {token : Token} (h : Alike stale c₁ c₂)
    (hcommand : c₁.activeCommand = some c)
    (hkey : ∀ option, c.resolve token = some option → stale option.key = []) :
    Agree (SameStop (Alike stale)) (fun r₁ r₂ => r₁.1 = r₂.1 ∧ Alike stale r₁.2 r₂.2)
      (dispatch b c₁ token) (dispatch b c₂ token) := by
  obtain ⟨tokenType, text⟩ := token
  cases tokenType with
  | value => exact .ok ⟨rfl, h.pushPositionals [text]⟩
  | longOption | shortOption | loneDash =>
      exact (accept_agree (enterOption_agree h hcommand rfl hkey)).bind
        fun _ _ _ _ hentered => .ok ⟨rfl, hentered⟩
  | equalSign =>
      exact (lift_agree (optionSyntaxError_agree h "")).bind
        fun message₁ message₂ _ _ _ => .error (.rejected message₁ message₂ h)
  | dashDash | endOfInput => exact .error .swallowed

/-- An option that has both names may be typed with either. -/
theorem dispatch_renamed_agree {c : Command V} {option : ClapOption V} {shortName longName : String}
    (h : Alike stale c₁ c₂) (hcommand : c₁.activeCommand = some c)
    (hshort : c.findShortOption shortName = some option)
    (hlong : c.findLongOption longName = some option) (hkey : stale option.key = []) :
    Agree (SameStop (Alike stale))
      (fun r₁ r₂ => r₁.1 = .short none ∧ r₂.1 = .long none false ∧ Alike stale r₁.2 r₂.2)
      (dispatch b c₁ (.shortOption, shortName)) (dispatch b c₂ (.longOption, longName)) := by
  have hkeys : ∀ o, c.findShortOption shortName = some o → stale o.key = [] := by
    intro o ho
    obtain rfl : option = o := by simpa [hshort] using ho
    exact hkey
  exact (accept_agree (enterOption_agree h hcommand (hshort.trans hlong.symm) hkeys)).bind
    fun _ _ _ _ hentered => .ok ⟨rfl, rfl, hentered⟩

/-- A value is offered alike. -/
theorem offer_agree {option : ClapOption V} {semantics : ValueSemantics V} {taken₁ taken₂ : Phase}
    (fallback : Bool) (token : String) (h : Alike stale c₁ c₂) (htaken : SamePhase taken₁ taken₂) :
    Agree (SameStop (Alike stale))
      (fun r₁ r₂ => SamePhase r₁.1 r₂.1 ∧ Alike stale r₁.2 r₂.2 ∧ (r₁.1 ≠ r₂.1 → taken₁ ≠ taken₂))
      (offer b option semantics taken₁ fallback c₁ token)
      (offer b option semantics taken₂ fallback c₂ token) := by
  cases hparse : semantics.parse token with
  | some value =>
      rw [offer_of_parse hparse, offer_of_parse hparse]
      exact .ok ⟨htaken, h.storeValue option value token false, fun hne => hne⟩
  | none =>
      by_cases hmissing : fallback = false ∨ semantics.applyImplicit = none
      · rw [offer_of_missing hparse hmissing, offer_of_missing hparse hmissing]
        exact (lift_agree (missingValueForOption_agree h)).bind
          fun message₁ message₂ _ _ _ => .error (.rejected message₁ message₂ h)
      · obtain ⟨hfallback, himplicit⟩ := not_or.mp hmissing
        obtain ⟨⟨value, valueAsText⟩, himplicit⟩ := Option.ne_none_iff_exists'.mp himplicit
        obtain rfl : fallback = true := by simpa using hfallback
        rw [offer_of_implicit hparse himplicit, offer_of_implicit hparse himplicit]
        exact .ok ⟨.refl _, (h.storeValue option value valueAsText false).pushPositionals [token],
          by simp⟩

/-- What one token makes of two passes, whose phases `renamed` allows to differ. -/
abbrev SameStep (stale : String → List (OptionValue V)) (token : Token) (renamed : Prop)
    (r₁ r₂ : Phase × ParserContext V) : Prop :=
  SamePhase r₁.1 r₂.1 ∧ Alike stale r₁.2 r₂.2 ∧ (r₁.1 ≠ r₂.1 → renamed ∧ token.1 = .value)

/-- Both contexts take the same step to the token. -/
theorem dispatch_sameStep {c : Command V} {token : Token} {renamed : Prop} (h : Alike stale c₁ c₂)
    (hcommand : c₁.activeCommand = some c)
    (hkey : ∀ option, c.resolve token = some option → stale option.key = []) :
    Agree (SameStop (Alike stale)) (SameStep stale token renamed) (dispatch b c₁ token)
      (dispatch b c₂ token) :=
  (dispatch_agree h hcommand hkey).mono (fun _ _ h => h) fun _ _ hr =>
    ⟨hr.1 ▸ .refl _, hr.2, fun hne => absurd hr.1 hne⟩

/-- A token that ends the option in front of it. -/
theorem leave_sameStep {c : Command V} {option : ClapOption V} {token : Token} {renamed : Prop}
    (h : Alike stale c₁ c₂) (hcommand : c₁.activeCommand = some c)
    (hoption : c₁.activeOption = some option) (value : Option String)
    (hkey : (∃ left, accept (leaveOption value c₂) = .ok left) →
      ∀ option, c.resolve token = some option → stale option.key = []) :
    Agree (SameStop (Alike stale)) (SameStep stale token renamed)
      (accept (leaveOption value c₁) >>= (dispatch b · token))
      (accept (leaveOption value c₂) >>= (dispatch b · token)) := by
  refine (accept_agree (leaveOption_agree h hoption rfl)).bind fun c₁' c₂' hleave hleft h' => ?_
  have hcommand' : c₁'.activeCommand = some c :=
    (leave_ok hoption hleave false).activeCommand_eq.trans hcommand
  exact dispatch_sameStep h' hcommand' (hkey ⟨c₂', hleft⟩)

/-- A value behind an option, the two of which go on to the phases `taken₁` and `taken₂`. -/
theorem value_sameStep {c : Command V} {taken₁ taken₂ : Phase} {token : String}
    (h : Alike stale c₁ c₂) (hcommand : c₁.activeCommand = some c) (value : Option String)
    {fallback₁ fallback₂ : Bool} (hfallback : value = none → fallback₁ = fallback₂)
    {renamed : Prop} (htaken : SamePhase taken₁ taken₂) (hrenamed : taken₁ ≠ taken₂ → renamed) :
    Agree (SameStop (Alike stale)) (SameStep stale (.value, token) renamed)
      (lift (activeSemantics b c₁) >>= fun p =>
        if value.isSome then dispatch b c₁ (.value, token)
        else lift (deref p.2) >>= fun semantics =>
          offer b p.1 semantics taken₁ fallback₁ c₁ token)
      (lift (activeSemantics b c₂) >>= fun p =>
        if value.isSome then dispatch b c₂ (.value, token)
        else lift (deref p.2) >>= fun semantics =>
          offer b p.1 semantics taken₂ fallback₂ c₂ token) := by
  rw [activeSemantics_alike h]
  refine (lift_agree_same _).bind fun p p' _ _ hp => ?_
  obtain rfl := hp
  split
  · exact dispatch_sameStep h hcommand (by simp)
  · next hvalue =>
    obtain rfl := hfallback (by simpa using hvalue)
    refine (lift_agree_same _).bind fun semantics semantics' _ _ hs => ?_
    obtain rfl := hs
    exact (offer_agree fallback₁ token h htaken).mono (fun _ _ h => h)
      fun _ _ hr => ⟨hr.1, hr.2.1, fun hne => ⟨hrenamed (hr.2.2 hne), rfl⟩⟩

/-- Where the long form needs no equal sign, a value behind it is taken as one behind the
short form is. -/
theorem continueLong_value {c : ParserContext V} {value : Option String} {afterEqual : Bool}
    (hallow : value.isSome ∨ (afterEqual || c.allowLongOptionValueWithNoEqual) = true)
    (token : String) :
    continueLong b value afterEqual c (.value, token) =
      lift (activeSemantics b c) >>= fun p =>
        if value.isSome then dispatch b c (.value, token)
        else lift (deref p.2) >>= fun semantics =>
          offer b p.1 semantics (.long (some token) afterEqual) (!afterEqual) c token := by
  refine congrArg (lift (activeSemantics b c) >>= ·) (funext fun p => ?_)
  cases value with
  | some value => rfl
  | none =>
      have hstrict : (!afterEqual && !c.allowLongOptionValueWithNoEqual) = false := by
        simpa [← Bool.not_or] using hallow
      simp [hstrict]

/-- A value behind a long name is treated alike. -/
theorem long_value_sameStep {c : Command V} {renamed : Prop} (h : Alike stale c₁ c₂)
    (hcommand : c₁.activeCommand = some c) (value : Option String) (afterEqual : Bool)
    (token : String) :
    Agree (SameStop (Alike stale)) (SameStep stale (.value, token) renamed)
      (continueLong b value afterEqual c₁ (.value, token))
      (continueLong b value afterEqual c₂ (.value, token)) := by
  by_cases hallow : value.isSome ∨ (afterEqual || c₁.allowLongOptionValueWithNoEqual) = true
  · rw [continueLong_value hallow, continueLong_value (h.allowLong ▸ hallow)]
    exact value_sameStep h hcommand value (fun _ => rfl) (.refl _) (by simp)
  · obtain ⟨hvalue, hstrict⟩ := not_or.mp hallow
    obtain rfl : value = none := by simpa using hvalue
    obtain ⟨rfl, hstrict₁⟩ : afterEqual = false ∧ c₁.allowLongOptionValueWithNoEqual = false := by
      simpa using hstrict
    have hstrict₂ : c₂.allowLongOptionValueWithNoEqual = false := h.allowLong ▸ hstrict₁
    rw [continueLong, continueLong, activeSemantics_alike h]
    refine (lift_agree_same _).bind fun p p' _ _ hp => ?_
    simp only [hstrict₁, hstrict₂, Option.isSome_none, Bool.not_false, Bool.and_true, if_true,
      Bool.false_eq_true, if_false]
    exact (lift_agree (optionSyntaxError_agree h _)).bind
      fun message₁ message₂ _ _ _ => .error (.rejected message₁ message₂ h)

/-- **One token** on both sides, for phases behind the command.  Whether the option it names has
stale values matters only if the option in front of it is done with. -/
theorem advance_agree {c : Command V} {p₁ p₂ : Phase} {token : Token} (h : Alike stale c₁ c₂)
    (hphase : p₁.BehindCommand c₁) (hcommand : c₁.activeCommand = some c)
    (hsame : SamePhase p₁ p₂)
    (hrenamed : p₁ ≠ p₂ → c₁.allowLongOptionValueWithNoEqual = true ∧ token.1 ≠ .equalSign)
    (hkey : (∃ entry, finish b p₂ c₂ = .ok entry) →
      ∀ option, c.resolve token = some option → stale option.key = []) :
    Agree (SameStop (Alike stale)) (SameStep stale token (p₁ ≠ p₂)) (advance b p₁ c₁ token)
      (advance b p₂ c₂ token) := by
  cases hsame with
  | refl =>
      cases p₁ with
      | start | naming typed => exact hphase.elim
      | ready => exact dispatch_sameStep h hcommand (hkey ⟨c₂, rfl⟩)
      | short value =>
          obtain ⟨option, hoption⟩ := Option.isSome_iff_exists.mp hphase
          by_cases hvalue : token.1 = .value
          · obtain ⟨text, rfl⟩ := Token.exists_text hvalue
            exact value_sameStep h hcommand value (fun _ => rfl) (.refl _) (by simp)
          · rw [advance_short_other hvalue, advance_short_other hvalue]
            exact leave_sameStep h hcommand hoption value hkey
      | long value afterEqual =>
          obtain ⟨option, hoption⟩ := Option.isSome_iff_exists.mp hphase
          by_cases hvalue : token.1 = .value
          · obtain ⟨text, rfl⟩ := Token.exists_text hvalue
            exact long_value_sameStep h hcommand value afterEqual text
          · by_cases hequal : token.1 = .equalSign
            · obtain ⟨text, rfl⟩ := Token.exists_text hequal
              rw [advance, advance, continueLong, continueLong, activeSemantics_alike h]
              exact (lift_agree_same _).bind fun _ _ _ _ _ => .ok ⟨.refl _, h, by simp⟩
            · rw [advance_long_other hvalue hequal, advance_long_other hvalue hequal]
              exact leave_sameStep h hcommand hoption value hkey
  | renamed value hvalue =>
      obtain ⟨option, hoption⟩ := Option.isSome_iff_exists.mp hphase
      obtain ⟨hallow, hequal⟩ := hrenamed (by simp)
      by_cases htoken : token.1 = .value
      · obtain ⟨text, rfl⟩ := Token.exists_text htoken
        rw [advance, advance, continueLong_value (.inr (by simp [← h.allowLong, hallow]))]
        refine value_sameStep h hcommand value (fun hnone => ?_) (.renamed (some text) (.inl rfl))
          (by simp)
        obtain hvalue | rfl := hvalue
        · simp [hnone] at hvalue
        · rfl
      · rw [advance_short_other htoken, advance_long_other htoken hequal]
        exact leave_sameStep h hcommand hoption value hkey

/-- The end of the line on both sides. -/
theorem finish_agree {p₁ p₂ : Phase} (h : Alike stale c₁ c₂)
    (hphase : p₁.BehindCommand c₁) (hsame : SamePhase p₁ p₂) :
    Agree (SameStop (Alike stale)) (Alike stale) (finish b p₁ c₁) (finish b p₂ c₂) := by
  have hleave : c₁.activeOption.isSome → ∀ value : Option String,
      Agree (SameStop (Alike stale)) (Alike stale) (accept (leaveOption value c₁))
        (accept (leaveOption value c₂)) := by
    intro hphase value
    obtain ⟨option, hoption⟩ := Option.isSome_iff_exists.mp hphase
    exact accept_agree (leaveOption_agree h hoption rfl)
  cases hsame with
  | refl =>
      cases p₁ with
      | start | naming typed => exact hphase.elim
      | ready => exact .ok h
      | short value | long value afterEqual => exact hleave hphase value
  | renamed value hvalue => exact hleave hphase value

/-- Nothing changes the mode of long options. -/
theorem Settles.allowLong_eq {pending : Option (ClapOption V × Bool)}
    {context context' : ParserContext V} (h : Settles pending context context') :
    context'.allowLongOptionValueWithNoEqual = context.allowLongOptionValueWithNoEqual := by
  cases h <;> rfl

/-- No step changes how long options take their values. -/
theorem Step.allowLong_eq {c : Command V} {pending pending' : Option (ClapOption V × Bool)}
    {context context' : ParserContext V} {token : Token}
    (h : Step c pending context token pending' context') :
    context'.allowLongOptionValueWithNoEqual = context.allowLongOptionValueWithNoEqual := by
  cases h with
  | option flag hsettles hresolve => exact hsettles.allowLong_eq
  | _ => rfl

/-- **The rest of the line** on both sides. -/
theorem scan_agree {c : Command V} {p₁ p₂ : Phase} {tokens : List Token} (h : Alike stale c₁ c₂)
    (hphase : p₁.BehindCommand c₁) (hcommand : c₁.activeCommand = some c)
    (hsame : SamePhase p₁ p₂)
    (hrenamed : p₁ ≠ p₂ → c₁.allowLongOptionValueWithNoEqual = true ∧
      tokens.IsChain Attached ∧ ∀ t ∈ tokens.head?, t.1 ≠ .equalSign)
    (hkey : ∀ front token behind, tokens = front ++ token :: behind →
      (∃ entry, scan b p₂ c₂ front = .ok entry) →
      ∀ option, c.resolve token = some option → stale option.key = []) :
    Agree (SameStop (Alike stale)) (Alike stale) (scan b p₁ c₁ tokens) (scan b p₂ c₂ tokens) := by
  induction tokens generalizing p₁ p₂ c₁ c₂ with
  | nil => exact finish_agree h hphase hsame
  | cons token tokens ih =>
      have hstep := advance_agree (b := b) h hphase hcommand hsame
        (fun hne => ⟨(hrenamed hne).1, (hrenamed hne).2.2 token rfl⟩)
        (hkey [] token tokens rfl)
      refine hstep.bind fun r₁ r₂ hadvance hadvance₂ hr => ?_
      obtain ⟨hphase', hcommand', hstepped⟩ := advance_ok hphase hcommand hadvance
      refine ih hr.2.1 hphase' hcommand' hr.1 (fun hne => ?_)
        fun front token' behind hsplit hfront => ?_
      · -- the phases still differ behind a value only, which has no equal sign behind it
        obtain ⟨hne₀, hvalue⟩ := hr.2.2 hne
        obtain ⟨hallow, hattached, -⟩ := hrenamed hne₀
        refine ⟨hstepped.allowLong_eq.trans hallow, hattached.tail, fun t ht hequal => ?_⟩
        have hlong := (List.isChain_cons.mp hattached).1 t ht hequal
        rw [hvalue] at hlong
        cases hlong
      · refine hkey (token :: front) token' behind (by rw [hsplit, List.cons_append]) ?_
        rwa [scan_cons, hadvance₂, ok_bind]

end

end Parser

end AsapClap
