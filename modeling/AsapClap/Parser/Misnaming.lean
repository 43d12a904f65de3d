import AsapClap.Parser.Acceptance
import AsapClap.Parser.Ahead
import AsapClap.Parser.History
import AsapClap.Parser.Reports

/-!
# AsapClap.Parser.Misnaming

What can be wrong with the name of an option, and how the pass stops at it.

Behind the command, a pass is rejected for a name and for nothing else: no option has it, its
option is there already, or the option is not served by what stands behind it.  The tokens ahead of
the first such name are read to their end as if they were the whole line.
-/

namespace AsapClap

namespace Parser

open Errors LongestPrefix Tokenizer

variable {V : Type} {b : Build} {c : Command V}

/-! ## Names -/

/-- The context once a name has been found to stand for an option. -/
def atName (context : ParserContext V) (name : Token) (o : ClapOption V) : ParserContext V :=
  { context with activeOptionFlag := optionFlag name, activeOption := some o }

@[simp] theorem atName_activeOption (context : ParserContext V) (name : Token)
    (o : ClapOption V) : (atName context name o).activeOption = some o := rfl

/-- A value stands behind a name where only an equal sign may. -/
def Unmarked (allow : Bool) (name : Token) (behind : List Token) : Prop :=
  Freely allow name = false ∧ ∃ t ∈ behind.head?, t.1 = .value

/-- What is wrong with a name, in the context that the tokens before it make and with these tokens
behind it. -/
inductive Misnamed (b : Build) (c : Command V) (context : ParserContext V) (name : Token)
    (behind : List Token) : String → Prop
  | unknown (resolve : c.resolve name = none) :
      Misnamed b c context name behind (unrecognizedOption context name.2)
  | again {o : ClapOption V} {message : String} (resolve : c.resolve name = some o)
      (semantics : o.valueSemantic.isSome) (once : ¬ o.IsRepeatable)
      (stored : context.ovm.hasOption o.key = true)
      (reported : illegalMultipleOccurrence b (atName context name o) = .ok message) :
      Misnamed b c context name behind message
  | unmarked {o : ClapOption V} {message : String} (resolve : c.resolve name = some o)
      (single : context.ovm.hasOption o.key = true → o.IsRepeatable)
      (semantics : b = .debug → o.valueSemantic.isSome)
      (unmarked : Unmarked context.allowLongOptionValueWithNoEqual name behind)
      (reported : needsEqualSign (atName context name o) = .ok message) :
      Misnamed b c context name behind message
  | missing {o : ClapOption V} {message : String} (resolve : c.resolve name = some o)
      (single : context.ovm.hasOption o.key = true → o.IsRepeatable)
      (semantics : o.valueSemantic.isSome)
      (marked : ¬ Unmarked context.allowLongOptionValueWithNoEqual name behind)
      (takes : ¬ o.Takes (Freely context.allowLongOptionValueWithNoEqual name) behind)
      (reported : missingValueForOption (atName context name o) = .ok message) :
      Misnamed b c context name behind message

/-! ## The pass leaves the rest alone -/

section

variable {context context' entry : ParserContext V} {phase : Phase} {token : Token}
  {tokens front behind : List Token}

/-- To settle an option touches neither settings nor streams nor commands. -/
theorem untouched_of_settles {pending : Option (ClapOption V × Bool)}
    (h : Settles pending context context') : Untouched context context' := by
  cases h with
  | none => exact .refl _
  | implicit => exact (Untouched.refl _).with _ _ _ _ _

/-- Nor does any step of an option state. -/
theorem untouched_of_step {pending pending' : Option (ClapOption V × Bool)}
    (h : Step c pending context token pending' context') : Untouched context context' := by
  cases h with
  | equalSign | equalSignTaken => exact .refl _
  | positional | taken | declined => exact (Untouched.refl _).with _ _ _ _ _
  | option flag hsettles => exact (untouched_of_settles hsettles).with _ _ _ _ _

theorem Untouched.trans (h : Untouched context context') (h' : Untouched context' entry) :
    Untouched context entry where
  allowLong := h'.allowLong.trans h.allowLong
  out := h'.out.trans h.out
  err := h'.err.trans h.err
  programName := h'.programName.trans h.programName
  commands := h'.commands.trans h.commands

/-- Behind the command, a pass that gets to its end keeps the command and leaves the rest alone. -/
theorem kept_of_scan (hphase : phase.BehindCommand context)
    (hcommand : context.activeCommand = some c) (h : scan b phase context tokens = .ok entry) :
    entry.activeCommand = some c ∧ Untouched context entry := by
  induction tokens generalizing phase context with
  | nil =>
      have hsettles := settles_of_finish hphase h
      exact ⟨hsettles.activeCommand_eq.trans hcommand, untouched_of_settles hsettles⟩
  | cons token tokens ih =>
      obtain ⟨p, hadvance, hrest⟩ := bind_eq_ok.mp h
      obtain ⟨hphase', hcommand', hstep⟩ := advance_ok hphase hcommand hadvance
      obtain ⟨hactive, huntouched⟩ := ih hphase' hcommand' hrest
      exact ⟨hactive, (untouched_of_step hstep).trans huntouched⟩

/-- The tokens ahead of another token than a value or an equal sign are read as a line of their
own. -/
theorem scan_append_other (hphase : phase.BehindCommand context)
    (hcommand : context.activeCommand = some c) (hvalue : token.1 ≠ .value)
    (hequal : token.1 ≠ .equalSign) :
    scan b phase context (front ++ token :: behind) =
      scan b phase context front >>= fun entry =>
        dispatch b entry token >>= fun p => scan b p.1 p.2 behind := by
  induction front generalizing phase context with
  | nil =>
      rw [List.nil_append, scan_cons, advance_other hphase hvalue hequal,
        release_eq_finish (b := b) hphase, bind_assoc]
      rfl
  | cons t front ih =>
      rw [List.cons_append, scan_cons, scan_cons, bind_assoc]
      cases hadvance : advance b phase context t with
      | error stop => rfl
      | ok p =>
          obtain ⟨hphase', hcommand', -⟩ := advance_ok hphase hcommand hadvance
          exact ih hphase' hcommand'

end

/-! ## A name that is wrong -/

section

variable {context context' : ParserContext V} {phase : Phase} {name token : Token}
  {behind tokens : List Token} {o : ClapOption V} {message : String}

theorem not_value_of_isName (h : IsName name) : name.1 ≠ .value := by
  obtain h | h | h := h <;> simp [h]

theorem not_equalSign_of_isName (h : IsName name) : name.1 ≠ .equalSign := by
  obtain h | h | h := h <;> simp [h]

/-- What the check refuses: an option with a value that must not repeat. -/
theorem checkMultipleOccurrence_eq_false_iff (hoption : context.activeOption = some o) :
    checkMultipleOccurrence context = .ok false ↔
      o.valueSemantic.isSome ∧ ¬ o.IsRepeatable ∧ context.ovm.hasOption o.key = true := by
  rw [OptionValuesMap.hasOption_iff, ← OptionValuesMap.occurrencesOf_pos_iff]
  by_cases hoccurs : context.ovm.occurrencesOf o.key = 0
  · simp [checkMultipleOccurrence, hoption, hoccurs]
  · have hpos : 0 < context.ovm.occurrencesOf o.key := Nat.pos_of_ne_zero hoccurs
    cases hsem : o.valueSemantic with
    | none => simp [checkMultipleOccurrence, hoption, hoccurs, hsem]
    | some semantics =>
        simp [checkMultipleOccurrence, hoption, hoccurs, hpos, ClapOption.IsRepeatable, hsem]

/-- A name leads to the state for its option. -/
theorem dispatch_of_isName (hname : IsName name) :
    dispatch b context name =
      accept (enterOption b (optionFlag name) (·.resolve name) name.2 true context) >>=
        fun context => .ok (optionPhase name, context) := by
  obtain ⟨tokenType, text⟩ := name
  obtain h | h | h := hname <;> cases h <;> rfl

/-- The option state for an option that is known is not entered if it is there already and may
occur once only. -/
theorem accept_enterOption_rejected_iff {flag text : String}
    {find : Command V → Option (ClapOption V)} (hcommand : context.activeCommand = some c)
    (hfind : find c = some o) :
    accept (enterOption b flag find text true context) = .error (.rejected message context') ↔
      checkMultipleOccurrence { context with activeOptionFlag := flag, activeOption := some o } =
          .ok false ∧
        illegalMultipleOccurrence b
          { context with activeOptionFlag := flag, activeOption := some o } = .ok message ∧
        context' = { context with activeOptionFlag := flag, activeOption := some o } := by
  simp only [enterOption, takeData_true, ok_bind, hcommand, Option.isSome_some, Build.expect_true,
    deref_some, hfind]
  cases hcheck : checkMultipleOccurrence
      { context with activeOptionFlag := flag, activeOption := some o } with
  | error fault => simp
  | ok single =>
      cases single with
      | true => simp
      | false =>
          cases hmessage : illegalMultipleOccurrence b
              { context with activeOptionFlag := flag, activeOption := some o } with
          | error fault => simp
          | ok message => simp [eq_comm]

/-- A name is refused where it stands if no option has it, or if its option is there already and
may occur once only. -/
theorem dispatch_rejected_iff (hname : IsName name) (hcommand : context.activeCommand = some c) :
    dispatch b context name = .error (.rejected message context') ↔
      (c.resolve name = none ∧ message = unrecognizedOption context name.2 ∧
          context' = { context with activeOptionFlag := optionFlag name }) ∨
        ∃ o, c.resolve name = some o ∧ o.valueSemantic.isSome ∧ ¬ o.IsRepeatable ∧
          context.ovm.hasOption o.key = true ∧
          illegalMultipleOccurrence b (atName context name o) = .ok message ∧
          context' = atName context name o := by
  rw [dispatch_of_isName hname, bind_eq_error, or_iff_left (by simp)]
  cases hresolve : c.resolve name with
  | none =>
      have henter : accept (enterOption b (optionFlag name) (·.resolve name) name.2 true context) =
          .error (.rejected (unrecognizedOption context name.2)
            { context with activeOptionFlag := optionFlag name }) := by
        simp [enterOption, hcommand, hresolve]
        rfl
      rw [henter]
      constructor
      · intro h
        cases h
        exact .inl ⟨rfl, rfl, rfl⟩
      · rintro (⟨-, rfl, rfl⟩ | ⟨o, h, -⟩)
        · rfl
        · cases h
  | some o =>
      rw [accept_enterOption_rejected_iff hcommand hresolve,
        checkMultipleOccurrence_eq_false_iff rfl]
      simp [atName, and_assoc]

/-! ## An option that is not served -/

/-- How a pass stops for want of a value: with a message, unless the option has no value semantics
to ask for an implicit one. -/
inductive Misses (context : ParserContext V) (o : ClapOption V) : Stop V → Prop
  | missing {message : String} (semantics : o.valueSemantic.isSome)
      (reported : missingValueForOption context = .ok message) :
      Misses context o (.rejected message context)
  | faulted (semantics : o.valueSemantic = none) (fault : Fault) :
      Misses context o (.faulted fault)

/-- With an active option there is a message. -/
theorem exists_missingValueForOption (hoption : context.activeOption = some o) :
    ∃ message, missingValueForOption context = .ok message :=
  ⟨_, by rw [missingValueForOption, hoption]; rfl⟩

/-- Left without a value and without an implicit one, an option is reported. -/
theorem leaveOption_misses (hoption : context.activeOption = some o)
    (himplicit : o.implicit = none) :
    ∃ stop, accept (leaveOption none context) = .error stop ∧ Misses context o stop := by
  rw [leaveOption_none hoption]
  cases hsem : o.valueSemantic with
  | none => exact ⟨_, rfl, .faulted hsem _⟩
  | some semantics =>
      have himplicit' : semantics.applyImplicit = none := by
        simpa [ClapOption.implicit, hsem] using himplicit
      obtain ⟨message, hmessage⟩ := exists_missingValueForOption hoption
      refine ⟨.rejected message context, ?_, .missing (by simp [hsem]) hmessage⟩
      simp [himplicit', hmessage]

/-- A value is offered to the option, which can do neither with nor without it. -/
theorem offer_misses (b : Build) (taken : Phase) (fallback : Bool) {text : String}
    (hoption : context.activeOption = some o) (hparse : o.parse text = none)
    (hmissing : fallback = false ∨ o.implicit = none) :
    ∃ stop, (lift (activeSemantics b context) >>= fun p => lift (deref p.2) >>= fun semantics =>
        offer b p.1 semantics taken fallback context text) = .error stop ∧
      Misses context o stop := by
  rw [activeSemantics_eq hoption]
  cases hsem : o.valueSemantic with
  | none => cases b <;> exact ⟨_, rfl, .faulted hsem _⟩
  | some semantics =>
      obtain ⟨message, hmessage⟩ := exists_missingValueForOption hoption
      refine ⟨.rejected message context, ?_, .missing (by simp [hsem]) hmessage⟩
      have hparse' : semantics.parse text = none := by simpa [ClapOption.parse, hsem] using hparse
      have hmissing' : fallback = false ∨ semantics.applyImplicit = none := by
        simpa [ClapOption.implicit, hsem] using hmissing
      simp [offer_of_missing hparse' hmissing', hmessage]

/-- A token that leaves an option that waits, or the end of the line. -/
theorem scan_left_misses (hphase : phase.BehindCommand context)
    (hrelease : release phase context = accept (leaveOption none context))
    (hoption : context.activeOption = some o) (himplicit : o.implicit = none)
    (hhead : ∀ t ∈ tokens.head?, t.1 ≠ .value ∧ t.1 ≠ .equalSign) :
    ∃ stop, scan b phase context tokens = .error stop ∧ Misses context o stop := by
  obtain ⟨stop, hleave, hmisses⟩ := leaveOption_misses hoption himplicit
  refine ⟨stop, ?_, hmisses⟩
  cases tokens with
  | nil => exact (release_eq_finish hphase).symm.trans (hrelease.trans hleave)
  | cons token tokens =>
      obtain ⟨hvalue, hequal⟩ := hhead token rfl
      rw [scan_cons, advance_other hphase hvalue hequal, hrelease, hleave]
      rfl

/-- An option that takes nothing behind its equal sign has no implicit value. -/
theorem implicit_of_not_takesBound (hhead : ∀ t ∈ tokens.head?, t.1 ≠ .value)
    (h : ¬ o.TakesBound tokens) : o.implicit = none := by
  cases tokens with
  | nil => simpa [ClapOption.TakesBound] using h
  | cons token tokens => simpa [takesBound_of_other (hhead token rfl)] using h

/-- An option that takes nothing has no implicit value. -/
theorem implicit_of_not_takes {freely : Bool}
    (hhead : ∀ t ∈ tokens.head?, t.1 ≠ .value ∧ t.1 ≠ .equalSign)
    (h : ¬ o.Takes freely tokens) : o.implicit = none := by
  cases tokens with
  | nil => simpa [ClapOption.Takes] using h
  | cons token tokens =>
      simpa [takes_of_other (hhead token rfl).1 (hhead token rfl).2] using h

/-- Behind the equal sign, an option that takes nothing is reported. -/
theorem scan_bound_misses (hoption : context.activeOption = some o)
    (hhead : ∀ t ∈ tokens.head?, t.1 ≠ .equalSign) (htakes : ¬ o.TakesBound tokens) :
    ∃ stop, scan b (.long none true) context tokens = .error stop ∧ Misses context o stop := by
  by_cases hvalue : ∃ t ∈ tokens.head?, t.1 = .value
  · obtain ⟨⟨-, text⟩, ht, rfl⟩ := hvalue
    obtain ⟨tokens, rfl⟩ := List.head?_eq_some_iff.mp ht
    obtain ⟨stop, hoffer, hmisses⟩ := offer_misses b (.long (some text) true) false
      hoption (show o.parse text = none by simpa [ClapOption.TakesBound] using htakes) (.inl rfl)
    have hadvance : advance b (.long none true) context (.value, text) = .error stop := by
      rw [advance, continueLong_value (.inr rfl)]
      exact hoffer
    exact ⟨stop, by rw [scan_cons, hadvance]; rfl, hmisses⟩
  · have hother : ∀ t ∈ tokens.head?, t.1 ≠ .value := fun t ht h => hvalue ⟨t, ht, h⟩
    exact scan_left_misses (Option.isSome_of_eq_some hoption) rfl hoption
      (implicit_of_not_takesBound hother htakes) fun t ht => ⟨hother t ht, hhead t ht⟩

/-- **An option that is not served**: the pass stops at it. -/
theorem scan_optionPhase_misses (hoption : context.activeOption = some o)
    (hchain : (name :: behind).IsChain Attached)
    (hmarked : ¬ Unmarked context.allowLongOptionValueWithNoEqual name behind)
    (htakes : ¬ o.Takes (Freely context.allowLongOptionValueWithNoEqual name) behind) :
    ∃ stop, scan b (optionPhase name) context behind = .error stop ∧ Misses context o stop := by
  by_cases hvalue : ∃ t ∈ behind.head?, t.1 = .value
  · obtain ⟨⟨-, text⟩, ht, rfl⟩ := hvalue
    obtain ⟨tokens, rfl⟩ := List.head?_eq_some_iff.mp ht
    have hfreely : Freely context.allowLongOptionValueWithNoEqual name = true := by
      by_contra hfreely
      exact hmarked ⟨by simpa using hfreely, _, rfl, rfl⟩
    rw [hfreely] at htakes
    obtain ⟨hparse, himplicit⟩ : o.parse text = none ∧ o.implicit = none := by
      simpa [ClapOption.Takes, not_or] using htakes
    obtain ⟨stop, hadvance, hmisses⟩ : ∃ stop,
        advance b (optionPhase name) context (.value, text) = .error stop ∧
          Misses context o stop := by
      rw [optionPhase]
      split
      · next hlong =>
        have hallow : context.allowLongOptionValueWithNoEqual = true := by
          simpa [Freely, hlong] using hfreely
        rw [advance, continueLong_value (.inr (by simp [hallow]))]
        exact offer_misses b (.long (some text) false) true hoption hparse (.inr himplicit)
      · exact offer_misses b (.short (some text)) true hoption hparse (.inr himplicit)
    exact ⟨stop, by rw [scan_cons, hadvance]; rfl, hmisses⟩
  · have hother : ∀ t ∈ behind.head?, t.1 ≠ .value := fun t ht h => hvalue ⟨t, ht, h⟩
    by_cases hequal : ∃ t ∈ behind.head?, t.1 = .equalSign
    · obtain ⟨⟨-, text⟩, ht, rfl⟩ := hequal
      obtain ⟨tokens, rfl⟩ := List.head?_eq_some_iff.mp ht
      have hlong : name.1 = .longOption := (List.isChain_cons.mp hchain).1 _ rfl rfl
      -- a release build goes on behind the equal sign even without value semantics
      rw [optionPhase, if_pos hlong, scan_cons, advance, continueLong, activeSemantics_eq hoption]
      by_cases hdebug : b = .debug ∧ o.valueSemantic = none
      · rw [if_pos hdebug]
        exact ⟨_, rfl, .faulted hdebug.2 _⟩
      · rw [if_neg hdebug]
        refine scan_bound_misses hoption (fun t ht hequal => ?_) htakes
        have hattached := (List.isChain_cons.mp hchain.tail).1 t ht hequal
        cases hattached
    · have hhead : ∀ t ∈ behind.head?, t.1 ≠ .value ∧ t.1 ≠ .equalSign :=
        fun t ht => ⟨hother t ht, fun h => hequal ⟨t, ht, h⟩⟩
      refine scan_left_misses ?_ ?_ hoption (implicit_of_not_takes hhead htakes) hhead
      · rw [optionPhase]
        split <;> exact Option.isSome_of_eq_some hoption
      · rw [optionPhase]
        split <;> rfl

/-- Behind a long name a value without the equal sign that it needs is refused, and with it the
line. -/
theorem scan_optionPhase_unmarked (hoption : context.activeOption = some o)
    (hunmarked : Unmarked context.allowLongOptionValueWithNoEqual name behind) :
    scan b (optionPhase name) context behind = .error (.rejected message context') ↔
      (b = .debug → o.valueSemantic.isSome) ∧ needsEqualSign context = .ok message ∧
        context' = context := by
  obtain ⟨hfreely, ⟨-, text⟩, ht, rfl⟩ := hunmarked
  obtain ⟨tokens, rfl⟩ := List.head?_eq_some_iff.mp ht
  obtain ⟨hlong, hallow⟩ :
      name.1 = .longOption ∧ context.allowLongOptionValueWithNoEqual = false := by
    simpa [Freely] using hfreely
  rw [optionPhase, if_pos hlong, scan_cons, advance, continueLong, activeSemantics_eq hoption,
    needsEqualSign]
  cases b <;> cases hsem : o.valueSemantic <;>
    simp [hallow, optionSyntaxError, hoption, eq_comm]

/-- An option that is not served: the pass is rejected there if it comes to a message. -/
theorem scan_optionPhase_rejected_iff (hoption : context.activeOption = some o)
    (hchain : (name :: behind).IsChain Attached)
    (htakes : ¬ o.Takes (Freely context.allowLongOptionValueWithNoEqual name) behind) :
    scan b (optionPhase name) context behind = .error (.rejected message context') ↔
      context' = context ∧
        (Unmarked context.allowLongOptionValueWithNoEqual name behind ∧
            (b = .debug → o.valueSemantic.isSome) ∧ needsEqualSign context = .ok message ∨
          ¬ Unmarked context.allowLongOptionValueWithNoEqual name behind ∧
            o.valueSemantic.isSome ∧ missingValueForOption context = .ok message) := by
  by_cases hmarked : Unmarked context.allowLongOptionValueWithNoEqual name behind
  · rw [scan_optionPhase_unmarked hoption hmarked]
    simp [hmarked, and_comm, and_assoc]
  · obtain ⟨stop, hscan, hmisses⟩ := scan_optionPhase_misses (b := b) hoption hchain hmarked htakes
    rw [hscan]
    cases hmisses with
    | missing semantics reported => simp [hmarked, semantics, reported, eq_comm, and_comm]
    | faulted semantics fault => simp [semantics, hmarked]

end

/-! ## The tokens behind the command -/

section

variable {context context' entry : ParserContext V} {name token : Token}
  {front behind rest tokens : List Token} {o : ClapOption V} {message : String}

/-- Behind an option only the tokens up to the next other token matter. -/
theorem takesBound_append (hvalue : token.1 ≠ .value) :
    o.TakesBound (behind ++ token :: rest) ↔ o.TakesBound behind := by
  cases behind with
  | nil => exact takesBound_of_other hvalue
  | cons t behind =>
      obtain ⟨tokenType, text⟩ := t
      cases tokenType <;> exact Iff.rfl

/-- Whether an option takes a value is decided before the next name. -/
theorem takes_append {freely : Bool} (hvalue : token.1 ≠ .value) (hequal : token.1 ≠ .equalSign) :
    o.Takes freely (behind ++ token :: rest) ↔ o.Takes freely behind := by
  cases behind with
  | nil => exact takes_of_other hvalue hequal
  | cons t behind =>
      obtain ⟨tokenType, text⟩ := t
      cases tokenType <;> first | exact Iff.rfl | exact takesBound_append hvalue

/-- Whether the equal sign is missing is decided by the next token. -/
theorem unmarked_append {allow : Bool} (hvalue : token.1 ≠ .value) :
    Unmarked allow name (behind ++ token :: rest) ↔ Unmarked allow name behind := by
  refine and_congr_right fun _ => ?_
  cases behind with
  | nil => simp [hvalue]
  | cons t behind => exact Iff.rfl

/-- What is wrong stays wrong, whatever follows. -/
theorem Misnamed.append (h : Misnamed b c context name behind message) (hvalue : token.1 ≠ .value)
    (hequal : token.1 ≠ .equalSign) (rest : List Token) :
    Misnamed b c context name (behind ++ token :: rest) message := by
  cases h with
  | unknown resolve => exact .unknown resolve
  | again resolve semantics once stored reported =>
      exact .again resolve semantics once stored reported
  | unmarked resolve single semantics unmarked reported =>
      exact .unmarked resolve single semantics ((unmarked_append hvalue).mpr unmarked) reported
  | missing resolve single semantics marked takes reported =>
      exact .missing resolve single semantics (mt (unmarked_append hvalue).mp marked)
        (mt (takes_append hvalue hequal).mp takes) reported

/-- A name that is wrong is where the pass is rejected. -/
theorem exists_rejected_of_misnamed (hname : IsName name)
    (hcommand : context.activeCommand = some c) (hchain : (name :: behind).IsChain Attached)
    (h : Misnamed b c context name behind message) :
    ∃ context', (dispatch b context name >>= fun p => scan b p.1 p.2 behind) =
      .error (.rejected message context') := by
  have hentered : ∀ {o : ClapOption V}, c.resolve name = some o →
      (context.ovm.hasOption o.key = true → o.IsRepeatable) →
      (dispatch b context name >>= fun p => scan b p.1 p.2 behind) =
        scan b (optionPhase name) (atName context name o) behind := by
    intro o hresolve hsingle
    rw [(dispatch_ok_iff hcommand (not_value_of_isName hname)).mpr ⟨o, hresolve, hsingle, rfl⟩]
    rfl
  cases h with
  | unknown resolve =>
      have hdispatch := (dispatch_rejected_iff (b := b) hname hcommand).mpr
        (.inl ⟨resolve, rfl, rfl⟩)
      exact ⟨_, by rw [hdispatch]; rfl⟩
  | again resolve semantics once stored reported =>
      have hdispatch := (dispatch_rejected_iff hname hcommand).mpr
        (.inr ⟨_, resolve, semantics, once, stored, reported, rfl⟩)
      exact ⟨_, by rw [hdispatch]; rfl⟩
  | unmarked resolve single semantics unmarked reported =>
      rw [hentered resolve single]
      exact ⟨_, (scan_optionPhase_unmarked (atName_activeOption context name _) unmarked).mpr
        ⟨semantics, reported, rfl⟩⟩
  | missing resolve single semantics marked takes reported =>
      rw [hentered resolve single]
      exact ⟨_, (scan_optionPhase_rejected_iff (atName_activeOption context name _) hchain
        takes).mpr ⟨rfl, .inr ⟨marked, semantics, reported⟩⟩⟩

/-- Values and equal signs only, or else a last token of another type. -/
theorem exists_last_other (tokens : List Token) :
    (∀ t ∈ tokens, t.1 = .value ∨ t.1 = .equalSign) ∨
      ∃ front token behind, tokens = front ++ token :: behind ∧ token.1 ≠ .value ∧
        token.1 ≠ .equalSign ∧ ∀ t ∈ behind, t.1 = .value ∨ t.1 = .equalSign := by
  induction tokens with
  | nil => exact .inl (by simp)
  | cons t tokens ih =>
      obtain hplain | ⟨front, token, behind, rfl, hvalue, hequal, hplain⟩ := ih
      · by_cases ht : t.1 = .value ∨ t.1 = .equalSign
        · exact .inl (List.forall_mem_cons.mpr ⟨ht, hplain⟩)
        · obtain ⟨hvalue, hequal⟩ := not_or.mp ht
          exact .inr ⟨[], t, tokens, rfl, hvalue, hequal, hplain⟩
      · exact .inr ⟨t :: front, token, behind, rfl, hvalue, hequal, hplain⟩

/-- Values and equal signs are always in order. -/
theorem inOrderFrom_of_plain {allow : Bool} {stored : String → Prop}
    (h : ∀ t ∈ tokens, t.1 = .value ∨ t.1 = .equalSign) :
    InOrderFrom c allow stored tokens := by
  induction tokens with
  | nil => trivial
  | cons token tokens ih =>
      obtain ⟨ht, htokens⟩ := List.forall_mem_cons.mp h
      obtain ⟨tokenType, text⟩ := token
      obtain rfl | rfl := ht <;> exact ih htokens

/-- If the pass is rejected from the last name on, then that name is wrong. -/
theorem misnamed_of_rejected (hname : IsName name) (hcommand : context.activeCommand = some c)
    (hchain : (name :: behind).IsChain Attached)
    (hplain : ∀ t ∈ behind, t.1 = .value ∨ t.1 = .equalSign)
    (h : (dispatch b context name >>= fun p => scan b p.1 p.2 behind) =
      .error (.rejected message context')) :
    Misnamed b c context name behind message ∧ Untouched context context' := by
  obtain hdispatch | ⟨p, hdispatch, hscan⟩ := bind_eq_error.mp h
  · obtain ⟨hresolve, rfl, rfl⟩ | ⟨o, hresolve, hsem, honce, hstored, hmessage, rfl⟩ :=
      (dispatch_rejected_iff hname hcommand).mp hdispatch
    · exact ⟨.unknown hresolve, (Untouched.refl _).with _ _ _ _ _⟩
    · exact ⟨.again hresolve hsem honce hstored hmessage, (Untouched.refl _).with _ _ _ _ _⟩
  obtain ⟨o, hresolve, hsingle, rfl⟩ :=
    (dispatch_ok_iff hcommand (not_value_of_isName hname)).mp hdispatch
  change scan b (optionPhase name) (atName context name o) behind = _ at hscan
  by_cases htakes : o.Takes (Freely context.allowLongOptionValueWithNoEqual name) behind
  · -- behind what the option takes there is no name any more
    have hbehind : ScansInOrder b c context.allowLongOptionValueWithNoEqual behind :=
      scansInOrder_of_isChain hchain.tail
    obtain ⟨entry, hok⟩ := (hbehind.entered (atName context name o)
      (atName_activeOption context name o) hcommand rfl
      fun t ht => (List.isChain_cons.mp hchain).1 t ht).mpr ⟨htakes, inOrderFrom_of_plain hplain⟩
    rw [hok] at hscan
    cases hscan
  · obtain ⟨rfl, ⟨hunmarked, hsem, hmessage⟩ | ⟨hmarked, hsem, hmessage⟩⟩ :=
      (scan_optionPhase_rejected_iff (atName_activeOption context name o) hchain htakes).mp hscan
    · exact ⟨.unmarked hresolve hsingle hsem hunmarked hmessage,
        (Untouched.refl _).with _ _ _ _ _⟩
    · exact ⟨.missing hresolve hsingle hsem hmarked htakes hmessage,
        (Untouched.refl _).with _ _ _ _ _⟩

/-- What is no name is not dispatched at all. -/
theorem dispatch_of_not_isName (hvalue : token.1 ≠ .value) (hequal : token.1 ≠ .equalSign)
    (hname : ¬ IsName token) : dispatch b context token = .error .swallowed := by
  obtain ⟨tokenType, text⟩ := token
  cases tokenType <;> first | rfl | simp [IsName] at hname hvalue hequal

/-- **The first name that is wrong**: behind the command, a pass that is rejected is rejected for a
name, ahead of which it gets to its end. -/
theorem exists_misnamed_of_scan (hcommand : context.activeCommand = some c)
    (hchain : tokens.IsChain Attached) (hhead : ∀ t ∈ tokens.head?, t.1 ≠ .equalSign)
    (h : scan b .ready context tokens = .error (.rejected message context')) :
    ∃ front name behind entry, tokens = front ++ name :: behind ∧ IsName name ∧
      scan b .ready context front = .ok entry ∧ Misnamed b c entry name behind message ∧
      Untouched entry context' := by
  obtain ⟨n, hlength⟩ : ∃ n, tokens.length = n := ⟨_, rfl⟩
  have hready := behind_ready hcommand rfl
  induction n using Nat.strong_induction_on generalizing tokens with
  | _ n ih =>
      obtain hplain | ⟨front, token, behind, rfl, hvalue, hequal, hplain⟩ :=
        exists_last_other tokens
      · -- without a name there is nothing to be rejected for
        obtain ⟨entry, hok⟩ := ((scansInOrder_of_isChain hchain).idle .ready context trivial
          hready hhead fun _ => Iff.rfl).mpr (inOrderFrom_of_plain hplain)
        rw [hok] at h
        cases h
      · rw [scan_append_other hready.behind hcommand hvalue hequal] at h
        obtain hfront | ⟨entry, hfront, h⟩ := bind_eq_error.mp h
        · -- the first name that is wrong is ahead of the last one
          obtain ⟨front', name, behind', entry, rfl, hname, hscan, hmisnamed, huntouched⟩ :=
            ih front.length (by simp [← hlength]) hchain.left_of_append
              (fun t ht => hhead t (by simp [List.head?_append, Option.mem_def.mp ht])) hfront rfl
          exact ⟨front', name, behind' ++ token :: behind, entry, by simp, hname, hscan,
            hmisnamed.append hvalue hequal behind, huntouched⟩
        · by_cases hname : IsName token
          · obtain ⟨hmisnamed, huntouched⟩ := misnamed_of_rejected hname
              (kept_of_scan hready.behind hcommand hfront).1 hchain.right_of_append hplain h
            exact ⟨front, token, behind, entry, rfl, hname, hfront, hmisnamed, huntouched⟩
          · rw [dispatch_of_not_isName hvalue hequal hname] at h
            cases h

/-- The scan reaches the name that is wrong, and stops there. -/
theorem exists_rejected_of_scan (hcommand : context.activeCommand = some c)
    (hchain : (name :: behind).IsChain Attached) (hname : IsName name)
    (hfront : scan b .ready context front = .ok entry)
    (h : Misnamed b c entry name behind message) :
    ∃ context', scan b .ready context (front ++ name :: behind) =
      .error (.rejected message context') := by
  have hready : Phase.ready.BehindCommand context := trivial
  have hactive := (kept_of_scan hready hcommand hfront).1
  rw [scan_append_other hready hcommand (not_value_of_isName hname)
    (not_equalSign_of_isName hname), hfront]
  exact exists_rejected_of_misnamed hname hactive hchain h

end

end Parser

end AsapClap
