import AsapClap.Parser.Alike
import AsapClap.Parser.Contents

/-!
# AsapClap.Parser.Agreement

Two runs of the parser side by side, to their end: `FinalState` and the results of `Parse`.

`CheckRequiredOptions` takes stale values for values of the line.  What it comes to is the
same as without them where they are `Unnoticed`.
-/

namespace AsapClap

namespace Parser

open Errors Relate

variable {V : Type} {b : Build}

/-! ## Required options -/

namespace FinalState

/-- A check of these options does not notice the stale values in front of those of the map:
it has no option with a stale value to reject, or to ask for its semantics in vain; where it
applies a default, a stale value is that default; and a check that succeeds leaves none. -/
def Unnoticed : List (ClapOption V) → (String → List (OptionValue V)) → OptionValuesMap V → Prop
  | [], stale, _ => ∀ k, stale k = []
  | option :: options, stale, ovm =>
      if ovm.hasOption option.key then Unnoticed options stale ovm
      else match option.valueSemantic.map ValueSemantics.applyDefault with
        | none => stale option.key = []
        | some (some (value, text)) =>
            (stale option.key = [] ∨ stale option.key = [⟨value, text, false⟩]) ∧
              Unnoticed options (Function.update stale option.key [])
                (ovm.storeValue option.key ⟨value, text, false⟩)
        | some none =>
            if option.isRequired then stale option.key = [] else Unnoticed options stale ovm

section

variable {stale : String → List (OptionValue V)} {c₁ c₂ : ParserContext V}

theorem unnoticed_of_nil {options : List (ClapOption V)} (h : ∀ k, stale k = [])
    (ovm : OptionValuesMap V) : Unnoticed options stale ovm := by
  induction options generalizing stale ovm with
  | nil => exact h
  | cons option options ih =>
      rw [Unnoticed]
      split
      · exact ih h ovm
      · split
        · exact h _
        · refine ⟨.inl (h _), ih (fun k => ?_) _⟩
          by_cases hk : k = option.key <;> simp [hk, h]
        · split
          · exact h _
          · exact ih h ovm

/-- A check that does not notice the stale values leaves none if it succeeds. -/
abbrev SameCheck (stale : String → List (OptionValue V))
    (r₁ r₂ : Option String × ParserContext V) : Prop :=
  r₁.1.isSome = r₂.1.isSome ∧ ∃ stale', Alike stale' r₁.2 r₂.2 ∧
    (r₁.1 = none → ∀ k, stale' k = []) ∧ ∀ k, stale k = [] → stale' k = []

theorem SameCheck.of_update {k : String} {r₁ r₂ : Option String × ParserContext V}
    (h : SameCheck (Function.update stale k []) r₁ r₂) : SameCheck stale r₁ r₂ := by
  obtain ⟨hsome, stale', halike, hend, hkeep⟩ := h
  refine ⟨hsome, stale', halike, hend, fun k' hk' => hkeep k' ?_⟩
  by_cases hk : k' = k <;> simp [hk, hk']

theorem values_storeValue (c : ParserContext V) (option : ClapOption V) (value : V) (text : String)
    (defaulted : Bool) (k : String) :
    (c.storeValue option value text defaulted).ovm.values k =
      c.ovm.values k ++ if option.key = k then [⟨value, text, defaulted⟩] else [] :=
  Multimap.values_store _ _ _ _

/-- The options behind one agree if what is stale under its key no longer is. -/
theorem checkRequiredOptions_agree_of_update {options : List (ClapOption V)} {k : String}
    (ih : ∀ {stale c₁ c₂}, Alike stale c₁ c₂ → Unnoticed options stale c₂.ovm →
      Agree Eq (SameCheck stale) (checkRequiredOptions options c₁)
        (checkRequiredOptions options c₂))
    (h : Alike (Function.update stale k []) c₁ c₂)
    (hstale : Unnoticed options (Function.update stale k []) c₂.ovm) :
    Agree Eq (SameCheck stale) (checkRequiredOptions options c₁)
      (checkRequiredOptions options c₂) :=
  (ih h hstale).mono (fun _ _ h => h) fun _ _ h => h.of_update

/-- An option that has a value on both sides, or on neither. -/
theorem checkRequiredOptions_agree_of_fresh {option : ClapOption V} {options : List (ClapOption V)}
    (ih : ∀ {stale c₁ c₂}, Alike stale c₁ c₂ → Unnoticed options stale c₂.ovm →
      Agree Eq (SameCheck stale) (checkRequiredOptions options c₁)
        (checkRequiredOptions options c₂))
    (h : Alike stale c₁ c₂) (hkey : stale option.key = [])
    (hhas : c₂.ovm.hasOption option.key = false)
    (hstale : Unnoticed (option :: options) stale c₂.ovm) :
    Agree Eq (SameCheck stale) (checkRequiredOptions (option :: options) c₁)
      (checkRequiredOptions (option :: options) c₂) := by
  have hhas₁ : c₁.ovm.hasOption option.key = false :=
    (contains_congr (h.values_eq hkey)).trans hhas
  rw [Unnoticed, hhas, if_neg (by simp)] at hstale
  rw [checkRequiredOptions, checkRequiredOptions, hhas, hhas₁,
    if_neg (c := false = true) Bool.false_ne_true, if_neg (c := false = true) Bool.false_ne_true]
  refine Agree.bind_same (fun _ => rfl) _ fun semantics hsem => ?_
  rw [deref_eq_ok.mp hsem] at hstale
  cases hdefault : semantics.applyDefault with
  | some d =>
      simp only [Option.map_some, hdefault] at hstale
      have hupdate : Function.update stale option.key [] = stale := by
        rw [← hkey, Function.update_eq_self]
      exact checkRequiredOptions_agree_of_update ih
        (hupdate.symm ▸ h.storeValue option d.1 d.2 false) hstale.2
  | none =>
      cases hrequired : option.isRequired with
      | true => exact .ok ⟨rfl, stale, h, by simp, fun _ hk => hk⟩
      | false =>
          simp only [Option.map_some, hdefault, hrequired, Bool.false_eq_true, if_false] at hstale
          exact ih h hstale

/-- An option that only has stale values: the default stored on the other side is the one. -/
theorem checkRequiredOptions_agree_of_stale {option : ClapOption V} {options : List (ClapOption V)}
    (ih : ∀ {stale c₁ c₂}, Alike stale c₁ c₂ → Unnoticed options stale c₂.ovm →
      Agree Eq (SameCheck stale) (checkRequiredOptions options c₁)
        (checkRequiredOptions options c₂))
    (h : Alike stale c₁ c₂) (hkey : stale option.key ≠ [])
    (hhas : c₂.ovm.hasOption option.key = false)
    (hstale : Unnoticed (option :: options) stale c₂.ovm) :
    Agree Eq (SameCheck stale) (checkRequiredOptions (option :: options) c₁)
      (checkRequiredOptions (option :: options) c₂) := by
  have hhas₁ : c₁.ovm.hasOption option.key = true := by
    rw [OptionValuesMap.hasOption_iff, h.values]
    exact List.append_ne_nil_of_left_ne_nil hkey _
  rw [Unnoticed, hhas, if_neg (by simp)] at hstale
  rw [checkRequiredOptions, checkRequiredOptions, hhas, hhas₁, if_pos rfl,
    if_neg (c := false = true) Bool.false_ne_true]
  cases hsem : option.valueSemantic with
  | none => exact absurd (by simpa [hsem] using hstale) hkey
  | some semantics =>
      simp only [hsem, Option.map_some] at hstale
      rw [deref_some, ok_bind]
      cases hdefault : semantics.applyDefault with
      | some d =>
          simp only [hdefault] at hstale
          have hnone := OptionValuesMap.hasOption_eq_false_iff.mp hhas
          have hd := hstale.1.resolve_left hkey
          refine checkRequiredOptions_agree_of_update ih { h with values := fun k => ?_ } hstale.2
          rw [h.values, values_storeValue]
          by_cases hk : option.key = k
          · subst hk
            simp [hnone, hd]
          · simp [hk, Function.update_of_ne (Ne.symm hk)]
      | none =>
          cases hrequired : option.isRequired with
          | true => exact absurd (by simpa [hdefault, hrequired] using hstale) hkey
          | false =>
              simp only [hdefault, hrequired, Bool.false_eq_true, if_false] at hstale
              exact ih h hstale

theorem checkRequiredOptions_agree {options : List (ClapOption V)} (h : Alike stale c₁ c₂)
    (hstale : Unnoticed options stale c₂.ovm) :
    Agree Eq (SameCheck stale) (checkRequiredOptions options c₁)
      (checkRequiredOptions options c₂) := by
  induction options generalizing stale c₁ c₂ with
  | nil => exact .ok ⟨rfl, stale, h, fun _ => hstale, fun _ hk => hk⟩
  | cons option options ih =>
      cases hhas : c₂.ovm.hasOption option.key with
      | true =>
          have hhas₁ : c₁.ovm.hasOption option.key = true := by
            rw [OptionValuesMap.hasOption_iff] at hhas ⊢
            rw [h.values]
            exact List.append_ne_nil_of_right_ne_nil _ hhas
          rw [Unnoticed, if_pos hhas] at hstale
          rw [checkRequiredOptions, checkRequiredOptions, if_pos hhas₁, if_pos hhas]
          exact ih h hstale
      | false =>
          by_cases hkey : stale option.key = []
          · exact checkRequiredOptions_agree_of_fresh ih h hkey hhas hstale
          · exact checkRequiredOptions_agree_of_stale ih h hkey hhas hstale

/-- What the end of a run makes of two contexts, if it comes to good for the stale values. -/
abbrev SameEnd (stale : String → List (OptionValue V)) (r₁ r₂ : Status × ParserContext V) : Prop :=
  SameStatus r₁.1 r₂.1 ∧ ∃ stale', Alike stale' r₁.2 r₂.2 ∧
    ((∀ message, r₁.1 ≠ .terminateWithError message) → ∀ k, stale' k = []) ∧
    ∀ k, stale k = [] → stale' k = []

theorem validate_agree {c : Command V} (h : Alike stale c₁ c₂)
    (hstale : Unnoticed (c.options ++ c.positionalArgs) stale c₂.ovm) :
    Agree Eq (SameEnd stale) (validate c c₁) (validate c c₂) := by
  rw [validate_eq, validate_eq]
  refine (checkRequiredOptions_agree h hstale).bind fun r₁ r₂ _ _ hr => ?_
  obtain ⟨message₁, c₁'⟩ := r₁
  obtain ⟨message₂, c₂'⟩ := r₂
  obtain ⟨hsome, stale', halike, hend, hkeep⟩ := hr
  cases message₁ with
  | none =>
      obtain rfl : message₂ = none := by simpa using hsome.symm
      exact .ok ⟨.refl _, stale', halike, fun _ => hend rfl, hkeep⟩
  | some message₁ =>
      obtain ⟨message₂, rfl⟩ := Option.isSome_iff_exists.mp hsome.symm
      exact .ok ⟨.error _ _, stale', halike, by simp, hkeep⟩

/-! ## Positional arguments -/

theorem storePositional_agree (option : ClapOption V) (token : String) (h : Alike stale c₁ c₂) :
    Agree Eq (Alike stale) (storePositional b option c₁ token)
      (storePositional b option c₂ token) := by
  refine Agree.bind_same (fun _ => rfl) _ fun _ _ => ?_
  refine Agree.bind_same (fun _ => rfl) _ fun semantics _ => ?_
  cases semantics.parse token with
  | none => exact .ok h
  | some value => exact .ok (h.storeValue option value token true)

/-- The loop over the positional arguments on both sides. -/
structure SamePass (stale : String → List (OptionValue V)) (pass₁ pass₂ : Pass V) : Prop where
  context : Alike stale pass₁.context pass₂.context
  beforeRest : pass₁.beforeRest = pass₂.beforeRest
  restOption : pass₁.restOption = pass₂.restOption

theorem assign_agree (option : ClapOption V) {pass₁ pass₂ : Pass V}
    (h : SamePass stale pass₁ pass₂) :
    Agree Eq (SamePass stale) (assign b pass₁ option) (assign b pass₂ option) := by
  obtain ⟨c₁, beforeRest, restOption⟩ := pass₁
  obtain ⟨c₂, beforeRest', restOption'⟩ := pass₂
  obtain ⟨halike, hbefore, hrest⟩ := h
  obtain rfl : beforeRest = beforeRest' := hbefore
  obtain rfl : restOption = restOption' := hrest
  have htokens : c₁.positionalTokens = c₂.positionalTokens := halike.positionalTokens
  have hstore : ∀ token others, Agree Eq (SamePass stale)
      (do
        let context ← storePositional b option c₁ token
        return (⟨{ context with positionalTokens := others }, beforeRest, restOption⟩ : Pass V))
      (do
        let context ← storePositional b option c₂ token
        return (⟨{ context with positionalTokens := others }, beforeRest, restOption⟩ : Pass V)) :=
    fun token others => (storePositional_agree option token halike).bind
      fun _ _ _ _ h => .ok ⟨h.setPositionals others, rfl, rfl⟩
  cases hexpect : b.expect .optionIsPositional option.isPositional with
  | error fault => simpa [assign, hexpect] using Agree.error rfl
  | ok _ =>
      cases hisRest : option.isPositionalRest with
      | true => simpa [assign, hexpect, hisRest] using Agree.ok ⟨halike, rfl, rfl⟩
      | false =>
          rw [assign_nonRest hexpect hisRest, assign_nonRest hexpect hisRest]
          simp only [htokens]
          cases pick beforeRest c₂.positionalTokens with
          | none => exact .error rfl
          | some p => exact hstore p.1 p.2

theorem settle_agree {c : Command V} (h : Alike stale c₁ c₂) (hcommand : c₁.activeCommand = some c)
    (hstale : ∀ ps, assigned c.positionalArgs c₂.positionalTokens = some ps →
      Unnoticed (c.options ++ c.positionalArgs) stale (storePositionals c₂ ps).ovm) :
    Agree Eq (SameEnd stale) (settle b c₁) (settle b c₂) := by
  rw [settle_of_active hcommand, settle_of_active (h.activeCommand.symm.trans hcommand)]
  have hpass : Agree Eq (SamePass stale) (c.positionalArgs.foldlM (assign b) { context := c₁ })
      (c.positionalArgs.foldlM (assign b) { context := c₂ }) :=
    Agree.foldlM (fun _ _ option _ h => assign_agree option h) ⟨h, rfl, rfl⟩
  refine hpass.bind fun pass₁ pass₂ _ hfold h => ?_
  have hassigns := foldlM_assign (b := b) c.positionalArgs { context := c₂ }
  rw [hfold] at hassigns
  cases hassigns with
  | @done ps left _ take context rest served =>
      have hleft : pass₂.context.positionalTokens = left := by rw [context]
      rw [h.restOption, rest, Option.or_none, h.context.positionalTokens, hleft]
      cases left with
      | nil =>
          refine validate_agree h.context ?_
          rw [context]
          exact hstale ps (by simp [assigned, take])
      | cons token left =>
          cases hlast : lastRest c.positionalArgs with
          | none => exact .ok ⟨.error _ _, stale, h.context, by simp, fun _ hk => hk⟩
          | some rest =>
              have hstore : Agree Eq (Alike stale)
                  ((token :: left).foldlM (storePositional b rest) pass₁.context)
                  ((token :: left).foldlM (storePositional b rest) pass₂.context) :=
                Agree.foldlM (fun _ _ token _ h => storePositional_agree rest token h) h.context
              refine hstore.bind fun c₁' c₂' _ hstored h' => ?_
              refine validate_agree (h'.setPositionals []) ?_
              cases hsem : rest.valueSemantic with
              | none =>
                  obtain ⟨fault, -, hfault⟩ :=
                    storePositional_of_none (b := b) hsem pass₂.context token
                  rw [List.foldlM_cons, hfault] at hstored
                  cases hstored
              | some semantics =>
                  rw [foldlM_storePositional_of_isSome (by simp [hsem]), context] at hstored
                  cases hstored
                  have hall := hstale (ps ++ (token :: left).map fun token => (rest, token))
                    (by simp [assigned, take, hlast])
                  rw [storePositionals_append] at hall
                  exact hall

end

end FinalState

/-! ## Whole runs -/

/-- Two runs end in the same way, with contexts that `R` relates. -/
inductive SameResult (R : Bool → ParserContext V → ParserContext V → Prop) :
    Result V → Result V → Prop
  | returned {noErrors : Bool} {c₁ c₂ : ParserContext V} (h : R noErrors c₁ c₂) :
      SameResult R (.returned noErrors c₁) (.returned noErrors c₂)
  | faulted (fault : Fault) : SameResult R (.faulted fault) (.faulted fault)

theorem verdict_agree {R : Bool → ParserContext V → ParserContext V → Prop}
    {x₁ x₂ : Except Fault (Status × ParserContext V)}
    (h : Agree Eq (fun r₁ r₂ => SameStatus r₁.1 r₂.1 ∧
      (∀ message₁ message₂, r₁.1 = .terminateWithError message₁ →
        R false (reportError r₁.2 message₁) (reportError r₂.2 message₂)) ∧
      ((∀ message, r₁.1 ≠ .terminateWithError message) → R true r₁.2 r₂.2)) x₁ x₂) :
    SameResult R (verdict x₁) (verdict x₂) := by
  cases h with
  | error h =>
      cases h
      exact .faulted _
  | @ok r₁ r₂ h =>
      obtain ⟨status₁, c₁⟩ := r₁
      obtain ⟨status₂, c₂⟩ := r₂
      obtain ⟨hstatus, herror, hend⟩ := h
      cases hstatus with
      | error message₁ message₂ => exact .returned (herror message₁ message₂ rfl)
      | refl =>
          cases status₁ with
          | terminateWithError message => exact .returned (herror message message rfl)
          | _ => exact .returned (hend (by simp))

/-- Passes that agree make results that do. -/
theorem conclude_agree {S : ParserContext V → ParserContext V → Prop}
    {R : Bool → ParserContext V → ParserContext V → Prop}
    {pass₁ pass₂ : Except (Stop V) (ParserContext V)}
    (h : Agree (SameStop S) (fun entry₁ entry₂ =>
      SameResult R (verdict (FinalState.settle b entry₁)) (verdict (FinalState.settle b entry₂)))
      pass₁ pass₂)
    (hS : ∀ c₁ c₂ message₁ message₂, S c₁ c₂ →
      R false (reportError c₁ message₁) (reportError c₂ message₂)) :
    Option.Rel (SameResult R) (conclude b pass₁) (conclude b pass₂) := by
  cases h with
  | ok h => exact .some h
  | error h =>
      cases h with
      | rejected message₁ message₂ h => exact .some (.returned (hS _ _ _ _ h))
      | faulted fault => exact .some (.faulted fault)
      | swallowed =>
          cases b with
          | debug => exact .some (.faulted _)
          | release => exact .none

/-! ## Runs that end alike -/

/-- `Parse` of the one command line and `Parse` of the other end in the same way, with
contexts that `R` relates. -/
def RunsAlike (R : Bool → ParserContext V → ParserContext V → Prop) (b : Build)
    (context₁ context₂ : CommandLineContext V) (commands : List (Command V))
    (args₁ args₂ : List String) : Prop :=
  (∀ result₁, Parses b context₁ commands args₁ result₁ →
      ∃ result₂, Parses b context₂ commands args₂ result₂ ∧ SameResult R result₁ result₂) ∧
    ∀ result₂, Parses b context₂ commands args₂ result₂ →
      ∃ result₁, Parses b context₁ commands args₁ result₁ ∧ SameResult R result₁ result₂

/-- The same active command and the same values. -/
def SameContents (c₁ c₂ : ParserContext V) : Prop :=
  c₁.activeCommand = c₂.activeCommand ∧ ∀ k, c₁.ovm.values k = c₂.ovm.values k

theorem runsAlike_of_conclude {R : Bool → ParserContext V → ParserContext V → Prop}
    {context₁ context₂ : CommandLineContext V} {commands : List (Command V)}
    {args₁ args₂ : List String}
    (h : Option.Rel (SameResult R) (conclude b (pass b context₁ commands args₁))
      (conclude b (pass b context₂ commands args₂))) :
    RunsAlike R b context₁ context₂ commands args₁ args₂ := by
  simp only [RunsAlike, parses_iff]
  generalize conclude b (pass b context₁ commands args₁) = o₁ at h
  generalize conclude b (pass b context₂ commands args₂) = o₂ at h
  cases h with
  | none => simp
  | some h =>
      constructor
      · rintro _ ⟨⟩
        exact ⟨_, rfl, h⟩
      · rintro _ ⟨⟩
        exact ⟨_, rfl, h⟩

theorem Alike.sameContents {stale : String → List (OptionValue V)} {c₁ c₂ : ParserContext V}
    (h : Alike stale c₁ c₂) (hstale : ∀ k, stale k = []) : SameContents c₁ c₂ :=
  ⟨h.activeCommand, fun k => h.values_eq (hstale k)⟩

theorem settle_sameContents {entry₁ entry₂ : ParserContext V}
    (h : Alike (fun _ => []) entry₁ entry₂) :
    SameResult (fun _ => SameContents) (verdict (FinalState.settle b entry₁))
      (verdict (FinalState.settle b entry₂)) := by
  apply verdict_agree
  cases hcommand : entry₁.activeCommand with
  | none =>
      have hcommand₂ : entry₂.activeCommand = none := h.activeCommand ▸ hcommand
      rw [FinalState.settle, FinalState.settle, hcommand, hcommand₂]
      exact .error rfl
  | some c =>
      refine (FinalState.settle_agree h hcommand fun _ _ =>
        FinalState.unnoticed_of_nil (fun _ => rfl) _).mono
        (fun _ _ h => h) fun r₁ r₂ hr => ?_
      obtain ⟨hstatus, stale', halike, -, hkeep⟩ := hr
      have hsame := halike.sameContents fun k => hkeep k rfl
      exact ⟨hstatus, fun _ _ _ => hsame, fun _ => hsame⟩

/-- Passes that agree without stale values make runs that end alike. -/
theorem runsAlike_of_pass {context₁ context₂ : CommandLineContext V}
    {commands : List (Command V)} {args₁ args₂ : List String}
    (h : Agree (SameStop SameContents) (Alike fun _ => []) (pass b context₁ commands args₁)
      (pass b context₂ commands args₂)) :
    RunsAlike (fun _ => SameContents) b context₁ context₂ commands args₁ args₂ :=
  runsAlike_of_conclude (conclude_agree
    (h.mono (fun _ _ h => h) fun _ _ h => settle_sameContents h) fun _ _ _ _ h => h)

end Parser

end AsapClap
