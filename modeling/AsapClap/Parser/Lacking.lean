import AsapClap.Parser.Assignment
import AsapClap.Parser.Faults

/-!
# AsapClap.Parser.Lacking

What `FinalState` rejects a command line for, and the message: values that no positional argument
takes, or the first of the options and positional arguments that is required and without a value.
-/

namespace AsapClap

namespace Parser

open Errors

variable {V : Type} {b : Build} {c : Command V}

/-! ## The first that is lacking -/

/-- The first of these options that is required and without a value. -/
def FirstLacks (options : List (ClapOption V)) (ovm : OptionValuesMap V) (o : ClapOption V) :
    Prop :=
  ∃ before behind, options = before ++ o :: behind ∧ o.isRequired = true ∧ o.default? = none ∧
    ovm.values o.key = [] ∧ firstDefault before o.key = none ∧ ¬ Lacks before ovm

section

variable {options before : List (ClapOption V)} {ovm : OptionValuesMap V} {o o' : ClapOption V}
  {context context' : ParserContext V} {message : String}

theorem FirstLacks.lacks (h : FirstLacks options ovm o) : Lacks options ovm := by
  obtain ⟨before, behind, hsplit, hrequired, hdefault, hvalues, hfirst, -⟩ := h
  exact ⟨before, o, behind, hsplit, hrequired, hdefault, hvalues, hfirst⟩

theorem FirstLacks.append (h : FirstLacks options ovm o) (behind : List (ClapOption V)) :
    FirstLacks (options ++ behind) ovm o := by
  obtain ⟨before, behind', rfl, h⟩ := h
  exact ⟨before, behind' ++ behind, by simp, h⟩

/-- There is only one first. -/
theorem FirstLacks.unique (h : FirstLacks options ovm o) (h' : FirstLacks options ovm o') :
    o = o' := by
  obtain ⟨before, behind, rfl, hrequired, hdefault, hvalues, hfirst, hnot⟩ := h
  obtain ⟨before', behind', hsplit, hrequired', hdefault', hvalues', hfirst', hnot'⟩ := h'
  obtain ⟨more, hbefore, hmore⟩ | ⟨more, hbefore, hmore⟩ := List.append_eq_append_iff.mp hsplit
  · cases more with
    | nil => exact (List.cons.inj hmore).1
    | cons x more =>
        obtain rfl := (List.cons.inj hmore).1
        exact absurd ⟨before, o, more, hbefore, hrequired, hdefault, hvalues, hfirst⟩ hnot'
  · cases more with
    | nil => exact (List.cons.inj hmore).1.symm
    | cons x more =>
        obtain rfl := (List.cons.inj hmore).1
        exact absurd ⟨before', o', more, hbefore, hrequired', hdefault', hvalues', hfirst'⟩ hnot

/-! ## The end of the line -/

namespace FinalState

/-- The message is about the first option that lacks a value. -/
theorem firstLacks_of_checkRequiredOptions
    (h : checkRequiredOptions options context = .ok (some message, context')) :
    ∃ o, FirstLacks options context.ovm o ∧
      message = missingRequiredOption context.activeCommand o := by
  induction options using List.reverseRecOn with
  | nil => cases h
  | append_singleton options o ih =>
      rw [checkRequiredOptions_append] at h
      have hchecks := checks options context
      generalize hcheck : checkRequiredOptions options context = result at hchecks h
      cases hchecks with
      | complete values lacks =>
          simp only [ok_bind, checkRequiredOptions] at h
          split at h
          · cases h
          · next hgiven =>
            rw [Bool.not_eq_true, OptionValuesMap.hasOption_eq_false_iff] at hgiven
            obtain ⟨hnil, hfirst⟩ := orDefault_eq_nil.mp ((values o.key).symm.trans hgiven)
            obtain ⟨semantics, hsem, h⟩ := bind_eq_ok.mp h
            rw [deref_eq_ok] at hsem
            split at h
            · cases h
            · next hdefault =>
              split at h
              · next hrequired =>
                cases h
                have hnone : o.default? = none := by simp [ClapOption.default?, hsem, hdefault]
                exact ⟨o, ⟨options, [], rfl, hrequired, hnone, hnil, hfirst, lacks⟩, rfl⟩
              · cases h
      | lacking =>
          cases h
          obtain ⟨o', hlacks, hmessage⟩ := ih hcheck
          exact ⟨o', hlacks.append [o], hmessage⟩
      | asks => cases h

theorem validate_rejected_iff (command : Command V) (context : ParserContext V) :
    (∃ context', validate command context = .ok (.terminateWithError message, context')) ↔
      ¬ AsksNull (command.options ++ command.positionalArgs) context.ovm ∧
        ∃ o, FirstLacks (command.options ++ command.positionalArgs) context.ovm o ∧
          message = missingRequiredOption context.activeCommand o := by
  have hasks (fault : Fault) : checkRequiredOptions (command.options ++ command.positionalArgs)
      context = .error fault ↔ fault = .nullPointer ∧ AsksNull _ context.ovm :=
    checkRequiredOptions_eq_error_iff _ context
  rw [validate_eq]
  constructor
  · intro h
    obtain ⟨context', h⟩ := h
    obtain ⟨⟨message', context₁⟩, hcheck, h⟩ := bind_eq_ok.mp h
    cases message' with
    | none => cases h
    | some message' =>
        cases h
        refine ⟨fun hnull => ?_, firstLacks_of_checkRequiredOptions hcheck⟩
        rw [(hasks .nullPointer).mpr ⟨rfl, hnull⟩] at hcheck
        cases hcheck
  · intro h
    obtain ⟨hnull, o, hlacks, rfl⟩ := h
    have hchecks := checks (command.options ++ command.positionalArgs) context
    rcases hcheck : checkRequiredOptions (command.options ++ command.positionalArgs) context with
      fault | ⟨- | message, context'⟩
    · exact absurd ((hasks fault).mp hcheck).2 hnull
    · rw [hcheck] at hchecks
      cases hchecks with
      | complete values lacks => exact absurd hlacks.lacks lacks
    · obtain ⟨o', hlacks', rfl⟩ := firstLacks_of_checkRequiredOptions hcheck
      obtain rfl := hlacks.unique hlacks'
      exact ⟨context', rfl⟩

/-- Without a `Rest` argument, the tokens in front go to the arguments, one each. -/
theorem takePositionals_of_noRest {args : List (ClapOption V)} {tokens : List String}
    (hrest : lastRest args = none) (hlen : args.length ≤ tokens.length) :
    takePositionals true args tokens = some (args.zip tokens, tokens.drop args.length) := by
  have hnot : ∀ o ∈ args, o.isPositionalRest = false := by
    simpa [lastRest, List.filter_eq_nil_iff] using hrest
  simpa [takePositionals] using takePositionals_front [] hnot hlen

theorem assigned_of_noRest {args : List (ClapOption V)} {tokens : List String}
    (hrest : lastRest args = none) (hmore : args.length < tokens.length) :
    assigned args tokens = none := by
  obtain ⟨token, left, hleft⟩ : ∃ token left, tokens.drop args.length = token :: left :=
    List.exists_cons_of_ne_nil (by simpa using hmore)
  simp [assigned, takePositionals_of_noRest hrest hmore.le, hleft, hrest]

/-- **The end of the line**: `FinalState` rejects it if values are left that no argument takes, or
else for the first option or argument that is lacking. -/
theorem settle_rejected_iff (hcommand : context.activeCommand = some c) :
    (∃ context', settle b context = .ok (.terminateWithError message, context')) ↔
      (Served b c.positionalArgs ∧ lastRest c.positionalArgs = none ∧
          c.positionalArgs.length < context.positionalTokens.length ∧
          message = unexpectedPositionalArguments { context with
            positionalTokens := context.positionalTokens.drop c.positionalArgs.length }) ∨
        ¬ FinalFaults b c context ∧ ∃ ps o,
          assigned c.positionalArgs context.positionalTokens = some ps ∧
          FirstLacks (c.options ++ c.positionalArgs)
            (context.ovm.storeAll (ps.filterMap positionalEntry)) o ∧
          message = missingRequiredOption (some c) o := by
  rw [← settle_error_iff hcommand]
  rcases settle_cases (b := b) hcommand with ⟨ps, hassigned, hsettle, -⟩ |
    ⟨ps, left, htake, hleft, hlast, hsettle, hserved⟩ | ⟨hlen, -, hsettle⟩ |
    ⟨fault, -, hsettle, hwhy⟩
  -- all tokens are assigned: only the check of the options can reject
  · rw [hsettle, validate_rejected_iff]
    constructor
    · intro h
      obtain ⟨hnull, o, hlacks, rfl⟩ := h
      refine .inr ⟨?_, ps, o, hassigned, hlacks, by rw [← hcommand]; rfl⟩
      rintro ⟨fault, hfault⟩
      exact hnull ((validate_eq_error_iff ..).mp hfault).2
    · rintro (⟨-, hrest, hmore, -⟩ | ⟨hfaults, ps', o, hassigned', hlacks, rfl⟩)
      · rw [assigned_of_noRest hrest hmore] at hassigned
        cases hassigned
      · obtain rfl := Option.some.inj (hassigned.symm.trans hassigned')
        refine ⟨fun hnull => ?_, o, hlacks, by rw [← hcommand]; rfl⟩
        exact hfaults ⟨_, (validate_eq_error_iff ..).mpr ⟨rfl, hnull⟩⟩
  -- tokens are left, and nothing takes them
  · have hlength := length_of_takePositionals htake
    rw [nonRest_of_lastRest_none hlast] at hlength
    have hmore : c.positionalArgs.length < context.positionalTokens.length := by
      have hpos := List.length_pos_iff.mpr hleft
      omega
    rw [takePositionals_of_noRest hlast hmore.le, Option.some.injEq, Prod.mk.injEq] at htake
    obtain ⟨rfl, rfl⟩ := htake
    rw [hsettle]
    constructor
    · intro h
      obtain ⟨context', h⟩ := h
      cases h
      exact .inl ⟨hserved, hlast, hmore, rfl⟩
    · rintro (⟨-, -, -, rfl⟩ | ⟨-, ps, o, hassigned, -⟩)
      · exact ⟨_, rfl⟩
      · rw [assigned_of_noRest hlast hmore] at hassigned
        cases hassigned
  -- the tokens run out before the arguments do
  · refine iff_of_false (by simp [hsettle]) ?_
    rintro (⟨-, hrest, hmore, -⟩ | ⟨hfaults, -⟩)
    · rw [nonRest_of_lastRest_none hrest] at hlen
      omega
    · exact hfaults ⟨_, hsettle⟩
  -- an option is asked for value semantics that it does not have
  · refine iff_of_false (by simp [hsettle]) ?_
    rintro (⟨hserved, hrest, -, -⟩ | ⟨hfaults, -⟩)
    · obtain ⟨hb, o, ho, hnot⟩ | ⟨o, ho, hsem⟩ | ⟨-, o, hlast, -⟩ := hwhy
      · simp [hserved.1 hb o ho] at hnot
      · obtain ⟨hmem, hnonRest⟩ := List.mem_filter.mp (List.mem_of_mem_take ho)
        have hsome := hserved.2 o hmem (by simpa using hnonRest)
        simp [hsem] at hsome
      · simp [hrest] at hlast
    · exact hfaults ⟨_, hsettle⟩

end FinalState

end

end Parser

end AsapClap
