import AsapClap.Parser.Nulls

/-!
# AsapClap.Parser.Defaults

The validation at the end of `FinalState`: required options and default values.
The options and the positional arguments are walked as one list, and a default
that is stored counts for the options behind it.
-/

namespace AsapClap

namespace Parser

namespace FinalState

open Errors

variable {V : Type}

/-- What the defaults of these options make of a map. -/
structure Completes (options : List (ClapOption V)) (given ovm : OptionValuesMap V) : Prop where
  supplied : ∀ o ∈ options, o.isRequired = true ∨ o.default?.isSome = true → ovm.values o.key ≠ []
  kept : ∀ k, given.values k ≠ [] → ovm.values k = given.values k
  defaulted : ∀ k, given.values k = [] → ovm.values k ≠ [] →
    ∃ value text, firstDefault options k = some (value, text) ∧
      ovm.values k = [⟨value, text, false⟩]

/-- What the validation should come to: an error exactly where something required is lacking, and
otherwise the map with the defaults. -/
structure ValidatesExactly (command : Command V) (context : ParserContext V) : Prop where
  lacking : (∃ o ∈ command.options ++ command.positionalArgs, ∃ context',
      validate command context =
        .ok (.terminateWithError (missingRequiredOption context.activeCommand o), context')) ↔
    Lacks (command.options ++ command.positionalArgs) context.ovm
  complete : ¬Lacks (command.options ++ command.positionalArgs) context.ovm →
    ∃ ovm, validate command context = .ok (.terminate, { context with ovm }) ∧
      Completes (command.options ++ command.positionalArgs) context.ovm ovm

theorem firstDefault_ne_none {options : List (ClapOption V)} {o : ClapOption V}
    (ho : o ∈ options) (h : o.default?.isSome = true) : firstDefault options o.key ≠ none := by
  obtain ⟨before, behind, rfl⟩ := List.append_of_mem ho
  rw [firstDefault_append, firstDefault_cons, if_pos rfl]
  intro hnone
  rw [Option.or_eq_none_iff, Option.or_eq_none_iff] at hnone
  rw [hnone.2.1] at h
  cases h

/-- A map in which every key holds what it was given or else its first default is complete. -/
theorem completes_of_orDefault {options : List (ClapOption V)} {given ovm : OptionValuesMap V}
    (hvalues : ∀ k, ovm.values k = orDefault (given.values k) (firstDefault options k))
    (hlacks : ¬Lacks options given) : Completes options given ovm where
  supplied := by
    intro o ho h
    rw [hvalues]
    obtain hrequired | hdefault := h
    · exact orDefault_ne_nil_of_not_lacks hlacks ho hrequired
    · exact fun hnil => firstDefault_ne_none ho hdefault (orDefault_eq_nil.mp hnil).2
  kept := by
    intro k hk
    rw [hvalues, orDefault_of_ne_nil hk]
  defaulted := by
    intro k hk hne
    rw [hvalues, hk] at hne ⊢
    cases hdefault : firstDefault options k with
    | none => simp [hdefault, orDefault] at hne
    | some p => exact ⟨p.1, p.2, rfl, rfl⟩

theorem not_asksNull_of_validatesExactly {command : Command V} {context : ParserContext V}
    (h : ValidatesExactly command context) :
    ¬AsksNull (command.options ++ command.positionalArgs) context.ovm := by
  intro hasks
  have herror : validate command context = .error .nullPointer :=
    (validate_eq_error_iff ..).mpr ⟨rfl, hasks⟩
  by_cases hlacks : Lacks (command.options ++ command.positionalArgs) context.ovm
  · obtain ⟨o, -, context', hvalidate⟩ := h.lacking.mpr hlacks
    rw [herror] at hvalidate
    cases hvalidate
  · obtain ⟨ovm, hvalidate, -⟩ := h.complete hlacks
    rw [herror] at hvalidate
    cases hvalidate

/-- The validation does what it should exactly where it asks no option without value semantics for
its default. -/
theorem validatesExactly_iff (command : Command V) (context : ParserContext V) :
    ValidatesExactly command context ↔
      ¬AsksNull (command.options ++ command.positionalArgs) context.ovm := by
  constructor
  · exact not_asksNull_of_validatesExactly
  · intro hasks
    obtain ⟨ovm, hvalidate, hvalues, hlacks⟩ |
      ⟨o, ho, -, -, -, ovm, hvalidate, hlacks⟩ | ⟨herror, -⟩ := validate_cases command context
    · refine ⟨iff_of_false ?_ hlacks, fun _ => ⟨ovm, hvalidate, ?_⟩⟩
      · intro ⟨o, _, context', h⟩
        rw [hvalidate] at h
        cases h
      · exact completes_of_orDefault hvalues hlacks
    · exact ⟨iff_of_true ⟨o, ho, _, hvalidate⟩ hlacks, fun hnot => absurd hlacks hnot⟩
    · exact absurd ((validate_eq_error_iff ..).mp herror).2 hasks

/-- An option without value semantics that was not typed is asked for its default. -/
theorem not_validatesExactly_switchable :
    Parses .debug { programName := "prog" } [switchable] [] (.faulted .nullPointer) ∧
      ¬ValidatesExactly switchable (ParserContext.new { programName := "prog" } [switchable]) := by
  have hasks : AsksNull (switchable.options ++ switchable.positionalArgs) ∅ :=
    ⟨[], verbose, [], rfl, rfl, rfl, rfl, not_lacks_nil ∅⟩
  exact ⟨⟨4, rfl⟩, fun h => not_asksNull_of_validatesExactly h hasks⟩

end FinalState

end Parser

end AsapClap
