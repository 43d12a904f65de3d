import AsapClap.Parser.Faults

/-!
# AsapClap.Parser.Positional

Whether `FinalState` gets along with the positional tokens there are.

Every positional argument other than `Rest` takes a token, whether there is one
or not: only with a token for each of them does the state stay within the vector.
-/

namespace AsapClap

namespace Parser

namespace FinalState

open Errors

variable {V : Type} {b : Build}

/-- What `FinalState` leaves under the key of a positional argument without a
token: what was there before, or else the default, and at least that if the
argument is required. -/
def Resolves (command : Command V) (d d' : Data V) (o : ClapOption V) : Prop :=
  d'.context.ovm.values o.key = orDefault (d.context.ovm.values o.key)
      (firstDefault (command.options ++ command.positionalArgs) o.key) ∧
    (o.isRequired = true → d'.context.ovm.values o.key ≠ [])

/-- `FinalState` never touches a positional token that is not there, and when there
are fewer tokens than positional arguments, it returns and `CheckRequiredOptions` has
seen to the arguments without one. -/
structure ManagesTokens (b : Build) (command : Command V) (d : Data V) : Prop where
  stays_inside : onEnter b true d ≠ .error .emptyVector
  resolves : d.context.positionalTokens.length < command.positionalArgs.length →
    ∃ status d', onEnter b true d = .ok (status, d') ∧
      ((∃ o ∈ command.options ++ command.positionalArgs, o.isRequired = true ∧
        d.context.ovm.values o.key = [] ∧ o.default? = none ∧
        status = .terminateWithError (missingRequiredOption (some command) o)) ∨
      status = .terminate ∧
        ∃ ps, assigned command.positionalArgs d.context.positionalTokens = some ps ∧
          ∀ o ∈ command.positionalArgs, (∀ p ∈ ps, p.1.key ≠ o.key) → Resolves command d d' o)

/-- The vector is only left when the tokens run out before the arguments do. -/
theorem length_lt_of_emptyVector {context : ParserContext V} {command : Command V}
    (hcommand : context.activeCommand = some command)
    (h : settle b context = .error .emptyVector) :
    context.positionalTokens.length < (nonRest command.positionalArgs).length := by
  rcases settle_cases (b := b) hcommand with ⟨ps, -, hsettle, -⟩ |
    ⟨ps, left, -, -, -, hsettle, -⟩ | ⟨hlen, -⟩ | ⟨fault, hmissing, hsettle, -⟩
  · rw [hsettle] at h
    exact nomatch ((validate_eq_error_iff ..).mp h).1
  · cases hsettle.symm.trans h
  · exact hlen
  · cases hsettle.symm.trans h
    exact absurd rfl hmissing.ne_emptyVector

/-- With fewer tokens than arguments, `FinalState` can only resolve the arguments
without one or report a required option as missing. -/
theorem settle_resolves {d : Data V} {command : Command V} {status : Status}
    {context' : ParserContext V} (hcommand : d.context.activeCommand = some command)
    (hfew : d.context.positionalTokens.length < command.positionalArgs.length)
    (h : settle b d.context = .ok (status, context')) :
    (∃ o ∈ command.options ++ command.positionalArgs, o.isRequired = true ∧
        d.context.ovm.values o.key = [] ∧ o.default? = none ∧
        status = .terminateWithError (missingRequiredOption (some command) o)) ∨
      status = .terminate ∧
        ∃ ps, assigned command.positionalArgs d.context.positionalTokens = some ps ∧
          ∀ o ∈ command.positionalArgs, (∀ p ∈ ps, p.1.key ≠ o.key) →
            Resolves command d { d with context := context' } o := by
  rcases settle_cases (b := b) hcommand with ⟨ps, hassigned, hsettle, -⟩ |
    ⟨ps, left, htake, hleft, hrest, -⟩ | ⟨-, -, hsettle⟩ | ⟨fault, -, hsettle, -⟩
  · rw [hsettle] at h
    rcases validate_cases command
      { storePositionals d.context ps with positionalTokens := [] } with
      ⟨ovm, hvalidate, hvalues, hlacks⟩ |
      ⟨o, ho, hrequired, hdefault, hgiven, ovm, hvalidate, -⟩ | ⟨hvalidate, -⟩
    · rw [hvalidate] at h
      cases h
      refine .inr ⟨rfl, ps, hassigned, fun o ho hkey => ?_⟩
      have hkeep := values_storeAll_positionalEntry hkey d.context.ovm
      have hresult : ovm.values o.key = orDefault (d.context.ovm.values o.key)
          (firstDefault (command.options ++ command.positionalArgs) o.key) := by
        rw [← hkeep]
        exact hvalues o.key
      refine ⟨hresult, fun hrequired => ?_⟩
      have hne := orDefault_ne_nil_of_not_lacks hlacks (List.mem_append_right _ ho) hrequired
      exact fun hnil => hne ((hvalues o.key).symm.trans hnil)
    · rw [hvalidate] at h
      cases h
      have hgiven' : d.context.ovm.values o.key = [] := by
        have hstored : (d.context.ovm.storeAll (ps.filterMap positionalEntry)).values o.key = [] :=
          hgiven
        rw [Multimap.values_storeAll] at hstored
        exact (List.append_eq_nil_iff.mp hstored).1
      refine .inl ⟨o, ho, hrequired, hgiven', hdefault, ?_⟩
      rw [← hcommand]
      rfl
    · rw [hvalidate] at h
      cases h
  · have hlen := length_of_takePositionals htake
    have hall : nonRest command.positionalArgs = command.positionalArgs :=
      nonRest_of_lastRest_none hrest
    have := List.length_pos_iff.mpr hleft
    rw [hall] at hlen
    omega
  all_goals
    rw [hsettle] at h
    cases h

/-- **Positional tokens**: `FinalState` manages them exactly when there is one for every
positional argument, or else one for each but `Rest` and nothing that is asked for its
value semantics is without. -/
theorem managesTokens_iff {command : Command V} {d : Data V}
    (hcommand : d.context.activeCommand = some command) :
    ManagesTokens b command d ↔
      command.positionalArgs.length ≤ d.context.positionalTokens.length ∨
        ¬ FinalFaults b command d.context := by
  rw [← settle_error_iff hcommand]
  constructor
  · intro h
    rw [or_iff_not_imp_left, Nat.not_le]
    rintro hfew ⟨fault, hfault⟩
    obtain ⟨status, d', hok, -⟩ := h.resolves hfew
    rw [onEnter_eq_error_iff.mpr hfault] at hok
    cases hok
  · intro h
    constructor
    · intro hempty
      rw [onEnter_eq_error_iff] at hempty
      have hlen := length_lt_of_emptyVector hcommand hempty
      obtain henough | hnot := h
      · have hsublist : (nonRest command.positionalArgs).length ≤ command.positionalArgs.length :=
          List.length_filter_le _ _
        omega
      · exact hnot ⟨_, hempty⟩
    · intro hfew
      cases hsettle : settle b d.context with
      | error fault => exact absurd ⟨fault, hsettle⟩ (h.resolve_left (by omega))
      | ok result =>
          obtain ⟨status, context'⟩ := result
          refine ⟨status, { d with context := context' }, by rw [onEnter_eq, hsettle]; rfl, ?_⟩
          exact settle_resolves hcommand hfew hsettle

/-! ## A command with one argument -/

/-- `cp <src>` -/
def copy : Command String where
  path := ["cp"]
  positionalArgs := [{ key := "src", valueSemantic := some .text }]
  path_ne_nil := by decide
  path_valid := by decide

/-- `FinalState` is entered for `cp` with these tokens. -/
def copyData (tokens : List String) : Data String where
  context := {
    programName := "prog"
    commands := [copy]
    activeCommand := some copy
    positionalTokens := tokens }

/-- `cp` alone makes `FinalState` read the front of an empty vector. -/
theorem not_managesTokens_copy :
    Parses .release { programName := "prog" } [copy] ["cp"] (.faulted .emptyVector) ∧
      ¬ ManagesTokens .release copy (copyData []) :=
  ⟨⟨4, rfl⟩, fun h => h.stays_inside rfl⟩

/-- `cp <src> [<files>...]` -/
def copyAll : Command String where
  path := ["cp"]
  positionalArgs := [
    { key := "src", valueSemantic := some .text },
    { key := ClapOption.keyRest, valueSemantic := some .text }]
  path_ne_nil := by decide
  path_valid := by decide

/-- `cp a`: with a token for `src` alone, there are no files. -/
theorem managesTokens_copyAll :
    ManagesTokens .debug copyAll
      { context := { (copyData ["a"]).context with activeCommand := some copyAll } } := by
  refine (managesTokens_iff rfl).mpr (.inr ?_)
  rw [← settle_error_iff rfl]
  rintro ⟨fault, hfault⟩
  cases hfault

end FinalState

end Parser

end AsapClap
