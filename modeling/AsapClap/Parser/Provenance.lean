import AsapClap.Parser.Contents

/-!
# AsapClap.Parser.Provenance

Where the values of a successful parse come from, and what `IsDefaulted` says
about it.

`StorePositional` and `CheckRequiredOptions` pass their flags the wrong way round:
a value from the command line is marked as a default, and a default is not.
-/

namespace AsapClap

namespace Parser

open Tokenizer

variable {V : Type} {b : Build}

/-- Under every key: the values from the command line, which are not defaulted, with
the tokens they were parsed from, or without any the default, which is. -/
def TellsDefaults (c : Command V) (tokens : List Token) (ps : List (ClapOption V × String))
    (ovm : OptionValuesMap V) : Prop :=
  ∀ k, (ovm.values k).map (fun v => ((v.value, v.originalToken), v.isDefaulted)) =
    match optionsGiven c tokens k ++ positionalsGiven ps k with
    | [] => (firstDefault (c.options ++ c.positionalArgs) k).toList.map (·, true)
    | given => given.map (·, false)

/-- The values are these, and all of them are said to be defaults, or none. -/
theorem map_isDefaulted_eq_iff {vs : List (OptionValue V)} {given : List (V × String)}
    {defaulted : Bool} :
    vs.map (fun v => ((v.value, v.originalToken), v.isDefaulted)) = given.map (·, defaulted) ↔
      vs = flagged defaulted given := by
  have hflagged : (flagged defaulted given).map
      (fun v => ((v.value, v.originalToken), v.isDefaulted)) = given.map (·, defaulted) := by
    simp [flagged, OptionValue.isDefaulted, Function.comp_def]
  have hinjective : Function.Injective fun v : OptionValue V =>
      ((v.value, v.originalToken), v.isDefaulted) := by
    intro v v' h
    cases v
    cases v'
    simpa [OptionValue.isDefaulted, and_assoc] using h
  rw [← hflagged, (List.map_injective_iff.mpr hinjective).eq_iff]

theorem tellsDefaults_iff_values {c : Command V} {tokens : List Token}
    {ps : List (ClapOption V × String)} {ovm : OptionValuesMap V} :
    TellsDefaults c tokens ps ovm ↔ ∀ k, ovm.values k =
      match optionsGiven c tokens k ++ positionalsGiven ps k with
      | [] => flagged true (firstDefault (c.options ++ c.positionalArgs) k).toList
      | given => flagged false given := by
  refine forall_congr' fun k => ?_
  split <;> exact map_isDefaulted_eq_iff

theorem flagged_true_eq_flagged_false {given given' : List (V × String)}
    (h : flagged true given = flagged false given') : given = [] := by
  cases given with
  | nil => rfl
  | cons v given =>
      cases given' with
      | nil => simp [flagged] at h
      | cons v' given' => simp [flagged] at h

theorem firstDefault_eq_none_iff {options : List (ClapOption V)} {k : String} :
    firstDefault options k = none ↔ ∀ o ∈ options, o.key = k → o.default? = none := by
  rw [firstDefault, List.head?_eq_none_iff, List.filterMap_eq_nil_iff]
  simp

theorem positionalsGiven_eq_nil_of {ps : List (ClapOption V × String)}
    (h : ∀ p ∈ ps, p.1.parse p.2 = none) (k : String) : positionalsGiven ps k = [] := by
  rw [positionalsGiven, List.filterMap_eq_nil_iff]
  intro p hp
  rw [h p (List.mem_of_mem_filter hp), Option.map_none]

theorem parse_eq_none_of_positionalsGiven {ps : List (ClapOption V × String)}
    (h : ∀ k, positionalsGiven ps k = []) : ∀ p ∈ ps, p.1.parse p.2 = none := by
  intro p hp
  by_contra hne
  obtain ⟨value, hvalue⟩ := Option.ne_none_iff_exists'.mp hne
  have hmem : (value, p.2) ∈ positionalsGiven ps p.1.key := by
    rw [positionalsGiven, List.mem_filterMap]
    exact ⟨p, by simp [hp], by simp [hvalue]⟩
  simp [h] at hmem

theorem optionsGiven_eq_nil_iff {c : Command V} {tokens : List Token} {k : String}
    (h : ∀ p ∈ occurrences c tokens, p.2.isSome) :
    optionsGiven c tokens k = [] ↔ ∀ p ∈ occurrences c tokens, p.1.key ≠ k := by
  rw [optionsGiven, List.filterMap_eq_nil_iff]
  constructor
  · intro hnone p hp hk
    have := h p hp
    simp [hnone p (List.mem_filter.mpr ⟨hp, by simpa using hk⟩)] at this
  · intro hkey p hp
    obtain ⟨hmem, hk⟩ := List.mem_filter.mp hp
    exact absurd (by simpa using hk) (hkey p hmem)

variable {context : CommandLineContext V} {commands : List (Command V)} {args : List String}
  {result : ParserContext V}

/-- **Provenance**: in a parse that succeeds, the flags tell the defaults exactly when
there is nothing to get wrong: no token parses for a positional argument, and every
option with a default occurs. -/
theorem tellsDefaults_iff (hempty : context.ovm = ∅)
    (h : Parses b context commands args (.returned true result)) :
    ∃ c ps, chosen (initial context commands) (delivered args) = some c ∧
      result.activeCommand = some c ∧
      assigned c.positionalArgs (freeValues c none (behindPath commands (delivered args))) =
        some ps ∧
      (TellsDefaults c (delivered args) ps result.ovm ↔
        (∀ p ∈ ps, p.1.parse p.2 = none) ∧
          ∀ o ∈ c.options ++ c.positionalArgs, o.default?.isSome →
            ∃ p ∈ occurrences c (delivered args), p.1.key = o.key) := by
  obtain ⟨c, ps, hchosen, hactive, hassigned, hgiven, hvalues⟩ := contents_of_parses hempty h
  refine ⟨c, ps, hchosen, hactive, hassigned, ?_⟩
  rw [tellsDefaults_iff_values]
  constructor
  · intro htells
    have hpositionals : ∀ k, positionalsGiven ps k = [] := by
      intro k
      have hk := htells k
      by_contra hne
      rw [hvalues, orDefault_of_ne_nil (by simp [hne])] at hk
      split at hk
      · simp_all
      · rw [flagged_append] at hk
        exact hne (flagged_true_eq_flagged_false (List.append_cancel_left hk))
    refine ⟨parse_eq_none_of_positionalsGiven hpositionals, fun o ho hdefault => ?_⟩
    by_contra hnot
    have hoptions : optionsGiven c (delivered args) o.key = [] :=
      (optionsGiven_eq_nil_iff hgiven).mpr fun p hp hkey => hnot ⟨p, hp, hkey⟩
    have hk := htells o.key
    rw [hvalues, hpositionals, hoptions] at hk
    cases hfirst : firstDefault (c.options ++ c.positionalArgs) o.key with
    | none => simp [firstDefault_eq_none_iff.mp hfirst o ho rfl] at hdefault
    | some p => simp [hfirst, flagged, orDefault] at hk
  · rintro ⟨hparse, hoccurs⟩ k
    rw [hvalues, positionalsGiven_eq_nil_of hparse, flagged_nil, List.append_nil, List.append_nil]
    split
    · next hnil =>
      have hdefault : firstDefault (c.options ++ c.positionalArgs) k = none := by
        rw [firstDefault_eq_none_iff]
        intro o ho hk
        by_contra hne
        obtain ⟨p, hp, hkey⟩ := hoccurs o ho (Option.isSome_iff_ne_none.mpr hne)
        exact (optionsGiven_eq_nil_iff hgiven).mp hnil p hp (hkey.trans hk)
      rw [hnil, hdefault]
      rfl
    · next hne => exact orDefault_of_ne_nil (by simpa using hne) _

/-- The value of `greet --name=bob` is no default, and said to be none. -/
theorem tellsDefaults_greetBob :
    TellsDefaults greet (delivered ["greet", "--name=bob"]) [] greetBob.ovm := by
  have hparses : Parses .debug { programName := "prog" } [greet] ["greet", "--name=bob"]
      (.returned true greetBob) := ⟨9, rfl⟩
  obtain ⟨c, ps, hchosen, -, hassigned, hiff⟩ := tellsDefaults_iff rfl hparses
  have hgreet : chosen (initial { programName := "prog" } [greet])
      (delivered ["greet", "--name=bob"]) = some greet := rfl
  obtain rfl : greet = c := Option.some.inj (hgreet.symm.trans hchosen)
  obtain rfl : [] = ps := Option.some.inj hassigned
  have hgiven : occurrences greet (delivered ["greet", "--name=bob"]) =
      [(name, some ("bob", "bob"))] := rfl
  refine hiff.mpr ⟨by simp, fun o ho _ => ?_⟩
  obtain rfl : o = name := by simpa [greet] using ho
  exact ⟨_, hgiven ▸ List.mem_singleton_self _, rfl⟩

/-- `show <file>` -/
def showFile : Command String where
  path := ["show"]
  positionalArgs := [{ key := "file", valueSemantic := some .text }]
  path_ne_nil := by decide
  path_valid := by decide

/-- What `show a` is parsed to. -/
def shown : ParserContext String where
  programName := "prog"
  commands := [showFile]
  activeCommand := some showFile
  ovm := (∅ : OptionValuesMap String).storeValue "file" ⟨"a", "a", true⟩

/-- The value of `show a` claims to be a default. -/
theorem not_tellsDefaults_shown :
    Parses .debug { programName := "prog" } [showFile] ["show", "a"] (.returned true shown) ∧
      ∃ ps, assigned showFile.positionalArgs
          (freeValues showFile none (behindPath [showFile] (delivered ["show", "a"]))) = some ps ∧
        ¬ TellsDefaults showFile (delivered ["show", "a"]) ps shown.ovm := by
  refine ⟨⟨9, rfl⟩, showFile.positionalArgs.map fun o => (o, "a"), rfl, fun h => ?_⟩
  have hfile := h "file"
  revert hfile
  decide

end Parser

end AsapClap
