import AsapClap.Parser.Agreement
import AsapClap.Parser.Ahead

/-!
# AsapClap.Parser.Forms

The short and the long form of an option: wherever `-s` may be typed, `--l` may be typed
instead, and `--l=v` instead of `-s v`.
-/

namespace AsapClap

namespace Parser

open Relate Tokenizer

variable {V : Type} {b : Build}

/-! ## Behind the option -/

section

variable {c : Command V} {o : ClapOption V} {shortName longName : String} {phase : Phase}
  {context : ParserContext V} {rest : List Token}

/-- What is pending is settled, then the option is entered under either name. -/
theorem advance_renamed (hphase : phase.BehindCommand context)
    (hcommand : context.activeCommand = some c) (hshort : c.findShortOption shortName = some o)
    (hlong : c.findLongOption longName = some o) :
    Agree (SameStop (Alike fun _ => []))
      (fun r₁ r₂ => ∃ c₁ c₂ : ParserContext V,
        r₁ = (.short none, c₁) ∧ r₂ = (.long none false, c₂) ∧
        Alike (fun _ => []) c₁ c₂ ∧ c₁.activeOption = some o ∧ c₁.activeCommand = some c ∧
        c₁.allowLongOptionValueWithNoEqual = context.allowLongOptionValueWithNoEqual)
      (advance b phase context (.shortOption, shortName))
      (advance b phase context (.longOption, longName)) := by
  rw [advance_other hphase (by simp) (by simp), advance_other hphase (by simp) (by simp)]
  refine Agree.bind_same (SameStop.refl .refl) _ fun context' hrelease => ?_
  have hsettles := release_ok hphase hrelease
  have hcommand' := hsettles.activeCommand_eq.trans hcommand
  refine (dispatch_renamed_agree (.refl context') hcommand' hshort hlong rfl).attach.mono
    (fun _ _ h => h) fun r₁ r₂ hr => ?_
  obtain ⟨hdispatch, -, hphase₁, hphase₂, halike⟩ := hr
  obtain ⟨phase₁, c₁⟩ := r₁
  obtain ⟨phase₂, c₂⟩ := r₂
  obtain rfl : phase₁ = .short none := hphase₁
  obtain rfl : phase₂ = .long none false := hphase₂
  obtain ⟨text, htext, -⟩ | ⟨o', flag, hresolve, -, hcontext⟩ := dispatch_ok hcommand' hdispatch
  · cases htext
  · obtain rfl : o = o' := by simpa [Command.resolve, hshort] using hresolve
    refine ⟨c₁, c₂, rfl, rfl, halike, ?_, ?_, ?_⟩ <;> rw [hcontext]
    · exact hcommand'
    · exact hsettles.allowLong_eq

/-- `-s` and `--l`, with whatever is behind them. -/
theorem scan_renamed (hphase : phase.BehindCommand context)
    (hcommand : context.activeCommand = some c) (hshort : c.findShortOption shortName = some o)
    (hlong : c.findLongOption longName = some o)
    (hallow : context.allowLongOptionValueWithNoEqual = true)
    (hrest : ((.shortOption, shortName) :: rest).IsChain Attached) :
    Agree (SameStop (Alike fun _ => [])) (Alike fun _ => [])
      (scan b phase context ((.shortOption, shortName) :: rest))
      (scan b phase context ((.longOption, longName) :: rest)) := by
  rw [scan_cons, scan_cons]
  refine (advance_renamed hphase hcommand hshort hlong).bind fun r₁ r₂ _ _ hr => ?_
  obtain ⟨c₁, c₂, rfl, rfl, halike, hoption, hcommand₁, hallow₁⟩ := hr
  refine scan_agree halike ?_ hcommand₁ (.renamed none (.inr rfl)) (fun _ => ⟨hallow₁.trans hallow,
    hrest.tail, fun t ht hequal => ?_⟩) fun _ _ _ _ _ _ _ => rfl
  · simp [Phase.BehindCommand, hoption]
  · have hlong := (List.isChain_cons.mp hrest).1 t ht hequal
    cases hlong

/-- `-s v` and `--l=v`, with whatever is behind them. -/
theorem scan_renamed_value {v : String} (hphase : phase.BehindCommand context)
    (hcommand : context.activeCommand = some c) (hshort : c.findShortOption shortName = some o)
    (hlong : c.findLongOption longName = some o)
    (hallow : context.allowLongOptionValueWithNoEqual = true) (hparse : (o.parse v).isSome)
    (hrest : ((.value, v) :: rest).IsChain Attached) :
    Agree (SameStop (Alike fun _ => [])) (Alike fun _ => [])
      (scan b phase context ((.shortOption, shortName) :: (.value, v) :: rest))
      (scan b phase context
        ((.longOption, longName) :: (.equalSign, "=") :: (.value, v) :: rest)) := by
  rw [scan_cons, scan_cons]
  refine (advance_renamed hphase hcommand hshort hlong).bind fun r₁ r₂ _ _ hr => ?_
  obtain ⟨c₁, c₂, rfl, rfl, halike, hoption, hcommand₁, hallow₁⟩ := hr
  obtain ⟨value, hparse⟩ := Option.isSome_iff_exists.mp hparse
  obtain ⟨semantics, hsem, hparse⟩ := Option.bind_eq_some_iff.mp hparse
  rw [scan_short_value hoption hsem, scan_long_value (halike.activeOption ▸ hoption) hsem,
    offer_of_parse hparse, offer_of_parse hparse]
  refine scan_agree (halike.storeValue o value v false) ?_ hcommand₁ (.renamed (some v) (.inl rfl))
    (fun _ => ⟨hallow₁.trans hallow, hrest.tail, fun t ht hequal => ?_⟩) fun _ _ _ _ _ _ _ => rfl
  · simp [Phase.BehindCommand, ParserContext.storeValue, hoption]
  · have hlong := (List.isChain_cons.mp hrest).1 t ht hequal
    cases hlong

end

/-! ## Whole lines -/

/-- Two ends of a line that every phase behind the command reads alike. -/
def ReadAlike (b : Build) (c : Command V) (tokens₁ tokens₂ : List Token) : Prop :=
  ∀ phase (context : ParserContext V), phase.BehindCommand context →
    context.activeCommand = some c → context.allowLongOptionValueWithNoEqual = true →
    Agree (SameStop (Alike fun _ => [])) (Alike fun _ => []) (scan b phase context tokens₁)
      (scan b phase context tokens₂)

section

variable {context : CommandLineContext V} {commands : List (Command V)} {c : Command V}
  {tokens : List Token}

/-- The tokens ahead lead to the same phase, whatever is behind them. -/
theorem scan_start_agree (hallow : context.allowLongOptionValueWithNoEqual = true)
    (hchosen : chosen (initial context commands) tokens = some c) {t₁ t₂ : Token}
    {rest₁ rest₂ : List Token} (ht₁ : t₁.1 ≠ .value) (ht₂ : t₂.1 ≠ .value)
    (h : ReadAlike b c (t₁ :: rest₁) (t₂ :: rest₂)) :
    Agree (SameStop SameContents) (Alike fun _ => [])
      (scan b .start (initial context commands) (tokens ++ t₁ :: rest₁))
      (scan b .start (initial context commands) (tokens ++ t₂ :: rest₂)) := by
  rcases scan_start_other (b := b) (initial context commands) tokens with ⟨hnone, -⟩ |
    ⟨c', context', n, hchosen', hcommand, hallow', -, hscan⟩
  · rw [hchosen] at hnone
    cases hnone
  · obtain rfl : c = c' := by simpa [hchosen] using hchosen'
    rw [hscan t₁ rest₁ ht₁, hscan t₂ rest₂ ht₂, scan_append, scan_append]
    refine Agree.bind_same (SameStop.refl fun _ => ⟨rfl, fun _ => rfl⟩) _ fun p hp => ?_
    have hready : Phase.ready.BehindCommand context' := trivial
    obtain ⟨hphase, hcommand, hallow''⟩ := advanceAll_ok hready hcommand hp
    have hinitial : (initial context commands).allowLongOptionValueWithNoEqual = true := by
      obtain ⟨activeCommand, hinitial⟩ := initial_eq context commands
      rw [hinitial]
      exact hallow
    exact (h p.1 p.2 hphase hcommand ((hallow''.trans hallow').trans hinitial)).mono
      (fun _ _ h => h.mono fun _ _ h => h.sameContents fun _ => rfl) fun _ _ h => h

/-- Arguments that are read alike may stand for each other behind any arguments and in
front of any. -/
theorem runsAlike_of_readAlike {before behind args₁ args₂ : List String} {t₁ t₂ : Token}
    {rest₁ rest₂ : List Token} (hallow : context.allowLongOptionValueWithNoEqual = true)
    (hchosen : chosen (initial context commands) (delivered before) = some c)
    (hargs₁ : delivered (args₁ ++ behind) = t₁ :: rest₁)
    (hargs₂ : delivered (args₂ ++ behind) = t₂ :: rest₂) (ht₁ : t₁.1 ≠ .value)
    (ht₂ : t₂.1 ≠ .value) (h : ReadAlike b c (t₁ :: rest₁) (t₂ :: rest₂)) :
    RunsAlike (fun _ => SameContents) b context context commands (before ++ args₁ ++ behind)
      (before ++ args₂ ++ behind) := by
  apply runsAlike_of_pass
  rw [pass, pass, List.append_assoc, List.append_assoc]
  by_cases hempty : "" ∈ before
  · rw [delivered_append_of_mem hempty, delivered_append_of_mem hempty]
    generalize scan b .start _ (delivered before) = x
    cases x with
    | ok entry => exact .ok (.refl entry)
    | error stop => exact .error (SameStop.refl (fun _ => ⟨rfl, fun _ => rfl⟩) stop)
  · rw [delivered_append hempty, delivered_append hempty, hargs₁, hargs₂]
    exact scan_start_agree hallow hchosen ht₁ ht₂ h

end

/-- **Short and long forms are equivalent**: an option that the command finds under both
names may be typed with either, and its value behind the one as well as with the other. -/
theorem forms_equivalent {context : CommandLineContext V} {commands : List (Command V)}
    {c : Command V} {o : ClapOption V} {before behind : List String} {s : Char} {l : String}
    (hallow : context.allowLongOptionValueWithNoEqual = true)
    (hchosen : chosen (initial context commands) (delivered before) = some c)
    (hs : s ≠ '-') (hl : '=' ∉ l.toList) (hne : l ≠ "")
    (hshort : c.findShortOption (String.singleton s) = some o)
    (hlong : c.findLongOption l = some o) :
    RunsAlike (fun _ => SameContents) b context context commands
        (before ++ ["-" ++ String.singleton s] ++ behind) (before ++ ["--" ++ l] ++ behind) ∧
      ∀ v, v ≠ "" → v.toList.head? ≠ some '-' → v.toList.head? ≠ some '=' → (o.parse v).isSome →
        RunsAlike (fun _ => SameContents) b context context commands
          (before ++ ["-" ++ String.singleton s, v] ++ behind)
          (before ++ ["--" ++ l ++ "=" ++ v] ++ behind) := by
  have hdash : ∀ rest, delivered (("-" ++ String.singleton s) :: rest) =
      (.shortOption, String.singleton s) :: delivered rest := by
    intro rest
    rw [delivered_cons (by simp), tokenize_shortOption hs]
    rfl
  constructor
  · refine runsAlike_of_readAlike hallow hchosen (hdash behind) ?_ (by simp) (by simp)
      fun phase context' hphase hcommand hallow' =>
        scan_renamed hphase hcommand hshort hlong hallow' (isChain_delivered behind _)
    rw [List.singleton_append, delivered_cons (by simp), tokenize_longOption hne hl]
    rfl
  · intro v hv hvdash hvequal hparse
    have hequal : delivered (["--" ++ l ++ "=" ++ v] ++ behind) =
        (.longOption, l) :: (.equalSign, "=") :: (.value, v) :: delivered behind := by
      rw [List.singleton_append, delivered_cons (by simp),
        tokenize_longOption_value hne hl hv hvequal]
      rfl
    refine runsAlike_of_readAlike hallow hchosen (hdash (v :: behind)) hequal (by simp) (by simp) ?_
    rw [delivered_cons hv, tokenize_value hv hvdash]
    exact fun phase context' hphase hcommand hallow' =>
      scan_renamed_value hphase hcommand hshort hlong hallow' hparse (isChain_delivered behind _)

theorem forms_equivalent_greet :
    RunsAlike (fun _ => SameContents) .release { programName := "prog" } { programName := "prog" }
        [greet] (["greet"] ++ ["-" ++ String.singleton 'n'] ++ ["bob"])
        (["greet"] ++ ["--" ++ "name"] ++ ["bob"]) ∧
      ∀ v, v ≠ "" → v.toList.head? ≠ some '-' → v.toList.head? ≠ some '=' →
        (name.parse v).isSome →
        RunsAlike (fun _ => SameContents) .release { programName := "prog" }
          { programName := "prog" } [greet]
          (["greet"] ++ ["-" ++ String.singleton 'n', v] ++ ["bob"])
          (["greet"] ++ ["--" ++ "name" ++ "=" ++ v] ++ ["bob"]) :=
  forms_equivalent (c := greet) (o := name) rfl rfl (by decide) (by decide) (by decide) rfl rfl

/-- The option `-a` of `query`, without a long name. -/
def all : ClapOption String where
  key := "all"
  shortName := "a"
  valueSemantic := some { ValueSemantics.text with implicitValue := some ("all", "all") }

/-- `query [-a]` -/
def queryAll : Command String where
  path := ["query"]
  options := [all]
  path_ne_nil := by decide
  path_valid := by decide

/-- An option without a long name is found under the empty one, but `--` is no option. -/
theorem not_forms_equivalent_dashDash :
    chosen (initial { programName := "prog" } [queryAll]) (delivered ["query"]) = some queryAll ∧
      '=' ∉ "".toList ∧ queryAll.findShortOption (String.singleton 'a') = some all ∧
      queryAll.findLongOption "" = some all ∧
      ¬ RunsAlike (fun _ => SameContents) .debug { programName := "prog" } { programName := "prog" }
        [queryAll] (["query"] ++ ["-" ++ String.singleton 'a'] ++ [])
        (["query"] ++ ["--" ++ ""] ++ []) := by
  refine ⟨rfl, by decide, rfl, rfl, fun h => ?_⟩
  obtain ⟨result, hparses, hsame⟩ := h.1 (.returned true
    { programName := "prog", commands := [queryAll], activeCommand := some queryAll,
      activeOption := some all, activeOptionFlag := "-a",
      ovm := (∅ : OptionValuesMap String).storeValue "all" ⟨"all", "all", false⟩ }) ⟨9, rfl⟩
  have hfaulted : Parses .debug { programName := "prog" } [queryAll]
      (["query"] ++ ["--" ++ ""] ++ []) (.faulted (.contract .loopTokenIsNotEndOfInput)) := ⟨9, rfl⟩
  rw [Loop.returns_unique hparses hfaulted] at hsame
  cases hsame

end Parser

end AsapClap
