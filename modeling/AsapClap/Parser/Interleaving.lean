import AsapClap.Fluent
import AsapClap.Parser.Order

/-!
# AsapClap.Parser.Interleaving

Values and arguments `--name=value` in any order that keeps the order of the values and of the
arguments whose options share a key.
-/

namespace AsapClap

namespace Parser

open Relate Rearrange Tokenizer

variable {V : Type} {b : Build} {c : Command V}

/-! ## Interleavings -/

/-- An interleaving of values and long arguments that keeps the order of the values, and the
order of the long arguments whose options share a key. -/
structure Interleaves (c : Command V) (P : List PlainArg) (Q : List LongArg) (args : List Arg) :
    Prop where
  plain : args.filterMap Arg.plain? = P
  long : (args.filterMap Arg.long?).Perm Q
  order : ∀ k, ((args.filterMap Arg.long?).filter fun q => LongArg.key? c q = some k) =
    Q.filter fun q => LongArg.key? c q = some k

/-- The values and behind them the long arguments. -/
def sorted (P : List PlainArg) (Q : List LongArg) : List Arg := P.map .plain ++ Q.map .long

section

variable {P : List PlainArg} {Q : List LongArg} {args : List Arg}

theorem plains_sorted (P : List PlainArg) (Q : List LongArg) :
    (sorted P Q).filterMap Arg.plain? = P := by
  have hplain : P.filterMap (Arg.plain? ∘ Arg.plain) = P := List.filterMap_some
  have hlong : Q.filterMap (Arg.plain? ∘ Arg.long) = [] :=
    List.filterMap_eq_nil_iff.mpr fun _ _ => rfl
  rw [sorted, List.filterMap_append, List.filterMap_map, List.filterMap_map, hplain, hlong,
    List.append_nil]

theorem longs_sorted (P : List PlainArg) (Q : List LongArg) :
    (sorted P Q).filterMap Arg.long? = Q := by
  have hplain : P.filterMap (Arg.long? ∘ Arg.plain) = [] :=
    List.filterMap_eq_nil_iff.mpr fun _ _ => rfl
  have hlong : Q.filterMap (Arg.long? ∘ Arg.long) = Q := List.filterMap_some
  rw [sorted, List.filterMap_append, List.filterMap_map, List.filterMap_map, hplain, hlong,
    List.nil_append]

/-- The values are a group. -/
theorem members_none (c : Command V) (args : List Arg) :
    members (group c) none args = (args.filterMap Arg.plain?).map .plain := by
  induction args with
  | nil => rfl
  | cons a args ih =>
      cases a with
      | plain p =>
          have hgroup : group c (.plain p) = some none := rfl
          rw [members_cons_of_eq hgroup, ih]
          rfl
      | long q =>
          have hgroup : group c (.long q) ≠ some none := by simp [group]
          rw [members_cons_of_ne hgroup, ih]
          rfl

/-- So are the long arguments whose options have a key. -/
theorem members_some (c : Command V) (k : String) (args : List Arg) :
    members (group c) (some k) args =
      ((args.filterMap Arg.long?).filter fun q => LongArg.key? c q = some k).map .long := by
  induction args with
  | nil => rfl
  | cons a args ih =>
      cases a with
      | plain p =>
          have hgroup : group c (.plain p) ≠ some (some k) := by simp [group]
          rw [members_cons_of_ne hgroup, ih]
          rfl
      | long q =>
          have hlong : (Arg.long q :: args).filterMap Arg.long? =
              q :: args.filterMap Arg.long? := rfl
          by_cases hk : LongArg.key? c q = some k
          · have hgroup : group c (.long q) = some (some k) := by simp [group, hk]
            rw [members_cons_of_eq hgroup, ih, hlong, List.filter_cons_of_pos (by simpa using hk)]
            rfl
          · have hgroup : group c (.long q) ≠ some (some k) := by simpa [group] using hk
            rw [members_cons_of_ne hgroup, ih, hlong, List.filter_cons_of_neg (by simpa using hk)]

theorem perm_sorted (args : List Arg) :
    args.Perm (sorted (args.filterMap Arg.plain?) (args.filterMap Arg.long?)) := by
  induction args with
  | nil => exact .refl _
  | cons a args ih =>
      cases a with
      | plain p => exact ih.cons (.plain p)
      | long q => exact (ih.cons (.long q)).trans List.perm_middle.symm

/-- An interleaving is a rearrangement. -/
theorem interleaves_iff :
    Interleaves c P Q args ↔ Rearranges (group c) (sorted P Q) args := by
  constructor
  · rintro ⟨rfl, hlong, horder⟩
    refine ⟨(perm_sorted args).trans ((hlong.map Arg.long).append_left _), fun k => ?_⟩
    cases k with
    | none => rw [members_none, members_none, plains_sorted]
    | some k => rw [members_some, members_some, longs_sorted, horder]
  · rintro ⟨hperm, hmembers⟩
    have hplain := hmembers none
    rw [members_none, members_none, plains_sorted] at hplain
    have hlong := hperm.filterMap Arg.long?
    rw [longs_sorted] at hlong
    refine ⟨List.map_injective_iff.mpr (fun p p' h => by simpa using h) hplain, hlong,
      fun k => ?_⟩
    have horder := hmembers (some k)
    rw [members_some, members_some, longs_sorted] at horder
    exact List.map_injective_iff.mpr (fun q q' h => by simpa using h) horder

end

/-! ## The end of a parse -/

/-- `FinalState` does not look at the active option. -/
def behindOption (activeOption : Option (ClapOption V)) (context : ParserContext V) :
    ParserContext V := { context with activeOption }

namespace FinalState

section

variable (activeOption : Option (ClapOption V))

theorem storePositional_behindOption (option : ClapOption V) (context : ParserContext V)
    (token : String) :
    storePositional b option (behindOption activeOption context) token =
      behindOption activeOption <$> storePositional b option context token := by
  rw [storePositional, storePositional]
  cases b.expect .hasValueSemantics option.valueSemantic.isSome with
  | error fault => rfl
  | ok _ =>
      cases option.valueSemantic with
      | none => rfl
      | some semantics =>
          simp only [deref_some, ok_bind]
          cases semantics.parse token <;> rfl

theorem assign_behindOption (option : ClapOption V) (pass : Pass V) :
    assign b { pass with context := behindOption activeOption pass.context } option =
      (fun pass => { pass with context := behindOption activeOption pass.context }) <$>
        assign b pass option := by
  rw [assign, assign]
  cases b.expect .optionIsPositional option.isPositional with
  | error fault => rfl
  | ok _ =>
      simp only [ok_bind]
      split
      · rfl
      · split
        · have htokens : (behindOption activeOption pass.context).positionalTokens =
              pass.context.positionalTokens := rfl
          rw [htokens]
          cases pass.context.positionalTokens with
          | nil => rfl
          | cons token tokens =>
              simp only [storePositional_behindOption activeOption]
              cases storePositional b option pass.context token <;> rfl
        · have htokens : (behindOption activeOption pass.context).positionalTokens =
              pass.context.positionalTokens := rfl
          rw [htokens]
          cases pass.context.positionalTokens.getLast? with
          | none => rfl
          | some token =>
              simp only [storePositional_behindOption activeOption]
              cases storePositional b option pass.context token <;> rfl

theorem checkRequiredOptions_behindOption (options : List (ClapOption V))
    (context : ParserContext V) :
    checkRequiredOptions options (behindOption activeOption context) =
      (fun r => (r.1, behindOption activeOption r.2)) <$>
        checkRequiredOptions options context := by
  induction options generalizing context with
  | nil => rfl
  | cons option options ih =>
      have hhas : (behindOption activeOption context).ovm.hasOption option.key =
          context.ovm.hasOption option.key := rfl
      rw [checkRequiredOptions, checkRequiredOptions, hhas]
      split
      · exact ih context
      · cases option.valueSemantic with
        | none => rfl
        | some semantics =>
            simp only [deref_some, ok_bind]
            cases semantics.applyDefault with
            | some d => exact ih (context.storeValue option d.1 d.2 false)
            | none =>
                cases option.isRequired with
                | true => rfl
                | false => exact ih context

theorem validate_behindOption (command : Command V) (context : ParserContext V) :
    validate command (behindOption activeOption context) =
      (fun r => (r.1, behindOption activeOption r.2)) <$> validate command context := by
  rw [validate_eq, validate_eq, checkRequiredOptions_behindOption activeOption]
  cases checkRequiredOptions (command.options ++ command.positionalArgs) context with
  | error fault => rfl
  | ok r =>
      obtain ⟨message | _, context'⟩ := r <;> rfl

/-- A loop goes on with what a step keeps apart. -/
theorem foldlM_map {σ α : Type} {f : σ → α → Except Fault σ} {g : σ → σ}
    (h : ∀ s a, f (g s) a = g <$> f s a) (l : List α) (s : σ) :
    l.foldlM f (g s) = g <$> l.foldlM f s := by
  induction l generalizing s with
  | nil => rfl
  | cons a l ih =>
      rw [List.foldlM_cons, List.foldlM_cons, h]
      cases f s a with
      | error fault => rfl
      | ok s' => exact ih s'

theorem settle_behindOption (context : ParserContext V) :
    settle b (behindOption activeOption context) =
      (fun r => (r.1, behindOption activeOption r.2)) <$> settle b context := by
  have hcommand : (behindOption activeOption context).activeCommand = context.activeCommand := rfl
  rw [settle, settle, hcommand]
  cases context.activeCommand with
  | none => rfl
  | some command =>
      have hloop := foldlM_map
        (fun pass option => assign_behindOption (b := b) activeOption option pass)
        command.positionalArgs { context }
      simp only [deref_some, ok_bind]
      rw [hloop]
      cases command.positionalArgs.foldlM (assign b) { context } with
      | error fault => rfl
      | ok pass =>
          obtain ⟨context', beforeRest, restOption⟩ := pass
          have htokens : (behindOption activeOption context').positionalTokens =
              context'.positionalTokens := rfl
          have hmap : (fun pass : Pass V =>
              { pass with context := behindOption activeOption pass.context }) <$>
                (.ok ⟨context', beforeRest, restOption⟩ : Except Fault (Pass V)) =
              .ok ⟨behindOption activeOption context', beforeRest, restOption⟩ := rfl
          rw [hmap, ok_bind, ok_bind]
          simp only [htokens]
          cases hleft : context'.positionalTokens with
          | nil => exact validate_behindOption activeOption command context'
          | cons token left =>
              cases restOption with
              | none => rfl
              | some rest =>
                  have hstore := foldlM_map
                    (fun context token =>
                      storePositional_behindOption (b := b) activeOption rest context token)
                    (token :: left) context'
                  simp only [hstore]
                  cases (token :: left).foldlM (storePositional b rest) context' with
                  | error fault => rfl
                  | ok context'' =>
                      exact validate_behindOption activeOption command
                        { context'' with positionalTokens := [] }

end

end FinalState

/-! ## Results -/

/-- After a success, the same active command and the same values. -/
def SameOnSuccess (noErrors : Bool) (c₁ c₂ : ParserContext V) : Prop :=
  noErrors = true → SameContents c₁ c₂

section

variable {e e₁ e₂ : Failure} {stop₁ stop₂ : Stop V}

theorem sameResult_refl (result : Result V) : SameResult SameOnSuccess result result := by
  cases result with
  | returned noErrors context => exact .returned fun _ => ⟨rfl, fun _ => rfl⟩
  | faulted fault => exact .faulted fault

/-- Passes that stop because of the same failure make the same result. -/
theorem conclude_of_isA (h₁ : stop₁.IsA e) (h₂ : stop₂.IsA e) :
    Option.Rel (SameResult SameOnSuccess) (conclude b (.error stop₁))
      (conclude b (.error stop₂)) := by
  cases e with
  | refused =>
      cases stop₁ <;> first | exact h₁.elim | skip
      cases stop₂ <;> first | exact h₂.elim | skip
      exact .some (.returned fun h => by cases h)
  | faulted fault =>
      cases stop₁ <;> first | exact h₁.elim | skip
      cases stop₂ <;> first | exact h₂.elim | skip
      obtain rfl : fault = _ := h₁
      obtain rfl : fault = _ := h₂
      exact .some (.faulted fault)

/-- Only those do. -/
theorem eq_of_conclude (h₁ : stop₁.IsA e₁) (h₂ : stop₂.IsA e₂) {result₁ result₂ : Result V}
    (hresult₁ : conclude b (.error stop₁) = some result₁)
    (hresult₂ : conclude b (.error stop₂) = some result₂)
    (h : SameResult SameOnSuccess result₁ result₂) : e₁ = e₂ := by
  cases e₁ <;> cases stop₁ <;> first | exact h₁.elim | skip
  all_goals
    cases e₂ <;> cases stop₂ <;> first | exact h₂.elim | skip
    all_goals
      cases hresult₁
      cases hresult₂
      cases h
  · rfl
  · rw [show _ = _ from h₁, show _ = _ from h₂]

/-- What `FinalState` comes to is what it would behind another option. -/
theorem sameOnSuccess_of_behindOption (activeOption : Option (ClapOption V))
    {x : Except Fault (Status × ParserContext V)} {result : Result V}
    (h : SameResult (fun _ => SameContents)
      (verdict ((fun r => (r.1, behindOption activeOption r.2)) <$> x)) result) :
    SameResult SameOnSuccess (verdict x) result := by
  cases x with
  | error fault =>
      cases h
      exact .faulted fault
  | ok r =>
      obtain ⟨status, context⟩ := r
      cases status <;> cases h <;> next hsame => exact .returned fun _ => hsame

end

/-! ## Behind a command -/

section

variable {context : CommandLineContext V} {commands : List (Command V)} {C : List String}
  {entry : ParserContext V} {ovm : OptionValuesMap V}

theorem scan_ready_values_append (vs : List String) (entry : ParserContext V)
    (rest : List Token) :
    scan b .ready entry (vs.map (Prod.mk .value) ++ rest) =
      scan b .ready { entry with positionalTokens := entry.positionalTokens ++ vs } rest := by
  induction vs generalizing entry with
  | nil => simp
  | cons v vs ih =>
      have hstep : scan b .ready entry ((v :: vs).map (Prod.mk .value) ++ rest) =
          scan b .ready { entry with positionalTokens := entry.positionalTokens ++ [v] }
            (vs.map (Prod.mk .value) ++ rest) := rfl
      rw [hstep, ih]
      simp

/-- Values that choose a command, with a long argument behind them. -/
theorem exists_entry_of_chosen (hC : ∀ s ∈ C, s.toList.head? ≠ some '-') (hempty : "" ∉ C)
    (hchosen : chosen (initial context commands) (delivered C) = some c) :
    ∃ entry : ParserContext V, entry.activeCommand = some c ∧ entry.ovm = context.ovm ∧
      ∀ (q : LongArg) (args : List Arg),
        pass b context commands (C ++ (Arg.long q :: args).map Arg.text) =
          scan b .ready entry ((Arg.long q :: args).flatMap Arg.tokens) := by
  have hvalues : ∀ s ∈ C, tokenize s = [(.value, s)] := fun s hs =>
    tokenize_value (fun h => hempty (h ▸ hs)) (hC s hs)
  have hdelivered : delivered C = C.map (Prod.mk .value) := by
    have h := delivered_values_append hvalues []
    simpa [delivered] using h
  obtain ⟨hnone, -⟩ | ⟨c', entry, n, hchosen', hcommand, -, hovm, hscan⟩ :=
    scan_start_other (b := b) (initial context commands) (delivered C)
  · rw [hchosen] at hnone
    cases hnone
  · obtain rfl : c = c' := by simpa [hchosen] using hchosen'
    have hinitial : (initial context commands).ovm = context.ovm := by
      obtain ⟨activeCommand, h⟩ := initial_eq context commands
      rw [h]
      rfl
    refine ⟨{ entry with positionalTokens := entry.positionalTokens ++ C.drop n }, hcommand,
      hovm.trans hinitial, fun q args => ?_⟩
    have htokens : (Arg.long q :: args).flatMap Arg.tokens = (.longOption, q.name) ::
        (.equalSign, "=") :: (.value, q.value) :: args.flatMap Arg.tokens := rfl
    rw [pass, delivered_append hempty, Arg.delivered_texts, htokens, hscan _ _ (by simp),
      hdelivered, ← List.map_drop, scan_ready_values_append]

/-- The values under a key are stored by the arguments of its group. -/
theorem filter_entries (c : Command V) (k : String) (args : List Arg) :
    ((args.filterMap (stored? c)).filter fun e => e.1 = k) =
      (members (group c) (some k) args).filterMap (stored? c) := by
  have hkey : ∀ a e, stored? c a = some e → (group c a = some (some k) ↔ e.1 = k) := by
    intro a e h
    cases a with
    | plain p => cases h
    | long q =>
        obtain ⟨option, hfind, h⟩ := Option.bind_eq_some_iff.mp h
        obtain ⟨value, -, rfl⟩ := Option.map_eq_some_iff.mp h
        simp [group, LongArg.key?, hfind]
  induction args with
  | nil => rfl
  | cons a args ih =>
      cases hentry : stored? c a with
      | none =>
          rw [List.filterMap_cons_none hentry, ih]
          by_cases hk : group c a = some (some k)
          · rw [members_cons_of_eq hk, List.filterMap_cons_none hentry]
          · rw [members_cons_of_ne hk]
      | some e =>
          rw [List.filterMap_cons_some hentry]
          by_cases hk : group c a = some (some k)
          · have he := (hkey a e hentry).mp hk
            rw [members_cons_of_eq hk, List.filterMap_cons_some hentry,
              List.filter_cons_of_pos (by simpa using he), ih]
          · have he := (hkey a e hentry).not.mp hk
            rw [members_cons_of_ne hk, List.filter_cons_of_neg (by simpa using he), ih]

/-- The same values, and the same arguments of each key in the same order, leave the same
contents behind. -/
theorem settle_of_sameMembers {args₁ args₂ : List Arg}
    (hmembers : ∀ k, members (group c) k args₁ = members (group c) k args₂)
    {o₁ o₂ : Option (ClapOption V)} {flag₁ flag₂ : String} :
    SameResult SameOnSuccess
      (verdict (FinalState.settle b { entry with
        positionalTokens :=
          entry.positionalTokens ++ (args₁.filterMap Arg.plain?).map PlainArg.text
        ovm := entry.ovm.storeAll (args₁.filterMap (stored? c))
        activeOption := o₁
        activeOptionFlag := flag₁ }))
      (verdict (FinalState.settle b { entry with
        positionalTokens :=
          entry.positionalTokens ++ (args₂.filterMap Arg.plain?).map PlainArg.text
        ovm := entry.ovm.storeAll (args₂.filterMap (stored? c))
        activeOption := o₂
        activeOptionFlag := flag₂ })) := by
  have hplain : args₁.filterMap Arg.plain? = args₂.filterMap Arg.plain? := by
    have hnone := hmembers none
    rw [members_none, members_none] at hnone
    exact List.map_injective_iff.mpr (fun p p' h => by simpa using h) hnone
  have hvalues : ∀ k, (entry.ovm.storeAll (args₁.filterMap (stored? c))).values k =
      (entry.ovm.storeAll (args₂.filterMap (stored? c))).values k := by
    intro k
    rw [Multimap.values_storeAll, Multimap.values_storeAll, filter_entries, filter_entries,
      hmembers]
  have hsettle := FinalState.settle_behindOption (b := b) o₂ { entry with
    positionalTokens := entry.positionalTokens ++ (args₁.filterMap Arg.plain?).map PlainArg.text
    ovm := entry.ovm.storeAll (args₁.filterMap (stored? c))
    activeOption := o₁
    activeOptionFlag := flag₁ }
  refine sameOnSuccess_of_behindOption o₂ ?_
  rw [← hsettle]
  exact settle_sameContents ⟨rfl, rfl, rfl, rfl, by rw [behindOption, hplain], hvalues⟩

/-- Arguments that fail alike, and would store the same, make the same result. -/
theorem runsAlike_of_firstFailure {args₁ args₂ : List String} {l₁ l₂ : List Arg}
    (hcommand : entry.activeCommand = some c)
    (hmembers : ∀ k, members (group c) k l₁ = members (group c) k l₂)
    (hfirst : firstFailure (judge b c entry.ovm) [] l₁ = firstFailure (judge b c entry.ovm) [] l₂)
    (hpass₁ : pass b context commands args₁ = scan b .ready entry (l₁.flatMap Arg.tokens))
    (hpass₂ : pass b context commands args₂ = scan b .ready entry (l₂.flatMap Arg.tokens)) :
    RunsAlike SameOnSuccess b context context commands args₁ args₂ := by
  apply runsAlike_of_conclude
  have hcounts : Counts c entry.ovm [] entry := fun k => rfl
  have h₁ := scan_args (b := b) hcommand hcounts l₁
  have h₂ := scan_args (b := b) hcommand hcounts l₂
  rw [hfirst] at h₁
  rw [hpass₁, hpass₂]
  cases hfailure : firstFailure (judge b c entry.ovm) [] l₂ with
  | some e =>
      rw [hfailure] at h₁ h₂
      obtain ⟨stop₁, hstop₁, hscan₁⟩ := h₁
      obtain ⟨stop₂, hstop₂, hscan₂⟩ := h₂
      rw [hscan₁, hscan₂]
      exact conclude_of_isA hstop₁ hstop₂
  | none =>
      rw [hfailure] at h₁ h₂
      obtain ⟨o₁, flag₁, hscan₁⟩ := h₁
      obtain ⟨o₂, flag₂, hscan₂⟩ := h₂
      rw [hscan₁, hscan₂]
      exact .some (settle_of_sameMembers hmembers)

/-- Arguments that make the same result fail alike, if they fail. -/
theorem failure_eq_of_runsAlike {args₁ args₂ : List String} {l₁ l₂ : List Arg} {e₁ e₂ : Failure}
    (hcommand : entry.activeCommand = some c)
    (hfirst₁ : firstFailure (judge b c entry.ovm) [] l₁ = some e₁)
    (hfirst₂ : firstFailure (judge b c entry.ovm) [] l₂ = some e₂)
    (hpass₁ : pass b context commands args₁ = scan b .ready entry (l₁.flatMap Arg.tokens))
    (hpass₂ : pass b context commands args₂ = scan b .ready entry (l₂.flatMap Arg.tokens))
    (h : RunsAlike SameOnSuccess b context context commands args₁ args₂) : e₁ = e₂ := by
  have hcounts : Counts c entry.ovm [] entry := fun k => rfl
  have h₁ := scan_args (b := b) hcommand hcounts l₁
  have h₂ := scan_args (b := b) hcommand hcounts l₂
  rw [hfirst₁] at h₁
  rw [hfirst₂] at h₂
  obtain ⟨stop₁, hstop₁, hscan₁⟩ := h₁
  obtain ⟨stop₂, hstop₂, hscan₂⟩ := h₂
  rw [hscan₁] at hpass₁
  rw [hscan₂] at hpass₂
  obtain ⟨result₁, hresult₁⟩ : ∃ result₁, conclude b (.error stop₁) = some result₁ := by
    cases e₁ <;> cases stop₁ <;> first | exact hstop₁.elim | exact ⟨_, rfl⟩
  have hparses₁ : Parses b context commands args₁ result₁ := by
    rw [parses_iff, hpass₁, hresult₁]
  obtain ⟨result₂, hparses₂, hsame⟩ := h.1 result₁ hparses₁
  rw [parses_iff, hpass₂] at hparses₂
  exact eq_of_conclude hstop₁ hstop₂ hresult₁ hparses₂ hsame

end

/-! ## Order -/

/-- A line: the words of a command, an argument and others behind it. -/
def line (C : List String) (q₀ : LongArg) (args : List Arg) : List String :=
  C ++ (Arg.long q₀ :: args).map Arg.text

/-- Interleavings behind an argument all make the same result. -/
def OrderIndependent (b : Build) (context : CommandLineContext V) (commands : List (Command V))
    (c : Command V) (C : List String) (q₀ : LongArg) (P : List PlainArg) (Q : List LongArg) :
    Prop :=
  ∀ args₁ args₂, Interleaves c P Q args₁ → Interleaves c P Q args₂ →
    RunsAlike SameOnSuccess b context context commands (line C q₀ args₁) (line C q₀ args₂)

section

variable {context : CommandLineContext V} {commands : List (Command V)} {C : List String}
  {ovm : OptionValuesMap V} {P : List PlainArg} {Q : List LongArg} {q₀ : LongArg}

/-- Values do not fail. -/
theorem firstFailure_plains (b : Build) (c : Command V) (ovm : OptionValuesMap V)
    (before : List Arg) (P : List PlainArg) :
    firstFailure (judge b c ovm) before (P.map .plain) = none := by
  induction P generalizing before with
  | nil => rfl
  | cons p P ih => exact ih (before ++ [.plain p])

/-- So they have no part in what can fail. -/
theorem canFail_sorted {before : List Arg} {e : Failure} :
    CanFail (group c) (judge b c ovm) before (sorted P Q) e ↔
      CanFail (group c) (judge b c ovm) before (Q.map .long) e := by
  have hgroups : ∀ k,
      firstFailure (judge b c ovm) (members (group c) k before)
        (members (group c) k (sorted P Q)) =
      firstFailure (judge b c ovm) (members (group c) k before)
        (members (group c) k (sorted [] Q)) := by
    intro k
    cases k with
    | none =>
        rw [members_none c (sorted P Q), members_none c (sorted [] Q), plains_sorted,
          plains_sorted, firstFailure_plains, firstFailure_plains]
    | some k =>
        rw [members_some c k (sorted P Q), members_some c k (sorted [] Q), longs_sorted,
          longs_sorted]
  have hfree : (∃ a ∈ sorted P Q, group c a = none ∧ judge b c ovm [] a = some e) ↔
      ∃ a ∈ sorted [] Q, group c a = none ∧ judge b c ovm [] a = some e := by
    have hplain : ∀ a ∈ P.map Arg.plain, group c a ≠ none := by
      intro a ha
      obtain ⟨p, -, rfl⟩ := List.mem_map.mp ha
      simp [group]
    constructor
    · rintro ⟨a, ha, hnone, hfails⟩
      obtain ha | ha := List.mem_append.mp ha
      · exact absurd hnone (hplain a ha)
      · exact ⟨a, ha, hnone, hfails⟩
    · rintro ⟨a, ha, hfails⟩
      exact ⟨a, List.mem_append_right _ ha, hfails⟩
  rw [CanFail, hfree]
  simp only [hgroups]
  rfl

/-- Nothing behind an empty argument is read. -/
theorem orderIndependent_of_empty (hempty : "" ∈ C) :
    OrderIndependent b context commands c C q₀ P Q := by
  intro args₁ args₂ _ _
  have hpass : ∀ args, pass b context commands (line C q₀ args) = pass b context commands C := by
    intro args
    rw [pass, pass, line, delivered_append_of_mem hempty]
  apply runsAlike_of_conclude
  rw [hpass, hpass]
  cases conclude b (pass b context commands C) with
  | none => exact .none
  | some result => exact .some (sameResult_refl result)

/-- Interleavings that fail alike behind an argument make the same result. -/
theorem runsAlike_of_interleaves {entry : ParserContext V} {args₁ args₂ : List Arg}
    (hcommand : entry.activeCommand = some c)
    (hpass : ∀ args, pass b context commands (line C q₀ args) =
      scan b .ready entry ((Arg.long q₀ :: args).flatMap Arg.tokens))
    (h₁ : Interleaves c P Q args₁) (h₂ : Interleaves c P Q args₂)
    (hfirst : firstFailure (judge b c entry.ovm) [] (.long q₀ :: args₁) =
      firstFailure (judge b c entry.ovm) [] (.long q₀ :: args₂)) :
    RunsAlike SameOnSuccess b context context commands (line C q₀ args₁) (line C q₀ args₂) := by
  refine runsAlike_of_firstFailure hcommand (fun k => ?_) hfirst (hpass args₁) (hpass args₂)
  have hmembers : members (group c) k args₁ = members (group c) k args₂ :=
    ((interleaves_iff.mp h₁).members_eq k).trans ((interleaves_iff.mp h₂).members_eq k).symm
  have happend := members_append (group c) k [.long q₀]
  exact (happend args₁).trans ((congrArg _ hmembers).trans (happend args₂).symm)

/-- **Order** does not matter behind values that choose a command and an argument
`--name=value`, exactly if nothing behind an empty argument is read, that argument fails
already, or all arguments that can fail do so in the same way: they are refused, or run into the
same fault of an option without value semantics. -/
theorem orderIndependent_iff (hC : ∀ s ∈ C, s.toList.head? ≠ some '-')
    (hchosen : chosen (initial context commands) (delivered C) = some c) :
    OrderIndependent b context commands c C q₀ P Q ↔
      "" ∈ C ∨ (judge b c context.ovm [] (.long q₀)).isSome ∨
        ∀ e₁ e₂, CanFail (group c) (judge b c context.ovm) [.long q₀] (Q.map .long) e₁ →
          CanFail (group c) (judge b c context.ovm) [.long q₀] (Q.map .long) e₂ → e₁ = e₂ := by
  by_cases hempty : "" ∈ C
  · exact iff_of_true (orderIndependent_of_empty hempty) (.inl hempty)
  · obtain ⟨entry, hcommand, hovm, hpass⟩ := exists_entry_of_chosen (b := b) hC hempty hchosen
    rw [← hovm]
    cases hjudge : judge b c entry.ovm [] (.long q₀) with
    | some e =>
        have hfirst : ∀ args, firstFailure (judge b c entry.ovm) [] (.long q₀ :: args) = some e :=
          fun args => by rw [firstFailure, hjudge, Option.some_or]
        refine iff_of_true (fun args₁ args₂ h₁ h₂ => ?_) (.inr (.inl rfl))
        exact runsAlike_of_interleaves hcommand (hpass q₀) h₁ h₂
          ((hfirst args₁).trans (hfirst args₂).symm)
    | none =>
        have hfirst : ∀ args, firstFailure (judge b c entry.ovm) [] (.long q₀ :: args) =
            firstFailure (judge b c entry.ovm) [.long q₀] args :=
          fun args => by rw [firstFailure, hjudge, Option.none_or, List.nil_append]
        have hlocal := local_judge b c entry.ovm
        simp only [hempty, Option.isSome_none, Bool.false_eq_true, false_or]
        constructor
        · intro h e₁ e₂ he₁ he₂
          obtain ⟨args₁, harranged₁, hfirst₁⟩ :=
            exists_rearranges_of_canFail hlocal (canFail_sorted (P := P).mpr he₁)
          obtain ⟨args₂, harranged₂, hfirst₂⟩ :=
            exists_rearranges_of_canFail hlocal (canFail_sorted (P := P).mpr he₂)
          exact failure_eq_of_runsAlike hcommand ((hfirst args₁).trans hfirst₁)
            ((hfirst args₂).trans hfirst₂) (hpass q₀ args₁) (hpass q₀ args₂)
            (h args₁ args₂ (interleaves_iff.mpr harranged₁) (interleaves_iff.mpr harranged₂))
        · intro h args₁ args₂ h₁ h₂
          have hsame := (firstFailure_eq_iff hlocal [.long q₀] (sorted P Q)).mpr
            (fun e₁ e₂ he₁ he₂ => h e₁ e₂ (canFail_sorted.mp he₁) (canFail_sorted.mp he₂))
            args₁ args₂ (interleaves_iff.mp h₁) (interleaves_iff.mp h₂)
          exact runsAlike_of_interleaves hcommand (hpass q₀) h₁ h₂
            ((hfirst args₁).trans (hsame.trans (hfirst args₂).symm))

/-- Where all options have value semantics, an argument that fails is refused. -/
theorem eq_refused_of_judge (hsem : ∀ o ∈ c.options, o.valueSemantic.isSome) {before : List Arg}
    {a : Arg} {e : Failure} (h : judge b c ovm before a = some e) : e = .refused := by
  cases a with
  | plain p => cases h
  | long q =>
      cases failsWith_of_judge h with
      | noSemantics hfind hnone _ _ =>
          have hsome := hsem _ (List.mem_of_find?_eq_some hfind)
          simp [hnone] at hsome
      | unknown | repeated | unparsed => rfl

theorem eq_refused_of_firstFailure (hsem : ∀ o ∈ c.options, o.valueSemantic.isSome)
    {before args : List Arg} {e : Failure}
    (h : firstFailure (judge b c ovm) before args = some e) : e = .refused := by
  induction args generalizing before with
  | nil => cases h
  | cons a args ih =>
      rw [firstFailure] at h
      cases hjudge : judge b c ovm before a with
      | none => exact ih (by simpa [hjudge] using h)
      | some e' =>
          obtain rfl : e' = e := by simpa [hjudge] using h
          exact eq_refused_of_judge hsem hjudge

/-- So all that can fail do so in the same way. -/
theorem eq_refused_of_canFail (hsem : ∀ o ∈ c.options, o.valueSemantic.isSome)
    {before args : List Arg} {e : Failure}
    (h : CanFail (group c) (judge b c ovm) before args e) : e = .refused := by
  obtain ⟨k, h⟩ | ⟨a, -, -, h⟩ := h
  · exact eq_refused_of_firstFailure hsem h
  · exact eq_refused_of_judge hsem h

end

/-- `--name=bob` -/
def nameBob : LongArg where
  name := "name"
  value := "bob"
  name_ne := by decide
  no_equal := by decide
  value_ne := by decide
  value_head := by decide

/-- `--nick=al` -/
def nickAl : LongArg where
  name := "nick"
  value := "al"
  name_ne := by decide
  no_equal := by decide
  value_ne := by decide
  value_head := by decide

/-- `--quiet=yes` -/
def quietYes : LongArg where
  name := "quiet"
  value := "yes"
  name_ne := by decide
  no_equal := by decide
  value_ne := by decide
  value_head := by decide

/-- A flag: the option is finished without `WithValue`. -/
def quiet : ClapOption String := OptionBuilder.build "quiet" [.long "quiet"]

/-- `greet [--name <text>] [--quiet]` -/
def greetQuietly : Command String := greet.withOption quiet

/-- `apple` and `pear` -/
def fruits : List PlainArg := [⟨"apple", by decide, by decide⟩, ⟨"pear", by decide, by decide⟩]

/-- The option `--nick`, as often as you like. -/
def nick : ClapOption String where
  key := "nick"
  longName := "nick"
  valueSemantic := some { ValueSemantics.text with repeatable := true }

/-- `greet [--name <text>] [--nick <text>]... [<what>...]` -/
def greetAll : Command String :=
  { greet with
    options := [name, nick]
    positionalArgs := [{ key := ClapOption.keyRest, valueSemantic := some .text }] }

/-- `--nick` may be repeated, and values may stand anywhere between. -/
theorem orderIndependent_greet :
    OrderIndependent .debug { programName := "prog" } [greetAll] greetAll ["greet"] nameBob fruits
        [nickAl, nickAl] ∧
      ∃ result, Parses .debug { programName := "prog" } [greetAll]
        (line ["greet"] nameBob (fruits.map .plain ++ [.long nickAl, .long nickAl]))
        (.returned true result) := by
  refine ⟨(orderIndependent_iff (by decide) rfl).mpr (.inr (.inr fun e₁ e₂ h₁ h₂ => ?_)), _, 30, rfl⟩
  have hsem : ∀ o ∈ greetAll.options, o.valueSemantic.isSome := by simp [greetAll, name, nick]
  exact (eq_refused_of_canFail hsem h₁).trans (eq_refused_of_canFail hsem h₂).symm

/-- The flag runs into an assertion and the unknown option is refused, whichever comes first. -/
theorem not_orderIndependent_greetQuietly :
    chosen (initial { programName := "prog" } [greetQuietly]) (delivered ["greet"]) =
        some greetQuietly ∧
      Interleaves greetQuietly [] [quietYes, nickAl] [.long quietYes, .long nickAl] ∧
      Interleaves greetQuietly [] [quietYes, nickAl] [.long nickAl, .long quietYes] ∧
      ¬ OrderIndependent .debug { programName := "prog" } [greetQuietly] greetQuietly ["greet"]
        nameBob [] [quietYes, nickAl] := by
  have hfirst : Interleaves greetQuietly [] [quietYes, nickAl] [.long quietYes, .long nickAl] :=
    ⟨rfl, .refl _, fun _ => rfl⟩
  have hsecond : Interleaves greetQuietly [] [quietYes, nickAl]
      [.long nickAl, .long quietYes] := by
    refine ⟨rfl, .swap quietYes nickAl [], fun k => ?_⟩
    have hquiet : LongArg.key? greetQuietly quietYes = some "quiet" := rfl
    have hnick : LongArg.key? greetQuietly nickAl = none := rfl
    by_cases hk : "quiet" = k <;> simp [Arg.long?, hquiet, hnick, hk]
  refine ⟨rfl, hfirst, hsecond, fun h => ?_⟩
  have hfaulted : Parses .debug { programName := "prog" } [greetQuietly]
      (line ["greet"] nameBob [.long quietYes, .long nickAl])
      (.faulted (.contract .hasValueSemantics)) := ⟨12, rfl⟩
  obtain ⟨context, hrefused⟩ : ∃ context, Parses .debug { programName := "prog" } [greetQuietly]
      (line ["greet"] nameBob [.long nickAl, .long quietYes]) (.returned false context) :=
    ⟨_, 12, rfl⟩
  obtain ⟨result, hparses, hsame⟩ := (h _ _ hfirst hsecond).1 _ hfaulted
  rw [Loop.returns_unique hparses hrefused] at hsame
  cases hsame

end Parser

end AsapClap
