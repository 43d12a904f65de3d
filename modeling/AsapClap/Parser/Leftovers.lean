import AsapClap.Parser.Agreement
import AsapClap.Parser.Choice
import AsapClap.Parser.Rejection

/-!
# AsapClap.Parser.Leftovers

`Parse` with a context that an earlier parse has left an active command and option values
in, next to `Parse` with a fresh one.

The active command is taken for a default command by `InitialState`, the values are taken
for values of the line by `CheckMultipleOccurrence` and `CheckRequiredOptions`, and they stay
in the map.  `Unread` says that a line ends before any of them is looked at: it speaks of the
names and of the options that the line itself lets the parser get to.
-/

namespace AsapClap

namespace Parser

open LongestPrefix Relate Tokenizer FinalState

variable {V : Type} {b : Build}

/-! ## Defaults that are there already -/

/-- All that is left under a key is the default that the line would leave it with. -/
def Refilled (options : List (ClapOption V)) (left given : String → List (OptionValue V))
    (k : String) : Prop :=
  given k = [] ∧ ∃ before option behind d, options = before ++ option :: behind ∧
    option.key = k ∧ option.default? = some d ∧ left k = [⟨d.1, d.2, false⟩] ∧
    ∀ o ∈ before, o.key = k →
      o.valueSemantic.isSome ∧ o.default? = none ∧ o.isRequired = false

section

variable {option : ClapOption V} {options : List (ClapOption V)}
  {left given : String → List (OptionValue V)} {k : String}

theorem refilled_cons_of_ne (hk : option.key ≠ k) :
    Refilled (option :: options) left given k → Refilled options left given k := by
  rintro ⟨hgiven, before, o, behind, d, hsplit, hkey, hdefault, hleft, hbefore⟩
  cases before with
  | nil =>
      cases hsplit
      exact absurd hkey hk
  | cons first before =>
      cases hsplit
      exact ⟨hgiven, before, o, behind, d, rfl, hkey, hdefault, hleft,
        (List.forall_mem_cons.mp hbefore).2⟩

/-- The first option is the one whose default is there, or one that is nothing to it. -/
theorem refilled_cons_self (h : Refilled (option :: options) left given option.key) :
    given option.key = [] ∧
      ((∃ d, option.default? = some d ∧ left option.key = [⟨d.1, d.2, false⟩]) ∨
        (option.valueSemantic.isSome ∧ option.default? = none ∧ option.isRequired = false) ∧
          Refilled options left given option.key) := by
  obtain ⟨hgiven, before, o, behind, d, hsplit, hkey, hdefault, hleft, hbefore⟩ := h
  refine ⟨hgiven, ?_⟩
  cases before with
  | nil =>
      cases hsplit
      exact .inl ⟨d, hdefault, hleft⟩
  | cons first before =>
      cases hsplit
      obtain ⟨hfirst, hbefore⟩ := List.forall_mem_cons.mp hbefore
      exact .inr ⟨hfirst rfl, hgiven, before, o, behind, d, rfl, hkey, hdefault, hleft, hbefore⟩

/-- The check gets to the end of these options. -/
def GetsThrough (options : List (ClapOption V)) (ovm : OptionValuesMap V) : Prop :=
  ¬ AsksNull options ovm ∧ ¬ Lacks options ovm

/-- The values under a key are looked at: for an option that the check gets to, or in the map that
a check behind which nothing is lacking leaves. -/
def Examined (options : List (ClapOption V)) (ovm : OptionValuesMap V) (k : String) : Prop :=
  GetsThrough options ovm ∨ ∃ before option behind, options = before ++ option :: behind ∧
    option.key = k ∧ GetsThrough before ovm

theorem getsThrough_iff {context : ParserContext V} : GetsThrough options context.ovm ↔
    ∃ context', checkRequiredOptions options context = .ok (none, context') := by
  have hchecks := checks options context
  have hasks (fault : Fault) : checkRequiredOptions options context = .error fault ↔
      fault = .nullPointer ∧ AsksNull options context.ovm :=
    checkRequiredOptions_eq_error_iff options context
  generalize checkRequiredOptions options context = result at hchecks hasks
  rw [GetsThrough]
  cases hchecks with
  | complete values lacks =>
      refine iff_of_true ⟨fun hnull => ?_, lacks⟩ ⟨_, rfl⟩
      cases (hasks .nullPointer).mpr ⟨rfl, hnull⟩
  | lacking mem required default given lacks => simp [lacks]
  | asks => simp [((hasks .nullPointer).mp rfl).2]

theorem getsThrough_nil (ovm : OptionValuesMap V) : GetsThrough [] ovm :=
  ⟨by simp [AsksNull], by simp⟩

/-- An option that the check passes by leaves the keys behind it to be looked at. -/
theorem Examined.cons {context context' : ParserContext V}
    (hpass : ∀ options, checkRequiredOptions (option :: options) context =
      checkRequiredOptions options context')
    (h : Examined options context'.ovm k) : Examined (option :: options) context.ovm k := by
  have hthrough : ∀ options, GetsThrough options context'.ovm →
      GetsThrough (option :: options) context.ovm := by
    intro options h
    rw [getsThrough_iff, hpass]
    exact getsThrough_iff.mp h
  obtain h | ⟨before, o, behind, rfl, hkey, h⟩ := h
  · exact .inl (hthrough _ h)
  · exact .inr ⟨option :: before, o, behind, rfl, hkey, hthrough _ h⟩

/-- What is left is not noticed if, under the keys that are looked at, it is nothing or the default
that is stored anyway. -/
theorem unnoticed_of_refilled {context : ParserContext V}
    (h : ∀ k, Examined options context.ovm k →
      left k = [] ∨ Refilled options left context.ovm.values k) :
    Unnoticed options left context.ovm := by
  induction options generalizing left context with
  | nil =>
      intro k
      refine (h k (.inl (getsThrough_nil _))).resolve_right
        fun ⟨_, before, o, behind, _, hsplit, _⟩ => ?_
      simp at hsplit
  | cons option options ih =>
      have hexamined : Examined (option :: options) context.ovm option.key :=
        .inr ⟨[], option, options, rfl, rfl, getsThrough_nil _⟩
      have hself := (h option.key hexamined).imp_right refilled_cons_self
      have hothers : ∀ k, option.key ≠ k → Examined (option :: options) context.ovm k →
          left k = [] ∨ Refilled options left context.ovm.values k :=
        fun k hk hexamined => (h k hexamined).imp_right (refilled_cons_of_ne hk)
      -- what is known of the key of the first option goes in front of the others
      have hrest : (∀ options, checkRequiredOptions (option :: options) context =
            checkRequiredOptions options context) →
          left option.key = [] ∨ Refilled options left context.ovm.values option.key →
          Unnoticed options left context.ovm := by
        refine fun hpass hkey => ih fun k hexamined => ?_
        by_cases hk : option.key = k
        · exact hk ▸ hkey
        · exact hothers k hk (hexamined.cons hpass)
      rw [Unnoticed]
      cases hhas : context.ovm.hasOption option.key with
      | true =>
          have hgiven := OptionValuesMap.hasOption_iff.mp hhas
          exact hrest (fun options => by rw [checkRequiredOptions, if_pos hhas])
            (.inl (hself.resolve_right fun hr => hgiven hr.1))
      | false =>
          rw [if_neg Bool.false_ne_true]
          cases hsem : option.valueSemantic with
          | none => simpa [hsem, ClapOption.default?] using hself
          | some semantics =>
              have hdefault := default?_of_some hsem
              rw [Option.map_some]
              cases happly : semantics.applyDefault with
              | some d =>
                  have hpass : ∀ options, checkRequiredOptions (option :: options) context =
                      checkRequiredOptions options (context.storeValue option d.1 d.2 false) := by
                    intro options
                    simp [checkRequiredOptions, hhas, hsem, happly]
                  have hbehind : Unnoticed options (Function.update left option.key [])
                      (context.storeValue option d.1 d.2 false).ovm := by
                    refine ih fun k hexamined => ?_
                    by_cases hk : option.key = k
                    · exact .inl (hk ▸ Function.update_self ..)
                    · refine (hothers k hk (hexamined.cons hpass)).imp ?_ ?_ <;>
                        simp [Refilled, ParserContext.storeValue, OptionValuesMap.storeValue,
                          Multimap.values_store, hk, Function.update_of_ne (Ne.symm hk)]
                  refine ⟨?_, hbehind⟩
                  simpa [hdefault, happly] using hself.imp_right And.right
              | none =>
                  rw [hdefault, happly] at hself
                  cases hrequired : option.isRequired with
                  | true => simpa [hrequired] using hself
                  | false =>
                      exact hrest
                        (fun options => by simp [checkRequiredOptions, hhas, hsem, happly, hrequired])
                        (hself.imp_right fun hr => (hr.2.resolve_left (by simp)).2)

theorem exists_of_firstDefault {d : V × String} (h : firstDefault options k = some d) :
    ∃ before o behind, options = before ++ o :: behind ∧ o.key = k ∧ o.default? = some d ∧
      firstDefault before k = none := by
  induction options with
  | nil => cases h
  | cons o options ih =>
      rw [firstDefault_cons] at h
      cases hself : if o.key = k then o.default? else none with
      | some d' =>
          rw [hself, Option.some_or] at h
          obtain ⟨hkey, hdefault⟩ : o.key = k ∧ o.default? = some d' := by simpa using hself
          exact ⟨[], o, options, rfl, hkey, hdefault.trans h, rfl⟩
      | none =>
          rw [hself, Option.none_or] at h
          obtain ⟨before, o', behind, rfl, hkey, hdefault, hbefore⟩ := ih h
          exact ⟨o :: before, o', behind, rfl, hkey, hdefault, by
            rw [firstDefault_cons, hself, hbefore, Option.none_or]⟩

theorem lacks_append {ovm : OptionValuesMap V} (h : Lacks options ovm)
    (others : List (ClapOption V)) : Lacks (options ++ others) ovm := by
  obtain ⟨before, o, behind, rfl, hlacks⟩ := h
  exact ⟨before, o, behind ++ others, by simp, hlacks⟩

/-- Where a check of the options succeeds, a default that is there in place of all values is
one that is stored. -/
theorem refilled_of_eq {ovm : OptionValuesMap V} {d : V × String}
    (hnull : ¬ AsksNull options ovm) (hlacks : ¬ Lacks options ovm) (hgiven : ovm.values k = [])
    (hdefault : firstDefault options k = some d) (hleft : left k = [⟨d.1, d.2, false⟩]) :
    Refilled options left ovm.values k := by
  obtain ⟨before, option, behind, rfl, hkey, hdefault, hbefore⟩ := exists_of_firstDefault hdefault
  refine ⟨hgiven, before, option, behind, d, rfl, hkey, hdefault, hleft, fun o ho hk => ?_⟩
  obtain ⟨first, second, rfl⟩ := List.append_of_mem ho
  rw [firstDefault_append, Option.or_eq_none_iff, firstDefault_cons, if_pos hk,
    Option.or_eq_none_iff] at hbefore
  obtain ⟨hfirst, hnone, -⟩ := hbefore
  have hsplit : first ++ o :: second ++ option :: behind =
      first ++ o :: (second ++ option :: behind) := by simp
  rw [hsplit] at hnull hlacks
  refine ⟨?_, hnone, ?_⟩
  · rw [Option.isSome_iff_ne_none]
    exact fun hsem => hnull ⟨first, o, _, rfl, hsem, hk ▸ hgiven, hk ▸ hfirst,
      fun hfirst => hlacks (lacks_append hfirst _)⟩
  · rw [← Bool.not_eq_true]
    exact fun hrequired => hlacks ⟨first, o, _, rfl, hrequired, hnone, hk ▸ hgiven, hk ▸ hfirst⟩

end

/-! ## Lines that read nothing of what is left -/

/-- What the used context holds is not read before this line ends, which is followed in the light
of the line alone. -/
structure Unread (b : Build) (used fresh : CommandLineContext V) (commands : List (Command V))
    (args : List String) : Prop where
  /-- there is a default command, no active command is left, or values name one -/
  command : (∃ c ∈ commands, c.isDefault = true) ∨ used.activeCommand = none ∨
    probed commands (delivered args) ≠ []
  /-- no option has a value left whose name has everything in front of it in its place -/
  typed : ∀ c, chosen (initial fresh commands) (delivered args) = some c →
    ∀ front name behind, delivered args = front ++ name :: behind →
    AllInPlace c (initial fresh commands) front →
    ∀ o, c.resolve name = some o → used.ovm.values o.key = []
  /-- where the options are checked, what is looked at has none left either, but for defaults that
  are stored on this line as well -/
  checked : ∀ c ps, chosen (initial fresh commands) (delivered args) = some c →
    InTime b (initial fresh commands).commands (delivered args) →
    AllInPlace c (initial fresh commands) (delivered args) →
    assigned c.positionalArgs
      (gathered c (initial fresh commands) (delivered args)).positionalTokens = some ps →
    let given := (gathered c (initial fresh commands) (delivered args)).ovm.storeAll
      (ps.filterMap positionalEntry)
    ∀ k, Examined (c.options ++ c.positionalArgs) given k →
      used.ovm.values k = [] ∨
        Refilled (c.options ++ c.positionalArgs) used.ovm.values given.values k

section

variable {used fresh : CommandLineContext V} {commands : List (Command V)} {args : List String}

/-- The contexts start alike but for the active command. -/
theorem initial_alike (commands : List (Command V)) (hallow : used.allowLongOptionValueWithNoEqual =
      fresh.allowLongOptionValueWithNoEqual) (hovm : fresh.ovm = ∅)
    (activeCommand : Option (Command V)) (tokens : List String) :
    Alike used.ovm.values
      { initial used commands with
        activeCommand
        positionalTokens := (initial used commands).positionalTokens ++ tokens }
      { initial fresh commands with
        activeCommand
        positionalTokens := (initial fresh commands).positionalTokens ++ tokens } := by
  obtain ⟨active₁, hinitial₁⟩ := initial_eq used commands
  obtain ⟨active₂, hinitial₂⟩ := initial_eq fresh commands
  rw [hinitial₁, hinitial₂]
  refine ⟨hallow, rfl, rfl, rfl, rfl, fun k => ?_⟩
  simp [ParserContext.new, hovm]

/-- What is typed selects the same command on both sides, or none. -/
theorem select_agree (hallow : used.allowLongOptionValueWithNoEqual =
      fresh.allowLongOptionValueWithNoEqual) (hovm : fresh.ovm = ∅)
    (typed segments₁ segments₂ : List String) :
    Agree (SameStop fun _ _ => True)
      (Alike used.ovm.values)
      (select typed segments₁ (initial used commands))
      (select typed segments₂ (initial fresh commands)) := by
  have halike := fun activeCommand tokens =>
    initial_alike commands hallow hovm activeCommand tokens
  have hlongest : ∀ context : CommandLineContext V,
      longest Command.path (initial context commands).commands typed =
        longest Command.path commands typed := fun context => by rw [initial_commands]
  have hlast : ∀ context : CommandLineContext V,
      lastDefault (initial context commands).commands = lastDefault commands :=
    fun context => by rw [initial_commands]
  cases hlong : longest Command.path commands typed with
  | some c =>
      rw [select_of_longest ((hlongest used).trans hlong),
        select_of_longest ((hlongest fresh).trans hlong)]
      exact .ok (by simpa using halike (some c) [])
  | none =>
      cases hdefault : lastDefault commands with
      | some c =>
          rw [select_of_default ((hlongest used).trans hlong) ((hlast used).trans hdefault),
            select_of_default ((hlongest fresh).trans hlong) ((hlast fresh).trans hdefault)]
          exact .ok (halike (some c) typed)
      | none =>
          rw [select_of_none ((hlongest used).trans hlong) ((hlast used).trans hdefault),
            select_of_none ((hlongest fresh).trans hlong) ((hlast fresh).trans hdefault)]
          exact .error (.rejected _ _ trivial)

/-- So are the commands they start with, where the one left over is not used. -/
theorem initialActive_eq (hactive : fresh.activeCommand = none)
    (hcommand : (∃ c ∈ commands, c.isDefault = true) ∨ used.activeCommand = none) :
    (initial used commands).activeCommand = (initial fresh commands).activeCommand := by
  rw [initial_activeCommand, initial_activeCommand, hactive, Option.or_none]
  obtain ⟨c, hc, hdefault⟩ | hnone := hcommand
  · obtain ⟨d, hd⟩ := Option.isSome_iff_exists.mp (List.find?_isSome.mpr ⟨c, hc, hdefault⟩)
    rw [hd, Option.some_or]
  · rw [hnone, Option.or_none]

/-- The rest of the line, once the same command is selected. -/
theorem scan_ready_agree (h : Unread b used fresh commands args) {c₁ c₂ : ParserContext V}
    {rest : List Token} (halike : Alike used.ovm.values c₁ c₂)
    (hselected : Selected (initial fresh commands) (delivered args) c₂ rest) :
    Agree (SameStop fun _ _ => True) (Alike used.ovm.values) (scan b .ready c₁ rest)
      (scan b .ready c₂ rest) := by
  have hphase : Phase.ready.BehindCommand c₁ := trivial
  obtain ⟨c, hactive⟩ := hselected.exists_activeCommand
  have hcommand : c₁.activeCommand = some c := halike.activeCommand.trans hactive
  have hchosen : chosen (initial fresh commands) (delivered args) = some c :=
    chosen_eq_some_iff.mpr ⟨c₂, rest, hselected, hactive⟩
  have hkey : ∀ front name behind, rest = front ++ name :: behind →
      (∃ entry, scan b .ready c₂ front = .ok entry) →
      ∀ o, c.resolve name = some o → used.ovm.values o.key = [] := by
    rintro front name behind rfl hfront o ho
    have hvalue : name.1 ≠ .value := by
      intro hvalue
      obtain ⟨text, rfl⟩ := Token.exists_text hvalue
      simp at ho
    obtain ⟨front', hsplit, hahead⟩ := selected_ahead hselected hvalue
    have hchain := isChain_delivered args (.value, "")
    rw [hsplit, ← List.cons_append] at hchain
    have hinPlace : AllInPlace c (initial fresh commands) front' :=
      allInPlace_iff.mpr ((hahead.exists_scan_iff hactive hchain.left_of_append).mp hfront)
    exact h.typed c hchosen front' name behind hsplit hinPlace o ho
  have hscan := scan_agree (b := b) halike hphase hcommand (.refl _) (fun hne => absurd rfl hne)
    hkey
  exact hscan.mono (fun _ _ h => h.mono fun _ _ _ => trivial) fun _ _ h => h

/-- The passes agree when no command is typed. -/
theorem pass_agree_of_probed_eq_nil (hallow : used.allowLongOptionValueWithNoEqual =
      fresh.allowLongOptionValueWithNoEqual)
    (hactive : fresh.activeCommand = none) (hovm : fresh.ovm = ∅)
    (h : Unread b used fresh commands args) (hnil : probed commands (delivered args) = []) :
    Agree (SameStop fun _ _ => True) (Alike used.ovm.values) (pass b used commands args)
      (pass b fresh commands args) := by
  have hprobed : ∀ context : CommandLineContext V,
      probed (initial context commands).commands (delivered args) = [] := fun context => by
    rw [initial_commands, hnil]
  have hstart : (initial used commands).activeCommand =
      (initial fresh commands).activeCommand := by
    obtain hdefault | hnone | hne := h.command
    · exact initialActive_eq hactive (.inl hdefault)
    · exact initialActive_eq hactive (.inr hnone)
    · exact absurd hnil hne
  have halike : Alike used.ovm.values (initial used commands) (initial fresh commands) := by
    have halike := initial_alike commands hallow hovm none []
    exact ⟨halike.allowLong, halike.commands, hstart, halike.activeOption,
      by simpa using halike.positionalTokens, halike.values⟩
  have hscan := fun context : CommandLineContext V =>
    ((scan_start (b := b) (initial context commands) (delivered args)).resolve_left
      fun hne => hne.1 (hprobed context)).2
  rw [pass, pass]
  obtain ⟨hsome₁, hscan₁⟩ | ⟨hnone₁, message₁, hscan₁⟩ := hscan used
  · obtain ⟨hsome₂, hscan₂⟩ | ⟨hnone₂, -⟩ := hscan fresh
    · rw [hscan₁, hscan₂]
      exact scan_ready_agree h halike (.direct (hprobed fresh) hsome₂)
    · simp [hstart, hnone₂] at hsome₁
  · obtain ⟨hsome₂, -⟩ | ⟨-, message₂, hscan₂⟩ := hscan fresh
    · simp [← hstart, hnone₁] at hsome₂
    · rw [hscan₁, hscan₂]
      exact .error (.rejected _ _ trivial)

/-- The passes agree. -/
theorem pass_agree (hallow : used.allowLongOptionValueWithNoEqual =
      fresh.allowLongOptionValueWithNoEqual)
    (hactive : fresh.activeCommand = none) (hovm : fresh.ovm = ∅)
    (h : Unread b used fresh commands args) :
    Agree (SameStop fun _ _ => True) (Alike used.ovm.values) (pass b used commands args)
      (pass b fresh commands args) := by
  by_cases hnil : probed commands (delivered args) = []
  · exact pass_agree_of_probed_eq_nil hallow hactive hovm h hnil
  · have hprobed : ∀ context : CommandLineContext V,
        probed (initial context commands).commands (delivered args) =
          probed commands (delivered args) := fun context => by rw [initial_commands]
    have hscan := fun context : CommandLineContext V =>
      (scan_start (b := b) (initial context commands) (delivered args)).resolve_right
        fun hno => hnil ((hprobed context).symm.trans hno.1)
    obtain ⟨-, segments₁, hscan₁⟩ := hscan used
    obtain ⟨-, segments₂, hscan₂⟩ := hscan fresh
    rw [pass, pass, hscan₁, hscan₂, hprobed, hprobed]
    cases hrest : (delivered args).drop (probed commands (delivered args)).length with
    | nil =>
        refine (select_agree hallow hovm _ _ _).bind fun c₁ c₂ _ _ halike => ?_
        rw [initial_commands, initial_commands]
        cases (longest Command.path commands (probed commands (delivered args))).isNone with
        | true => exact Agree.bind_same (SameStop.refl fun _ => trivial) _ fun _ _ => .ok halike
        | false => exact .ok halike
    | cons token rest =>
        refine (select_agree hallow hovm _ _ _).bind fun c₁ c₂ _ hselect halike => ?_
        rw [← hprobed fresh] at hselect hnil hrest
        rw [← hrest]
        exact scan_ready_agree h halike (selected_of_select hnil hselect)

/-- The line alone leaves the values for `FinalState`. -/
theorem gathered_initial (c : Command V) (context : CommandLineContext V)
    (commands : List (Command V)) (tokens : List Token) :
    (gathered c (initial context commands) tokens).positionalTokens =
      freeValues c none (behindPath commands tokens) := by
  obtain ⟨activeCommand, hinitial⟩ := initial_eq context commands
  rw [gathered, hinitial]
  rfl

/-- What a fresh context is like when `FinalState` is entered. -/
theorem entry_of_fresh (hovm : fresh.ovm = ∅) {entry : ParserContext V}
    (hpass : pass b fresh commands args = .ok entry) :
    ∃ c, chosen (initial fresh commands) (delivered args) = some c ∧
      entry.activeCommand = some c ∧
      InTime b (initial fresh commands).commands (delivered args) ∧
      AllInPlace c (initial fresh commands) (delivered args) ∧
      entry.positionalTokens =
        (gathered c (initial fresh commands) (delivered args)).positionalTokens ∧
      entry.ovm = (gathered c (initial fresh commands) (delivered args)).ovm ∧
      ∀ ps k, (storePositionals entry ps).ovm.values k =
        flagged false (optionsGiven c (delivered args) k) ++
          flagged true (positionalsGiven ps k) := by
  obtain ⟨c, hentry⟩ := entry_of_pass hpass
  obtain ⟨htime, c', hchosen, hinOrder⟩ :=
    (exists_scan_iff (isChain_delivered args (.value, ""))).mp ⟨entry, hpass⟩
  obtain rfl := Option.some.inj (hchosen.symm.trans hentry.chosen)
  obtain ⟨activeCommand, hinitial⟩ := initial_eq fresh commands
  obtain ⟨htokens, hgathered⟩ := hentry.gathered_eq
  refine ⟨c', hchosen, hentry.activeCommand, htime, allInPlace_iff.mpr hinOrder, htokens, hgathered,
    fun ps k => ?_⟩
  rw [storePositionals, values_storeAll_positionals, hentry.values, hinitial]
  simp [ParserContext.new, hovm]

/-- **Lines that read nothing of what is left** end as in a fresh context, with the same
contents if they succeed. -/
theorem runsAlike_of_unread (hallow : used.allowLongOptionValueWithNoEqual =
      fresh.allowLongOptionValueWithNoEqual)
    (hactive : fresh.activeCommand = none) (hovm : fresh.ovm = ∅)
    (h : Unread b used fresh commands args) :
    RunsAlike (fun noErrors c₁ c₂ => noErrors = true → SameContents c₁ c₂) b used fresh commands
      args args := by
  refine runsAlike_of_conclude (conclude_agree ((pass_agree hallow hactive hovm h).attach.mono
    (fun _ _ h => h) fun entry₁ entry₂ hr => ?_) fun _ _ _ _ _ herror => by cases herror)
  obtain ⟨-, hpass, halike⟩ := hr
  obtain ⟨c, hchosen, hcommand, htime, hinPlace, htokens, hgathered, -⟩ := entry_of_fresh hovm hpass
  have hchecked : ∀ ps, assigned c.positionalArgs entry₂.positionalTokens = some ps →
      Unnoticed (c.options ++ c.positionalArgs) used.ovm.values
        (storePositionals entry₂ ps).ovm := by
    intro ps hassigned
    have hexamined := h.checked c ps hchosen htime hinPlace (htokens ▸ hassigned)
    refine unnoticed_of_refilled fun k => ?_
    rw [storePositionals, hgathered]
    exact hexamined k
  refine verdict_agree ((settle_agree halike (halike.activeCommand.trans hcommand) hchecked).mono
    (fun _ _ h => h) fun r₁ r₂ hr => ?_)
  obtain ⟨hstatus, stale', halike', hend, -⟩ := hr
  exact ⟨hstatus, fun _ _ _ herror => (by cases herror),
    fun hne _ => halike'.sameContents (hend hne)⟩

theorem mem_occurrences {c : Command V} {tokens : List Token} {token : Token}
    (htoken : token ∈ tokens) {o : ClapOption V} (h : c.resolve token = some o) :
    ∃ value, (o, value) ∈ occurrences c tokens := by
  obtain ⟨before, behind, rfl⟩ := List.append_of_mem htoken
  induction before with
  | nil => exact ⟨_, by rw [List.nil_append, occurrences_cons_of_some h]; exact .head _⟩
  | cons t before ih =>
      obtain ⟨value, hmem⟩ := ih (by simp)
      refine ⟨value, ?_⟩
      rw [List.cons_append, occurrences]
      cases c.resolve t with
      | none => exact hmem
      | some o' => exact .tail _ hmem

/-- An option typed has been given a value. -/
theorem optionsGiven_ne_nil {c : Command V} {tokens : List Token} {token : Token}
    (htoken : token ∈ tokens) {o : ClapOption V} (h : c.resolve token = some o)
    (hgiven : ∀ p ∈ occurrences c tokens, p.2.isSome) : optionsGiven c tokens o.key ≠ [] := by
  obtain ⟨value, hmem⟩ := mem_occurrences htoken h
  obtain ⟨v, rfl⟩ := Option.isSome_iff_exists.mp (hgiven _ hmem)
  refine List.ne_nil_of_mem (a := v) (List.mem_filterMap.mpr ⟨(o, some v), ?_, rfl⟩)
  simpa using hmem

theorem left_eq_nil_of_orDefault {left given : List (OptionValue V)} {d : Option (V × String)}
    (h : orDefault (left ++ given) d = orDefault given d) (hgiven : given ≠ []) : left = [] := by
  rw [orDefault_of_ne_nil hgiven, orDefault_of_ne_nil
    (List.append_ne_nil_of_right_ne_nil left hgiven)] at h
  simpa using h

/-- What is left makes no difference if there is none, or if it is the default that would be
stored anyway. -/
theorem left_of_orDefault {left given : List (OptionValue V)} {default : Option (V × String)}
    (h : orDefault (left ++ given) default = orDefault given default) :
    left = [] ∨ given = [] ∧ ∃ d, default = some d ∧ left = [⟨d.1, d.2, false⟩] := by
  by_cases hgiven : given = []
  · subst hgiven
    rw [List.append_nil] at h
    cases left with
    | nil => exact .inl rfl
    | cons value values =>
        rw [orDefault_of_ne_nil (List.cons_ne_nil value values)] at h
        cases default with
        | none => cases h
        | some d => exact .inr ⟨rfl, d, rfl, h⟩
  · exact .inl (left_eq_nil_of_orDefault h hgiven)

/-- **Lines that succeed with the same contents** have read nothing of what is left. -/
theorem unread_of_sameContents (hactive : fresh.activeCommand = none) (hovm : fresh.ovm = ∅)
    {result₁ result₂ : ParserContext V}
    (h₁ : Parses b used commands args (.returned true result₁))
    (h₂ : Parses b fresh commands args (.returned true result₂))
    (h : SameContents result₁ result₂) : Unread b used fresh commands args := by
  obtain ⟨c₁, ps₁, -, hactive₁, hassigned₁, -, hvalues₁⟩ := contents_behind_of_parses h₁
  obtain ⟨c, ps, hchosen, hactive₂, hassigned, hgiven, hvalues⟩ := contents_of_parses hovm h₂
  obtain rfl : c = c₁ := by simpa [hactive₁, hactive₂] using h.1.symm
  obtain rfl : ps = ps₁ := by simpa [hassigned] using hassigned₁
  have hsame : ∀ k, orDefault (used.ovm.values k ++
        (flagged false (optionsGiven c (delivered args) k) ++ flagged true (positionalsGiven ps k)))
        (firstDefault (c.options ++ c.positionalArgs) k) =
      orDefault
        (flagged false (optionsGiven c (delivered args) k) ++ flagged true (positionalsGiven ps k))
        (firstDefault (c.options ++ c.positionalArgs) k) := by
    intro k
    rw [← List.append_assoc, ← hvalues₁, ← hvalues]
    exact h.2 k
  constructor
  · by_cases hprobed : probed commands (delivered args) = []
    · rw [chosen, initial_commands, if_pos hprobed, initial_activeCommand, hactive,
        Option.or_none] at hchosen
      exact .inl ⟨c, List.mem_of_find?_eq_some hchosen, List.find?_some hchosen⟩
    · exact .inr (.inr hprobed)
  · intro c' hc' front name behind hsplit _ o ho
    obtain rfl : c = c' := by simpa [hchosen] using hc'
    refine left_eq_nil_of_orDefault (hsame o.key) (List.append_ne_nil_of_left_ne_nil ?_ _)
    rw [Ne, flagged_eq_nil]
    exact optionsGiven_ne_nil (by simp [hsplit]) ho hgiven
  · intro c' ps' hc' _ _ hps' given k _
    obtain rfl : c = c' := by simpa [hchosen] using hc'
    obtain ⟨entry, hpass, hsettle⟩ := parses_true_iff.mp h₂
    obtain ⟨c', hchosen', hcommand, -, -, htokens, hgathered, hentry⟩ := entry_of_fresh hovm hpass
    obtain rfl : c = c' := by simpa [hchosen] using hchosen'
    obtain ⟨hfaults, ps₁, hassigned₁, hlacks⟩ :=
      (exists_settle_terminate_iff hcommand).mp ⟨_, hsettle⟩
    have hfree := gathered_initial c fresh commands (delivered args)
    obtain rfl : ps = ps' := by simpa [hfree, hassigned] using hps'
    obtain rfl : ps = ps₁ := by simpa [htokens, hfree, hassigned] using hassigned₁
    have hnull := fun h => hfaults (.asks hassigned₁ h)
    have hgivenAs : given = (storePositionals entry ps).ovm := by
      rw [storePositionals, hgathered]
    have hk := hsame k
    rw [← hentry ps k] at hk
    rw [hgivenAs]
    obtain hnone | ⟨hnil, d, hdefault, hleft⟩ := left_of_orDefault hk
    · exact .inl hnone
    · exact .inr (refilled_of_eq hnull hlacks hnil hdefault hleft)

end

end Parser

end AsapClap
