import AsapClap.Parser.Values

/-!
# AsapClap.Parser.Final

The end of a parse, `FinalState::OnEnter`: positional tokens are assigned to the
positional arguments, from the front up to the `Rest` argument and from the back
behind it, and options without a value get their default.

`takePositionals` and `firstDefault` say which token or default an argument gets,
as functions of the declarations alone.
-/

namespace AsapClap

variable {V : Type}

/-! ## Reference semantics -/

/-- The default value of an option, and its text. -/
def ClapOption.default? (o : ClapOption V) : Option (V × String) :=
  o.valueSemantic.bind (·.applyDefault)

/-- The next token for a positional argument, and the others: the first up to the
`Rest` argument, the last behind it. -/
def pick (beforeRest : Bool) (tokens : List String) : Option (String × List String) :=
  if beforeRest then tokens.head?.map (·, tokens.tail) else tokens.getLast?.map (·, tokens.dropLast)

/-- The positional arguments other than `Rest`, each with the token it picks, and
the tokens that are left. -/
def takePositionals : Bool → List (ClapOption V) → List String →
    Option (List (ClapOption V × String) × List String)
  | _, [], tokens => some ([], tokens)
  | beforeRest, o :: args, tokens =>
      if o.isPositionalRest then takePositionals false args tokens
      else (pick beforeRest tokens).bind fun p =>
        (takePositionals beforeRest args p.2).map fun q => ((o, p.1) :: q.1, q.2)

/-- The last `Rest` argument. -/
def lastRest (args : List (ClapOption V)) : Option (ClapOption V) :=
  (args.filter ClapOption.isPositionalRest).getLast?

/-- The token each positional argument gets, `Rest` taking all that are left. -/
def assigned (args : List (ClapOption V)) (tokens : List String) :
    Option (List (ClapOption V × String)) :=
  (takePositionals true args tokens).bind fun p => match p.2, lastRest args with
    | [], _ => some p.1
    | left, some rest => some (p.1 ++ left.map fun token => (rest, token))
    | _, none => none

/-- The first default among the options with a key. -/
def firstDefault (options : List (ClapOption V)) (k : String) : Option (V × String) :=
  ((options.filter fun o => o.key = k).filterMap ClapOption.default?).head?

/-- A required option is without a value: it was given none, has no default, and
no option with its key in front of it has one either. -/
def Lacks (options : List (ClapOption V)) (ovm : OptionValuesMap V) : Prop :=
  ∃ before option behind, options = before ++ option :: behind ∧ option.isRequired = true ∧
    option.default? = none ∧ ovm.values option.key = [] ∧ firstDefault before option.key = none

/-- Values that were given, or else one that is a default. -/
def orDefault (given : List (OptionValue V)) (default? : Option (V × String)) :
    List (OptionValue V) :=
  if given.isEmpty then (default?.map fun p => ⟨p.1, p.2, false⟩).toList else given

/-- The map entry of a positional argument that gets a token. -/
def positionalEntry (p : ClapOption V × String) : Option (String × OptionValue V) :=
  (p.1.parse p.2).map fun value => (p.1.key, ⟨value, p.2, true⟩)

/-- The positional arguments other than `Rest`. -/
def nonRest (args : List (ClapOption V)) : List (ClapOption V) :=
  args.filter fun o => !o.isPositionalRest

/-! ## Defaults -/

@[simp] theorem firstDefault_nil (k : String) : firstDefault ([] : List (ClapOption V)) k = none :=
  rfl

theorem firstDefault_cons (o : ClapOption V) (options : List (ClapOption V)) (k : String) :
    firstDefault (o :: options) k =
      (if o.key = k then o.default? else none).or (firstDefault options k) := by
  by_cases hk : o.key = k
  · cases hd : o.default? <;> simp [firstDefault, hk, hd]
  · simp [firstDefault, hk]

/-- The options in front decide first. -/
theorem firstDefault_append (options options' : List (ClapOption V)) (k : String) :
    firstDefault (options ++ options') k =
      (firstDefault options k).or (firstDefault options' k) := by
  simp [firstDefault]

/-- Without defaults there is no first one. -/
theorem firstDefault_eq_none {options : List (ClapOption V)} (h : ∀ o ∈ options, o.default? = none)
    (k : String) : firstDefault options k = none := by
  rw [firstDefault, List.head?_eq_none_iff, List.filterMap_eq_nil_iff]
  exact fun o ho => h o (List.mem_of_mem_filter ho)

@[simp] theorem orDefault_none (given : List (OptionValue V)) : orDefault given none = given := by
  cases given <;> rfl

theorem orDefault_eq_nil {given : List (OptionValue V)} {default? : Option (V × String)} :
    orDefault given default? = [] ↔ given = [] ∧ default? = none := by
  cases given <;> cases default? <;> simp [orDefault]

/-- A default does not replace what was given. -/
theorem orDefault_of_ne_nil {given : List (OptionValue V)} (h : given ≠ [])
    (default? : Option (V × String)) : orDefault given default? = given := by
  simp [orDefault, h]

@[simp] theorem not_lacks_nil (ovm : OptionValuesMap V) : ¬ Lacks [] ovm := by
  simp [Lacks]

/-- The first of the options lacks a value, or one of the others does. -/
theorem lacks_cons {o : ClapOption V} {options : List (ClapOption V)} {ovm : OptionValuesMap V} :
    Lacks (o :: options) ovm ↔
      (o.isRequired = true ∧ o.default? = none ∧ ovm.values o.key = []) ∨
        ∃ before option behind, options = before ++ option :: behind ∧ option.isRequired = true ∧
          option.default? = none ∧ ovm.values option.key = [] ∧
            firstDefault (o :: before) option.key = none := by
  constructor
  · rintro ⟨before, option, behind, hsplit, hrequired, hdefault, hvalues, hbefore⟩
    cases before with
    | nil =>
        cases hsplit
        exact .inl ⟨hrequired, hdefault, hvalues⟩
    | cons first before =>
        cases hsplit
        exact .inr ⟨before, option, behind, rfl, hrequired, hdefault, hvalues, hbefore⟩
  · rintro (⟨hrequired, hdefault, hvalues⟩ |
      ⟨before, option, behind, rfl, hrequired, hdefault, hvalues, hbefore⟩)
    · exact ⟨[], o, options, rfl, hrequired, hdefault, hvalues, rfl⟩
    · exact ⟨o :: before, option, behind, rfl, hrequired, hdefault, hvalues, hbefore⟩

/-- An option with values is not lacking. -/
theorem lacks_cons_of_given {o : ClapOption V} {options : List (ClapOption V)}
    {ovm : OptionValuesMap V} (h : ovm.values o.key ≠ []) :
    Lacks (o :: options) ovm ↔ Lacks options ovm := by
  have hbefore : ∀ (before : List (ClapOption V)) (option : ClapOption V),
      ovm.values option.key = [] →
      firstDefault (o :: before) option.key = firstDefault before option.key := by
    intro before option hvalues
    have hne : o.key ≠ option.key := fun hk => h (hk ▸ hvalues)
    simp [firstDefault_cons, hne]
  rw [lacks_cons, Lacks]
  constructor
  · rintro (⟨-, -, hvalues⟩ | ⟨before, option, behind, hsplit, hrequired, hdefault, hvalues, hnone⟩)
    · exact absurd hvalues h
    · exact ⟨before, option, behind, hsplit, hrequired, hdefault, hvalues,
        hbefore before option hvalues ▸ hnone⟩
  · rintro ⟨before, option, behind, hsplit, hrequired, hdefault, hvalues, hnone⟩
    exact .inr ⟨before, option, behind, hsplit, hrequired, hdefault, hvalues,
      (hbefore before option hvalues).trans hnone⟩

/-- An option with a default is not lacking, and the default counts for the options behind it. -/
theorem lacks_cons_of_default {o : ClapOption V} {options : List (ClapOption V)}
    {ovm : OptionValuesMap V} (v : OptionValue V) (h : o.default?.isSome) :
    Lacks (o :: options) ovm ↔ Lacks options (ovm.store o.key v) := by
  obtain ⟨p, hdefault⟩ := Option.isSome_iff_exists.mp h
  rw [lacks_cons, Lacks]
  simp only [hdefault, firstDefault_cons, Multimap.values_store]
  constructor
  · rintro (⟨-, hnone, -⟩ | ⟨before, option, behind, hsplit, hrequired, hnone, hvalues', hbefore⟩)
    · cases hnone
    · have hne : o.key ≠ option.key := by
        intro hk
        simp [hk] at hbefore
      exact ⟨before, option, behind, hsplit, hrequired, hnone, by simp [hne, hvalues'],
        by simpa [hne] using hbefore⟩
  · rintro ⟨before, option, behind, hsplit, hrequired, hnone, hvalues', hbefore⟩
    have hne : o.key ≠ option.key := by
      intro hk
      simp [hk] at hvalues'
    exact .inr ⟨before, option, behind, hsplit, hrequired, hnone, by simpa [hne] using hvalues',
      by simpa [hne] using hbefore⟩

/-- Without values and without a default an option lacks if it is required. -/
theorem lacks_cons_of_no_default {o : ClapOption V} {options : List (ClapOption V)}
    {ovm : OptionValuesMap V} (h : o.default? = none) (hvalues : ovm.values o.key = []) :
    Lacks (o :: options) ovm ↔ o.isRequired = true ∨ Lacks options ovm := by
  rw [lacks_cons, Lacks]
  simp [h, hvalues, firstDefault_cons]

/-- Where nothing is lacking, a required option has a value, given or default. -/
theorem orDefault_ne_nil_of_not_lacks {o : ClapOption V} {options : List (ClapOption V)}
    {ovm : OptionValuesMap V} (h : ¬ Lacks options ovm) (ho : o ∈ options)
    (hrequired : o.isRequired = true) :
    orDefault (ovm.values o.key) (firstDefault options o.key) ≠ [] := by
  obtain ⟨before, behind, rfl⟩ := List.append_of_mem ho
  intro hnil
  obtain ⟨hvalues, hdefault⟩ := orDefault_eq_nil.mp hnil
  rw [firstDefault_append, Option.or_eq_none_iff, firstDefault_cons, if_pos rfl,
    Option.or_eq_none_iff] at hdefault
  exact h ⟨before, o, behind, rfl, hrequired, hdefault.2.1, hvalues, hdefault.1⟩

/-! ## Tokens -/

/-- A rest option in front is overridden by one behind it. -/
theorem lastRest_cons_of_rest {o : ClapOption V} (h : o.isPositionalRest = true)
    (args : List (ClapOption V)) : lastRest (o :: args) = (lastRest args).or (some o) := by
  rw [lastRest, List.filter_cons_of_pos h, List.getLast?_cons]
  cases hlast : (args.filter ClapOption.isPositionalRest).getLast? <;> simp [lastRest, hlast]

/-- Nothing but rest options. -/
theorem nonRest_eq_nil_iff {args : List (ClapOption V)} :
    nonRest args = [] ↔ ∀ o ∈ args, o.isPositionalRest = true := by
  simp [nonRest, List.filter_eq_nil_iff]

/-- `Rest` arguments pick no token. -/
theorem takePositionals_of_rest {args : List (ClapOption V)}
    (h : ∀ o ∈ args, o.isPositionalRest = true) (beforeRest : Bool) (tokens : List String) :
    takePositionals beforeRest args tokens = some ([], tokens) := by
  induction args generalizing beforeRest with
  | nil => rfl
  | cons o args ih =>
      obtain ⟨ho, hargs⟩ := List.forall_mem_cons.mp h
      rw [takePositionals, if_pos ho, ih hargs]

/-- Every one of these arguments is positional, as far as that is checked, and those
other than `Rest` have value semantics. -/
def Served (b : Build) (args : List (ClapOption V)) : Prop :=
  (b = .debug → ∀ o ∈ args, o.isPositional = true) ∧
    ∀ o ∈ args, o.isPositionalRest = false → o.valueSemantic.isSome

/-- One more option that is served. -/
theorem Served.cons {b : Build} {o : ClapOption V} {args : List (ClapOption V)}
    (hpositional : b = .debug → o.isPositional = true)
    (hsem : o.isPositionalRest = false → o.valueSemantic.isSome) (h : Served b args) :
    Served b (o :: args) :=
  ⟨fun hb => List.forall_mem_cons.mpr ⟨hpositional hb, h.1 hb⟩,
    List.forall_mem_cons.mpr ⟨hsem, h.2⟩⟩

/-- There is nothing to pick only if there are no tokens. -/
theorem pick_eq_none {beforeRest : Bool} {tokens : List String} :
    pick beforeRest tokens = none ↔ tokens = [] := by
  cases beforeRest <;> simp [pick]

/-- A pick takes one token. -/
theorem length_of_pick {beforeRest : Bool} {token : String} {tokens others : List String}
    (h : pick beforeRest tokens = some (token, others)) : others.length + 1 = tokens.length := by
  cases tokens with
  | nil => cases beforeRest <;> simp [pick] at h
  | cons t tokens =>
      cases beforeRest with
      | true =>
          obtain ⟨-, rfl⟩ : t = token ∧ tokens = others := by simpa [pick] using h
          rfl
      | false =>
          have hothers : (t :: tokens).dropLast = others := by
            simp only [pick, Bool.false_eq_true, if_false, Option.map_eq_some_iff] at h
            obtain ⟨_, -, h⟩ := h
            exact congrArg Prod.snd h
          rw [← hothers, List.length_dropLast]
          rfl

/-- Every argument other than `Rest` picks a token. -/
theorem takePositionals_isSome_iff (beforeRest : Bool) (args : List (ClapOption V))
    (tokens : List String) :
    (takePositionals beforeRest args tokens).isSome ↔ (nonRest args).length ≤ tokens.length := by
  induction args generalizing beforeRest tokens with
  | nil => simp [takePositionals, nonRest]
  | cons o args ih =>
      rw [takePositionals]
      by_cases hrest : o.isPositionalRest = true
      · rw [if_pos hrest, ih]
        simp [nonRest, hrest]
      · have hlen : (nonRest (o :: args)).length = (nonRest args).length + 1 := by
          simp [nonRest, hrest]
        rw [if_neg hrest, hlen]
        cases hpick : pick beforeRest tokens with
        | none =>
            obtain rfl := pick_eq_none.mp hpick
            simp
        | some p =>
            have hlen' := length_of_pick hpick
            rw [Option.bind_some, Option.isSome_map, ih]
            omega

/-- Tokens are given to options of the list only. -/
theorem mem_of_takePositionals {beforeRest : Bool} {args : List (ClapOption V)}
    {tokens left : List String} {ps : List (ClapOption V × String)}
    (h : takePositionals beforeRest args tokens = some (ps, left)) : ∀ p ∈ ps, p.1 ∈ args := by
  induction args generalizing beforeRest tokens ps with
  | nil =>
      cases h
      simp
  | cons o args ih =>
      rw [takePositionals] at h
      split at h
      · intro p hp
        exact List.mem_cons_of_mem _ (ih h p hp)
      · obtain ⟨⟨token, others⟩, -, h⟩ := Option.bind_eq_some_iff.mp h
        obtain ⟨⟨qs, left'⟩, htake, h⟩ := Option.map_eq_some_iff.mp h
        cases h
        rw [List.forall_mem_cons]
        exact ⟨List.mem_cons_self .., fun p hp => List.mem_cons_of_mem _ (ih htake p hp)⟩

/-- Only positional arguments get a token. -/
theorem mem_of_assigned {args : List (ClapOption V)} {tokens : List String}
    {ps : List (ClapOption V × String)} (h : assigned args tokens = some ps) :
    ∀ p ∈ ps, p.1 ∈ args := by
  obtain ⟨⟨qs, left⟩, htake, h⟩ := Option.bind_eq_some_iff.mp h
  have hqs := mem_of_takePositionals htake
  cases left with
  | nil =>
      cases h
      exact hqs
  | cons token left =>
      cases hlast : lastRest args with
      | none => simp [hlast] at h
      | some rest =>
          have hrest : rest ∈ args := (List.mem_filter.mp (List.mem_of_getLast? hlast)).1
          obtain rfl : qs ++ (token :: left).map (fun token => (rest, token)) = ps := by
            simpa [hlast] using h
          intro p hp
          obtain hp | hp := List.mem_append.mp hp
          · exact hqs p hp
          · obtain ⟨_, -, rfl⟩ := List.mem_map.mp hp
            exact hrest

/-- Each option but the rest options takes one token. -/
theorem length_of_takePositionals {beforeRest : Bool} {args : List (ClapOption V)}
    {tokens left : List String} {ps : List (ClapOption V × String)}
    (h : takePositionals beforeRest args tokens = some (ps, left)) :
    (nonRest args).length + left.length = tokens.length := by
  induction args generalizing beforeRest tokens ps with
  | nil =>
      cases h
      simp [nonRest]
  | cons o args ih =>
      rw [takePositionals] at h
      split at h
      · next hrest => simpa [nonRest, hrest] using ih h
      · next hrest =>
        obtain ⟨⟨token, others⟩, hpick, h⟩ := Option.bind_eq_some_iff.mp h
        obtain ⟨⟨qs, left'⟩, htake, h⟩ := Option.map_eq_some_iff.mp h
        cases h
        have hlen := length_of_pick hpick
        have hothers := ih htake
        simp only [nonRest] at hothers
        simp only [nonRest, hrest, Bool.not_false, List.filter_cons_of_pos, List.length_cons]
        omega

/-- Without a rest option all options take a token. -/
theorem nonRest_of_lastRest_none {args : List (ClapOption V)} (h : lastRest args = none) :
    nonRest args = args := by
  rw [lastRest, List.getLast?_eq_none_iff, List.filter_eq_nil_iff] at h
  rw [nonRest, List.filter_eq_self]
  intro o ho
  simpa using h o ho

/-- A key that no token is assigned to keeps its values. -/
theorem values_storeAll_positionalEntry {ps : List (ClapOption V × String)} {k : String}
    (h : ∀ p ∈ ps, p.1.key ≠ k) (ovm : OptionValuesMap V) :
    (ovm.storeAll (ps.filterMap positionalEntry)).values k = ovm.values k := by
  have hnone : (ps.filterMap positionalEntry).filter (fun e => e.1 = k) = [] := by
    rw [List.filter_eq_nil_iff]
    intro e he
    obtain ⟨p, hp, hentry⟩ := List.mem_filterMap.mp he
    obtain ⟨value, -, rfl⟩ := Option.map_eq_some_iff.mp hentry
    simpa using h p hp
  rw [Multimap.values_storeAll, hnone, List.map_nil, List.append_nil]

namespace Parser

namespace FinalState

open Errors

variable {b : Build} {context context' : ParserContext V}

/-! ## Positional arguments -/

/-- Store what these positional arguments make of their tokens. -/
def storePositionals (context : ParserContext V) (ps : List (ClapOption V × String)) :
    ParserContext V :=
  { context with ovm := context.ovm.storeAll (ps.filterMap positionalEntry) }

@[simp] theorem storePositionals_nil (context : ParserContext V) :
    storePositionals context [] = context := rfl

/-- The pairs are stored one after the other. -/
theorem storePositionals_append (context : ParserContext V) (ps qs : List (ClapOption V × String)) :
    storePositionals context (ps ++ qs) = storePositionals (storePositionals context ps) qs := by
  simp [storePositionals, Multimap.storeAll_append]

theorem storePositionals_cons (context : ParserContext V) (p : ClapOption V × String)
    (ps : List (ClapOption V × String)) :
    storePositionals context (p :: ps) = storePositionals (storePositionals context [p]) ps :=
  storePositionals_append context [p] ps

/-- With value semantics a token is stored, unless it does not parse. -/
theorem storePositional_of_isSome {option : ClapOption V} (h : option.valueSemantic.isSome)
    (context : ParserContext V) (token : String) :
    storePositional b option context token = .ok (storePositionals context [(option, token)]) := by
  obtain ⟨semantics, hsem⟩ := Option.isSome_iff_exists.mp h
  cases hparse : semantics.parse token <;>
    simp [storePositional, hsem, hparse, storePositionals, positionalEntry, ClapOption.parse,
      ParserContext.storeValue, OptionValuesMap.storeValue]

/-- How a missing value semantics shows: a debug build objects, a release build dereferences
null. -/
def IsMissing (b : Build) (fault : Fault) : Prop :=
  match b with
  | .debug => ∃ c, fault = .contract c
  | .release => fault = .nullPointer

/-- A missing descriptor and an empty vector are different crashes. -/
theorem IsMissing.ne_emptyVector {fault : Fault} (h : IsMissing b fault) :
    fault ≠ .emptyVector := by
  rintro rfl
  cases b with
  | debug =>
      obtain ⟨c, hc⟩ := h
      cases hc
  | release => cases h

/-- Without value semantics to store a token crashes, in both builds. -/
theorem storePositional_of_none {option : ClapOption V} (h : option.valueSemantic = none)
    (context : ParserContext V) (token : String) :
    ∃ fault, IsMissing b fault ∧ storePositional b option context token = .error fault := by
  cases b with
  | debug => exact ⟨.contract .hasValueSemantics, ⟨_, rfl⟩, by simp [storePositional, h]⟩
  | release => exact ⟨.nullPointer, rfl, by simp [storePositional, h]⟩

/-- One positional argument picks its token. -/
theorem assign_nonRest {pass : Pass V} {option : ClapOption V}
    (hexpect : b.expect .optionIsPositional option.isPositional = .ok ())
    (hrest : option.isPositionalRest = false) :
    assign b pass option = match pick pass.beforeRest pass.context.positionalTokens with
      | none => .error .emptyVector
      | some (token, others) => do
          let context ← storePositional b option pass.context token
          return { pass with context := { context with positionalTokens := others } } := by
  have hkeep : ∀ context token context', storePositional b option context token = .ok context' →
      context'.positionalTokens = context.positionalTokens := by
    intro context token context' h
    cases hsem : option.valueSemantic with
    | none =>
        obtain ⟨fault, -, hfault⟩ := storePositional_of_none (b := b) hsem context token
        rw [hfault] at h
        cases h
    | some semantics =>
        rw [storePositional_of_isSome (by simp [hsem])] at h
        cases h
        rfl
  rw [assign, hexpect, ok_bind, hrest]
  cases hbefore : pass.beforeRest with
  | true =>
      cases htokens : pass.context.positionalTokens with
      | nil => simp [pick]
      | cons token tokens => simp [pick]
  | false =>
      cases hlast : pass.context.positionalTokens.getLast? with
      | none => simp [pick, hlast]
      | some token =>
          cases hstore : storePositional b option pass.context token with
          | error fault => simp [pick, hlast, hstore]
          | ok context' => simp [pick, hlast, hstore, hkeep _ _ _ hstore]

/-- What the loop over the positional arguments comes to. -/
inductive Assigns (b : Build) (args : List (ClapOption V)) (pass : Pass V) :
    Except Fault (Pass V) → Prop
  /-- every argument other than `Rest` picks a token -/
  | done {ps : List (ClapOption V × String)} {left : List String} {pass' : Pass V}
      (take : takePositionals pass.beforeRest args pass.context.positionalTokens = some (ps, left))
      (context : pass'.context = { storePositionals pass.context ps with positionalTokens := left })
      (rest : pass'.restOption = (lastRest args).or pass.restOption) (served : Served b args) :
      Assigns b args pass (.ok pass')
  /-- one of them finds none -/
  | runsOut (length : pass.context.positionalTokens.length < (nonRest args).length)
      (semantics : ∀ o ∈ (nonRest args).take pass.context.positionalTokens.length,
        o.valueSemantic.isSome) :
      Assigns b args pass (.error .emptyVector)
  /-- one is not positional, or finds a token and has no value semantics -/
  | wrong {fault : Fault} (missing : IsMissing b fault)
      (why : b = .debug ∧ (∃ o ∈ args, o.isPositional = false) ∨
        ∃ o ∈ (nonRest args).take pass.context.positionalTokens.length, o.valueSemantic = none) :
      Assigns b args pass (.error fault)

/-- A `Rest` argument in front is kept for later. -/
theorem Assigns.cons_rest {o : ClapOption V} {args : List (ClapOption V)} {pass : Pass V}
    {result : Except Fault (Pass V)} (hpositional : b = .debug → o.isPositional = true)
    (hrest : o.isPositionalRest = true)
    (h : Assigns b args { pass with restOption := some o, beforeRest := false } result) :
    Assigns b (o :: args) pass result := by
  have hnonRest : nonRest (o :: args) = nonRest args := by simp [nonRest, hrest]
  cases h with
  | done take context rest served =>
      refine .done ?_ context ?_ (served.cons hpositional (by simp [hrest]))
      · rw [takePositionals, if_pos hrest, take]
      · rw [rest, lastRest_cons_of_rest hrest]
        cases lastRest args <;> rfl
  | runsOut length semantics => exact .runsOut (hnonRest ▸ length) (hnonRest ▸ semantics)
  | wrong missing why =>
      refine .wrong missing ?_
      rw [hnonRest]
      exact why.imp_left fun ⟨hb, o', ho', hnot⟩ => ⟨hb, o', List.mem_cons_of_mem _ ho', hnot⟩

/-- Any other argument in front picks a token. -/
theorem Assigns.cons_pick {o : ClapOption V} {args : List (ClapOption V)} {pass : Pass V}
    {token : String} {others : List String} {result : Except Fault (Pass V)}
    (hpositional : b = .debug → o.isPositional = true) (hrest : o.isPositionalRest = false)
    (hsem : o.valueSemantic.isSome)
    (hpick : pick pass.beforeRest pass.context.positionalTokens = some (token, others))
    (h : Assigns b args { pass with
      context := { storePositionals pass.context [(o, token)] with positionalTokens := others } }
      result) :
    Assigns b (o :: args) pass result := by
  have hnonRest : nonRest (o :: args) = o :: nonRest args := by simp [nonRest, hrest]
  have hlastRest : lastRest (o :: args) = lastRest args := by simp [lastRest, hrest]
  have hlength := length_of_pick hpick
  cases h with
  | @done ps left pass' take context rest served =>
      refine @Assigns.done _ b _ _ ((o, token) :: ps) left pass' ?_ ?_ ?_
        (served.cons hpositional fun _ => hsem)
      · rw [takePositionals, if_neg (by simp [hrest]), hpick, Option.bind_some, take]
        rfl
      · rw [context, storePositionals_cons pass.context (o, token) ps]
        rfl
      · rw [rest, hlastRest]
  | runsOut length semantics =>
      refine .runsOut ?_ ?_
      · rw [hnonRest, ← hlength]
        exact Nat.succ_lt_succ length
      · rw [hnonRest, ← hlength, List.take_succ_cons]
        exact List.forall_mem_cons.mpr ⟨hsem, semantics⟩
  | wrong missing why =>
      refine .wrong missing ?_
      rw [hnonRest, ← hlength, List.take_succ_cons]
      obtain ⟨hb, o', ho', hnot⟩ | ⟨o', ho', hnone⟩ := why
      · exact .inl ⟨hb, o', List.mem_cons_of_mem _ ho', hnot⟩
      · exact .inr ⟨o', List.mem_cons_of_mem _ ho', hnone⟩

/-- The loop assigns the tokens from the first argument to the last. -/
theorem foldlM_assign (args : List (ClapOption V)) (pass : Pass V) :
    Assigns b args pass (args.foldlM (assign b) pass) := by
  induction args generalizing pass with
  | nil => exact .done rfl rfl (by simp [lastRest]) (by simp [Served])
  | cons o args ih =>
      rw [List.foldlM_cons]
      by_cases hexpect : b.expect .optionIsPositional o.isPositional = .ok ()
      · have hpositional : b = .debug → o.isPositional = true := by
          rintro rfl
          by_contra hnot
          rw [Bool.not_eq_true] at hnot
          simp [hnot] at hexpect
        by_cases hrest : o.isPositionalRest = true
        · have hassign : assign b pass o =
              .ok { pass with restOption := some o, beforeRest := false } := by
            simp [assign, hexpect, hrest]
          rw [hassign, ok_bind]
          exact (ih _).cons_rest hpositional hrest
        · rw [Bool.not_eq_true] at hrest
          have hnonRest : nonRest (o :: args) = o :: nonRest args := by simp [nonRest, hrest]
          rw [assign_nonRest hexpect hrest]
          cases hpick : pick pass.beforeRest pass.context.positionalTokens with
          | none =>
              have hnil := pick_eq_none.mp hpick
              exact .runsOut (by simp [hnonRest, hnil]) (by simp [hnil])
          | some p =>
              obtain ⟨token, others⟩ := p
              cases hsem : o.valueSemantic with
              | none =>
                  obtain ⟨fault, hmissing, hstore⟩ :=
                    storePositional_of_none (b := b) hsem pass.context token
                  simp only [hstore, error_bind]
                  refine .wrong hmissing (.inr ⟨o, ?_, hsem⟩)
                  rw [hnonRest, ← length_of_pick hpick, List.take_succ_cons]
                  exact List.mem_cons_self
              | some semantics =>
                  have hisSome : o.valueSemantic.isSome := by simp [hsem]
                  simp only [storePositional_of_isSome hisSome, ok_bind, pure_eq_ok]
                  exact (ih _).cons_pick hpositional hrest hisSome hpick
      -- the assertion fails, in a debug build, for an option that is not positional
      · have hnot : b = .debug ∧ o.isPositional = false := by
          cases b <;> cases h : o.isPositional <;> simp [h] at hexpect ⊢
        have hassign : assign b pass o = .error (.contract .optionIsPositional) := by
          simp [assign, hnot.1, hnot.2]
        rw [hassign, error_bind]
        refine .wrong ?_ (.inl ⟨hnot.1, o, List.mem_cons_self, hnot.2⟩)
        rw [hnot.1]
        exact ⟨_, rfl⟩

/-- The rest option with value semantics stores all the tokens that are left. -/
theorem foldlM_storePositional_of_isSome {option : ClapOption V}
    (h : option.valueSemantic.isSome) (tokens : List String) (context : ParserContext V) :
    tokens.foldlM (storePositional b option) context =
      .ok (storePositionals context (tokens.map fun token => (option, token))) := by
  induction tokens generalizing context with
  | nil => rfl
  | cons token tokens ih =>
      rw [List.foldlM_cons, storePositional_of_isSome h, ok_bind, ih, ← storePositionals_append]
      rfl

/-! ## Options without a value -/

/-- The default of an option is that of its descriptor. -/
theorem default?_of_some {o : ClapOption V} {semantics : ValueSemantics V}
    (h : o.valueSemantic = some semantics) : o.default? = semantics.applyDefault := by
  simp [ClapOption.default?, h]

/-- What `CheckRequiredOptions` comes to. -/
inductive Checks (options : List (ClapOption V)) (context : ParserContext V) :
    Except Fault (Option String × ParserContext V) → Prop
  /-- every key holds the values it was given or else its first default -/
  | complete {ovm : OptionValuesMap V}
      (values : ∀ k, ovm.values k = orDefault (context.ovm.values k) (firstDefault options k))
      (lacks : ¬ Lacks options context.ovm) :
      Checks options context (.ok (none, { context with ovm }))
  /-- an option lacks a value -/
  | lacking {o : ClapOption V} {ovm : OptionValuesMap V} (mem : o ∈ options)
      (required : o.isRequired = true) (default : o.default? = none)
      (given : context.ovm.values o.key = []) (lacks : Lacks options context.ovm) :
      Checks options context
        (.ok (some (missingRequiredOption context.activeCommand o), { context with ovm }))
  /-- an option has no value semantics to ask for a default -/
  | asks (semantics : ∃ o ∈ options, o.valueSemantic = none) :
      Checks options context (.error .nullPointer)

/-- Checking one option changes the values at most, and in such a way that the others see no
difference. -/
theorem Checks.cons {o : ClapOption V} {options : List (ClapOption V)} {context : ParserContext V}
    {ovm : OptionValuesMap V} {result : Except Fault (Option String × ParserContext V)}
    (hvalues : ∀ k, orDefault (ovm.values k) (firstDefault options k) =
      orDefault (context.ovm.values k) (firstDefault (o :: options) k))
    (hgiven : ∀ k, ovm.values k = [] → context.ovm.values k = [])
    (hlacks : Lacks (o :: options) context.ovm ↔ Lacks options ovm)
    (h : Checks options { context with ovm } result) : Checks (o :: options) context result := by
  cases h with
  | complete values lacks =>
      exact .complete (fun k => (values k).trans (hvalues k)) (hlacks.not.mpr lacks)
  | lacking mem required default given lacks =>
      exact .lacking (List.mem_cons_of_mem _ mem) required default (hgiven _ given)
        (hlacks.mpr lacks)
  | asks semantics =>
      obtain ⟨o', ho', hsem⟩ := semantics
      exact .asks ⟨o', List.mem_cons_of_mem _ ho', hsem⟩

/-- An option that is there needs no default. -/
theorem Checks.cons_given {o : ClapOption V} {options : List (ClapOption V)}
    {context : ParserContext V} {result : Except Fault (Option String × ParserContext V)}
    (hgiven : context.ovm.values o.key ≠ []) (h : Checks options context result) :
    Checks (o :: options) context result := by
  refine Checks.cons (fun k => ?_) (fun _ => id) (lacks_cons_of_given hgiven) h
  rw [firstDefault_cons]
  by_cases hk : o.key = k
  · subst hk
    simp only [orDefault_of_ne_nil hgiven]
  · simp [hk]

/-- An option that is missing gets its default. -/
theorem Checks.cons_default {o : ClapOption V} {options : List (ClapOption V)}
    {context : ParserContext V} {value : V} {text : String}
    {result : Except Fault (Option String × ParserContext V)}
    (hgiven : context.ovm.values o.key = []) (hdefault : o.default? = some (value, text))
    (h : Checks options (context.storeValue o value text false) result) :
    Checks (o :: options) context result := by
  have hstored : ∀ k, (context.storeValue o value text false).ovm.values k =
      context.ovm.values k ++ if o.key = k then [⟨value, text, false⟩] else [] :=
    fun k => Multimap.values_store ..
  have hlacks : Lacks (o :: options) context.ovm ↔
      Lacks options (context.storeValue o value text false).ovm :=
    lacks_cons_of_default ⟨value, text, false⟩ (by simp [hdefault])
  refine Checks.cons (fun k => ?_) (fun k hnone => ?_) hlacks h
  · rw [hstored, firstDefault_cons]
    by_cases hk : o.key = k
    · subst hk
      simp [orDefault, hgiven, hdefault]
    · simp [hk]
  · rw [hstored] at hnone
    exact (List.append_eq_nil_iff.mp hnone).1

/-- An option that is missing without a default may be optional. -/
theorem Checks.cons_optional {o : ClapOption V} {options : List (ClapOption V)}
    {context : ParserContext V} {result : Except Fault (Option String × ParserContext V)}
    (hgiven : context.ovm.values o.key = []) (hdefault : o.default? = none)
    (hrequired : o.isRequired = false) (h : Checks options context result) :
    Checks (o :: options) context result := by
  have hlacks : Lacks (o :: options) context.ovm ↔ Lacks options context.ovm := by
    simp [lacks_cons_of_no_default hdefault hgiven, hrequired]
  refine Checks.cons (fun k => ?_) (fun _ => id) hlacks h
  rw [firstDefault_cons, hdefault, ite_self, Option.none_or]

/-- The options are checked from the first to the last. -/
theorem checks (options : List (ClapOption V)) (context : ParserContext V) :
    Checks options context (checkRequiredOptions options context) := by
  induction options generalizing context with
  | nil =>
      refine .complete (fun k => ?_) (by simp)
      cases h : context.ovm.values k <;> simp [orDefault]
  | cons o options ih =>
      rw [checkRequiredOptions]
      by_cases hgiven : context.ovm.values o.key = []
      · rw [OptionValuesMap.hasOption_eq_false_iff.mpr hgiven, if_neg Bool.false_ne_true]
        cases hsem : o.valueSemantic with
        | none => exact .asks ⟨o, List.mem_cons_self, hsem⟩
        | some semantics =>
            have hdefault := default?_of_some hsem
            rw [deref_some, ok_bind]
            cases happly : semantics.applyDefault with
            | some p => exact (ih _).cons_default hgiven (hdefault.trans happly)
            | none =>
                rw [happly] at hdefault
                cases hrequired : o.isRequired with
                | false => exact (ih context).cons_optional hgiven hdefault hrequired
                | true =>
                    refine .lacking List.mem_cons_self hrequired hdefault hgiven ?_
                    exact (lacks_cons_of_no_default hdefault hgiven).mpr (.inl hrequired)
      · rw [OptionValuesMap.hasOption_iff.mpr hgiven, if_pos rfl]
        exact (ih context).cons_given hgiven

/-- Two lists of options are checked one behind the other. -/
theorem checkRequiredOptions_append (options options' : List (ClapOption V))
    (context : ParserContext V) :
    checkRequiredOptions (options ++ options') context = (do
      match ← checkRequiredOptions options context with
      | (some message, context) => return (some message, context)
      | (none, context) => checkRequiredOptions options' context) := by
  induction options generalizing context with
  | nil => rfl
  | cons o options ih =>
      rw [List.cons_append, checkRequiredOptions, checkRequiredOptions]
      by_cases hgiven : context.ovm.hasOption o.key = true
      · rw [if_pos hgiven, if_pos hgiven, ih]
      · rw [if_neg hgiven, if_neg hgiven]
        cases hsem : o.valueSemantic with
        | none => rfl
        | some semantics =>
            simp only [deref_some, ok_bind]
            cases happly : semantics.applyDefault with
            | some p => exact ih _
            | none =>
                cases hrequired : o.isRequired with
                | true => rfl
                | false => exact ih _

/-- The options and the positional arguments are checked as one list. -/
theorem validate_eq (command : Command V) (context : ParserContext V) :
    validate command context = (do
      match ← checkRequiredOptions (command.options ++ command.positionalArgs) context with
      | (some message, context) => return (.terminateWithError message, context)
      | (none, context) => return (.terminate, context)) := by
  rw [validate, checkRequiredOptions_append]
  cases checkRequiredOptions command.options context with
  | error fault => rfl
  | ok p =>
      obtain ⟨message | -, context'⟩ := p <;> rfl

/-- How the validation ends: with the defaults stored, with a required option that lacks, or with a
null pointer. -/
theorem validate_cases (command : Command V) (context : ParserContext V) :
    (∃ ovm, validate command context = .ok (.terminate, { context with ovm }) ∧
        (∀ k, ovm.values k = orDefault (context.ovm.values k)
          (firstDefault (command.options ++ command.positionalArgs) k)) ∧
        ¬ Lacks (command.options ++ command.positionalArgs) context.ovm) ∨
      (∃ o ∈ command.options ++ command.positionalArgs, o.isRequired = true ∧
        o.default? = none ∧ context.ovm.values o.key = [] ∧
        ∃ ovm, validate command context =
            .ok (.terminateWithError (missingRequiredOption context.activeCommand o),
              { context with ovm }) ∧
          Lacks (command.options ++ command.positionalArgs) context.ovm) ∨
      validate command context = .error .nullPointer ∧
        ∃ o ∈ command.options ++ command.positionalArgs, o.valueSemantic = none := by
  rw [validate_eq]
  have hchecks := checks (command.options ++ command.positionalArgs) context
  generalize checkRequiredOptions (command.options ++ command.positionalArgs) context = result
    at hchecks ⊢
  cases hchecks with
  | @complete ovm values lacks => exact .inl ⟨ovm, rfl, values, lacks⟩
  | @lacking o ovm mem required default given lacks =>
      exact .inr (.inl ⟨o, mem, required, default, given, ovm, rfl, lacks⟩)
  | asks semantics => exact .inr (.inr ⟨rfl, semantics⟩)

/-! ## The whole state -/

/-- `OnEnter` settles the context it is given. -/
theorem onEnter_eq (b : Build) (d : Data V) :
    onEnter b true d = (do
      let (status, context) ← settle b d.context
      return (status, { d with context })) := by
  rw [onEnter, takeData_true]
  rfl

/-- `OnEnter` crashes where the work behind the help check does. -/
theorem onEnter_eq_error_iff {d : Data V} {fault : Fault} :
    onEnter b true d = .error fault ↔ settle b d.context = .error fault := by
  rw [onEnter_eq]
  cases settle b d.context <;> simp

/-- With an active command: first the arguments in order, then the rest, then the validation. -/
theorem settle_of_active {command : Command V} (hcommand : context.activeCommand = some command) :
    settle b context = (do
      let pass ← command.positionalArgs.foldlM (assign b) { context }
      match pass.context.positionalTokens, pass.restOption with
      | [], _ => validate command pass.context
      | tokens, some option =>
          let context ← tokens.foldlM (storePositional b option) pass.context
          validate command { context with positionalTokens := [] }
      | _, none =>
          return (.terminateWithError (unexpectedPositionalArguments pass.context),
            pass.context)) := by
  rw [settle, hcommand]
  rfl

/-- What `FinalState` comes to once a command is active. -/
theorem settle_cases {command : Command V} (hcommand : context.activeCommand = some command) :
    (∃ ps, assigned command.positionalArgs context.positionalTokens = some ps ∧
        settle b context =
          validate command { storePositionals context ps with positionalTokens := [] } ∧
        Served b command.positionalArgs ∧
        ((nonRest command.positionalArgs).length < context.positionalTokens.length →
          ∀ o, lastRest command.positionalArgs = some o → o.valueSemantic.isSome)) ∨
      (∃ ps left, takePositionals true command.positionalArgs context.positionalTokens =
          some (ps, left) ∧ left ≠ [] ∧ lastRest command.positionalArgs = none ∧
        settle b context = .ok (.terminateWithError (unexpectedPositionalArguments
            { storePositionals context ps with positionalTokens := left }),
          { storePositionals context ps with positionalTokens := left }) ∧
        Served b command.positionalArgs) ∨
      (context.positionalTokens.length < (nonRest command.positionalArgs).length ∧
        (∀ o ∈ (nonRest command.positionalArgs).take context.positionalTokens.length,
          o.valueSemantic.isSome) ∧ settle b context = .error .emptyVector) ∨
      ∃ fault, IsMissing b fault ∧ settle b context = .error fault ∧
        (b = .debug ∧ (∃ o ∈ command.positionalArgs, o.isPositional = false) ∨
          (∃ o ∈ (nonRest command.positionalArgs).take context.positionalTokens.length,
            o.valueSemantic = none) ∨
          (nonRest command.positionalArgs).length < context.positionalTokens.length ∧
            ∃ o, lastRest command.positionalArgs = some o ∧ o.valueSemantic = none) := by
  rw [settle_of_active hcommand]
  have hassigns := foldlM_assign (b := b) command.positionalArgs { context }
  generalize command.positionalArgs.foldlM (assign b) { context } = result at hassigns ⊢
  rcases hassigns with @⟨ps, left, pass, htake, hcontext, hrest, hserved⟩ | ⟨hlen, hall⟩ |
    @⟨fault, hmissing, hwhy⟩
  -- every argument has got its token; what is left is for the rest option, if there is one
  · have hlen : (nonRest command.positionalArgs).length + left.length =
        context.positionalTokens.length := length_of_takePositionals htake
    rw [ok_bind, hcontext, hrest]
    rw [Option.or_none]
    cases left with
    | nil =>
        refine .inl ⟨ps, by simp [assigned, htake], rfl, hserved, fun hmore => ?_⟩
        rw [List.length_nil, Nat.add_zero] at hlen
        exact absurd hlen (Nat.ne_of_lt hmore)
    | cons token left =>
        cases hlast : lastRest command.positionalArgs with
        | none => exact .inr (.inl ⟨ps, _, htake, by simp, rfl, rfl, hserved⟩)
        | some rest =>
            cases hsem : rest.valueSemantic with
            | some semantics =>
                have hsome : rest.valueSemantic.isSome := by simp [hsem]
                refine .inl ⟨ps ++ (token :: left).map fun token => (rest, token), ?_, ?_, hserved,
                  fun _ o ho => ?_⟩
                · simp [assigned, htake, hlast]
                · have hstore := foldlM_storePositional_of_isSome (b := b) hsome (token :: left)
                  simp only [hstore, ok_bind, storePositionals_append]
                  rfl
                · cases ho
                  exact hsome
            | none =>
                obtain ⟨fault, hmissing, hstore⟩ := storePositional_of_none (b := b) hsem
                  { storePositionals context ps with positionalTokens := token :: left } token
                refine .inr (.inr (.inr ⟨fault, hmissing, ?_, .inr (.inr ⟨?_, rest, rfl, hsem⟩)⟩))
                · simp [hstore]
                · rw [List.length_cons] at hlen
                  omega
  · exact .inr (.inr (.inl ⟨hlen, hall, rfl⟩))
  · exact .inr (.inr (.inr ⟨fault, hmissing, rfl, hwhy.imp_right .inl⟩))

/-- A parse that succeeds has used up the positional tokens and stored values, and nothing else. -/
theorem settle_terminate_eq (h : settle b context = .ok (.terminate, context')) :
    ∃ command ps ovm, context.activeCommand = some command ∧
      assigned command.positionalArgs context.positionalTokens = some ps ∧
      context' = { context with positionalTokens := [], ovm } ∧
      (∀ k, ovm.values k =
        orDefault ((context.ovm.storeAll (ps.filterMap positionalEntry)).values k)
          (firstDefault (command.options ++ command.positionalArgs) k)) ∧
      ¬ Lacks (command.options ++ command.positionalArgs)
        (context.ovm.storeAll (ps.filterMap positionalEntry)) := by
  obtain hnone | ⟨command, hcommand⟩ := Option.eq_none_or_eq_some context.activeCommand
  · simp [settle, hnone] at h
  · rcases settle_cases (b := b) hcommand with ⟨ps, hassigned, hsettle, -⟩ |
      ⟨ps, left, -, -, -, hsettle, -⟩ | ⟨-, -, hsettle⟩ | ⟨fault, -, hsettle, -⟩
    · rw [hsettle] at h
      rcases validate_cases command
        { storePositionals context ps with positionalTokens := [] } with
        ⟨ovm, hvalidate, hvalues, hlacks⟩ | ⟨o, -, -, -, -, ovm, hvalidate, -⟩ |
        ⟨hvalidate, -⟩
      · rw [hvalidate] at h
        cases h
        exact ⟨command, ps, ovm, hcommand, hassigned, rfl, hvalues, hlacks⟩
      · rw [hvalidate] at h
        cases h
      · rw [hvalidate] at h
        cases h
    all_goals
      rw [hsettle] at h
      cases h

/-- A parse that succeeds has given every positional argument its token, holds the
values given under a key or else its first default, and lacks nothing required. -/
theorem settle_terminate (h : settle b context = .ok (.terminate, context')) :
    ∃ command ps, context.activeCommand = some command ∧
      assigned command.positionalArgs context.positionalTokens = some ps ∧
      context'.activeCommand = some command ∧
      (∀ k, context'.ovm.values k =
        orDefault ((context.ovm.storeAll (ps.filterMap positionalEntry)).values k)
          (firstDefault (command.options ++ command.positionalArgs) k)) ∧
      ¬ Lacks (command.options ++ command.positionalArgs)
        (context.ovm.storeAll (ps.filterMap positionalEntry)) := by
  obtain ⟨command, ps, ovm, hcommand, hassigned, rfl, hvalues, hlacks⟩ := settle_terminate_eq h
  exact ⟨command, ps, hcommand, hassigned, hcommand, hvalues, hlacks⟩

/-- The rest of the context is left as it is. -/
theorem settle_frame (h : settle b context = .ok (.terminate, context')) :
    context' = { context with positionalTokens := [], ovm := context'.ovm } := by
  obtain ⟨command, ps, ovm, -, -, rfl, -, -⟩ := settle_terminate_eq h
  rfl

end FinalState

end Parser

end AsapClap
