import AsapClap.Any
import AsapClap.Parser.Contents
import AsapClap.Parser.Faults

/-!
# AsapClap.Parser.Assignment

Which positional argument gets which token in `FinalState::OnEnter`, and what becomes of a
token that does not parse for its argument.
-/

namespace AsapClap

variable {V : Type}

/-! ## Arguments around a Rest argument -/

/-- Positional arguments with string values: some in front, at most one `Rest` argument, and
behind that some more. -/
structure Layout (V : Type) where
  front : List (ClapOption V)
  rest : Option (ClapOption V)
  back : List (ClapOption V)
  /-- a string as a value -/
  ofString : String → V
  isRest : ∀ o ∈ rest.toList, o.isPositionalRest = true
  not_isRest : ∀ o ∈ front ++ back, o.isPositionalRest = false
  back_eq_nil : rest = none → back = []
  positional : ∀ o ∈ front ++ rest.toList ++ back, o.isPositional = true
  parses : ∀ o ∈ front ++ rest.toList ++ back, ∀ token, o.parse token = some (ofString token)
  nodup : ((front ++ rest.toList ++ back).map ClapOption.key).Nodup

namespace Layout

variable {L : Layout V} {tokens : List String}

/-- The arguments as they are declared. -/
def args (L : Layout V) : List (ClapOption V) := L.front ++ L.rest.toList ++ L.back

/-- The last tokens, one for each argument behind `Rest`. -/
def tail (L : Layout V) (tokens : List String) : List String :=
  tokens.drop (tokens.length - L.back.length)

/-- The tokens that no argument other than `Rest` gets. -/
def between (L : Layout V) (tokens : List String) : List String :=
  (tokens.drop L.front.length).take (tokens.length - (L.front.length + L.back.length))

/-- The arguments with their tokens, as `OnEnter` goes through them: it takes the tokens for
the arguments behind `Rest` from the back, so the first of these gets the last token. -/
def pairs (L : Layout V) (tokens : List String) : List (ClapOption V × String) :=
  L.front.zip tokens ++ L.back.zip (L.tail tokens).reverse ++
    L.rest.toList.flatMap fun o => (L.between tokens).map fun token => (o, token)

theorem lastRest_args (L : Layout V) : lastRest L.args = L.rest := by
  have hnone : ∀ l : List (ClapOption V), (∀ o ∈ l, o.isPositionalRest = false) →
      l.filter ClapOption.isPositionalRest = [] := by
    intro l hl
    rw [List.filter_eq_nil_iff]
    exact fun o ho => by simp [hl o ho]
  have hfront := hnone L.front fun o ho => L.not_isRest o (List.mem_append_left _ ho)
  have hback := hnone L.back fun o ho => L.not_isRest o (List.mem_append_right _ ho)
  have hrest : L.rest.toList.filter ClapOption.isPositionalRest = L.rest.toList :=
    List.filter_eq_self.mpr L.isRest
  rw [lastRest, args, List.filter_append, List.filter_append, hfront, hrest, hback]
  cases L.rest <;> rfl

end Layout

/-- The arguments in front of `Rest` take their tokens from the front. -/
theorem takePositionals_front {front : List (ClapOption V)} (args : List (ClapOption V))
    {tokens : List String} (hfront : ∀ o ∈ front, o.isPositionalRest = false)
    (hlen : front.length ≤ tokens.length) :
    takePositionals true (front ++ args) tokens =
      (takePositionals true args (tokens.drop front.length)).map fun q =>
        (front.zip tokens ++ q.1, q.2) := by
  induction front generalizing tokens with
  | nil => simp
  | cons o front ih =>
      obtain ⟨ho, hfront⟩ := List.forall_mem_cons.mp hfront
      cases tokens with
      | nil => simp at hlen
      | cons token tokens =>
          have hpick : pick true (token :: tokens) = some (token, tokens) := rfl
          have htake := ih hfront (Nat.le_of_succ_le_succ hlen)
          rw [List.cons_append, takePositionals, if_neg (by simp [ho]), hpick, Option.bind_some,
            htake, Option.map_map]
          rfl

/-- Those behind it take them from the back. -/
theorem takePositionals_back {back : List (ClapOption V)} {tokens : List String}
    (hback : ∀ o ∈ back, o.isPositionalRest = false) (hlen : back.length ≤ tokens.length) :
    takePositionals false back tokens =
      some (back.zip (tokens.drop (tokens.length - back.length)).reverse,
        tokens.take (tokens.length - back.length)) := by
  induction back generalizing tokens with
  | nil => simp [takePositionals]
  | cons o back ih =>
      obtain ⟨ho, hback⟩ := List.forall_mem_cons.mp hback
      obtain rfl | ⟨init, last, rfl⟩ := List.eq_nil_or_concat' tokens
      · simp at hlen
      · have hlen' : back.length ≤ init.length := by simpa using hlen
        have hpick : pick false (init ++ [last]) = some (last, init) := by simp [pick]
        have hcount : (init ++ [last]).length - (o :: back).length = init.length - back.length := by
          simp
        rw [takePositionals, if_neg (by simp [ho]), hpick, Option.bind_some, ih hback hlen',
          hcount, List.drop_append_of_le_length (by omega),
          List.take_append_of_le_length (by omega), List.reverse_append]
        rfl

namespace Layout

variable {L : Layout V} {tokens : List String}

theorem takePositionals_args (L : Layout V)
    (hlen : L.front.length + L.back.length ≤ tokens.length) :
    takePositionals true L.args tokens =
      some (L.front.zip tokens ++ L.back.zip (L.tail tokens).reverse, L.between tokens) := by
  have hfront : ∀ o ∈ L.front, o.isPositionalRest = false :=
    fun o ho => L.not_isRest o (List.mem_append_left _ ho)
  have hback : ∀ o ∈ L.back, o.isPositionalRest = false :=
    fun o ho => L.not_isRest o (List.mem_append_right _ ho)
  have hcount : (tokens.drop L.front.length).length - L.back.length =
      tokens.length - (L.front.length + L.back.length) := by
    rw [List.length_drop]
    omega
  have hothers : takePositionals true (L.rest.toList ++ L.back) (tokens.drop L.front.length) =
      some (L.back.zip (L.tail tokens).reverse, L.between tokens) := by
    cases hrest : L.rest with
    | none =>
        have hnil := L.back_eq_nil hrest
        have hall : L.between tokens = tokens.drop L.front.length := by
          rw [between, hnil, List.take_of_length_le]
          simp
        simp [takePositionals, hnil, hall]
    | some o =>
        have ho : o.isPositionalRest = true := L.isRest o (by simp [hrest])
        have htail : (tokens.drop L.front.length).drop
            (tokens.length - (L.front.length + L.back.length)) = L.tail tokens := by
          rw [List.drop_drop, tail]
          congr 1
          omega
        have hlen' : L.back.length ≤ (tokens.drop L.front.length).length := by
          rw [List.length_drop]
          omega
        have htake := takePositionals_back hback hlen'
        rw [hcount, htail] at htake
        simp only [Option.toList_some, List.singleton_append, takePositionals, ho, if_true]
        exact htake
  rw [args, List.append_assoc, takePositionals_front _ hfront (by omega), hothers]
  rfl

/-- With a `Rest` argument, or a token for each argument, every token is assigned. -/
theorem assigned_args (L : Layout V) (hlen : L.front.length + L.back.length ≤ tokens.length)
    (hfits : L.rest.isSome ∨ tokens.length = L.front.length) :
    assigned L.args tokens = some (L.pairs tokens) := by
  rw [assigned, L.takePositionals_args hlen, Option.bind_some, L.lastRest_args, pairs]
  cases hrest : L.rest with
  | none =>
      have hbetween : L.between tokens = [] := by
        have hcount : tokens.length = L.front.length := by simpa [hrest] using hfits
        simp [between, hcount]
      simp [hbetween]
  | some o => cases hbetween : L.between tokens <;> simp

/-- Without either, one is left over. -/
theorem assigned_args_eq_some {ps : List (ClapOption V × String)}
    (hlen : L.front.length + L.back.length ≤ tokens.length)
    (hps : assigned L.args tokens = some ps) :
    (L.rest.isSome ∨ tokens.length = L.front.length) ∧ ps = L.pairs tokens := by
  have hfits : L.rest.isSome ∨ tokens.length = L.front.length := by
    by_contra hnot
    obtain ⟨hrest, hcount⟩ := not_or.mp hnot
    rw [Option.not_isSome_iff_eq_none] at hrest
    have hnil := L.back_eq_nil hrest
    have hbetween : (L.between tokens).length ≠ 0 := by
      simp only [hnil, List.length_nil, Nat.add_zero] at hlen
      simp only [between, hnil, List.length_take, List.length_drop, List.length_nil]
      omega
    rw [assigned, L.takePositionals_args hlen, Option.bind_some, L.lastRest_args, hrest] at hps
    cases hb : L.between tokens with
    | nil => simp [hb] at hbetween
    | cons token left => simp [hb] at hps
  rw [L.assigned_args hlen hfits] at hps
  exact ⟨hfits, (Option.some.inj hps).symm⟩

end Layout

namespace Parser

open Errors

/-! ## What an argument gets -/

section

theorem positionalsGiven_append (ps qs : List (ClapOption V × String)) (k : String) :
    positionalsGiven (ps ++ qs) k = positionalsGiven ps k ++ positionalsGiven qs k := by
  simp [positionalsGiven]

theorem positionalsGiven_of_ne {ps : List (ClapOption V × String)} {k : String}
    (h : ∀ p ∈ ps, p.1.key ≠ k) : positionalsGiven ps k = [] := by
  have hnone : ps.filter (fun p => p.1.key = k) = [] := by
    rw [List.filter_eq_nil_iff]
    exact fun p hp => by simpa using h p hp
  rw [positionalsGiven, hnone, List.filterMap_nil]

/-- Side by side, an argument gets the token beside it. -/
theorem positionalsGiven_zip {l : List (ClapOption V)} {ts : List String} {i : Nat}
    {o : ClapOption V} {t : String} {v : V} (hnodup : (l.map ClapOption.key).Nodup)
    (ho : l[i]? = some o) (ht : ts[i]? = some t) (hparse : o.parse t = some v) :
    positionalsGiven (l.zip ts) o.key = [(v, t)] := by
  induction l generalizing ts i with
  | nil => simp at ho
  | cons o' l ih =>
      obtain ⟨hne, hnodup⟩ := List.nodup_cons.mp hnodup
      cases ts with
      | nil => simp at ht
      | cons t' ts =>
          have hsplit : positionalsGiven ((o' :: l).zip (t' :: ts)) o.key =
              positionalsGiven [(o', t')] o.key ++ positionalsGiven (l.zip ts) o.key :=
            positionalsGiven_append [(o', t')] (l.zip ts) o.key
          rw [hsplit]
          cases i with
          | zero =>
              obtain rfl : o' = o := by simpa using ho
              obtain rfl : t' = t := by simpa using ht
              have hothers : positionalsGiven (l.zip ts) o'.key = [] := by
                refine positionalsGiven_of_ne fun p hp hk => hne ?_
                exact List.mem_map.mpr ⟨p.1, (List.of_mem_zip hp).1, hk⟩
              rw [hothers, List.append_nil]
              simp [positionalsGiven, hparse]
          | succ i =>
              have ho' : l[i]? = some o := by simpa using ho
              have hkey : o'.key ≠ o.key := by
                intro hk
                exact hne (List.mem_map.mpr ⟨o, List.mem_of_getElem? ho', hk.symm⟩)
              have hfirst : positionalsGiven [(o', t')] o.key = [] :=
                positionalsGiven_of_ne (by simpa using hkey)
              rw [hfirst, List.nil_append]
              exact ih hnodup ho' (by simpa using ht)

/-- An argument to which every token parses gets all it is given. -/
theorem positionalsGiven_self {o : ClapOption V} {ofString : String → V}
    (hparses : ∀ token, o.parse token = some (ofString token)) (ts : List String) :
    positionalsGiven (ts.map fun token => (o, token)) o.key =
      ts.map fun t => (ofString t, t) := by
  have hall : (ts.map fun token => (o, token)).filter (fun p => p.1.key = o.key) =
      ts.map fun token => (o, token) := by
    rw [List.filter_eq_self]
    simp
  rw [positionalsGiven, hall]
  simp [List.filterMap_map, hparses]

variable {L : Layout V} {tokens : List String}

/-- The arguments in front have keys of their own, and so have the others. -/
theorem keys_apart (L : Layout V) :
    (L.front.map ClapOption.key).Nodup ∧ (L.back.map ClapOption.key).Nodup ∧
      (∀ o ∈ L.front, ∀ o' ∈ L.rest.toList ++ L.back, o.key ≠ o'.key) ∧
      ∀ o ∈ L.rest.toList, ∀ o' ∈ L.back, o.key ≠ o'.key := by
  have hnodup := L.nodup
  rw [List.append_assoc, List.map_append, List.nodup_append] at hnodup
  obtain ⟨hfront, hothers, happart⟩ := hnodup
  rw [List.map_append, List.nodup_append] at hothers
  obtain ⟨-, hback, happart'⟩ := hothers
  refine ⟨hfront, hback, fun o ho o' ho' => ?_, fun o ho o' ho' => ?_⟩
  · exact happart _ (List.mem_map_of_mem ho) _ (List.mem_map_of_mem ho')
  · exact happart' _ (List.mem_map_of_mem ho) _ (List.mem_map_of_mem ho')

/-- Tokens beside other arguments make no difference. -/
theorem positionalsGiven_zip_of_ne {l : List (ClapOption V)} {k : String}
    (h : ∀ o ∈ l, o.key ≠ k) (ts : List String) : positionalsGiven (l.zip ts) k = [] :=
  positionalsGiven_of_ne fun p hp => h p.1 (List.of_mem_zip hp).1

/-- Nor do those of another `Rest` argument. -/
theorem positionalsGiven_rest_of_ne {rest : Option (ClapOption V)} {k : String}
    (h : ∀ o ∈ rest.toList, o.key ≠ k) (ts : List String) :
    positionalsGiven (rest.toList.flatMap fun o => ts.map fun token => (o, token)) k = [] := by
  refine positionalsGiven_of_ne fun p hp => ?_
  obtain ⟨o, ho, hp⟩ := List.mem_flatMap.mp hp
  obtain ⟨token, -, rfl⟩ := List.mem_map.mp hp
  exact h o ho

theorem positionalsGiven_pairs_front {i : Nat} {o : ClapOption V} {t : String}
    (ho : L.front[i]? = some o) (ht : tokens[i]? = some t) :
    positionalsGiven (L.pairs tokens) o.key = [(L.ofString t, t)] := by
  obtain ⟨hnodup, -, hapart, -⟩ := keys_apart L
  have hmem := List.mem_of_getElem? ho
  have hfront : positionalsGiven (L.front.zip tokens) o.key = [(L.ofString t, t)] :=
    positionalsGiven_zip hnodup ho ht (L.parses o (by simp [hmem]) t)
  have hback := positionalsGiven_zip_of_ne
    (fun o' ho' => (hapart o hmem o' (List.mem_append_right _ ho')).symm) (L.tail tokens).reverse
  have hrest := positionalsGiven_rest_of_ne
    (fun o' ho' => (hapart o hmem o' (List.mem_append_left _ ho')).symm) (L.between tokens)
  rw [Layout.pairs, positionalsGiven_append, positionalsGiven_append, hfront, hback, hrest]
  rfl

/-- Behind `Rest`, the first argument gets the last token. -/
theorem positionalsGiven_pairs_back {j : Nat} {o : ClapOption V} {t : String}
    (ho : L.back[j]? = some o) (ht : (L.tail tokens).reverse[j]? = some t) :
    positionalsGiven (L.pairs tokens) o.key = [(L.ofString t, t)] := by
  obtain ⟨-, hnodup, hapart, hapart'⟩ := keys_apart L
  have hmem := List.mem_of_getElem? ho
  have hfront := positionalsGiven_zip_of_ne
    (fun o' ho' => hapart o' ho' o (List.mem_append_right _ hmem)) tokens
  have hback : positionalsGiven (L.back.zip (L.tail tokens).reverse) o.key =
      [(L.ofString t, t)] :=
    positionalsGiven_zip hnodup ho ht (L.parses o (by simp [hmem]) t)
  have hrest := positionalsGiven_rest_of_ne (fun o' ho' => hapart' o' ho' o hmem)
    (L.between tokens)
  rw [Layout.pairs, positionalsGiven_append, positionalsGiven_append, hfront, hback, hrest]
  rfl

theorem positionalsGiven_pairs_rest {o : ClapOption V} (ho : o ∈ L.rest.toList) :
    positionalsGiven (L.pairs tokens) o.key =
      (L.between tokens).map fun t => (L.ofString t, t) := by
  obtain ⟨-, -, hapart, hapart'⟩ := keys_apart L
  have hfront := positionalsGiven_zip_of_ne
    (fun o' ho' => hapart o' ho' o (List.mem_append_left _ ho)) tokens
  have hback := positionalsGiven_zip_of_ne (fun o' ho' => (hapart' o ho o' ho').symm)
    (L.tail tokens).reverse
  have hrest : L.rest.toList = [o] := by
    cases h : L.rest with
    | none => simp [h] at ho
    | some o' =>
        obtain rfl : o = o' := by simpa [h] using ho
        rfl
  rw [Layout.pairs, positionalsGiven_append, positionalsGiven_append, hfront, hback, hrest,
    List.flatMap_singleton, positionalsGiven_self (L.parses o (by simp [ho]))]
  rfl

end

namespace FinalState

variable {b : Build}

/-- Whether it succeeds or not, the check of the options only adds the first default to a key
without values. -/
theorem values_of_checkRequiredOptions {options : List (ClapOption V)}
    {context context' : ParserContext V} {message : Option String}
    (h : checkRequiredOptions options context = .ok (message, context')) (k : String) :
    context'.ovm.values k = context.ovm.values k ∨
      context'.ovm.values k = orDefault (context.ovm.values k) (firstDefault options k) := by
  induction options generalizing context with
  | nil =>
      cases h
      exact .inl rfl
  | cons o options ih =>
      rw [checkRequiredOptions] at h
      split at h
      · next hgiven =>
        have hne := OptionValuesMap.hasOption_iff.mp hgiven
        -- an option that was given keeps its values, so that its default does not matter
        refine (ih h).imp_right fun hvalues => ?_
        rw [hvalues, firstDefault_cons]
        by_cases hk : o.key = k
        · subst hk
          simp only [orDefault_of_ne_nil hne]
        · simp [hk]
      · next hgiven =>
        rw [Bool.not_eq_true, OptionValuesMap.hasOption_eq_false_iff] at hgiven
        obtain ⟨semantics, hsem, h⟩ := bind_eq_ok.mp h
        have hdefault := default?_of_some (deref_eq_ok.mp hsem)
        split at h
        · next value text happly =>
          rw [happly] at hdefault
          -- the default is stored, and no other of the same key behind it
          have hstored : (context.storeValue o value text false).ovm.values k =
              context.ovm.values k ++ if o.key = k then [⟨value, text, false⟩] else [] :=
            Multimap.values_store ..
          have hvalues := ih h
          rw [hstored] at hvalues
          rw [firstDefault_cons, hdefault]
          by_cases hk : o.key = k
          · subst hk
            simp only [hgiven, List.nil_append, if_true] at hvalues ⊢
            have horDefault : ∀ d, orDefault [(⟨value, text, false⟩ : OptionValue V)] d =
                [⟨value, text, false⟩] := fun d => orDefault_of_ne_nil (by simp) d
            rw [horDefault, or_self] at hvalues
            right
            rw [hvalues]
            rfl
          · simpa [hk] using hvalues
        · next happly =>
          rw [happly] at hdefault
          split at h
          · cases h
            exact .inl rfl
          · simpa [firstDefault_cons, hdefault] using ih h

theorem values_of_validate {command : Command V} {context context' : ParserContext V}
    {status : Status} (h : validate command context = .ok (status, context')) (k : String) :
    context'.ovm.values k = context.ovm.values k ∨
      context'.ovm.values k = orDefault (context.ovm.values k)
        (firstDefault (command.options ++ command.positionalArgs) k) := by
  rw [validate_eq] at h
  obtain ⟨⟨message, context₁⟩, hcheck, h⟩ := bind_eq_ok.mp h
  have hvalues := values_of_checkRequiredOptions hcheck k
  cases message <;> cases h <;> exact hvalues

/-- `FinalState` is entered with arguments of this layout and these tokens. -/
structure Waits (L : Layout V) (tokens : List String) (command : Command V) (d : Data V) :
    Prop where
  activeCommand : d.context.activeCommand = some command
  args : command.positionalArgs = L.args
  tokens : d.context.positionalTokens = tokens

/-- The values of an argument with these tokens stored behind them. -/
def given (L : Layout V) (defaulted : Bool) (d : Data V) (o : ClapOption V) (ts : List String) :
    List (OptionValue V) :=
  d.context.ovm.values o.key ++ flagged defaulted (ts.map fun t => (L.ofString t, t))

/-- An argument is given these tokens; it gets a default only if that leaves it with
nothing. -/
def Receives (L : Layout V) (command : Command V) (d d' : Data V) (o : ClapOption V)
    (ts : List String) : Prop :=
  ∃ defaulted, d'.context.ovm.values o.key = given L defaulted d o ts ∨
    d'.context.ovm.values o.key = orDefault (given L defaulted d o ts)
      (firstDefault (command.options ++ command.positionalArgs) o.key)

/-- The tokens go to the arguments in the order in which both are there. -/
structure InOrder (L : Layout V) (tokens : List String) (command : Command V) (d d' : Data V) :
    Prop where
  front : ∀ (i : Nat) o t, L.front[i]? = some o → tokens[i]? = some t →
    Receives L command d d' o [t]
  back : ∀ (j : Nat) o t, L.back[j]? = some o →
    tokens[tokens.length - L.back.length + j]? = some t → Receives L command d d' o [t]
  rest : ∀ o ∈ L.rest.toList, Receives L command d d' o (L.between tokens)

/-- `OnEnter` assigns the tokens in order, whatever else there is in the command and in the
context, and does not put up with a token too many. -/
structure AssignsInOrder (b : Build) (L : Layout V) (tokens : List String) : Prop where
  returns : ∀ command d, Waits L tokens command d →
    (∀ o ∈ command.options, o.valueSemantic.isSome) →
      ∃ status d', onEnter b true d = .ok (status, d')
  inOrder : ∀ command d, Waits L tokens command d → ∀ status d',
    onEnter b true d = .ok (status, d') → InOrder L tokens command d d'
  unexpected : L.rest = none → tokens.length ≠ L.front.length →
    ∀ command d, Waits L tokens command d → ∃ d', onEnter b true d =
      .ok (.terminateWithError (unexpectedPositionalArguments d'.context), d')

section

variable {L : Layout V} {tokens : List String} {command : Command V} {d d' : Data V}
  {status : Status}

theorem isSome_of_mem_args {o : ClapOption V} (ho : o ∈ L.args) : o.valueSemantic.isSome := by
  have hparse := L.parses o ho ""
  cases hsem : o.valueSemantic with
  | none => simp [ClapOption.parse, hsem] at hparse
  | some semantics => rfl

/-- The tokens are stored for the arguments, and then either the options are checked or there
are tokens left. -/
theorem settle_of_waits (h : Waits L tokens command d)
    (hlen : L.front.length + L.back.length ≤ tokens.length) :
    (L.rest.isSome ∨ tokens.length = L.front.length) ∧ settle b d.context = validate command
        { storePositionals d.context (L.pairs tokens) with positionalTokens := [] } ∨
      (L.rest = none ∧ tokens.length ≠ L.front.length) ∧ ∃ context,
        context = { storePositionals d.context (L.pairs tokens) with
          positionalTokens := L.between tokens } ∧
        settle b d.context =
          .ok (.terminateWithError (unexpectedPositionalArguments context), context) := by
  obtain ⟨hcommand, hargs, rfl⟩ := h
  have htake := L.takePositionals_args hlen
  have hnonRest : (nonRest L.args).length ≤ d.context.positionalTokens.length := by
    rw [← takePositionals_isSome_iff true, htake]
    rfl
  obtain ⟨ps, hps, hsettle, -⟩ | ⟨ps, left, htake', hleft, hlast, hsettle, -⟩ | ⟨hfew, -, -⟩ |
    ⟨fault, -, -, hwhy⟩ := settle_cases (b := b) hcommand
  · rw [hargs] at hps
    obtain ⟨hfits, rfl⟩ := Layout.assigned_args_eq_some hlen hps
    exact .inl ⟨hfits, hsettle⟩
  · rw [hargs, htake] at htake'
    cases htake'
    rw [hargs, L.lastRest_args] at hlast
    have hpairs : L.front.zip d.context.positionalTokens ++
        L.back.zip (L.tail d.context.positionalTokens).reverse =
          L.pairs d.context.positionalTokens := by
      simp [Layout.pairs, hlast]
    rw [hpairs] at hsettle
    refine .inr ⟨⟨hlast, fun hcount => hleft ?_⟩, _, rfl, hsettle⟩
    simp [Layout.between, hcount]
  · rw [hargs] at hfew
    omega
  · obtain ⟨-, o, ho, hnot⟩ | ⟨o, ho, hsem⟩ | ⟨-, o, hlast, hsem⟩ := hwhy
    · rw [hargs] at ho
      simp [L.positional o ho] at hnot
    · rw [hargs] at ho
      have hsome := isSome_of_mem_args (List.mem_filter.mp (List.mem_of_mem_take ho)).1
      simp [hsem] at hsome
    · rw [hargs] at hlast
      have hsome := isSome_of_mem_args (List.mem_filter.mp (List.mem_of_getLast? hlast)).1
      simp [hsem] at hsome

/-- Every key holds what it held and what its arguments made of their tokens, or its default
where that is nothing. -/
theorem values_of_waits (h : Waits L tokens command d)
    (hlen : L.front.length + L.back.length ≤ tokens.length)
    (hok : onEnter b true d = .ok (status, d')) (k : String) :
    d'.context.ovm.values k =
        d.context.ovm.values k ++ flagged true (positionalsGiven (L.pairs tokens) k) ∨
      d'.context.ovm.values k =
        orDefault (d.context.ovm.values k ++ flagged true (positionalsGiven (L.pairs tokens) k))
          (firstDefault (command.options ++ command.positionalArgs) k) := by
  rw [onEnter_eq] at hok
  obtain ⟨⟨status', context'⟩, hsettle, hok⟩ := bind_eq_ok.mp hok
  cases hok
  have hstored := values_storeAll_positionals d.context.ovm (L.pairs tokens) k
  obtain ⟨-, hvalidate⟩ | ⟨-, context, rfl, hunexpected⟩ := settle_of_waits (b := b) h hlen
  · rw [hvalidate] at hsettle
    have hvalues := values_of_validate hsettle k
    simpa only [storePositionals, hstored] using hvalues
  · rw [hunexpected] at hsettle
    cases hsettle
    exact .inl hstored

/-- So an argument receives its tokens. -/
theorem receives_of_waits (h : Waits L tokens command d)
    (hlen : L.front.length + L.back.length ≤ tokens.length)
    (hok : onEnter b true d = .ok (status, d')) {o : ClapOption V} {ts : List String}
    (hgiven : positionalsGiven (L.pairs tokens) o.key = ts.map fun t => (L.ofString t, t)) :
    Receives L command d d' o ts := by
  have hvalues := values_of_waits h hlen hok o.key
  rw [hgiven] at hvalues
  exact ⟨true, hvalues⟩

/-- One that is given a token has no default. -/
theorem receives_unique {o : ClapOption V} {t t' : String} (h : Receives L command d d' o [t])
    (h' : Receives L command d d' o [t']) : t = t' := by
  have hvalues : ∀ s, Receives L command d d' o [s] → ∃ defaulted,
      d'.context.ovm.values o.key =
        d.context.ovm.values o.key ++ [⟨L.ofString s, s, defaulted⟩] := by
    rintro s ⟨defaulted, hs | hs⟩
    · exact ⟨defaulted, hs⟩
    · rw [orDefault_of_ne_nil (by simp [given, flagged])] at hs
      exact ⟨defaulted, hs⟩
  obtain ⟨defaulted, hs⟩ := hvalues t h
  obtain ⟨defaulted', hs'⟩ := hvalues t' h'
  rw [hs] at hs'
  simpa using congrArg (List.map OptionValue.originalToken) (List.append_cancel_left hs')

theorem exists_waits (L : Layout V) (tokens : List String) :
    ∃ command d, Waits L tokens command d ∧ command.options = [] := by
  let command : Command V := { Command.plainDefault with positionalArgs := L.args }
  let d : Data V := {
    context := {
      programName := ""
      commands := []
      activeCommand := some command
      positionalTokens := tokens } }
  exact ⟨command, d, ⟨rfl, rfl, rfl⟩, rfl⟩

theorem exists_onEnter_of_waits (h : Waits L tokens command d)
    (hlen : L.front.length + L.back.length ≤ tokens.length)
    (hoptions : ∀ o ∈ command.options, o.valueSemantic.isSome) :
    ∃ status d', onEnter b true d = .ok (status, d') := by
  rw [onEnter_eq]
  obtain ⟨-, hvalidate⟩ | ⟨-, context, -, hunexpected⟩ := settle_of_waits (b := b) h hlen
  · have hsome : ∀ o ∈ command.options ++ command.positionalArgs, o.valueSemantic.isSome := by
      intro o ho
      obtain ho | ho := List.mem_append.mp ho
      · exact hoptions o ho
      · exact isSome_of_mem_args (h.args ▸ ho)
    obtain ⟨ovm, hok, -⟩ | ⟨o, -, -, -, -, ovm, hok, -⟩ | ⟨-, o, ho, hsem⟩ := validate_cases command
      { storePositionals d.context (L.pairs tokens) with positionalTokens := [] }
    · exact ⟨_, _, by rw [hvalidate, hok]; rfl⟩
    · exact ⟨_, _, by rw [hvalidate, hok]; rfl⟩
    · have hsemantics := hsome o ho
      simp [hsem] at hsemantics
  · exact ⟨_, _, by rw [hunexpected]; rfl⟩

theorem length_tail (hlen : L.front.length + L.back.length ≤ tokens.length) :
    (L.tail tokens).length = L.back.length := by
  rw [Layout.tail, List.length_drop]
  omega

/-- The arguments behind `Rest` get the right tokens only if it does not matter that they take
them from the back. -/
theorem reverse_tail_of_assignsInOrder (hlen : L.front.length + L.back.length ≤ tokens.length)
    (h : AssignsInOrder b L tokens) : (L.tail tokens).reverse = L.tail tokens := by
  obtain ⟨command, d, hwaits, hoptions⟩ := exists_waits L tokens
  obtain ⟨status, d', hok⟩ := h.returns command d hwaits (by simp [hoptions])
  have hlength := length_tail hlen
  refine List.ext_getElem (by simp) fun j hj hj' => ?_
  have ho : L.back[j]? = some L.back[j] := List.getElem?_eq_getElem (by omega)
  have ht : tokens[tokens.length - L.back.length + j]? = some (L.tail tokens)[j] := by
    rw [← List.getElem?_drop]
    exact List.getElem?_eq_getElem hj'
  have hclaimed := (h.inOrder command d hwaits status d' hok).back j _ _ ho ht
  have hgiven := positionalsGiven_pairs_back ho (List.getElem?_eq_getElem hj)
  have hactual : Receives L command d d' _ [(L.tail tokens).reverse[j]] :=
    receives_of_waits hwaits hlen hok hgiven
  exact receives_unique hactual hclaimed

/-- **Positional arguments** get their tokens in the order in which both are there exactly when
the tokens of the arguments behind `Rest` read the same from the back. -/
theorem assignsInOrder_iff (b : Build) (L : Layout V) {tokens : List String}
    (hlen : L.front.length + L.back.length ≤ tokens.length) :
    AssignsInOrder b L tokens ↔ (L.tail tokens).reverse = L.tail tokens := by
  constructor
  · exact reverse_tail_of_assignsInOrder hlen
  · intro htail
    refine ⟨fun command d hwaits => exists_onEnter_of_waits hwaits hlen, ?_, ?_⟩
    · intro command d hwaits status d' hok
      constructor
      · intro i o t ho ht
        exact receives_of_waits hwaits hlen hok (positionalsGiven_pairs_front ho ht)
      · intro j o t ho ht
        rw [← List.getElem?_drop] at ht
        have ht' : (L.tail tokens).reverse[j]? = some t := by
          rw [htail]
          exact ht
        exact receives_of_waits hwaits hlen hok (positionalsGiven_pairs_back ho ht')
      · intro o ho
        exact receives_of_waits hwaits hlen hok (positionalsGiven_pairs_rest ho)
    · intro hrest hcount command d hwaits
      rw [onEnter_eq]
      obtain ⟨hfits, -⟩ | ⟨-, context, -, hunexpected⟩ := settle_of_waits (b := b) hwaits hlen
      · simp [hrest, hcount] at hfits
      · exact ⟨{ d with context }, by rw [hunexpected]; rfl⟩

end

end FinalState

/-- `<files>... <src> <dst>`: a `Rest` argument and two behind it. -/
def filesSrcDst : Layout String where
  front := []
  rest := some { key := ClapOption.keyRest, valueSemantic := some .text }
  back := [
    { key := "src", valueSemantic := some .text },
    { key := "dst", valueSemantic := some .text }]
  ofString := id
  isRest := by decide
  not_isRest := by decide
  back_eq_nil := by simp
  positional := by decide
  parses := by simp [ClapOption.parse, ValueSemantics.parse, ValueSemantics.text]
  nodup := by decide

theorem assignsInOrder_filesSrcDst :
    FinalState.AssignsInOrder .debug filesSrcDst ["a", "b", "b"] :=
  (FinalState.assignsInOrder_iff .debug filesSrcDst (by decide)).mpr (by decide)

/-- Of two tokens, the first argument behind `Rest` gets the second. -/
theorem not_assignsInOrder_filesSrcDst :
    positionalsGiven (filesSrcDst.pairs ["a", "b"]) "src" = [("b", "b")] ∧
      ¬ FinalState.AssignsInOrder .debug filesSrcDst ["a", "b"] := by
  refine ⟨by decide, fun h => ?_⟩
  have htail := FinalState.reverse_tail_of_assignsInOrder (by decide) h
  revert htail
  decide

/-! ## Tokens that do not parse -/

theorem perm_of_pick {beforeRest : Bool} {token : String} {tokens others : List String}
    (h : pick beforeRest tokens = some (token, others)) : (token :: others).Perm tokens := by
  cases beforeRest with
  | true =>
      obtain ⟨first, -, hp⟩ := Option.map_eq_some_iff.mp h
      cases tokens with
      | nil => simp [pick] at h
      | cons first tokens =>
          obtain ⟨rfl, rfl⟩ : first = token ∧ tokens = others := by simpa [pick] using h
          exact List.Perm.refl _
  | false =>
      obtain rfl | ⟨init, last, rfl⟩ := List.eq_nil_or_concat' tokens
      · simp [pick] at h
      · obtain ⟨rfl, rfl⟩ : last = token ∧ init = others := by simpa [pick] using h
        exact (List.perm_append_singleton ..).symm

/-- The positional arguments other than `Rest`, each with the token it picks as long as there
are tokens, and the tokens that are left. -/
def picked : Bool → List (ClapOption V) → List String → List (ClapOption V × String) × List String
  | _, [], tokens => ([], tokens)
  | beforeRest, o :: args, tokens =>
      if o.isPositionalRest then picked false args tokens
      else match pick beforeRest tokens with
        | none => ([], [])
        | some (token, others) =>
            let q := picked beforeRest args others
            ((o, token) :: q.1, q.2)

/-- Every token that an argument gets, with the argument: those picked, as far as the tokens go,
and those left for `Rest`. -/
def handed (args : List (ClapOption V)) (tokens : List String) : List (ClapOption V × String) :=
  (picked true args tokens).1 ++ (lastRest args).toList.flatMap fun rest =>
    (picked true args tokens).2.map fun token => (rest, token)

/-- With tokens for all, the arguments pick what they pick. -/
theorem picked_of_takePositionals {beforeRest : Bool} {args : List (ClapOption V)}
    {tokens left : List String} {ps : List (ClapOption V × String)}
    (h : takePositionals beforeRest args tokens = some (ps, left)) :
    picked beforeRest args tokens = (ps, left) := by
  induction args generalizing beforeRest tokens ps with
  | nil =>
      cases h
      rfl
  | cons o args ih =>
      rw [takePositionals] at h
      rw [picked]
      split at h
      · next hrest => rw [if_pos hrest, ih h]
      · next hrest =>
        obtain ⟨⟨token, others⟩, hpick, h⟩ := Option.bind_eq_some_iff.mp h
        obtain ⟨⟨qs, left'⟩, htake, h⟩ := Option.map_eq_some_iff.mp h
        cases h
        rw [if_neg hrest, hpick]
        simp [ih htake]

/-- Where all tokens are assigned, they are what is handed out. -/
theorem handed_of_assigned {args : List (ClapOption V)} {tokens : List String}
    {ps : List (ClapOption V × String)} (h : assigned args tokens = some ps) :
    handed args tokens = ps := by
  obtain ⟨⟨qs, left⟩, htake, h⟩ := Option.bind_eq_some_iff.mp h
  rw [handed, picked_of_takePositionals htake]
  cases left with
  | nil =>
      cases h
      cases lastRest args <;> simp
  | cons token left =>
      cases hlast : lastRest args with
      | none => simp [hlast] at h
      | some rest => simpa [hlast] using h

theorem perm_picked (beforeRest : Bool) (args : List (ClapOption V)) (tokens : List String) :
    ((picked beforeRest args tokens).1.map Prod.snd ++ (picked beforeRest args tokens).2).Perm
      tokens := by
  induction args generalizing beforeRest tokens with
  | nil => exact List.Perm.refl _
  | cons o args ih =>
      rw [picked]
      split
      · exact ih _ _
      · cases hpick : pick beforeRest tokens with
        | none =>
            rw [pick_eq_none.mp hpick]
            exact List.Perm.refl _
        | some p => exact ((ih _ _).cons p.1).trans (perm_of_pick hpick)

/-- Every token is handed out, and only once, unless tokens are left without a `Rest` argument. -/
theorem perm_handed {args : List (ClapOption V)} {tokens : List String}
    (h : lastRest args = none → (picked true args tokens).2 = []) :
    ((handed args tokens).map Prod.snd).Perm tokens := by
  have hperm := perm_picked true args tokens
  rw [handed]
  cases hlast : lastRest args with
  | none =>
      rw [h hlast, List.append_nil] at hperm
      simpa using hperm
  | some rest => simpa [Function.comp_def] using hperm

/-- Every token is assigned, and only once. -/
theorem perm_of_assigned {args : List (ClapOption V)} {tokens : List String}
    {ps : List (ClapOption V × String)} (h : assigned args tokens = some ps) :
    (ps.map Prod.snd).Perm tokens := by
  rw [← handed_of_assigned h]
  refine perm_handed fun hlast => ?_
  obtain ⟨⟨qs, left⟩, htake, h⟩ := Option.bind_eq_some_iff.mp h
  rw [picked_of_takePositionals htake]
  cases left with
  | nil => rfl
  | cons token left => simp [hlast] at h

/-- The entry for a token: it is under the key of the argument, holds what the token parses to
and the token itself. -/
def IsEntry (p : ClapOption V × String) (e : String × OptionValue V) : Prop :=
  e.1 = p.1.key ∧ p.1.parse p.2 = some e.2.value ∧ e.2.originalToken = p.2

theorem isEntry_positionalEntry {ps : List (ClapOption V × String)}
    (h : ∀ p ∈ ps, (p.1.parse p.2).isSome) :
    List.Forall₂ IsEntry ps (ps.filterMap positionalEntry) := by
  induction ps with
  | nil => exact .nil
  | cons p ps ih =>
      obtain ⟨hparse, hps⟩ := List.forall_mem_cons.mp h
      obtain ⟨value, hvalue⟩ := Option.isSome_iff_exists.mp hparse
      have hentry : positionalEntry p = some (p.1.key, ⟨value, p.2, true⟩) := by
        simp [positionalEntry, hvalue]
      rw [List.filterMap_cons_some hentry]
      exact .cons ⟨rfl, hvalue, rfl⟩ (ih hps)

namespace FinalState

/-- What `OnEnter` does with every positional token. -/
structure KeepsTokens (b : Build) (command : Command V) (d : Data V) : Prop where
  /-- when it succeeds, each token has an entry of its own -/
  stores : ∀ d', onEnter b true d = .ok (.terminate, d') →
    ∃ ps entries, assigned command.positionalArgs d.context.positionalTokens = some ps ∧
      (ps.map Prod.snd).Perm d.context.positionalTokens ∧ List.Forall₂ IsEntry ps entries ∧
      ∀ e ∈ entries, d'.context.ovm.values e.1 =
        d.context.ovm.values e.1 ++ (entries.filter fun e' => e'.1 = e.1).map Prod.snd
  /-- a token that does not parse for its argument is an error, also where there are fewer tokens
  than arguments -/
  reports : (∃ p ∈ handed command.positionalArgs d.context.positionalTokens,
      p.1.parse p.2 = none) →
    ∃ message d', onEnter b true d = .ok (.terminateWithError message, d')

/-- Tokens are left over, and there is no `Rest` argument for them. -/
def LeavesOver (command : Command V) (tokens : List String) : Prop :=
  lastRest command.positionalArgs = none ∧ command.positionalArgs.length < tokens.length

/-- A required option has no default, no values from before, and no token that parses for
it. -/
def StaysLacking (command : Command V) (ps : List (ClapOption V × String))
    (ovm : OptionValuesMap V) : Prop :=
  ∃ before option behind,
    command.options ++ command.positionalArgs = before ++ option :: behind ∧
    option.isRequired = true ∧ option.default? = none ∧ ovm.values option.key = [] ∧
    (∀ p ∈ ps, p.1.key = option.key → p.1.parse p.2 = none) ∧
    firstDefault before option.key = none

section

variable {b : Build} {command : Command V} {d d' : Data V}
  {ps : List (ClapOption V × String)}

theorem lacks_iff_staysLacking {ovm : OptionValuesMap V} :
    Lacks (command.options ++ command.positionalArgs)
        (ovm.storeAll (ps.filterMap positionalEntry)) ↔ StaysLacking command ps ovm := by
  have hnone : ∀ k, (ovm.storeAll (ps.filterMap positionalEntry)).values k = [] ↔
      ovm.values k = [] ∧ ∀ p ∈ ps, p.1.key = k → p.1.parse p.2 = none := by
    intro k
    rw [values_storeAll_positionals, List.append_eq_nil_iff, flagged_eq_nil, positionalsGiven,
      List.filterMap_eq_nil_iff]
    simp
  simp only [Lacks, StaysLacking, hnone, and_assoc]

theorem onEnter_eq_terminate (h : onEnter b true d = .ok (.terminate, d')) :
    settle b d.context = .ok (.terminate, d'.context) := by
  rw [onEnter_eq] at h
  obtain ⟨⟨status, context⟩, hsettle, h⟩ := bind_eq_ok.mp h
  cases h
  exact hsettle

/-- A success stores what parses. -/
theorem values_of_terminate (hcommand : d.context.activeCommand = some command)
    (hassigned : assigned command.positionalArgs d.context.positionalTokens = some ps)
    (h : onEnter b true d = .ok (.terminate, d')) {e : String × OptionValue V}
    (he : e ∈ ps.filterMap positionalEntry) :
    d'.context.ovm.values e.1 = d.context.ovm.values e.1 ++
      ((ps.filterMap positionalEntry).filter fun e' => e'.1 = e.1).map Prod.snd := by
  obtain ⟨command', ps', hcommand', hassigned', -, hvalues, -⟩ :=
    settle_terminate (onEnter_eq_terminate h)
  obtain rfl := Option.some.inj (hcommand.symm.trans hcommand')
  obtain rfl := Option.some.inj (hassigned.symm.trans hassigned')
  have hne : (d.context.ovm.storeAll (ps.filterMap positionalEntry)).values e.1 ≠ [] := by
    rw [Multimap.values_storeAll]
    intro hnil
    have hmem : e.2 ∈
        ((ps.filterMap positionalEntry).filter fun e' => e'.1 = e.1).map Prod.snd :=
      List.mem_map_of_mem (List.mem_filter.mpr ⟨he, by simp⟩)
    rw [(List.append_eq_nil_iff.mp hnil).2] at hmem
    cases hmem
  rw [hvalues, orDefault_of_ne_nil hne, Multimap.values_storeAll]

/-- Where nothing goes wrong, tokens are left over or all of them are assigned. -/
theorem leavesOver_or_assigned (hcommand : d.context.activeCommand = some command)
    (hnot : ¬ FinalFaults b command d.context) :
    LeavesOver command d.context.positionalTokens ∨
      ∃ ps, assigned command.positionalArgs d.context.positionalTokens = some ps := by
  rw [← settle_error_iff hcommand] at hnot
  rcases settle_cases (b := b) hcommand with ⟨ps, hassigned, -⟩ |
    ⟨ps, left, htake, hleft, hlast, -⟩ | ⟨-, -, hsettle⟩ | ⟨fault, -, hsettle, -⟩
  · exact .inr ⟨ps, hassigned⟩
  · have hlen := length_of_takePositionals htake
    rw [nonRest_of_lastRest_none hlast] at hlen
    have hpos := List.length_pos_iff.mpr hleft
    exact .inl ⟨hlast, by omega⟩
  · exact absurd ⟨_, hsettle⟩ hnot
  · exact absurd ⟨_, hsettle⟩ hnot

theorem not_leavesOver_of_assigned
    (h : assigned command.positionalArgs d.context.positionalTokens = some ps) :
    ¬ LeavesOver command d.context.positionalTokens := by
  rintro ⟨hlast, hmore⟩
  obtain ⟨⟨qs, left⟩, htake, h⟩ := Option.bind_eq_some_iff.mp h
  have hlen := length_of_takePositionals htake
  rw [nonRest_of_lastRest_none hlast] at hlen
  cases left with
  | nil =>
      rw [List.length_nil] at hlen
      omega
  | cons token left => simp [hlast] at h

/-- `OnEnter` ends with an error exactly if nothing goes wrong, and tokens are left over or
something that is required stays lacking. -/
theorem exists_error_iff (hcommand : d.context.activeCommand = some command) :
    (∃ message d', onEnter b true d = .ok (.terminateWithError message, d')) ↔
      ¬ FinalFaults b command d.context ∧
        (LeavesOver command d.context.positionalTokens ∨
          StaysLacking command (handed command.positionalArgs d.context.positionalTokens)
            d.context.ovm) := by
  have hterminate := exists_settle_terminate_iff (b := b) hcommand
  constructor
  · rintro ⟨message, d', hok⟩
    rw [onEnter_eq] at hok
    obtain ⟨⟨status, context⟩, hsettle, hstatus⟩ := bind_eq_ok.mp hok
    cases hstatus
    have hnot : ¬ FinalFaults b command d.context := by
      rw [← settle_error_iff hcommand]
      simp [hsettle]
    refine ⟨hnot, (leavesOver_or_assigned hcommand hnot).imp_right fun ⟨ps, hps⟩ => ?_⟩
    rw [handed_of_assigned hps, ← lacks_iff_staysLacking]
    by_contra hlacks
    obtain ⟨result, hresult⟩ := hterminate.mpr ⟨hnot, ps, hps, hlacks⟩
    simp [hsettle] at hresult
  · rintro ⟨hnot, hwhy⟩
    have hfaults := mt (settle_error_iff hcommand).mp hnot
    cases hsettle : settle b d.context with
    | error fault => exact absurd ⟨fault, hsettle⟩ hfaults
    | ok result =>
        obtain ⟨status, context⟩ := result
        obtain rfl | ⟨message, rfl⟩ := settle_status hsettle
        · obtain ⟨-, ps, hps, hlacks⟩ := hterminate.mp ⟨context, hsettle⟩
          rw [handed_of_assigned hps, ← lacks_iff_staysLacking] at hwhy
          exact (hwhy.elim (not_leavesOver_of_assigned hps) hlacks).elim
        · exact ⟨message, { d with context }, by rw [onEnter_eq, hsettle]; rfl⟩

/-- **No token is discarded** exactly if each of them parses for its argument, or the run ends
with an error for another reason: nothing goes wrong, and tokens are left over or something that
is required stays lacking. -/
theorem keepsTokens_iff (hcommand : d.context.activeCommand = some command) :
    KeepsTokens b command d ↔
      (∀ p ∈ handed command.positionalArgs d.context.positionalTokens,
          (p.1.parse p.2).isSome) ∨
        ¬ FinalFaults b command d.context ∧
          (LeavesOver command d.context.positionalTokens ∨
            StaysLacking command (handed command.positionalArgs d.context.positionalTokens)
              d.context.ovm) := by
  rw [← exists_error_iff (b := b) hcommand]
  constructor
  · intro h
    by_cases hall : ∀ p ∈ handed command.positionalArgs d.context.positionalTokens,
        (p.1.parse p.2).isSome
    · exact .inl hall
    · exact .inr (h.reports (by simpa using hall))
  · intro h
    constructor
    · intro d' hok
      obtain ⟨command', ps, hcommand', hps, -, -, -⟩ :=
        settle_terminate (onEnter_eq_terminate hok)
      obtain rfl := Option.some.inj (hcommand.symm.trans hcommand')
      rw [handed_of_assigned hps] at h
      obtain hall | ⟨message, d'', herror⟩ := h
      · exact ⟨ps, _, hps, perm_of_assigned hps, isEntry_positionalEntry hall,
          fun e he => values_of_terminate hcommand hps hok he⟩
      · cases hok.symm.trans herror
    · rintro ⟨p, hp, hnone⟩
      refine h.resolve_left fun hall => ?_
      simpa [hnone] using hall p hp

end

/-- A default command with one positional argument, a flag. -/
def forced : Command (Any Nat) :=
  Command.plainDefault.withPositionalArguments [{ key := "force", valueSemantic := some .flag }]

/-- `FinalState` is entered for it with this token. -/
def forcedData (token : String) : Data (Any Nat) where
  context := {
    programName := "prog"
    commands := [forced]
    activeCommand := some forced
    positionalTokens := [token] }

/-- `yes` is a flag. -/
theorem keepsTokens_forced : KeepsTokens .debug forced (forcedData "yes") := by
  refine (keepsTokens_iff rfl).mpr (.inl fun p hp => ?_)
  obtain rfl := List.mem_singleton.mp hp
  decide

/-- A token that is no flag is dropped without a word. -/
theorem not_keepsTokens_forced :
    (∃ context, Parses .debug { programName := "prog" } [forced] ["maybe"]
        (.returned true context) ∧ context.ovm.values "force" = []) ∧
      ¬ KeepsTokens .debug forced (forcedData "maybe") := by
  refine ⟨⟨_, ⟨4, rfl⟩, rfl⟩, fun h => ?_⟩
  obtain ⟨message, d', hok⟩ := h.reports ⟨_, List.mem_singleton_self _, rfl⟩
  cases hok

end FinalState

end Parser

end AsapClap
