import AsapClap.Tokenizer
import Mathlib.Data.List.TakeDrop
import Mathlib.Data.List.TakeWhile

/-!
# AsapClap.Tokenizer.Grammar

What one argument means, and what the character machine makes of it.

`grammar` is the argument grammar, by cases on the shape of the argument, and
`render` writes tokens back as an argument.  The machine is followed state by
state: `leave` gives the tokens that are appended when the rest of the argument
is read from a state, and one lemma for each state computes it.  Machine and
grammar part company only after an `=`:

```
--name=            LongOption name, EqualSign, LongOption name
--name==value      LongOption name, EqualSign, LongOption name, EqualSign, Value value
```
-/

namespace AsapClap

namespace Tokenizer

/-! ## The argument grammar -/

/-- The tokens of `--` followed by a nonempty text: a name, which runs to the
first `=` after its first character, and what follows that `=`. -/
def longOptionTokens (valuePart : String → List Char → List Token) (c : Char) (cs : List Char) :
    List Token :=
  let name := String.ofList (c :: cs.takeWhile (· ≠ '='))
  (.longOption, name) :: match cs.dropWhile (· ≠ '=') with
    | [] => []
    | _ :: value => (.equalSign, "=") :: valuePart name value

private theorem forall_ne_of_notMem {cs : List Char} (h : '=' ∉ cs) :
    ∀ x ∈ cs, decide (x ≠ '=') = true :=
  fun _ hx => decide_eq_true fun heq => h (heq ▸ hx)

/-- A name ends at the first `=`. -/
theorem dropWhile_append_of_notMem {name value : List Char} (h : '=' ∉ name) :
    (name ++ '=' :: value).dropWhile (· ≠ '=') = '=' :: value := by
  rw [List.dropWhile_append_of_pos (forall_ne_of_notMem h)]
  simp

/-- Without an equal sign all of it is the name. -/
theorem longOptionTokens_of_notMem {valuePart : String → List Char → List Token} {c : Char}
    {name : List Char} (h : '=' ∉ name) :
    longOptionTokens valuePart c name = [(.longOption, String.ofList (c :: name))] := by
  rw [longOptionTokens, List.takeWhile_eq_self_iff.mpr (forall_ne_of_notMem h),
    List.dropWhile_eq_nil_iff.mpr (forall_ne_of_notMem h)]

/-- The name ends at the first equal sign. -/
theorem longOptionTokens_append {valuePart : String → List Char → List Token} {c : Char}
    {name value : List Char} (h : '=' ∉ name) :
    longOptionTokens valuePart c (name ++ '=' :: value) =
      (.longOption, String.ofList (c :: name)) :: (.equalSign, "=") ::
        valuePart (String.ofList (c :: name)) value := by
  rw [longOptionTokens, List.takeWhile_append_of_pos (forall_ne_of_notMem h),
    dropWhile_append_of_notMem h]
  simp

/-- Every text is a name, or a name, an `=` and a value. -/
theorem name_or_nameValue (cs : List Char) :
    '=' ∉ cs ∨ ∃ name value, cs = name ++ '=' :: value ∧ '=' ∉ name := by
  by_cases h : '=' ∈ cs
  · obtain ⟨name, value, hcs, hname⟩ := List.eq_append_cons_of_mem h
    exact .inr ⟨name, value, hcs, hname⟩
  · exact .inl h

/-- The tokens of an argument that starts with a dash, without that dash. -/
def dashTokens (valuePart : String → List Char → List Token) : List Char → List Token
  | [] => [(.loneDash, "-")]
  | c :: cs =>
      if c = '-' then match cs with
        | [] => [(.dashDash, "--")]
        | c :: cs => longOptionTokens valuePart c cs
      else (c :: cs).map fun c => (.shortOption, String.singleton c)

/-- The tokens of an argument, given what the value part of `--name=value`
turns into. -/
def argumentTokens (valuePart : String → List Char → List Token) : List Char → List Token
  | [] => []
  | c :: cs => if c = '-' then dashTokens valuePart cs else [(.value, String.ofList (c :: cs))]

/-- The shapes of an argument, each with its tokens. -/
theorem argumentTokens_cases {valuePart : String → List Char → List Token}
    {P : List Char → List Token → Prop} (empty : P [] [])
    (loneDash : P ['-'] [(.loneDash, "-")]) (dashDash : P ['-', '-'] [(.dashDash, "--")])
    (longOption : ∀ c cs, P ('-' :: '-' :: c :: cs) (longOptionTokens valuePart c cs))
    (shortOptions : ∀ c cs, c ≠ '-' →
      P ('-' :: c :: cs) ((c :: cs).map fun c => (.shortOption, String.singleton c)))
    (value : ∀ c cs, c ≠ '-' → P (c :: cs) [(.value, String.ofList (c :: cs))])
    (cs : List Char) : P cs (argumentTokens valuePart cs) := by
  cases cs with
  | nil => exact empty
  | cons a cs =>
      rw [argumentTokens]
      split
      · next ha =>
        subst ha
        cases cs with
        | nil => exact loneDash
        | cons b cs =>
            by_cases hb : b = '-'
            · subst hb
              cases cs with
              | nil => exact dashDash
              | cons c cs => exact longOption c cs
            · simpa [dashTokens, hb] using shortOptions b cs hb
      · next ha => exact value a cs ha

/-- The tokens of a value: none when it is empty. -/
def valueTokens : List Char → List Token
  | [] => []
  | c :: cs => [(.value, String.ofList (c :: cs))]

/-- The tokens an argument stands for. -/
def grammar (arg : String) : List Token := argumentTokens (fun _ => valueTokens) arg.toList

/-- A token as it stands in an argument; the dash of a cluster of short options
is written once for the whole cluster, by `render`. -/
def renderToken : Token → String
  | (.longOption, name) => "--" ++ name
  | (_, text) => text

/-- The argument that the tokens of one argument stand for. -/
def render (tokens : List Token) : String :=
  (if tokens.head?.map Prod.fst = some .shortOption then "-" else "") ++
    String.join (tokens.map renderToken)

/-- `--name=value` with an empty value, or with a value that starts with `=`. -/
def EqualSignSlip (arg : String) : Prop :=
  ∃ c name value, arg.toList = '-' :: '-' :: c :: name ++ '=' :: value ∧ '=' ∉ name ∧
    (value = [] ∨ value.head? = some '=')

/-! ## The machine, state by state -/

/-- A state that answers `DoNothing` stays. -/
theorem feed_of_doNothing {s : State} {e : Event} {d d' : Data}
    (h : handle s e d = (.doNothing, d')) : feed (s, d) e = (s, d') := by
  have hstep := Fsm.StateMachine.step_of_doNothing (m := Id) (M := machine) h
  simp [feed, hstep]

/-- A transition runs `OnLeave` and `OnEnter`; none of the states objects. -/
theorem feed_of_transition {s t : State} {e : Event} {d d₁ d₂ : Data} {hasData : Bool}
    (h : handle s e d = (.transitionTo t hasData, d₁)) (hl : onLeave s e d₁ = (.continue_, d₂)) :
    feed (s, d) e = (t, (onEnter t e hasData d₂).2) := by
  have hstep := Fsm.StateMachine.step_of_transition (m := Id) (M := machine) h hl
  simp only [feed, hstep]
  rfl

/-- The queue after the rest of an argument has been read from a state. -/
def leave (p : State × Data) (cs : List Char) : List Token :=
  ((cs.map Event.inputChar ++ [Event.inputEnd]).foldl feed p).2.tokens

theorem tokenizeOnto_eq_leave (tokens : List Token) (arg : String) :
    tokenizeOnto tokens arg = leave (.initialState, { tokens }) arg.toList := rfl

theorem leave_nil (p : State × Data) : leave p [] = (feed p .inputEnd).2.tokens := rfl

theorem leave_cons (p : State × Data) (c : Char) (cs : List Char) :
    leave p (c :: cs) = leave (feed p (.inputChar c)) cs := rfl

/-- In `ValueState` the rest of the argument belongs to the value. -/
theorem leave_valueState (d : Data) (cs : List Char) :
    leave (.valueState, d) cs = d.tokens ++ [(.value, d.valueToken ++ String.ofList cs)] := by
  induction cs generalizing d with
  | nil =>
      rw [leave_nil, feed_of_transition rfl rfl]
      simp [onEnter, Data.consumeToken]
  | cons c cs ih =>
      rw [leave_cons, feed_of_doNothing rfl, ih]
      simp [← String.toList_inj]

/-- In `ShortOptionState` every character is an option. -/
theorem leave_shortOptionState (d : Data) (cs : List Char) :
    leave (.shortOptionState, d) cs =
      d.tokens ++ cs.map fun c => (.shortOption, String.singleton c) := by
  induction cs generalizing d with
  | nil =>
      rw [leave_nil, feed_of_transition rfl rfl]
      simp [onEnter]
  | cons c cs ih =>
      rw [leave_cons, feed_of_doNothing rfl, ih]
      simp [Data.consumeToken]

/-- The tokens that follow a name and an `=`, as the machine emits them: every
further `=` emits the name again, and so does the end of the argument. -/
def afterEqual (name : String) : List Char → List Token
  | [] => [(.longOption, name)]
  | '=' :: cs => (.longOption, name) :: (.equalSign, "=") :: afterEqual name cs
  | cs => [(.value, String.ofList cs)]

theorem handle_longOptionState_equalSign (d : Data) :
    handle .longOptionState (.inputChar '=') d =
      (.doNothing, { (d.consumeToken .longOption d.longToken).consumeToken .equalSign "=" with
        afterEqualSign := true }) := rfl

/-- Behind the equal sign the machine goes on as `afterEqual` does. -/
theorem leave_longOptionState_afterEqual (d : Data) (h : d.afterEqualSign = true)
    (hv : d.valueToken = "") (cs : List Char) :
    leave (.longOptionState, d) cs = d.tokens ++ afterEqual d.longToken cs := by
  induction cs generalizing d with
  | nil =>
      rw [leave_nil, feed_of_transition rfl rfl]
      simp [onEnter, Data.consumeToken, afterEqual]
  | cons c cs ih =>
      by_cases hc : c = '='
      · subst hc
        rw [leave_cons, feed_of_doNothing (handle_longOptionState_equalSign d),
          ih _ rfl (by simpa [Data.consumeToken] using hv)]
        simp [Data.consumeToken, afterEqual]
      · have hhandle : handle .longOptionState (.inputChar c) d =
            (.transitionTo .valueState false, d) := by
          simp [handle, hc, h]
        rw [leave_cons, feed_of_transition hhandle rfl, leave_valueState]
        simp [afterEqual, onEnter, hc, hv, String.ofList_cons]

/-- From a name without `=` in the buffer, the rest of the argument gives the
tokens of the whole name part. -/
theorem leave_longOptionState (d : Data) (h : d.afterEqualSign = false) (hv : d.valueToken = "")
    (c : Char) (pre cs : List Char) (hname : d.longToken = String.ofList (c :: pre))
    (hpre : '=' ∉ pre) :
    leave (.longOptionState, d) cs = d.tokens ++ longOptionTokens afterEqual c (pre ++ cs) := by
  induction cs generalizing d pre with
  | nil =>
      rw [leave_nil, feed_of_transition rfl rfl, List.append_nil, longOptionTokens_of_notMem hpre]
      simp [onEnter, Data.consumeToken, hname]
  | cons x cs ih =>
      by_cases hx : x = '='
      · subst hx
        rw [leave_cons, feed_of_doNothing (handle_longOptionState_equalSign d),
          leave_longOptionState_afterEqual _ rfl (by simpa [Data.consumeToken] using hv),
          longOptionTokens_append hpre]
        simp [Data.consumeToken, hname]
      · have hhandle : handle .longOptionState (.inputChar x) d =
            (.doNothing, { d with longToken := d.longToken.push x }) := by
          simp [handle, hx, h]
        rw [leave_cons, feed_of_doNothing hhandle,
          ih { d with longToken := d.longToken.push x } h hv (pre ++ [x])]
        · simp
        · simp [hname, ← String.toList_inj]
        · simpa [hpre] using Ne.symm hx

/-- The tokens the machine emits for an argument: the grammar's, but for what
follows an `=`. -/
def emitted (arg : String) : List Token := argumentTokens afterEqual arg.toList

/-- Behind two dashes. -/
theorem leave_dashDashState (tokens : List Token) (cs : List Char) :
    leave (.dashDashState, { tokens }) cs = tokens ++ dashTokens afterEqual ('-' :: cs) := by
  cases cs with
  | nil =>
      rw [leave_nil, feed_of_transition rfl rfl]
      simp [onEnter, Data.consumeToken, dashTokens]
  | cons c cs =>
      rw [leave_cons, feed_of_transition rfl rfl, leave_longOptionState _ rfl rfl c [] cs]
      · simp [onEnter, dashTokens]
      · simp [onEnter]
      · simp

/-- Behind one dash. -/
theorem leave_optionState (tokens : List Token) (cs : List Char) :
    leave (.optionState, { tokens }) cs = tokens ++ dashTokens afterEqual cs := by
  cases cs with
  | nil =>
      rw [leave_nil, feed_of_transition rfl rfl]
      simp [onEnter, Data.consumeToken, dashTokens]
  | cons c cs =>
      by_cases hc : c = '-'
      · subst hc
        have hhandle : handle .optionState (.inputChar '-') { tokens } =
            (.transitionTo .dashDashState false, { tokens }) := rfl
        rw [leave_cons, feed_of_transition hhandle rfl]
        exact leave_dashDashState tokens cs
      · have hhandle : handle .optionState (.inputChar c) { tokens } =
            (.transitionTo .shortOptionState false, { tokens }) := by
          simp [handle, hc]
        rw [leave_cons, feed_of_transition hhandle rfl, leave_shortOptionState]
        simp [onEnter, Data.consumeToken, dashTokens, hc]

/-- **The machine, closed form**: what `Tokenize` appends to any queue. -/
theorem tokenizeOnto_eq (tokens : List Token) (arg : String) :
    tokenizeOnto tokens arg = tokens ++ emitted arg := by
  rw [tokenizeOnto_eq_leave, emitted]
  cases arg.toList with
  | nil =>
      rw [leave_nil, feed_of_transition rfl rfl]
      simp [onEnter, argumentTokens]
  | cons c cs =>
      by_cases hc : c = '-'
      · subst hc
        rw [leave_cons, feed_of_transition rfl rfl]
        exact leave_optionState tokens cs
      · have hhandle : handle .initialState (.inputChar c) { tokens } =
            (.transitionTo .valueState false, { tokens }) := by
          simp [handle, hc]
        rw [leave_cons, feed_of_transition hhandle rfl, leave_valueState]
        simp [onEnter, argumentTokens, hc, String.ofList_cons]

/-- **The tokenizer emits what the grammar says**, slip included. -/
theorem tokenize_eq (arg : String) : tokenize arg = emitted arg := by
  simp [tokenize, tokenizeOnto_eq]

/-! ## Arguments of one option or value -/

/-- What does not begin with a dash is a value. -/
theorem tokenize_value {v : String} (hv : v ≠ "") (hdash : v.toList.head? ≠ some '-') :
    tokenize v = [(.value, v)] := by
  rw [tokenize_eq, emitted]
  cases hcs : v.toList with
  | nil => exact absurd (String.toList_eq_nil_iff.mp hcs) hv
  | cons c cs =>
      rw [hcs] at hdash
      have hc : c ≠ '-' := by simpa using hdash
      rw [argumentTokens, if_neg hc, ← hcs, String.ofList_toList]

/-- A dash and a character are a short option. -/
theorem tokenize_shortOption {c : Char} (hc : c ≠ '-') :
    tokenize ("-" ++ String.singleton c) = [(.shortOption, String.singleton c)] := by
  rw [tokenize_eq, emitted, String.toList_append, String.toList_singleton]
  change argumentTokens afterEqual ['-', c] = _
  simp [argumentTokens, dashTokens, hc]

/-- Two dashes and a name are a long option. -/
theorem tokenize_longOption {name : String} (hname : name ≠ "") (hequal : '=' ∉ name.toList) :
    tokenize ("--" ++ name) = [(.longOption, name)] := by
  rw [tokenize_eq, emitted, String.toList_append]
  cases hcs : name.toList with
  | nil => exact absurd (String.toList_eq_nil_iff.mp hcs) hname
  | cons c cs =>
      rw [hcs] at hequal
      change longOptionTokens afterEqual c cs = _
      rw [longOptionTokens_of_notMem (fun h => hequal (List.mem_cons_of_mem _ h)), ← hcs,
        String.ofList_toList]

/-- A long option with its value has three tokens. -/
theorem tokenize_longOption_value {name value : String} (hname : name ≠ "")
    (hequal : '=' ∉ name.toList) (hvalue : value ≠ "") (hhead : value.toList.head? ≠ some '=') :
    tokenize ("--" ++ name ++ "=" ++ value) =
      [(.longOption, name), (.equalSign, "="), (.value, value)] := by
  rw [tokenize_eq, emitted, String.toList_append, String.toList_append, String.toList_append]
  cases hcs : name.toList with
  | nil => exact absurd (String.toList_eq_nil_iff.mp hcs) hname
  | cons c cs =>
      rw [hcs] at hequal
      rw [List.append_assoc]
      change longOptionTokens afterEqual c (cs ++ '=' :: value.toList) = _
      rw [longOptionTokens_append (fun h => hequal (List.mem_cons_of_mem _ h)), ← hcs,
        String.ofList_toList]
      cases hvs : value.toList with
      | nil => exact absurd (String.toList_eq_nil_iff.mp hvs) hvalue
      | cons v vs =>
          rw [hvs] at hhead
          have hv : v ≠ '=' := by simpa using hhead
          have hafter : afterEqual name (v :: vs) = [(.value, String.ofList (v :: vs))] := by
            simp [afterEqual, hv]
          rw [hafter, ← hvs, String.ofList_toList]

/-! ## Machine against grammar -/

/-- Machine and grammar agree on a value part exactly when it is nonempty and
does not start with a further `=`. -/
theorem afterEqual_eq_valueTokens_iff (name : String) (value : List Char) :
    afterEqual name value = valueTokens value ↔ ¬ (value = [] ∨ value.head? = some '=') := by
  cases value with
  | nil => simp [afterEqual, valueTokens]
  | cons c cs =>
      by_cases hc : c = '='
      · simp [afterEqual, valueTokens, hc]
      · simp [afterEqual, valueTokens, hc]

/-- The slip is about what follows the first equal sign: nothing, or another one. -/
theorem equalSignSlip_iff {arg : String} {c : Char} {name value : List Char}
    (harg : arg.toList = '-' :: '-' :: c :: (name ++ '=' :: value)) (hname : '=' ∉ name) :
    EqualSignSlip arg ↔ value = [] ∨ value.head? = some '=' := by
  constructor
  · rintro ⟨c', name', value', harg', hname', hslip⟩
    have hsplit : name ++ '=' :: value = name' ++ '=' :: value' := by
      rw [harg] at harg'
      simpa using (List.cons.inj (List.cons.inj (List.cons.inj harg').2).2).2
    have hdrop := congrArg (List.dropWhile (· ≠ '=')) hsplit
    rw [dropWhile_append_of_notMem hname, dropWhile_append_of_notMem hname'] at hdrop
    rwa [(List.cons.inj hdrop).2]
  · intro hslip
    exact ⟨c, name, value, by simp [harg], hname, hslip⟩

/-- Without an equal sign there is no slip. -/
theorem not_equalSignSlip_of_notMem {arg : String} {c : Char} {cs : List Char}
    (harg : arg.toList = '-' :: '-' :: c :: cs) (hcs : '=' ∉ cs) : ¬ EqualSignSlip arg := by
  rintro ⟨c', name', value', harg', -, -⟩
  rw [harg] at harg'
  obtain ⟨-, -, -, rfl⟩ := by simpa using harg'
  simp at hcs

/-- Without two dashes there is none either. -/
theorem not_equalSignSlip_of_head {arg : String} {a b : Char} {cs : List Char}
    (harg : arg.toList = a :: b :: cs) (h : a ≠ '-' ∨ b ≠ '-') : ¬ EqualSignSlip arg := by
  rintro ⟨c', name', value', harg', -, -⟩
  rw [harg] at harg'
  simp only [List.cons_append, List.cons.injEq] at harg'
  obtain h | h := h
  · exact h harg'.1
  · exact h harg'.2.1

/-- What the machine emits is what the argument stands for, except on a slip. -/
theorem emitted_eq_grammar_iff (arg : String) :
    emitted arg = grammar arg ↔ ¬ EqualSignSlip arg := by
  rw [emitted, grammar]
  match harg : arg.toList with
  | [] => simp [EqualSignSlip, harg, argumentTokens]
  | [a] => simp [EqualSignSlip, harg, argumentTokens, dashTokens]
  | [a, b] => simp [EqualSignSlip, harg, argumentTokens, dashTokens]
  | a :: b :: c :: cs =>
      by_cases hdash : a = '-' ∧ b = '-'
      · obtain ⟨rfl, rfl⟩ := hdash
        obtain hcs | ⟨name, value, rfl, hname⟩ := name_or_nameValue cs
        · simp [argumentTokens, dashTokens, longOptionTokens_of_notMem hcs,
            not_equalSignSlip_of_notMem harg hcs]
        · rw [equalSignSlip_iff harg hname,
            ← afterEqual_eq_valueTokens_iff (String.ofList (c :: name))]
          simp [argumentTokens, dashTokens, longOptionTokens_append hname]
      · rw [not_and_or] at hdash
        simp only [not_equalSignSlip_of_head harg hdash, not_false_eq_true, iff_true]
        by_cases ha : a = '-'
        · have hb : b ≠ '-' := hdash.resolve_left (not_not_intro ha)
          simp [argumentTokens, dashTokens, ha, hb]
        · simp [argumentTokens, ha]

/-! ## Rendering -/

theorem render_cons (t : Token) (ts : List Token) (h : t.1 ≠ .shortOption) :
    render (t :: ts) = renderToken t ++ String.join (ts.map renderToken) := by
  simp [render, h]

/-- Short options are rendered as one bundle. -/
theorem render_shortOptions (c : Char) (cs : List Char) :
    render ((c :: cs).map fun c => (.shortOption, String.singleton c)) =
      "-" ++ String.ofList (c :: cs) := by
  have htext : ∀ cs : List Char, (cs.map fun c => (TokenType.shortOption, String.singleton c)).map
      renderToken = cs.map String.singleton := by
    intro cs
    simp [renderToken]
  simp only [render, htext]
  simp [← String.toList_inj, List.flatMap_map]

/-- A long option is rendered as it was typed. -/
theorem render_longOptionTokens (c : Char) (cs : List Char) :
    render (longOptionTokens (fun _ => valueTokens) c cs) = "--" ++ String.ofList (c :: cs) := by
  obtain hcs | ⟨name, value, rfl, hname⟩ := name_or_nameValue cs
  · rw [longOptionTokens_of_notMem hcs, render_cons _ _ (by simp)]
    simp [renderToken]
  · rw [longOptionTokens_append hname, render_cons _ _ (by simp)]
    cases value <;> simp [renderToken, valueTokens, ← String.toList_inj]

/-- **The grammar loses nothing**: the tokens of an argument render to it. -/
theorem render_grammar (arg : String) : render (grammar arg) = arg := by
  suffices h : ∀ cs, render (argumentTokens (fun _ => valueTokens) cs) = String.ofList cs by
    simpa [grammar] using h arg.toList
  refine argumentTokens_cases (P := fun cs tokens => render tokens = String.ofList cs)
    (by decide) (by decide) (by decide) ?_ ?_ ?_
  · intro c cs
    rw [render_longOptionTokens, ← String.toList_inj]
    simp
  · intro c cs _
    rw [render_shortOptions, ← String.toList_inj]
    simp
  · intro c cs _
    rw [render_cons _ _ (by simp), ← String.toList_inj]
    simp [renderToken]

/-! ## The argument grammar, as the tokenizer keeps it -/

/-- **Tokenizing an argument**: `Tokenize` appends the tokens the argument stands
for, and these render to it, unless the argument is `--name=` or `--name==…`. -/
theorem tokenize_grammar_iff (arg : String) :
    ((∀ tokens, tokenizeOnto tokens arg = tokens ++ grammar arg) ∧ render (tokenize arg) = arg) ↔
      ¬ EqualSignSlip arg := by
  rw [← emitted_eq_grammar_iff]
  constructor
  · rintro ⟨h, -⟩
    have hnil := h []
    rwa [tokenizeOnto_eq, List.nil_append, List.nil_append] at hnil
  · intro h
    refine ⟨fun tokens => by rw [tokenizeOnto_eq, h], ?_⟩
    rw [tokenize_eq, h, render_grammar]

/-- The end of `--opt=` emits the name a second time. -/
theorem tokenize_opt_equal_slip :
    ¬ ((∀ tokens, tokenizeOnto tokens "--opt=" = tokens ++ grammar "--opt=") ∧
      render (tokenize "--opt=") = "--opt=") := by
  rintro ⟨h, -⟩
  have hnil := h []
  revert hnil
  decide

end Tokenizer

end AsapClap
