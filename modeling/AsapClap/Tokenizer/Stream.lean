import AsapClap.Tokenizer.Grammar
import Mathlib.Data.List.Chain
import Mathlib.Logic.Function.Iterate

/-!
# AsapClap.Tokenizer.Stream

The stream of tokens that successive `NextToken` calls return.

`remaining` is what a tokenizer still returns before its next `EndOfInput`: the
queue, then the tokens of the arguments up to the first empty one.  An empty
argument contributes no token, and `NextToken` reports `EndOfInput` for it, so
the stream is the whole command line exactly when no argument is empty.
-/

namespace AsapClap

namespace Tokenizer

/-! ## Tokens of one argument -/

/-- No end of input comes from behind the equal sign. -/
theorem afterEqual_ne_endOfInput (name : String) (cs : List Char) :
    ∀ t ∈ afterEqual name cs, t.1 ≠ .endOfInput := by
  induction cs with
  | nil => simp [afterEqual]
  | cons c cs ih =>
      by_cases hc : c = '='
      · subst hc
        simpa [afterEqual] using ih
      · simp [afterEqual, hc]

/-- No end of input comes from a long option as a whole. -/
theorem longOptionTokens_ne_endOfInput (c : Char) (cs : List Char) :
    ∀ t ∈ longOptionTokens afterEqual c cs, t.1 ≠ .endOfInput := by
  obtain hcs | ⟨name, value, rfl, hname⟩ := name_or_nameValue cs
  · simp [longOptionTokens_of_notMem hcs]
  · simpa [longOptionTokens_append hname] using afterEqual_ne_endOfInput _ value

/-- `Tokenize` never produces the token that stands for the end of the stream. -/
theorem tokenize_ne_endOfInput (arg : String) : ∀ t ∈ tokenize arg, t.1 ≠ .endOfInput := by
  rw [tokenize_eq, emitted]
  refine argumentTokens_cases (P := fun _ tokens => ∀ t ∈ tokens, t.1 ≠ .endOfInput)
    (by simp) (by simp) (by simp) ?_ ?_ ?_ _
  · exact longOptionTokens_ne_endOfInput
  · simp
  · simp

/-- Only the empty argument has no tokens. -/
theorem tokenize_eq_nil_iff (arg : String) : tokenize arg = [] ↔ arg = "" := by
  rw [tokenize_eq, emitted, ← String.toList_eq_nil_iff]
  refine argumentTokens_cases (P := fun cs tokens => tokens = [] ↔ cs = [])
    (by simp) (by simp) (by simp) ?_ ?_ ?_ _
  · simp [longOptionTokens]
  · simp
  · simp

/-- An equal sign comes directly behind a long option. -/
def Attached (s t : Token) : Prop := t.1 = .equalSign → s.1 = .longOption

/-- Another equal sign only comes behind the name that is emitted again. -/
theorem isChain_afterEqual (name : String) (cs : List Char) (equal : String) :
    ((TokenType.equalSign, equal) :: afterEqual name cs).IsChain Attached := by
  induction cs generalizing equal with
  | nil => simp [afterEqual, Attached]
  | cons c cs ih =>
      by_cases hc : c = '='
      · subst hc
        simp [afterEqual, Attached, ih]
      · simp [afterEqual, hc, Attached]

/-- Every equal sign of a long option is directly behind its name. -/
theorem isChain_longOptionTokens (c : Char) (cs : List Char) (prev : Token) :
    (prev :: longOptionTokens afterEqual c cs).IsChain Attached := by
  obtain hcs | ⟨name, value, rfl, hname⟩ := name_or_nameValue cs
  · simp [longOptionTokens_of_notMem hcs, Attached]
  · simp [longOptionTokens_append hname, Attached, isChain_afterEqual]

/-- There is no equal sign among short options. -/
theorem isChain_shortOptions (cs : List Char) (prev : Token) :
    (prev :: cs.map fun c => (TokenType.shortOption, String.singleton c)).IsChain Attached := by
  induction cs generalizing prev with
  | nil => simp
  | cons c cs ih => simpa [Attached] using ih _

/-- Equal signs are attached within one argument, and none begins one. -/
theorem isChain_tokenize (arg : String) : ∀ prev, (prev :: tokenize arg).IsChain Attached := by
  rw [tokenize_eq, emitted]
  refine argumentTokens_cases (P := fun _ tokens => ∀ prev, (prev :: tokens).IsChain Attached)
    (by simp) (by simp [Attached]) (by simp [Attached]) ?_ ?_ ?_ _
  · exact isChain_longOptionTokens
  · exact fun c cs _ => isChain_shortOptions (c :: cs)
  · simp [Attached]

/-- The tokens behind the equal sign have text. -/
theorem text_ne_empty_afterEqual {name : String} (hname : name ≠ "") (cs : List Char) :
    ∀ t ∈ afterEqual name cs, t.2 ≠ "" := by
  induction cs with
  | nil => simp [afterEqual, hname]
  | cons c cs ih =>
      by_cases hc : c = '='
      · subst hc
        simpa [afterEqual, hname] using ih
      · simp [afterEqual, hc]

/-- No token is empty. -/
theorem text_ne_empty_of_mem_tokenize (arg : String) : ∀ t ∈ tokenize arg, t.2 ≠ "" := by
  rw [tokenize_eq, emitted]
  refine argumentTokens_cases (P := fun _ tokens => ∀ t ∈ tokens, t.2 ≠ "")
    (by simp) (by simp) (by simp) ?_ ?_ ?_ _
  · intro c cs
    obtain hcs | ⟨name, value, rfl, hname⟩ := name_or_nameValue cs
    · simp [longOptionTokens_of_notMem hcs]
    · have hne : String.ofList (c :: name) ≠ "" := by simp
      simpa [longOptionTokens_append hname] using text_ne_empty_afterEqual hne value
  · simp
  · simp

/-! ## What a tokenizer still delivers -/

/-- The tokens of a command line before the first `EndOfInput`. -/
def delivered (args : List String) : List Token := (args.takeWhile (· ≠ "")).flatMap tokenize

/-- The tokens a tokenizer returns before its next `EndOfInput`. -/
def remaining (t : Tokenizer) : List Token := t.tokens ++ delivered t.args

@[simp] theorem delivered_nil : delivered [] = [] := rfl

@[simp] theorem delivered_empty_cons (args : List String) : delivered ("" :: args) = [] := by
  simp [delivered]

theorem delivered_cons {arg : String} (h : arg ≠ "") (args : List String) :
    delivered (arg :: args) = tokenize arg ++ delivered args := by
  simp [delivered, h]

/-- Without an empty argument everything is delivered. -/
theorem delivered_eq_flatMap {args : List String} (h : "" ∉ args) :
    delivered args = args.flatMap tokenize := by
  have hall : ∀ arg ∈ args, decide (arg ≠ "") = true :=
    fun arg harg => decide_eq_true fun heq => h (heq ▸ harg)
  rw [delivered, List.takeWhile_eq_self_iff.mpr hall]

/-- Arguments are delivered one after the other. -/
theorem delivered_append {args : List String} (h : "" ∉ args) (args' : List String) :
    delivered (args ++ args') = delivered args ++ delivered args' := by
  induction args with
  | nil => rfl
  | cons arg args ih =>
      obtain ⟨harg, hargs⟩ : arg ≠ "" ∧ "" ∉ args := by
        simpa [@eq_comm _ "" arg] using h
      rw [List.cons_append, delivered_cons harg, delivered_cons harg, ih hargs, List.append_assoc]

/-- Nothing behind an empty argument is delivered. -/
theorem delivered_append_of_mem {args : List String} (h : "" ∈ args) (args' : List String) :
    delivered (args ++ args') = delivered args := by
  induction args with
  | nil => cases h
  | cons arg args ih =>
      by_cases harg : arg = ""
      · simp [harg]
      · have hargs : "" ∈ args := by simpa [@eq_comm _ "" arg, harg] using h
        rw [List.cons_append, delivered_cons harg, delivered_cons harg, ih hargs]

/-- The end of input is not among what is delivered. -/
theorem delivered_ne_endOfInput (args : List String) :
    ∀ t ∈ delivered args, t.1 ≠ .endOfInput := by
  intro t ht
  obtain ⟨arg, -, harg⟩ := List.mem_flatMap.mp ht
  exact tokenize_ne_endOfInput arg t harg

/-- In the tokens delivered, every equal sign is attached to a long option. -/
theorem isChain_delivered (args : List String) (prev : Token) :
    (prev :: delivered args).IsChain Attached := by
  induction args generalizing prev with
  | nil => simp
  | cons arg args ih =>
      by_cases harg : arg = ""
      · simp [harg]
      · rw [delivered_cons harg, ← List.cons_append]
        refine (isChain_tokenize arg prev).append (ih prev).tail ?_
        intro s _ t ht
        exact (List.isChain_cons.mp (ih s)).1 t ht

/-- Every token that is delivered has text. -/
theorem text_ne_empty_of_mem_delivered (args : List String) : ∀ t ∈ delivered args, t.2 ≠ "" := by
  intro t ht
  obtain ⟨arg, -, harg⟩ := List.mem_flatMap.mp ht
  exact text_ne_empty_of_mem_tokenize arg t harg

@[simp] theorem remaining_new (args : List String) : remaining (new args) = delivered args := rfl

/-- A tokenizer with something left returns its first token and keeps the rest;
it passes no empty argument on the way. -/
theorem nextToken_of_remaining_cons {t : Tokenizer} {token : Token} {rest : List Token}
    (h : t.remaining = token :: rest) :
    t.nextToken.1 = token ∧ t.nextToken.2.remaining = rest ∧
      ("" ∈ t.nextToken.2.args ↔ "" ∈ t.args) := by
  obtain ⟨args, tokens⟩ := t
  cases tokens with
  | cons x xs =>
      obtain ⟨rfl, hrest⟩ : x = token ∧ xs ++ delivered args = rest := by simpa [remaining] using h
      exact ⟨rfl, hrest, Iff.rfl⟩
  | nil =>
      cases args with
      | nil => simp [remaining] at h
      | cons arg args =>
          by_cases harg : arg = ""
          · simp [remaining, harg] at h
          · obtain ⟨x, xs, htok⟩ := List.exists_cons_of_ne_nil
              (mt (tokenize_eq_nil_iff arg).mp harg)
            obtain ⟨rfl, hrest⟩ : x = token ∧ xs ++ delivered args = rest := by
              simpa [remaining, delivered_cons harg, htok] using h
            have hnext : nextToken { args := arg :: args } = (x, { args, tokens := xs }) := by
              rw [tokenize] at htok
              simp [nextToken, htok]
            rw [hnext]
            exact ⟨rfl, hrest, by simp [Ne.symm harg]⟩

/-- A tokenizer with nothing left returns `EndOfInput`. -/
theorem nextToken_of_remaining_nil {t : Tokenizer} (h : t.remaining = []) :
    t.nextToken.1 = endOfInput := by
  obtain ⟨args, tokens⟩ := t
  obtain ⟨rfl, hargs⟩ : tokens = [] ∧ delivered args = [] := by simpa [remaining] using h
  cases args with
  | nil => rfl
  | cons arg args =>
      have harg : arg = "" := by
        by_contra hne
        rw [delivered_cons hne, List.append_eq_nil_iff, tokenize_eq_nil_iff] at hargs
        exact hne hargs.1
      subst harg
      rfl

/-! ## Successive calls -/

/-- The tokenizer after `n` calls of `NextToken`. -/
def after (n : Nat) (t : Tokenizer) : Tokenizer := (fun t => t.nextToken.2)^[n] t

/-- What call number `n` of `NextToken` returns. -/
def call (n : Nat) (t : Tokenizer) : Token := (after n t).nextToken.1

theorem after_succ (n : Nat) (t : Tokenizer) : after (n + 1) t = (after n t).nextToken.2 :=
  Function.iterate_succ_apply' _ _ _

/-- Each of the first calls takes one token off what remains. -/
theorem remaining_after {n : Nat} {t : Tokenizer} (h : n ≤ t.remaining.length) :
    (after n t).remaining = t.remaining.drop n ∧ ("" ∈ (after n t).args ↔ "" ∈ t.args) := by
  induction n with
  | zero => exact ⟨rfl, Iff.rfl⟩
  | succ n ih =>
      obtain ⟨hrem, hargs⟩ := ih (by omega)
      have hcons : (after n t).remaining = t.remaining[n] :: t.remaining.drop (n + 1) := by
        rw [hrem, List.drop_eq_getElem_cons]
      obtain ⟨-, hrest, hmem⟩ := nextToken_of_remaining_cons hcons
      rw [after_succ]
      exact ⟨hrest, hmem.trans hargs⟩

/-- The first calls return the tokens, in order. -/
theorem call_of_lt {n : Nat} {t : Tokenizer} (h : n < t.remaining.length) :
    call n t = t.remaining[n] := by
  have hrem := (remaining_after (Nat.le_of_lt h)).1
  rw [List.drop_eq_getElem_cons h] at hrem
  exact (nextToken_of_remaining_cons hrem).1

/-- The next call returns the end of input. -/
theorem call_length (t : Tokenizer) : call t.remaining.length t = endOfInput := by
  apply nextToken_of_remaining_nil
  rw [(remaining_after (Nat.le_refl _)).1, List.drop_length]

/-- Without empty arguments a tokenizer at its end stays there. -/
theorem after_of_length_le {t : Tokenizer} (hargs : "" ∉ t.args) {n : Nat}
    (h : t.remaining.length ≤ n) : (after n t).tokens = [] ∧ (after n t).args = [] := by
  induction n, h using Nat.le_induction with
  | base =>
      obtain ⟨hrem, hmem⟩ := remaining_after (Nat.le_refl t.remaining.length)
      rw [List.drop_length, remaining, List.append_eq_nil_iff] at hrem
      refine ⟨hrem.1, ?_⟩
      have hflat := hrem.2
      rw [delivered_eq_flatMap (mt hmem.mp hargs)] at hflat
      rw [List.flatMap_eq_nil_iff] at hflat
      rw [List.eq_nil_iff_forall_not_mem]
      intro arg harg
      have hempty := (tokenize_eq_nil_iff arg).mp (hflat arg harg)
      exact hargs (hmem.mp (hempty ▸ harg))
  | succ n _ ih =>
      rw [after_succ]
      obtain ⟨htokens, hargs'⟩ := ih
      simp [nextToken, htokens, hargs']

/-! ## The streaming law -/

/-- The stream of a command line: before its first `EndOfInput` the calls return
the tokens of the arguments in order, no token follows an `EndOfInput`, and
`HasMoreTokens` announces every call that returns something else. -/
def StreamLaw (args : List String) : Prop :=
  (∃ n, (call n (new args)).1 = .endOfInput ∧ (∀ i < n, (call i (new args)).1 ≠ .endOfInput) ∧
      (List.range n).map (fun i => call i (new args)) = args.flatMap tokenize) ∧
    (∀ i j, i ≤ j → (call i (new args)).1 = .endOfInput → (call j (new args)).1 = .endOfInput) ∧
    ∀ i, (after i (new args)).hasMoreTokens = true ↔ (call i (new args)).1 ≠ .endOfInput

/-- There is no end of input before all tokens are delivered. -/
theorem call_ne_endOfInput {args : List String} {i : Nat} (h : i < (delivered args).length) :
    (call i (new args)).1 ≠ .endOfInput := by
  rw [call_of_lt (t := new args) h]
  exact delivered_ne_endOfInput args _ (List.getElem_mem _)

/-- The calls before that return exactly what is delivered. -/
theorem map_call_range (args : List String) :
    (List.range (delivered args).length).map (fun i => call i (new args)) = delivered args := by
  apply List.ext_getElem (by simp)
  intro i h₁ h₂
  rw [List.getElem_map, List.getElem_range]
  exact call_of_lt (t := new args) h₂

/-- Without an empty argument all later calls return the end of input. -/
theorem call_endOfInput_of_length_le {args : List String} (hargs : "" ∉ args) {i : Nat}
    (h : (delivered args).length ≤ i) : (call i (new args)).1 = .endOfInput := by
  obtain ⟨htokens, hargs'⟩ := after_of_length_le (t := new args) hargs h
  simp [call, nextToken, htokens, hargs', endOfInput]

/-- Without an empty argument the stream is as documented. -/
theorem streamLaw_of_notMem {args : List String} (hargs : "" ∉ args) : StreamLaw args := by
  have hend := @call_endOfInput_of_length_le args hargs
  refine ⟨⟨(delivered args).length, hend (Nat.le_refl _), fun i hi => call_ne_endOfInput hi, ?_⟩,
    ?_, ?_⟩
  · rw [map_call_range, delivered_eq_flatMap hargs]
  · intro i j hij hi
    apply hend
    by_contra hlt
    exact call_ne_endOfInput (by omega) hi
  · intro i
    obtain hlt | hge := Nat.lt_or_ge i (delivered args).length
    · have hrem := (remaining_after (t := new args) (Nat.le_of_lt hlt)).1
      refine iff_of_true ?_ (call_ne_endOfInput hlt)
      by_contra hno
      obtain ⟨htokens, hargs'⟩ : (after i (new args)).tokens = [] ∧
          (after i (new args)).args = [] := by
        simpa [hasMoreTokens] using hno
      have hlen := congrArg List.length hrem
      rw [remaining, htokens, hargs', List.length_drop, remaining_new] at hlen
      simp only [delivered_nil, List.append_nil, List.length_nil] at hlen
      omega
    · obtain ⟨htokens, hargs'⟩ := after_of_length_le (t := new args) hargs hge
      exact iff_of_false (by simp [hasMoreTokens, htokens, hargs']) (not_not_intro (hend hge))

/-- At an empty argument `HasMoreTokens` announces a token, and the call returns
`EndOfInput`. -/
theorem not_streamLaw_of_mem {args : List String} (hargs : "" ∈ args) : ¬ StreamLaw args := by
  rintro ⟨-, -, hmore⟩
  have hmem := (remaining_after (t := new args) (Nat.le_refl _)).2.mpr hargs
  have hcall : (call (delivered args).length (new args)).1 = .endOfInput :=
    congrArg Prod.fst (call_length (new args))
  refine (hmore (delivered args).length).mp ?_ hcall
  have hne : (after (delivered args).length (new args)).args ≠ [] := List.ne_nil_of_mem hmem
  simp [hasMoreTokens, hne]

/-- **The streaming law** holds of exactly the command lines without an empty
argument. -/
theorem streamLaw_iff (args : List String) : StreamLaw args ↔ "" ∉ args :=
  ⟨fun h hmem => not_streamLaw_of_mem hmem h, streamLaw_of_notMem⟩

/-- With an empty argument in front, the stream of `doit` is cut off. -/
theorem not_streamLaw_empty_doit : ¬ StreamLaw ["", "doit"] := by
  rintro ⟨-, -, hmore⟩
  have hzero := hmore 0
  revert hzero
  decide

end Tokenizer

end AsapClap
