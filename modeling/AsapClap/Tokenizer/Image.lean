import AsapClap.Tokenizer.Grammar

/-!
# AsapClap.Tokenizer.Image

Which tokens `Tokenize` can emit for an argument, and how the argument is read off them.  The
repeated names behind a slip with `=` are no loss: every argument, the slips included, comes
back from its tokens.
-/

namespace AsapClap

namespace Tokenizer

/-! ## What is emitted -/

/-- What is emitted behind the first `=` of a long option: its value, or the name once more
when the argument ends there, or the name once more and a further `=`. -/
inductive BehindEqual (name : String) : List Token → Prop
  | value {v : String} (nonempty : v ≠ "") (head : v.toList.head? ≠ some '=') :
      BehindEqual name [(.value, v)]
  | ends : BehindEqual name [(.longOption, name)]
  | again {tokens : List Token} (behind : BehindEqual name tokens) :
      BehindEqual name ((.longOption, name) :: (.equalSign, "=") :: tokens)

/-- The tokens of one argument.  The name of a long option may start with `=`, but has none
behind its first character. -/
inductive OfArgument : List Token → Prop
  | empty : OfArgument []
  | loneDash : OfArgument [(.loneDash, "-")]
  | dashDash : OfArgument [(.dashDash, "--")]
  | value {v : String} (nonempty : v ≠ "") (head : v.toList.head? ≠ some '-') :
      OfArgument [(.value, v)]
  | shortOptions {c : Char} (cs : List Char) (head : c ≠ '-') :
      OfArgument ((c :: cs).map fun c => (.shortOption, String.singleton c))
  | longOption {c : Char} {cs : List Char} (name : '=' ∉ cs) :
      OfArgument [(.longOption, String.ofList (c :: cs))]
  | longOptionEqual {c : Char} {cs : List Char} {tokens : List Token} (name : '=' ∉ cs)
      (behind : BehindEqual (String.ofList (c :: cs)) tokens) :
      OfArgument ((.longOption, String.ofList (c :: cs)) :: (.equalSign, "=") :: tokens)

theorem behindEqual_afterEqual (name : String) (cs : List Char) :
    BehindEqual name (afterEqual name cs) := by
  induction cs with
  | nil => exact .ends
  | cons c cs ih =>
      by_cases hc : c = '='
      · subst hc
        exact .again ih
      · have hafter : afterEqual name (c :: cs) = [(.value, String.ofList (c :: cs))] := by
          simp [afterEqual, hc]
        rw [hafter]
        exact .value (by simp [String.ofList_eq_empty_iff]) (by simpa using hc)

theorem ofArgument_tokenize (arg : String) : OfArgument (tokenize arg) := by
  rw [tokenize_eq, emitted]
  refine argumentTokens_cases (P := fun _ tokens => OfArgument tokens) .empty .loneDash .dashDash
    ?_ ?_ ?_ arg.toList
  · intro c cs
    obtain hcs | ⟨name, value, rfl, hname⟩ := name_or_nameValue cs
    · rw [longOptionTokens_of_notMem hcs]
      exact .longOption hcs
    · rw [longOptionTokens_append hname]
      exact .longOptionEqual hname (behindEqual_afterEqual _ value)
  · intro c cs hc
    exact .shortOptions cs hc
  · intro c cs hc
    exact .value (by simp [String.ofList_eq_empty_iff]) (by simpa using hc)

/-- Behind an `=`, all of this is emitted for some rest of an argument. -/
theorem BehindEqual.exists_afterEqual {name : String} {tokens : List Token}
    (h : BehindEqual name tokens) : ∃ cs, afterEqual name cs = tokens := by
  induction h with
  | ends => exact ⟨[], rfl⟩
  | again _ ih =>
      obtain ⟨cs, hcs⟩ := ih
      exact ⟨'=' :: cs, by rw [afterEqual, hcs]⟩
  | @value v nonempty head =>
      refine ⟨v.toList, ?_⟩
      cases hv : v.toList with
      | nil => exact absurd (String.toList_eq_nil_iff.mp hv) nonempty
      | cons c cs =>
          rw [hv] at head
          have hc : c ≠ '=' := by simpa using head
          have hafter : afterEqual name (c :: cs) = [(.value, String.ofList (c :: cs))] := by
            simp [afterEqual, hc]
          rw [hafter, ← hv, String.ofList_toList]

theorem emitted_ofList (cs : List Char) :
    tokenize (String.ofList cs) = argumentTokens afterEqual cs := by
  rw [tokenize_eq, emitted, String.toList_ofList]

/-- All of this is emitted for some argument. -/
theorem OfArgument.exists_tokenize {tokens : List Token} (h : OfArgument tokens) :
    ∃ arg, tokenize arg = tokens := by
  cases h with
  | empty => exact ⟨"", by decide⟩
  | loneDash => exact ⟨"-", by decide⟩
  | dashDash => exact ⟨"--", by decide⟩
  | @value v nonempty head => exact ⟨v, tokenize_value nonempty head⟩
  | @shortOptions c cs head =>
      refine ⟨String.ofList ('-' :: c :: cs), ?_⟩
      rw [emitted_ofList]
      simp [argumentTokens, dashTokens, head]
  | @longOption c cs name =>
      refine ⟨String.ofList ('-' :: '-' :: c :: cs), ?_⟩
      rw [emitted_ofList]
      exact longOptionTokens_of_notMem name
  | @longOptionEqual c cs behind name hbehind =>
      obtain ⟨value, rfl⟩ := hbehind.exists_afterEqual
      refine ⟨String.ofList ('-' :: '-' :: c :: (cs ++ '=' :: value)), ?_⟩
      rw [emitted_ofList]
      exact longOptionTokens_append name

/-! ## Reading the argument off its tokens -/

/-- The dashes in front of the first token. -/
def leadingDashes : TokenType → String
  | .shortOption => "-"
  | .longOption => "--"
  | _ => ""

/-- A token behind the first one, as it stands in the argument; there, a name has been emitted
before. -/
def spellBehind : Token → String
  | (.longOption, _) => ""
  | (_, text) => text

/-- The argument with these tokens. -/
def spell : List Token → String
  | [] => ""
  | token :: tokens =>
      leadingDashes token.1 ++ token.2 ++ String.join (tokens.map spellBehind)

theorem join_spellBehind_afterEqual (name : String) (cs : List Char) :
    String.join ((afterEqual name cs).map spellBehind) = String.ofList cs := by
  induction cs with
  | nil => rfl
  | cons c cs ih =>
      by_cases hc : c = '='
      · subst hc
        simp only [afterEqual, List.map_cons, String.join_cons, ih]
        simp [spellBehind]
      · simp [afterEqual, hc, spellBehind]

theorem join_spellBehind_shortOptions (cs : List Char) :
    String.join ((cs.map fun c => (TokenType.shortOption, String.singleton c)).map spellBehind) =
      String.ofList cs := by
  simp [spellBehind, Function.comp_def, ← String.toList_inj, List.flatMap_map]

/-- An argument comes back from its tokens. -/
theorem spell_tokenize (arg : String) : spell (tokenize arg) = arg := by
  suffices h : ∀ cs, spell (argumentTokens afterEqual cs) = String.ofList cs by
    simpa [tokenize_eq, emitted] using h arg.toList
  refine argumentTokens_cases (P := fun cs tokens => spell tokens = String.ofList cs) rfl
    (by decide) (by decide) ?_ ?_ ?_
  · intro c cs
    obtain hcs | ⟨name, value, rfl, hname⟩ := name_or_nameValue cs
    · rw [longOptionTokens_of_notMem hcs]
      simp [spell, leadingDashes, ← String.toList_inj]
    · rw [longOptionTokens_append hname, spell, List.map_cons, String.join_cons,
        join_spellBehind_afterEqual]
      simp [leadingDashes, spellBehind, ← String.toList_inj]
  · intro c cs _
    rw [List.map_cons, spell, join_spellBehind_shortOptions]
    simp [leadingDashes, ← String.toList_inj]
  · intro c cs _
    simp [spell, leadingDashes]

theorem BehindEqual.ne_dashDash {name : String} {tokens : List Token}
    (h : BehindEqual name tokens) : ∀ t ∈ tokens, t.1 ≠ .dashDash := by
  induction h with
  | value | ends => simp
  | again behind ih => simpa using ih

theorem OfArgument.eq_of_mem_dashDash {tokens : List Token} (h : OfArgument tokens)
    {token : Token} (hmem : token ∈ tokens) (htoken : token.1 = .dashDash) :
    tokens = [(.dashDash, "--")] := by
  refine by_contra fun hne => ?_
  suffices hnone : ∀ t ∈ tokens, t.1 ≠ .dashDash from hnone token hmem htoken
  cases h with
  | dashDash => exact absurd rfl hne
  | empty | loneDash | value | longOption => simp
  | shortOptions cs head => simp
  | longOptionEqual name behind => simpa using behind.ne_dashDash

/-- An argument with the token of a `--` is one. -/
theorem eq_doubleDash_of_mem {arg : String} {token : Token} (hmem : token ∈ tokenize arg)
    (htoken : token.1 = .dashDash) : arg = "--" := by
  rw [← spell_tokenize arg, (ofArgument_tokenize arg).eq_of_mem_dashDash hmem htoken]
  rfl

/-- **Tokenizing loses nothing**: the tokens of an argument spell it, and any tokens of that form
are the tokens of what they spell. -/
theorem tokenize_lossless :
    (∀ arg, OfArgument (tokenize arg) ∧ spell (tokenize arg) = arg) ∧
      ∀ tokens, OfArgument tokens → tokenize (spell tokens) = tokens := by
  refine ⟨fun arg => ⟨ofArgument_tokenize arg, spell_tokenize arg⟩, ?_⟩
  intro tokens htokens
  obtain ⟨arg, rfl⟩ := htokens.exists_tokenize
  rw [spell_tokenize]

end Tokenizer

end AsapClap
