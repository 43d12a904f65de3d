import AsapClap.Numbers
import AsapClap.Parser.States
import Mathlib.Tactic.FinCases
import Mathlib.Tactic.IntervalCases

/-!
# AsapClap.Flags

What `ParseValue<bool>` accepts.  The number is the last resort of
`StringToFlagValue`: it is read with `std::stoll`, which does not tell what is
behind the digits, and when it is out of range its sign is taken from the first
character of the input.
-/

namespace AsapClap

open Numeral AsapClap.Parser

/-! ## What a flag should accept -/

/-- The words for `true`. -/
def affirmativeWords : List String := ["true", "on", "yes", "enable"]

/-- The words for `false`. -/
def negativeWords : List String := ["false", "off", "no", "disable"]

/-- The characters for `true`. -/
def affirmativeChars : List Char := ['1', '2', '3', '4', '5', '6', '7', '8', '9', 't', 'y', '+']

/-- The characters for `false`. -/
def negativeChars : List Char := ['0', 'f', 'n', '-']

/-- A word, a character or an integer literal, and the flag that it says. -/
inductive Recognised (input : String) : Bool → Prop
  | affirmativeWord : toLower input ∈ affirmativeWords → Recognised input true
  | negativeWord : toLower input ∈ negativeWords → Recognised input false
  | affirmativeChar (c : Char) :
      (toLower input).toList = [c] → c ∈ affirmativeChars → Recognised input true
  | negativeChar (c : Char) :
      (toLower input).toList = [c] → c ∈ negativeChars → Recognised input false
  | literal (n : Int) : IsInteger input n → Recognised input (decide (0 < n))

/-- What exact parsing of a flag asks for, and what a flag on the command line then takes. -/
structure ParsesFlag (input : String) : Prop where
  exact : ∀ value, parseFlag input = some value ↔ Recognised input value
  takes : ∀ {V : Type} (b : Build) (d : Data (Any V)) (option : ClapOption (Any V))
    (semantics : ValueSemantics (Any V)), d.context.activeOption = some option →
    option.valueSemantic = some semantics →
    semantics.parseValue = ValueSemantics.flag.parseValue → d.shortValue = none →
    ((∃ d', ParseShortOptionState.handle b (.value, input) d = .ok (.doNothing, d')) ↔
      ∃ value, Recognised input value)

/-- A number with something behind its digits. -/
def HasTrailingText (input : String) : Prop :=
  ∃ (n : Numeral) (rest : List Char), input.toList = n.text ++ rest ∧ Ends rest ∧ rest ≠ []

/-- A literal below the range of `std::stoll`, with white space in front of its minus sign. -/
def OverflowsBehindSpace (input : String) : Prop :=
  ∃ n : Numeral, input.toList = n.text ∧ n.space ≠ [] ∧ n.sign = .minus ∧ 2 ^ 63 < n.magnitude

/-! ## Characters and words -/

/-- What a character says, if anything. -/
def flagOfChar (c : Char) : Option Bool :=
  if c ∈ affirmativeChars then some true
  else if c ∈ negativeChars then some false
  else none

/-- The digits, to try them one by one. -/
def digitChars : List Char := ['0', '1', '2', '3', '4', '5', '6', '7', '8', '9']

theorem mem_digitChars_of_isDigit {c : Char} (h : c.isDigit = true) : c ∈ digitChars := by
  have hlow : 48 ≤ c.toNat := by
    simp only [Char.isDigit, Bool.and_eq_true, decide_eq_true_eq] at h
    exact h.1
  have hhigh : c.toNat ≤ 57 := by
    simp only [Char.isDigit, Bool.and_eq_true, decide_eq_true_eq] at h
    exact h.2
  rw [← Char.ofNat_toNat c]
  interval_cases c.toNat <;> decide

theorem mem_digitChars_of_le {c : Char} (h : '1' ≤ c ∧ c ≤ '9') : c ∈ digitChars := by
  have hlow : 49 ≤ c.val.toNat := h.1
  have hhigh : c.val.toNat ≤ 57 := h.2
  have hzero : '0'.val.toNat = 48 := rfl
  have hnine : '9'.val.toNat = 57 := rfl
  apply mem_digitChars_of_isDigit
  simp only [Char.isDigit, ge_iff_le, UInt32.le_iff_toNat_le, hzero, hnine, Bool.and_eq_true,
    decide_eq_true_eq]
  omega

/-- A single digit means what the number means. -/
theorem flagOfChar_of_isDigit {c : Char} (h : c.isDigit = true) :
    flagOfChar c = some (decide (0 < ((c.toNat - '0'.toNat : Nat) : Int))) := by
  have hall : ∀ c ∈ digitChars,
      flagOfChar c = some (decide (0 < ((c.toNat - '0'.toNat : Nat) : Int))) := by
    intro c hc
    fin_cases hc <;> rfl
  exact hall c (mem_digitChars_of_isDigit h)

/-- The digits from one on are among the affirmative characters. -/
theorem flagOfChar_of_le {c : Char} (h : '1' ≤ c ∧ c ≤ '9') :
    c ∈ affirmativeChars ∧ 0 < c.toNat - '0'.toNat := by
  have hall : ∀ c ∈ digitChars, '1' ≤ c ∧ c ≤ '9' →
      c ∈ affirmativeChars ∧ 0 < c.toNat - '0'.toNat := by
    intro c hc
    fin_cases hc <;> decide
  exact hall c (mem_digitChars_of_le h) h

/-- No character says both. -/
theorem not_affirmative_of_negative : ∀ c ∈ negativeChars, c ∉ affirmativeChars := by
  intro c hc
  fin_cases hc <;> decide

/-- The affirmative characters without the list of digits. -/
theorem mem_affirmativeChars_iff {c : Char} :
    c ∈ affirmativeChars ↔ ('1' ≤ c ∧ c ≤ '9') ∨ c ∈ ['t', 'y', '+'] := by
  constructor
  · intro h
    simp only [affirmativeChars, List.mem_cons, List.not_mem_nil, or_false] at h
    obtain rfl | rfl | rfl | rfl | rfl | rfl | rfl | rfl | rfl | h := h
    all_goals first | exact .inl (by decide) | exact .inr (by simpa using h)
  · intro h
    obtain hdigit | hletter := h
    · exact (flagOfChar_of_le hdigit).1
    · simp only [List.mem_cons, List.not_mem_nil, or_false] at hletter
      obtain rfl | rfl | rfl := hletter <;> decide

/-- An input of one character is decided by the `switch` over it. -/
theorem parseFlag_of_char {input : String} {c : Char} (h : (toLower input).toList = [c]) :
    parseFlag input = flagOfChar c := by
  rw [parseFlag, stringToFlagValue]
  simp only [h]
  by_cases hdigit : '1' ≤ c ∧ c ≤ '9'
  · obtain ⟨hmem, hpos⟩ := flagOfChar_of_le hdigit
    rw [if_pos hdigit, flagOfChar, if_pos hmem]
    simpa using hpos
  · rw [if_neg hdigit, flagOfChar]
    by_cases hno : c ∈ ['0', 'f', 'n', '-']
    · rw [if_pos hno, if_neg (not_affirmative_of_negative c hno), negativeChars, if_pos hno]
      rfl
    · rw [if_neg hno]
      by_cases hyes : c ∈ ['t', 'y', '+']
      · rw [if_pos hyes, if_pos (mem_affirmativeChars_iff.mpr (.inr hyes))]
        rfl
      · have hnot : c ∉ affirmativeChars := by
          rw [mem_affirmativeChars_iff]
          exact not_or.mpr ⟨hdigit, hyes⟩
        rw [if_neg hyes, if_neg hnot, negativeChars, if_neg hno]

/-- A word is looked up before the number is tried. -/
theorem parseFlag_of_affirmativeWord {input : String} (h : toLower input ∈ affirmativeWords) :
    parseFlag input = some true := by
  simp only [affirmativeWords, List.mem_cons, List.not_mem_nil, or_false] at h
  rw [parseFlag, stringToFlagValue]
  obtain h | h | h | h := h <;> simp [h]

/-- A word for `false` is looked up before the number as well. -/
theorem parseFlag_of_negativeWord {input : String} (h : toLower input ∈ negativeWords) :
    parseFlag input = some false := by
  simp only [negativeWords, List.mem_cons, List.not_mem_nil, or_false] at h
  rw [parseFlag, stringToFlagValue]
  obtain h | h | h | h := h <;> simp [h]

/-- What is neither a character nor a word is read as a number. -/
theorem parseFlag_of_number {input : String} (hlength : ∀ c, (toLower input).toList ≠ [c])
    (hyes : toLower input ∉ affirmativeWords) (hno : toLower input ∉ negativeWords) :
    parseFlag input = (front? input.toList).map fun n =>
      if Int64.minValue.toInt ≤ n.value ∧ n.value ≤ Int64.maxValue.toInt then decide (0 < n.value)
      else decide (input.toList.head? ≠ some '-') := by
  rw [affirmativeWords] at hyes
  rw [negativeWords] at hno
  have hflag : stringToFlagValue input = stoll input := by
    rw [stringToFlagValue]
    simp [hyes, hno, stoll_toLower]
  rw [parseFlag, hflag, stoll_eq]
  cases front? input.toList with
  | none => rfl
  | some n =>
      by_cases hrange : Int64.minValue.toInt ≤ n.value ∧ n.value ≤ Int64.maxValue.toInt
      · simp only [if_pos hrange, Option.map_some]
      · simp only [if_neg hrange, Option.map_some]

/-! ## What is accepted -/

/-- No word begins with a number. -/
theorem front?_of_word {input : String}
    (h : toLower input ∈ affirmativeWords ∨ toLower input ∈ negativeWords) :
    front? input.toList = none := by
  rw [← front?_map_toLower, ← toList_toLower]
  simp only [affirmativeWords, negativeWords, List.mem_cons, List.not_mem_nil, or_false] at h
  obtain (h | h | h | h) | h | h | h | h := h <;> rw [h] <;> decide

/-- A literal is a numeral with nothing behind it. -/
theorem isInteger_iff {input : String} {n : Int} :
    IsInteger input n ↔
      ∃ numeral, front? input.toList = some numeral ∧ behind input.toList = [] ∧
        numeral.value = n := by
  constructor
  · intro ⟨numeral, htext, hvalue⟩
    obtain ⟨hfront, hbehind⟩ := eq_text_iff.mp htext
    exact ⟨numeral, hfront, hbehind, hvalue⟩
  · intro ⟨numeral, hfront, hbehind, hvalue⟩
    exact ⟨numeral, eq_text_iff.mpr ⟨hfront, hbehind⟩, hvalue⟩

/-- Trailing text is what is behind a numeral that is found in front. -/
theorem hasTrailingText_iff {input : String} :
    HasTrailingText input ↔
      (front? input.toList).isSome = true ∧ behind input.toList ≠ [] := by
  constructor
  · intro ⟨n, rest, hinput, hends, hrest⟩
    rw [hinput, front?_text_append hends, behind_text_append hends]
    exact ⟨rfl, hrest⟩
  · intro ⟨hsome, hbehind⟩
    obtain ⟨n, hn⟩ := Option.isSome_iff_exists.mp hsome
    exact ⟨n, behind input.toList, (text_append_behind hn).symm, ends_behind _, hbehind⟩

/-- A single character is at most a digit. -/
theorem isInteger_char_iff {input : String} {c : Char} (h : (toLower input).toList = [c])
    {n : Int} : IsInteger input n ↔ c.isDigit = true ∧ n = (c.toNat - '0'.toNat : Nat) := by
  constructor
  · intro hinteger
    obtain ⟨numeral, htext, hvalue⟩ := hinteger
    have hsingle : numeral.text = [c] := by
      rw [toList_toLower, htext] at h
      exact ((map_toLower_eq_iff fun d hd => isAlpha_of_mem_text hd).mpr rfl).symm.trans h
    obtain ⟨-, hsign, hdigits⟩ := eq_singleton_of_text hsingle
    have hmagnitude : numeral.magnitude = c.toNat - '0'.toNat := by
      simp [magnitude, hdigits, Nat.ofDigitChars_cons]
    refine ⟨numeral.isDigit_of_mem c (by simp [hdigits]), ?_⟩
    rw [← hvalue, value_of_ne_minus (by simp [hsign]), hmagnitude]
  · intro hsingle
    obtain ⟨hdigit, hn⟩ := hsingle
    have hinput : input.toList = [c] := by
      have hlt := toNat_lt_of_isDigit hdigit
      rw [toList_toLower] at h
      rwa [map_toLower_eq_iff (by simpa using isAlpha_of_toNat_lt (by omega))] at h
    let numeral : Numeral :=
      { space := [], sign := .absent, digits := [c], isSpace_of_mem := by simp
        isDigit_of_mem := by simp [hdigit], digits_ne_nil := by simp }
    refine ⟨numeral, hinput, ?_⟩
    rw [hn]
    simp [numeral, value, magnitude, Nat.ofDigitChars_cons]

/-- For one character the `switch` recognises what the documentation does. -/
theorem recognised_char_iff {input : String} {c : Char} (h : (toLower input).toList = [c])
    {value : Bool} : Recognised input value ↔ flagOfChar c = some value := by
  have hlong : ∀ word ∈ affirmativeWords ++ negativeWords, word.toList.length ≠ 1 := by decide
  have hword : toLower input ∉ affirmativeWords ++ negativeWords :=
    fun hmem => hlong _ hmem (by rw [h]; rfl)
  rw [List.mem_append, not_or] at hword
  constructor
  · intro hrecognised
    cases hrecognised with
    | affirmativeWord hmem => exact absurd hmem hword.1
    | negativeWord hmem => exact absurd hmem hword.2
    | affirmativeChar c' hc' hmem =>
        cases h.symm.trans hc'
        rw [flagOfChar, if_pos hmem]
    | negativeChar c' hc' hmem =>
        cases h.symm.trans hc'
        rw [flagOfChar, if_neg (not_affirmative_of_negative c hmem), if_pos hmem]
    | literal n hn =>
        obtain ⟨hdigit, rfl⟩ := (isInteger_char_iff h).mp hn
        exact flagOfChar_of_isDigit hdigit
  · intro hflag
    rw [flagOfChar] at hflag
    split at hflag
    · next hmem =>
        cases hflag
        exact .affirmativeChar c h hmem
    · split at hflag
      · next hmem =>
          cases hflag
          exact .negativeChar c h hmem
      · cases hflag

/-- For all but characters and words, what is recognised is a literal, with its sign. -/
theorem recognised_number_iff {input : String} (hlength : ∀ c, (toLower input).toList ≠ [c])
    (hyes : toLower input ∉ affirmativeWords) (hno : toLower input ∉ negativeWords)
    {value : Bool} :
    Recognised input value ↔
      ∃ n : Numeral, front? input.toList = some n ∧ behind input.toList = [] ∧
        decide (0 < n.value) = value := by
  constructor
  · intro hrecognised
    cases hrecognised with
    | affirmativeWord hmem => exact absurd hmem hyes
    | negativeWord hmem => exact absurd hmem hno
    | affirmativeChar c hc => exact absurd hc (hlength c)
    | negativeChar c hc => exact absurd hc (hlength c)
    | literal n hn =>
        obtain ⟨numeral, hfront, hbehind, rfl⟩ := isInteger_iff.mp hn
        exact ⟨numeral, hfront, hbehind, rfl⟩
  · intro ⟨numeral, hfront, hbehind, hvalue⟩
    rw [← hvalue]
    exact .literal numeral.value (isInteger_iff.mpr ⟨numeral, hfront, hbehind, rfl⟩)

/-! ## Where it is exact -/

/-- The slip, said of the numeral: there is white space, a minus, and too much behind it. -/
theorem overflowsBehindSpace_iff {input : String} :
    OverflowsBehindSpace input ↔
      ∃ n : Numeral, front? input.toList = some n ∧ behind input.toList = [] ∧
        n.space ≠ [] ∧ n.sign = .minus ∧ 2 ^ 63 < n.magnitude := by
  constructor
  · intro ⟨n, htext, hrest⟩
    obtain ⟨hfront, hbehind⟩ := eq_text_iff.mp htext
    exact ⟨n, hfront, hbehind, hrest⟩
  · intro ⟨n, hfront, hbehind, hrest⟩
    exact ⟨n, eq_text_iff.mpr ⟨hfront, hbehind⟩, hrest⟩

/-- What is read of a literal is its sign, unless it overflows behind white space. -/
theorem flagOfNumber_eq_iff {n : Numeral} {cs : List Char} (h : cs = n.text) :
    (if Int64.minValue.toInt ≤ n.value ∧ n.value ≤ Int64.maxValue.toInt then decide (0 < n.value)
      else decide (cs.head? ≠ some '-')) = decide (0 < n.value) ↔
      ¬(n.space ≠ [] ∧ n.sign = .minus ∧ 2 ^ 63 < n.magnitude) := by
  have hmin : Int64.minValue.toInt = -2 ^ 63 := rfl
  have hmax : Int64.maxValue.toInt = 2 ^ 63 - 1 := rfl
  rw [hmin, hmax, h]
  by_cases hsign : n.sign = .minus
  · rw [value_of_minus hsign]
    have hnot : decide ((0 : Int) < -n.magnitude) = false := decide_eq_false (by omega)
    rw [hnot]
    split
    · next hrange =>
        exact iff_of_true rfl fun hover => by omega
    · next hrange =>
        have hover : 2 ^ 63 < n.magnitude := by omega
        rw [decide_eq_false_iff_not, ne_eq, head?_text_eq_minus_iff]
        tauto
  · rw [value_of_ne_minus hsign]
    have hright : ¬(n.space ≠ [] ∧ n.sign = .minus ∧ 2 ^ 63 < n.magnitude) :=
      fun hover => hsign hover.2.1
    refine iff_of_true ?_ hright
    split
    · rfl
    · next hrange =>
        have hpos : decide ((0 : Int) < n.magnitude) = true := decide_eq_true (by omega)
        rw [hpos, decide_eq_true_eq, ne_eq, head?_text_eq_minus_iff]
        exact fun hfront => hsign hfront.2

/-- Of what is read as a number, the literals are parsed as they should, unless they overflow behind
white space; what has text behind the number is accepted all the same. -/
theorem number_exact_iff {input : String} (hlength : ∀ c, (toLower input).toList ≠ [c])
    (hyes : toLower input ∉ affirmativeWords) (hno : toLower input ∉ negativeWords) :
    (∀ value, parseFlag input = some value ↔ Recognised input value) ↔
      ¬HasTrailingText input ∧ ¬OverflowsBehindSpace input := by
  simp only [recognised_number_iff hlength hyes hno, parseFlag_of_number hlength hyes hno,
    hasTrailingText_iff, overflowsBehindSpace_iff]
  cases hfront : front? input.toList with
  | none => simp
  | some n =>
      by_cases hbehind : behind input.toList = []
      · have htext : input.toList = n.text := eq_text_iff.mpr ⟨hfront, hbehind⟩
        simp only [hbehind, Option.map_some, Option.some.injEq, exists_eq_left', true_and, ne_eq,
          not_true_eq_false, and_false, not_false_eq_true]
        rw [← ne_eq n.space, ← flagOfNumber_eq_iff htext]
        constructor
        · intro h
          exact ((h _).mpr rfl)
        · intro h value
          rw [h]
      · apply iff_of_false
        · intro h
          obtain ⟨-, -, hnil, -⟩ := (h _).mp rfl
          exact hbehind hnil
        · intro h
          exact h.1 ⟨rfl, hbehind⟩

/-- A single character neither has text behind it nor overflows. -/
theorem not_faulty_of_char {input : String} {c : Char} (h : (toLower input).toList = [c]) :
    ¬HasTrailingText input ∧ ¬OverflowsBehindSpace input := by
  have hlength : input.toList.length = 1 := by
    rw [toList_toLower] at h
    simpa using congrArg List.length h
  constructor
  · intro ⟨n, rest, hinput, _, hrest⟩
    have htext : 0 < n.text.length := List.length_pos_iff.mpr n.text_ne_nil
    have hpos : 0 < rest.length := List.length_pos_iff.mpr hrest
    rw [hinput, List.length_append] at hlength
    omega
  · intro ⟨n, hinput, hrest⟩
    rw [hinput] at hlength
    obtain ⟨c', hc'⟩ := List.length_eq_one_iff.mp hlength
    exact hrest.1 (eq_singleton_of_text hc').1

/-- Words do not run into either fault. -/
theorem not_faulty_of_word {input : String}
    (h : toLower input ∈ affirmativeWords ∨ toLower input ∈ negativeWords) :
    ¬HasTrailingText input ∧ ¬OverflowsBehindSpace input := by
  simp [hasTrailingText_iff, overflowsBehindSpace_iff, front?_of_word h]

/-- A word says one thing only, and is no literal. -/
theorem word_exact {input : String}
    (h : toLower input ∈ affirmativeWords ∨ toLower input ∈ negativeWords) (value : Bool) :
    parseFlag input = some value ↔ Recognised input value := by
  have hlong : ∀ word ∈ affirmativeWords ++ negativeWords, word.toList.length ≠ 1 := by decide
  have hlength : ∀ c, (toLower input).toList ≠ [c] := by
    intro c hc
    exact hlong _ (List.mem_append.mpr h) (by rw [hc]; rfl)
  constructor
  · intro hparse
    obtain hyes | hno := h
    · rw [parseFlag_of_affirmativeWord hyes] at hparse
      cases hparse
      exact .affirmativeWord hyes
    · rw [parseFlag_of_negativeWord hno] at hparse
      cases hparse
      exact .negativeWord hno
  · intro hrecognised
    cases hrecognised with
    | affirmativeWord hyes => exact parseFlag_of_affirmativeWord hyes
    | negativeWord hno => exact parseFlag_of_negativeWord hno
    | affirmativeChar c hc => exact absurd hc (hlength c)
    | negativeChar c hc => exact absurd hc (hlength c)
    | literal n hn =>
        obtain ⟨numeral, hfront, -⟩ := isInteger_iff.mp hn
        rw [front?_of_word h] at hfront
        cases hfront

/-- An input is read right exactly if it runs into neither. -/
theorem exact_iff (input : String) :
    (∀ value, parseFlag input = some value ↔ Recognised input value) ↔
      ¬HasTrailingText input ∧ ¬OverflowsBehindSpace input := by
  by_cases hchar : ∃ c, (toLower input).toList = [c]
  · obtain ⟨c, hc⟩ := hchar
    refine iff_of_true ?_ (not_faulty_of_char hc)
    intro value
    rw [parseFlag_of_char hc, recognised_char_iff hc]
  · by_cases hword : toLower input ∈ affirmativeWords ∨ toLower input ∈ negativeWords
    · exact iff_of_true (word_exact hword) (not_faulty_of_word hword)
    · exact number_exact_iff (fun c hc => hchar ⟨c, hc⟩) (fun hyes => hword (.inl hyes))
        fun hno => hword (.inr hno)

/-- A flag on the command line takes the value behind it exactly when that parses. -/
theorem handle_takes_iff {V : Type} {b : Build} {d : Data (Any V)} {option : ClapOption (Any V)}
    {semantics : ValueSemantics (Any V)} {input : String}
    (hoption : d.context.activeOption = some option)
    (hsem : option.valueSemantic = some semantics)
    (hparse : semantics.parseValue = ValueSemantics.flag.parseValue)
    (hvalue : d.shortValue = none) :
    (∃ d', ParseShortOptionState.handle b (.value, input) d = .ok (.doNothing, d')) ↔
      ∃ value, parseFlag input = some value := by
  have hsemantics : semantics.parse input = (parseFlag input).map .flag := by
    rw [ValueSemantics.parse, hparse]
    rfl
  have hhandle : ParseShortOptionState.handle b (.value, input) d = (do
      let (action, context, value) ← tryValue option semantics true input d.context
      return (action, { d with context, shortValue := value })) := by
    change ParseShortOptionState.handleValue b input d = _
    simp [ParseShortOptionState.handleValue, activeSemantics_of_some hoption hsem, hvalue]
  rw [hhandle]
  cases hflag : parseFlag input with
  | some value =>
      rw [hflag] at hsemantics
      rw [tryValue_of_parse hsemantics]
      exact iff_of_true ⟨_, rfl⟩ ⟨value, rfl⟩
  | none =>
      rw [hflag] at hsemantics
      apply iff_of_false
      · intro ⟨d', h⟩
        cases himplicit : semantics.applyImplicit with
        | some implicit =>
            obtain ⟨value, text⟩ := implicit
            rw [tryValue_of_implicit hoption hsem hsemantics himplicit] at h
            cases h
        | none =>
            rw [tryValue_of_missing hoption hsem hsemantics (.inr himplicit)] at h
            simp only [bind_eq_ok] at h
            obtain ⟨_, ⟨message, -, hmessage⟩, h⟩ := h
            cases hmessage
            cases h
      · simp

/-- Flags are parsed exactly where no number has text behind it, and none overflows behind white
space. -/
theorem parsesFlag_iff (input : String) :
    ParsesFlag input ↔ ¬HasTrailingText input ∧ ¬OverflowsBehindSpace input := by
  rw [← exact_iff]
  constructor
  · intro h
    exact h.exact
  · intro h
    refine ⟨h, ?_⟩
    intro V b d option semantics hoption hsem hparse hvalue
    rw [handle_takes_iff hoption hsem hparse hvalue]
    exact exists_congr h

/-- A number with a word behind it is taken for a flag. -/
theorem not_parsesFlag_apples : ¬ParsesFlag "3 apples" := by
  intro h
  have htrailing : HasTrailingText "3 apples" := hasTrailingText_iff.mpr (by decide)
  exact ((exact_iff _).mp h.exact).1 htrailing

end AsapClap
