import AsapClap.Any
import AsapClap.Library.Numeral
import Mathlib.Algebra.Group.Nat.Defs
import Mathlib.Algebra.Ring.Int.Defs

/-!
# AsapClap.Numbers

`ParseValue` of `detail/parse_value.h` for the integral types.  A variable that a
function of the sources assigns is an argument and a result here, since the
conversions assign theirs also where they return false.
-/

namespace AsapClap

open Numeral

/-- The widths of the integral types. -/
inductive Width
  | w8
  | w16
  | w32
  | w64
  deriving DecidableEq, Repr

def Width.bits : Width → Nat
  | .w8 => 8
  | .w16 => 16
  | .w32 => 32
  | .w64 => 64

theorem Width.bits_pos (w : Width) : 0 < w.bits := by cases w <;> decide

theorem Width.bits_le (w : Width) : w.bits ≤ 64 := by cases w <;> decide

/-! ## The conversions of the standard library -/

/-- How many characters `std::stoll` and `std::stoull` have read when they return. -/
def consumed (input : String) : Nat :=
  let unread := (takeSign (input.toList.dropWhile isSpace)).2.dropWhile Char.isDigit
  input.toList.length - unread.length

/-- `std::stoull`, which negates modulo 2 ^ 64 for a minus sign. -/
def stoull (input : String) : Number :=
  let (negative, cs) := takeSign (input.toList.dropWhile isSpace)
  let digits := cs.takeWhile Char.isDigit
  if digits.isEmpty then .invalidArgument
  else
    let magnitude := Nat.ofDigitChars 10 digits 0
    if magnitude ≤ 2 ^ 64 - 1 then
      .value (if negative then -(magnitude : Int) % 2 ^ 64 else magnitude)
    else .outOfRange

/-- `takeSign` finds the sign of the numeral. -/
theorem takeSign_eq (cs : List Char) :
    takeSign cs = (decide (signOf cs = .minus), cs.drop (signOf cs).text.length) := by
  rw [takeSign.eq_def, signOf.eq_def]
  split <;> simp [Sign.text]

/-- `std::stoll`, said of the numeral in front. -/
theorem stoll_eq (input : String) :
    stoll input = match front? input.toList with
      | none => .invalidArgument
      | some n =>
          if Int64.minValue.toInt ≤ n.value ∧ n.value ≤ Int64.maxValue.toInt then .value n.value
          else .outOfRange := by
  have hspace :
      (fun c => decide (c ∈ [' ', '\t', '\n', '\x0b', '\x0c', '\r'])) = isSpace := rfl
  rw [stoll, hspace, takeSign_eq, front?]
  simp only [List.isEmpty_iff]
  split
  · rfl
  · simp [value, magnitude, Nat.ofDigitChars_eq_foldl]

/-- `std::stoull`, said of the numeral in front: a minus wraps around. -/
theorem stoull_eq (input : String) :
    stoull input = match front? input.toList with
      | none => .invalidArgument
      | some n =>
          if n.magnitude ≤ 2 ^ 64 - 1 then
            .value (if n.sign = .minus then -(n.magnitude : Int) % 2 ^ 64 else n.magnitude)
          else .outOfRange := by
  rw [stoull, takeSign_eq, front?]
  simp only [List.isEmpty_iff]
  split
  · rfl
  · by_cases hsign : signOf (input.toList.dropWhile isSpace) = .minus
    · simp [hsign, magnitude]
    · simp [hsign, magnitude]

/-- The whole input was read when nothing is behind its numeral. -/
theorem consumed_eq_length_iff (input : String) :
    consumed input = input.toList.length ↔ behind input.toList = [] := by
  have hle : (behind input.toList).length ≤ input.toList.length :=
    ((List.dropWhile_sublist _).trans
      ((List.drop_sublist _ _).trans (List.dropWhile_sublist _))).length_le
  have hconsumed : consumed input = input.toList.length - (behind input.toList).length := by
    rw [consumed, takeSign_eq, behind]
  rw [hconsumed, ← List.length_eq_zero_iff]
  by_cases hinput : input.toList.length = 0
  · omega
  · omega

theorem toList_toLower (input : String) :
    (toLower input).toList = input.toList.map Char.toLower := by
  rw [toLower, String.toList_ofList]

/-- Numbers do not depend on the case. -/
theorem stoll_toLower (input : String) : stoll (toLower input) = stoll input := by
  rw [stoll_eq, stoll_eq, toList_toLower, front?_map_toLower]

/-! ## Integers -/

/-- `NumberConversion`. -/
def numberConversion {w : Nat} (input : String) (output : BitVec w) : Bool × BitVec w :=
  match stoll input with
  | .value outputLl =>
      let output := BitVec.ofInt w outputLl
      (consumed input == input.toList.length && output.toInt == outputLl, output)
  | .invalidArgument | .outOfRange => (false, output)

/-- `UnsignedNumberConversion`. -/
def unsignedNumberConversion {w : Nat} (input : String) (output : BitVec w) : Bool × BitVec w :=
  if input.toList.head? = some '-' then (false, output)
  else
    match stoull input with
    | .value outputUll =>
        let output := BitVec.ofInt w outputUll
        (consumed input == input.toList.length && (output.toNat : Int) == outputUll, output)
    | .invalidArgument | .outOfRange => (false, output)

/-- `ParseValue` of a signed type other than `char`. -/
def parseSigned {w : Nat} (input : String) (output : BitVec w) : Bool × BitVec w :=
  numberConversion input output

/-- `ParseValue` of an unsigned type. -/
def parseUnsigned {w : Nat} (input : String) (output : BitVec w) : Bool × BitVec w :=
  unsignedNumberConversion input output

/-- A character as an 8-bit `char`. -/
def charBits (c : Char) : BitVec 8 := BitVec.ofNat 8 c.toNat

/-- `ParseValue` of a `char`: a character is itself, and anything else a number. -/
def parseChar (input : String) (output : BitVec 8) : Bool × BitVec 8 :=
  match input.toList with
  | [c] => (true, charBits c)
  | _ => numberConversion input output

example : (parseSigned " -128" 0#8, parseSigned "128" 0#8, parseSigned "3 apples" 0#8) =
    ((true, 128#8), (false, 128#8), (false, 3#8)) := by decide

/-! ## What is accepted -/

/-- An integer literal: white space, perhaps a sign, digits, and nothing behind them. -/
def IsInteger (input : String) (n : Int) : Prop :=
  ∃ numeral : Numeral, input.toList = numeral.text ∧ numeral.value = n

/-- An integer literal without a minus sign. -/
def IsUnsigned (input : String) (n : Nat) : Prop :=
  ∃ numeral : Numeral,
    input.toList = numeral.text ∧ numeral.sign ≠ .minus ∧ numeral.magnitude = n

/-- A numeral in range is read. -/
theorem stoll_of_eq_text {input : String} {n : Numeral} (h : input.toList = n.text)
    (hrange : Int64.minValue.toInt ≤ n.value ∧ n.value ≤ Int64.maxValue.toInt) :
    stoll input = .value n.value := by
  rw [stoll_eq, (eq_text_iff.mp h).1]
  exact if_pos hrange

/-- What is read to its end is a numeral. -/
theorem eq_text_of_stoll {input : String} {i : Int} (h : stoll input = .value i)
    (hconsumed : consumed input = input.toList.length) :
    ∃ n : Numeral, input.toList = n.text ∧ n.value = i := by
  rw [stoll_eq] at h
  split at h
  · cases h
  · next n hfront =>
      split at h
      · cases h
        exact ⟨n, eq_text_iff.mpr ⟨hfront, (consumed_eq_length_iff input).mp hconsumed⟩, rfl⟩
      · cases h

/-- A numeral is read to its end. -/
theorem consumed_of_eq_text {input : String} {n : Numeral} (h : input.toList = n.text) :
    consumed input = input.toList.length :=
  (consumed_eq_length_iff input).mpr (eq_text_iff.mp h).2

/-- The values of a signed type of at most 64 bits are in the range of `std::stoll`. -/
theorem toInt_inRange {w : Nat} (hle : w ≤ 64) (v : BitVec w) :
    Int64.minValue.toInt ≤ v.toInt ∧ v.toInt ≤ Int64.maxValue.toInt := by
  have hpow : (2 : Int) ^ (w - 1) ≤ 2 ^ 63 := by
    exact_mod_cast Nat.pow_le_pow_right (n := 2) (by decide) (by omega : w - 1 ≤ 63)
  have hlow := BitVec.le_toInt v
  have hhigh := BitVec.toInt_lt (x := v)
  have hmin : Int64.minValue.toInt = -2 ^ 63 := rfl
  have hmax : Int64.maxValue.toInt = 2 ^ 63 - 1 := rfl
  omega

/-- `NumberConversion` accepts the literals of the values of its type. -/
theorem numberConversion_eq_true_iff {w : Nat} (hle : w ≤ 64) {input : String}
    {output result : BitVec w} :
    numberConversion input output = (true, result) ↔ IsInteger input result.toInt := by
  constructor
  · intro h
    rw [numberConversion] at h
    split at h
    · next outputLl hstoll =>
        simp only [Prod.mk.injEq, Bool.and_eq_true, beq_iff_eq] at h
        obtain ⟨⟨hconsumed, htoInt⟩, rfl⟩ := h
        rw [htoInt]
        exact eq_text_of_stoll hstoll hconsumed
    · cases h
    · cases h
  · intro ⟨n, htext, hvalue⟩
    have hstoll : stoll input = .value result.toInt := by
      rw [← hvalue]
      exact stoll_of_eq_text htext (hvalue ▸ toInt_inRange hle result)
    simp [numberConversion, hstoll, consumed_of_eq_text htext]

/-- The conversion succeeds exactly for literals in the range of the type. -/
theorem IsInteger.inRange_iff {w : Nat} (hpos : 0 < w) (hle : w ≤ 64) {input : String}
    {output : BitVec w} {n : Int} :
    ((numberConversion input output).1 = true ∧ (numberConversion input output).2.toInt = n) ↔
      IsInteger input n ∧ -2 ^ (w - 1) ≤ n ∧ n ≤ 2 ^ (w - 1) - 1 := by
  constructor
  · intro ⟨htrue, hn⟩
    have hparse : numberConversion input output = (true, (numberConversion input output).2) :=
      Prod.ext htrue rfl
    rw [numberConversion_eq_true_iff hle, hn] at hparse
    have hlow := BitVec.le_toInt (numberConversion input output).2
    have hhigh := BitVec.toInt_lt (x := (numberConversion input output).2)
    exact ⟨hparse, by omega, by omega⟩
  · intro ⟨hinteger, hlow, hhigh⟩
    have hn : (BitVec.ofInt w n).toInt = n :=
      BitVec.toInt_ofInt_eq_self hpos hlow (by omega)
    have hparse : numberConversion input output = (true, BitVec.ofInt w n) :=
      (numberConversion_eq_true_iff hle).mpr (hn.symm ▸ hinteger)
    rw [hparse]
    exact ⟨rfl, hn⟩

/-! ## The stored value -/

/-- `ValueDescriptor<T>::Parse`: `parsed` is not initialised, and the store is assigned only when
the token parses. -/
def ValueDescriptor.parse {T A : Type} (parseValue : String → T → Bool × T) (any : T → A)
    (parsed : T) (valueStore : A) (token : String) : Bool × A :=
  match parseValue token parsed with
  | (true, parsed) => (true, any parsed)
  | (false, _) => (false, valueStore)

/-- A value that does not parse leaves the store as it was. -/
theorem ValueDescriptor.parse_of_false {T A : Type} {parseValue : String → T → Bool × T}
    {any : T → A} {parsed : T} {valueStore : A} {token : String}
    (h : (ValueDescriptor.parse parseValue any parsed valueStore token).1 = false) :
    (ValueDescriptor.parse parseValue any parsed valueStore token).2 = valueStore := by
  rw [parse] at h ⊢
  split at h
  · cases h
  · rfl

/-- Signed types and `char` are parsed exactly: what is accepted are the literals of the values of
the type, and of a single character `char` takes the character. -/
theorem parseSigned_exact :
    (∀ (w : Width) (input : String) (output : BitVec w.bits) (n : Int),
      ((parseSigned input output).1 = true ∧ (parseSigned input output).2.toInt = n) ↔
        IsInteger input n ∧ -2 ^ (w.bits - 1) ≤ n ∧ n ≤ 2 ^ (w.bits - 1) - 1) ∧
    (∀ (c : Char) (output : BitVec 8),
      parseChar (String.ofList [c]) output = (true, charBits c)) ∧
    (∀ (input : String) (output : BitVec 8) (n : Int), input.toList.length ≠ 1 →
      (((parseChar input output).1 = true ∧ (parseChar input output).2.toInt = n) ↔
        IsInteger input n ∧ -2 ^ (8 - 1) ≤ n ∧ n ≤ 2 ^ (8 - 1) - 1)) ∧
    (∀ (w : Width) (v output : BitVec w.bits),
      parseSigned (toString v.toInt) output = (true, v)) ∧
    ∀ (T A : Type) (parseValue : String → T → Bool × T) (any : T → A) (parsed : T)
      (valueStore : A) (token : String),
      (ValueDescriptor.parse parseValue any parsed valueStore token).1 = false →
        (ValueDescriptor.parse parseValue any parsed valueStore token).2 = valueStore := by
  refine ⟨?_, ?_, ?_, ?_, ?_⟩
  · intro w input output n
    exact IsInteger.inRange_iff w.bits_pos w.bits_le
  · intro c output
    simp [parseChar]
  · intro input output n hlength
    have hparse : parseChar input output = numberConversion input output := by
      rw [parseChar]
      split
      · next c hc => simp [hc] at hlength
      · rfl
    rw [hparse]
    exact IsInteger.inRange_iff (by decide) (by decide)
  · intro w v output
    exact (numberConversion_eq_true_iff w.bits_le).mpr (exists_eq_toString v.toInt)
  · intro T A parseValue any parsed valueStore token
    exact ValueDescriptor.parse_of_false

/-! ## Unsigned integers -/

/-- What `std::stoull` makes of a numeral. -/
def unsignedValue (n : Numeral) : Int :=
  if n.sign = .minus then -(n.magnitude : Int) % 2 ^ 64 else n.magnitude

/-- A numeral in range is read without a sign. -/
theorem stoull_of_eq_text {input : String} {n : Numeral} (h : input.toList = n.text)
    (hle : n.magnitude ≤ 2 ^ 64 - 1) : stoull input = .value (unsignedValue n) := by
  rw [stoull_eq, (eq_text_iff.mp h).1]
  exact if_pos hle

/-- What is read to its end without a sign is a numeral. -/
theorem eq_text_of_stoull {input : String} {i : Int} (h : stoull input = .value i)
    (hconsumed : consumed input = input.toList.length) :
    ∃ n : Numeral, input.toList = n.text ∧ n.magnitude ≤ 2 ^ 64 - 1 ∧ unsignedValue n = i := by
  rw [stoull_eq] at h
  split at h
  · cases h
  · next n hfront =>
      split at h
      · next hle =>
          cases h
          have htext := eq_text_iff.mpr ⟨hfront, (consumed_eq_length_iff input).mp hconsumed⟩
          exact ⟨n, htext, hle, rfl⟩
      · cases h

/-- `UnsignedNumberConversion` looks for a minus sign at the first character only. -/
theorem unsignedNumberConversion_eq_true_iff {w : Nat} {input : String} {output result : BitVec w} :
    unsignedNumberConversion input output = (true, result) ↔
      ∃ n : Numeral, input.toList = n.text ∧ ¬(n.space = [] ∧ n.sign = .minus) ∧
        n.magnitude ≤ 2 ^ 64 - 1 ∧ unsignedValue n = result.toNat := by
  constructor
  · intro h
    rw [unsignedNumberConversion] at h
    split at h
    · cases h
    · next hhead =>
        split at h
        · next outputUll hstoull =>
            simp only [Prod.mk.injEq, Bool.and_eq_true, beq_iff_eq] at h
            obtain ⟨⟨hconsumed, htoNat⟩, rfl⟩ := h
            obtain ⟨n, htext, hle, hvalue⟩ := eq_text_of_stoull hstoull hconsumed
            rw [htext, head?_text_eq_minus_iff] at hhead
            exact ⟨n, htext, hhead, hle, hvalue.trans htoNat.symm⟩
        · cases h
        · cases h
  · intro ⟨n, htext, hfront, hle, hvalue⟩
    have hhead : input.toList.head? ≠ some '-' := by
      rw [htext, ne_eq, head?_text_eq_minus_iff]
      exact hfront
    have hstoull : stoull input = .value result.toNat := by
      rw [stoull_of_eq_text htext hle, hvalue]
    simp [unsignedNumberConversion, hhead, hstoull, consumed_of_eq_text htext]

/-- What exact parsing of an unsigned type asks for: the literals of its values are accepted, and
nothing with a minus sign in it. -/
structure ParsesUnsigned (w : Width) (input : String) (output : BitVec w.bits) : Prop where
  exact : ∀ n : Nat,
    ((parseUnsigned input output).1 = true ∧ (parseUnsigned input output).2.toNat = n) ↔
      IsUnsigned input n ∧ n ≤ 2 ^ w.bits - 1
  noMinus : '-' ∈ input.toList → (parseUnsigned input output).1 = false

/-- A minus sign behind white space, in front of a number that wraps around into the type. -/
def WrapsAround (w : Width) (input : String) : Prop :=
  ∃ n : Numeral, input.toList = n.text ∧ n.space ≠ [] ∧ n.sign = .minus ∧
    (n.magnitude = 0 ∨ 2 ^ 64 - 2 ^ w.bits < n.magnitude ∧ n.magnitude < 2 ^ 64)

theorem Width.two_pow_bits_le (w : Width) : 2 ^ w.bits ≤ 2 ^ 64 :=
  Nat.pow_le_pow_right (by decide) w.bits_le

/-- Behind a minus sign, the numbers that end up in the type are those next to a multiple of
2 ^ 64. -/
theorem unsignedValue_lt_iff {w : Width} {n : Numeral} (hsign : n.sign = .minus)
    (hle : n.magnitude ≤ 2 ^ 64 - 1) :
    unsignedValue n < 2 ^ w.bits ↔
      n.magnitude = 0 ∨ 2 ^ 64 - 2 ^ w.bits < n.magnitude ∧ n.magnitude < 2 ^ 64 := by
  have hbits := w.two_pow_bits_le
  have hpos : 0 < 2 ^ w.bits := Nat.two_pow_pos _
  have hcast : ((2 ^ w.bits : Nat) : Int) = 2 ^ w.bits := by norm_cast
  rw [unsignedValue, if_pos hsign, ← hcast]
  omega

/-- What is read without a sign is not negative. -/
theorem unsignedValue_nonneg (n : Numeral) : 0 ≤ unsignedValue n := by
  rw [unsignedValue]
  split <;> omega

/-- A numeral that wraps around into the type is accepted. -/
theorem parseUnsigned_of_wrapsAround {w : Width} {input : String} (h : WrapsAround w input)
    (output : BitVec w.bits) : (parseUnsigned input output).1 = true := by
  obtain ⟨n, htext, hspace, hsign, hmagnitude⟩ := h
  have hle : n.magnitude ≤ 2 ^ 64 - 1 := by omega
  have hlt := (unsignedValue_lt_iff (w := w) hsign hle).mpr hmagnitude
  have hnonneg := unsignedValue_nonneg n
  have hcast : ((2 ^ w.bits : Nat) : Int) = 2 ^ w.bits := by norm_cast
  have hresult : unsignedValue n = (BitVec.ofNat w.bits (unsignedValue n).toNat).toNat := by
    rw [← hcast] at hlt
    rw [BitVec.toNat_ofNat, Nat.mod_eq_of_lt (by omega), Int.toNat_of_nonneg hnonneg]
  have hparse : unsignedNumberConversion input output =
      (true, BitVec.ofNat w.bits (unsignedValue n).toNat) :=
    unsignedNumberConversion_eq_true_iff.mpr
      ⟨n, htext, fun hfront => hspace hfront.1, hle, hresult⟩
  exact congrArg Prod.fst hparse

/-- What is accepted is a literal without a minus sign, unless it wraps around. -/
theorem isUnsigned_of_parseUnsigned {w : Width} {input : String} (h : ¬WrapsAround w input)
    {output result : BitVec w.bits} (hparse : parseUnsigned input output = (true, result)) :
    IsUnsigned input result.toNat := by
  obtain ⟨n, htext, hfront, hle, hvalue⟩ := unsignedNumberConversion_eq_true_iff.mp hparse
  have hsign : n.sign ≠ .minus := by
    intro hsign
    have hlt : unsignedValue n < 2 ^ w.bits := by
      rw [hvalue]
      exact_mod_cast result.isLt
    exact h ⟨n, htext, fun hspace => hfront ⟨hspace, hsign⟩, hsign,
      (unsignedValue_lt_iff hsign hle).mp hlt⟩
  rw [unsignedValue, if_neg hsign] at hvalue
  exact ⟨n, htext, hsign, by exact_mod_cast hvalue⟩

/-- A literal in the range of the type is read. -/
theorem parseUnsigned_of_isUnsigned {w : Width} {input : String} {n : Nat}
    (h : IsUnsigned input n) (hle : n ≤ 2 ^ w.bits - 1) (output : BitVec w.bits) :
    parseUnsigned input output = (true, BitVec.ofNat w.bits n) := by
  obtain ⟨numeral, htext, hsign, rfl⟩ := h
  have hbits := w.two_pow_bits_le
  have hpos : 0 < 2 ^ w.bits := Nat.two_pow_pos _
  refine unsignedNumberConversion_eq_true_iff.mpr
    ⟨numeral, htext, fun hfront => hsign hfront.2, by omega, ?_⟩
  rw [unsignedValue, if_neg hsign, BitVec.toNat_ofNat, Nat.mod_eq_of_lt (by omega)]

theorem parseUnsigned_exact_iff (w : Width) (input : String) (output : BitVec w.bits) :
    ParsesUnsigned w input output ↔ ¬WrapsAround w input := by
  constructor
  · intro h hwraps
    have htrue := parseUnsigned_of_wrapsAround hwraps output
    obtain ⟨n, htext, -, hsign, -⟩ := hwraps
    have hminus : '-' ∈ input.toList := htext ▸ minus_mem_text_iff.mpr hsign
    rw [h.noMinus hminus] at htrue
    cases htrue
  · intro h
    refine ⟨?_, ?_⟩
    · intro n
      constructor
      · intro ⟨htrue, hn⟩
        have hunsigned := isUnsigned_of_parseUnsigned h (Prod.ext htrue rfl)
        have hlt := (parseUnsigned input output).2.isLt
        rw [hn] at hunsigned hlt
        exact ⟨hunsigned, by omega⟩
      · intro ⟨hunsigned, hle⟩
        have hpos : 0 < 2 ^ w.bits := Nat.two_pow_pos _
        rw [parseUnsigned_of_isUnsigned hunsigned hle output]
        exact ⟨rfl, Nat.mod_eq_of_lt (by omega)⟩
    · intro hminus
      by_contra htrue
      have hparse : parseUnsigned input output = (true, (parseUnsigned input output).2) :=
        Prod.ext (by simpa using htrue) rfl
      obtain ⟨n, htext, hsign, -⟩ := isUnsigned_of_parseUnsigned h hparse
      rw [htext, minus_mem_text_iff] at hminus
      exact hsign hminus

/-- A minus sign behind a blank is not seen, and the number wraps around. -/
theorem not_parsesUnsigned_blank : ¬ParsesUnsigned .w64 " -1" 0#64 := by
  intro h
  have hfalse := h.noMinus (by decide)
  revert hfalse
  decide

end AsapClap
