import Mathlib.Data.List.TakeWhile

/-!
# AsapClap.Library.Numeral

Decimal numerals as the C library reads them: white space, perhaps a sign, and
digits.  `Numeral.front?` is the numeral that a text begins with, and
`front?_eq_some_iff` says that it is the one way to split the text.
-/

/-- The sign of a numeral. -/
inductive Numeral.Sign
  | absent
  | plus
  | minus
  deriving DecidableEq, Repr

/-- The white space of the C locale. -/
def Numeral.isSpace (c : Char) : Bool := c ∈ [' ', '\t', '\n', '\x0b', '\x0c', '\r']

/-- White space, perhaps a sign, and at least one digit. -/
@[ext]
structure Numeral where
  space : List Char
  sign : Numeral.Sign
  digits : List Char
  isSpace_of_mem : ∀ c ∈ space, Numeral.isSpace c = true
  isDigit_of_mem : ∀ c ∈ digits, c.isDigit = true
  digits_ne_nil : digits ≠ []

namespace Numeral

/-! ## Text and value -/

/-- The characters of a sign. -/
def Sign.text : Sign → List Char
  | .absent => []
  | .plus => ['+']
  | .minus => ['-']

/-- The characters of a numeral. -/
def text (n : Numeral) : List Char := n.space ++ n.sign.text ++ n.digits

/-- The number that the digits write. -/
def magnitude (n : Numeral) : Nat := Nat.ofDigitChars 10 n.digits 0

/-- The number that a numeral writes. -/
def value (n : Numeral) : Int := if n.sign = .minus then -n.magnitude else n.magnitude

/-- Without a minus a numeral stands for its digits. -/
theorem value_of_ne_minus {n : Numeral} (h : n.sign ≠ .minus) : n.value = n.magnitude := by
  rw [value, if_neg h]

/-- With a minus it stands for less than nothing. -/
theorem value_of_minus {n : Numeral} (h : n.sign = .minus) : n.value = -n.magnitude := by
  rw [value, if_pos h]

/-- A numeral has at least one digit. -/
theorem text_ne_nil (n : Numeral) : n.text ≠ [] := by
  simp [text, n.digits_ne_nil]

/-- A numeral of one character is a digit. -/
theorem eq_singleton_of_text {n : Numeral} {c : Char} (h : n.text = [c]) :
    n.space = [] ∧ n.sign = .absent ∧ n.digits = [c] := by
  have hlength := congrArg List.length h
  have hdigits : 0 < n.digits.length := List.length_pos_iff.mpr n.digits_ne_nil
  simp only [text, List.length_append, List.length_singleton] at hlength
  have hspace : n.space = [] := List.length_eq_zero_iff.mp (by omega)
  cases hsign : n.sign with
  | absent =>
      rw [text, hspace, hsign] at h
      exact ⟨hspace, rfl, h⟩
  | plus =>
      simp only [hsign, Sign.text, List.length_singleton] at hlength
      omega
  | minus =>
      simp only [hsign, Sign.text, List.length_singleton] at hlength
      omega

/-- The numeral that writes a natural number, with a sign in front. -/
def ofNat (sign : Sign) (magnitude : Nat) : Numeral where
  space := []
  sign
  digits := Nat.toDigits 10 magnitude
  isSpace_of_mem := by simp
  isDigit_of_mem := fun _ hc => Nat.isDigit_of_mem_toDigits (by decide) (by decide) hc
  digits_ne_nil := Nat.toDigits_ne_nil

@[simp] theorem sign_ofNat (sign : Sign) (m : Nat) : (ofNat sign m).sign = sign := rfl

@[simp] theorem magnitude_ofNat (sign : Sign) (m : Nat) : (ofNat sign m).magnitude = m :=
  Nat.ofDigitChars_ten_toDigits

/-- The decimal rendering of an integer is a numeral that writes it. -/
theorem exists_eq_toString (i : Int) :
    ∃ n : Numeral, (toString i).toList = n.text ∧ n.value = i := by
  cases i with
  | ofNat m =>
      refine ⟨ofNat .absent m, ?_, ?_⟩
      · simp [toString, Int.repr, text, ofNat, Sign.text]
      · simp [value]
  | negSucc m =>
      refine ⟨ofNat .minus (m + 1), ?_, ?_⟩
      · simp [toString, Int.repr, text, ofNat, Sign.text]
      · simp [value, Int.negSucc_eq]

/-! ## Reading a numeral -/

/-- The sign at the front of a text. -/
def signOf : List Char → Sign
  | '-' :: _ => .minus
  | '+' :: _ => .plus
  | _ => .absent

/-- The sign that is found is the one that stands there. -/
theorem text_signOf_append (cs : List Char) :
    (signOf cs).text ++ cs.drop (signOf cs).text.length = cs := by
  rw [signOf.eq_def]
  split <;> simp [Sign.text]

/-- Digits end the white space. -/
theorem not_isSpace_of_isDigit {c : Char} (h : c.isDigit = true) : isSpace c = false := by
  by_contra hc
  simp only [isSpace, List.mem_cons, List.not_mem_nil, or_false, Bool.not_eq_false,
    decide_eq_true_eq] at hc
  obtain rfl | rfl | rfl | rfl | rfl | rfl := hc <;> revert h <;> decide

/-- In front of a digit the sign is found again. -/
theorem signOf_text_append {sign : Sign} {c : Char} {cs : List Char} (h : c.isDigit = true) :
    signOf (sign.text ++ c :: cs) = sign := by
  cases sign with
  | absent =>
      simp only [Sign.text, List.nil_append]
      rw [signOf.eq_def]
      split
      · next hcons => cases hcons; exact absurd h (by decide)
      · next hcons => cases hcons; exact absurd h (by decide)
      · rfl
  | plus => rfl
  | minus => rfl

/-- The numeral that a text begins with. -/
def front? (cs : List Char) : Option Numeral :=
  let unread := cs.dropWhile isSpace
  let sign := signOf unread
  let digits := (unread.drop sign.text.length).takeWhile Char.isDigit
  if h : digits = [] then none
  else some
    { space := cs.takeWhile isSpace
      sign
      digits
      isSpace_of_mem := fun _ => List.mem_takeWhile_imp
      isDigit_of_mem := fun _ => List.mem_takeWhile_imp
      digits_ne_nil := h }

/-- What is behind a text's numeral. -/
def behind (cs : List Char) : List Char :=
  let unread := cs.dropWhile isSpace
  (unread.drop (signOf unread).text.length).dropWhile Char.isDigit

/-- The digits of a numeral end where its text ends. -/
def Ends (rest : List Char) : Prop := ∀ c ∈ rest.head?, c.isDigit = false

theorem ends_nil : Ends [] := by simp [Ends]

/-- What is left behind a numeral begins with no digit. -/
theorem ends_behind (cs : List Char) : Ends (behind cs) := by
  intro c hc
  have hhead := List.head?_dropWhile_not Char.isDigit
    ((cs.dropWhile isSpace).drop (signOf (cs.dropWhile isSpace)).text.length)
  rw [behind, Option.mem_def] at hc
  rw [hc] at hhead
  simpa using hhead

variable {n : Numeral} {cs rest : List Char}

/-- The white space of a numeral is skipped, and nothing but it. -/
theorem dropWhile_isSpace (n : Numeral) (rest : List Char) :
    (n.text ++ rest).dropWhile isSpace = n.sign.text ++ n.digits ++ rest := by
  obtain ⟨c, digits, hdigits⟩ := List.exists_cons_of_ne_nil n.digits_ne_nil
  have hc : isSpace c = false :=
    not_isSpace_of_isDigit (n.isDigit_of_mem c (by simp [hdigits]))
  rw [text, List.append_assoc, List.append_assoc, List.dropWhile_append_of_pos n.isSpace_of_mem,
    hdigits]
  cases n.sign with
  | absent => simp [Sign.text, hc]
  | plus => rfl
  | minus => rfl

/-- The white space of a numeral is the longest there is in front. -/
theorem takeWhile_isSpace (n : Numeral) (rest : List Char) :
    (n.text ++ rest).takeWhile isSpace = n.space := by
  have hsplit := List.takeWhile_append_dropWhile (p := isSpace) (l := n.text ++ rest)
  rw [dropWhile_isSpace] at hsplit
  have htext : n.text ++ rest = n.space ++ (n.sign.text ++ n.digits ++ rest) := by
    simp [text]
  exact List.append_cancel_right (hsplit.trans htext)

/-- Behind the white space the sign is found. -/
theorem signOf_dropWhile (n : Numeral) (rest : List Char) :
    signOf ((n.text ++ rest).dropWhile isSpace) = n.sign := by
  obtain ⟨c, digits, hdigits⟩ := List.exists_cons_of_ne_nil n.digits_ne_nil
  rw [dropWhile_isSpace, hdigits, List.append_assoc, List.cons_append]
  exact signOf_text_append (n.isDigit_of_mem c (by simp [hdigits]))

/-- Behind the sign are the digits. -/
theorem drop_sign (n : Numeral) (rest : List Char) :
    ((n.text ++ rest).dropWhile isSpace).drop n.sign.text.length = n.digits ++ rest := by
  rw [dropWhile_isSpace, List.append_assoc, List.drop_left]

/-- No digit is in front of a rest that begins with none. -/
theorem takeWhile_eq_nil_of_ends (h : Ends rest) : rest.takeWhile Char.isDigit = [] := by
  cases rest with
  | nil => rfl
  | cons c rest => simp [h c (by simp)]

/-- All the digits in front are those of the numeral. -/
theorem takeWhile_isDigit (h : Ends rest) :
    (n.digits ++ rest).takeWhile Char.isDigit = n.digits := by
  rw [List.takeWhile_append_of_pos n.isDigit_of_mem, takeWhile_eq_nil_of_ends h, List.append_nil]

/-- **A numeral in front is found**, if no digit stands behind it, -/
theorem front?_text_append (h : Ends rest) : front? (n.text ++ rest) = some n := by
  have hsign := signOf_dropWhile n rest
  have hdigits : (((n.text ++ rest).dropWhile isSpace).drop
      (signOf ((n.text ++ rest).dropWhile isSpace)).text.length).takeWhile Char.isDigit
        = n.digits := by
    rw [hsign, drop_sign, takeWhile_isDigit h]
  rw [front?, dif_neg (by rw [hdigits]; exact n.digits_ne_nil)]
  exact congrArg some (Numeral.ext (takeWhile_isSpace n rest) hsign hdigits)

/-- What is behind the numeral is left. -/
theorem behind_text_append (h : Ends rest) : behind (n.text ++ rest) = rest := by
  have hsplit := List.takeWhile_append_dropWhile (p := Char.isDigit) (l := n.digits ++ rest)
  rw [takeWhile_isDigit h] at hsplit
  rw [behind, signOf_dropWhile, drop_sign]
  exact List.append_cancel_left hsplit

/-- What is found and what is left make the text. -/
theorem text_append_behind (h : front? cs = some n) : n.text ++ behind cs = cs := by
  rw [front?] at h
  split at h
  · cases h
  · cases h
    rw [text, behind, List.append_assoc, List.append_assoc, List.takeWhile_append_dropWhile,
      text_signOf_append, List.takeWhile_append_dropWhile]

/-- A text begins with a numeral in one way. -/
theorem front?_eq_some_iff :
    front? cs = some n ↔ ∃ rest, cs = n.text ++ rest ∧ Ends rest := by
  constructor
  · intro h
    exact ⟨behind cs, (text_append_behind h).symm, ends_behind cs⟩
  · intro ⟨rest, hcs, hrest⟩
    rw [hcs, front?_text_append hrest]

/-- A text is a numeral when nothing is behind the one it begins with. -/
theorem eq_text_iff : cs = n.text ↔ front? cs = some n ∧ behind cs = [] := by
  constructor
  · intro h
    have hcs : cs = n.text ++ [] := by rw [h, List.append_nil]
    rw [hcs]
    exact ⟨front?_text_append ends_nil, behind_text_append ends_nil⟩
  · intro ⟨hfront, hbehind⟩
    rw [← text_append_behind hfront, hbehind, List.append_nil]

/-- A text that is a numeral begins with a minus sign only if no white space is in front. -/
theorem head?_text_eq_minus_iff : n.text.head? = some '-' ↔ n.space = [] ∧ n.sign = .minus := by
  obtain ⟨c, digits, hdigits⟩ := List.exists_cons_of_ne_nil n.digits_ne_nil
  have hc : c.isDigit = true := n.isDigit_of_mem c (by simp [hdigits])
  cases hspace : n.space with
  | cons s space =>
      have hs : isSpace s = true := n.isSpace_of_mem s (by simp [hspace])
      simp only [text, hspace, List.cons_append, List.head?_cons, Option.some.injEq, reduceCtorEq,
        false_and, iff_false]
      intro heq
      exact absurd hs (by rw [heq]; decide)
  | nil =>
      cases hsign : n.sign with
      | absent =>
          simp only [text, hspace, hsign, hdigits, Sign.text, List.nil_append, List.head?_cons,
            Option.some.injEq, reduceCtorEq, and_false, iff_false]
          intro heq
          exact absurd hc (by rw [heq]; decide)
      | plus => simp [text, hspace, hsign, Sign.text]
      | minus => simp [text, hspace, hsign, Sign.text]

/-- The only place for a minus sign is in front of the digits. -/
theorem minus_mem_text_iff : '-' ∈ n.text ↔ n.sign = .minus := by
  have hspace : '-' ∉ n.space := fun h => absurd (n.isSpace_of_mem _ h) (by decide)
  have hdigits : '-' ∉ n.digits := fun h => absurd (n.isDigit_of_mem _ h) (by decide)
  cases hsign : n.sign <;> simp [text, hsign, Sign.text, hspace, hdigits]

/-! ## Lower case -/

theorem isUpper_iff_val {c : Char} : c.isUpper = true ↔ c.val ≥ 'A'.val ∧ c.val ≤ 'Z'.val :=
  decide_eq_true_iff

/-- Upper case letters by their codes. -/
theorem isUpper_iff {c : Char} : c.isUpper = true ↔ 65 ≤ c.toNat ∧ c.toNat ≤ 90 := by
  rw [isUpper_iff_val, ge_iff_le, UInt32.le_iff_toNat_le, UInt32.le_iff_toNat_le]
  exact Iff.rfl

/-- Lower case letters by their codes. -/
theorem isLower_iff {c : Char} : c.isLower = true ↔ 97 ≤ c.toNat ∧ c.toNat ≤ 122 := by
  have h : c.isLower = (decide ('a'.val ≤ c.val) && decide (c.val ≤ 'z'.val)) := rfl
  rw [h, Bool.and_eq_true, decide_eq_true_eq, decide_eq_true_eq, UInt32.le_iff_toNat_le,
    UInt32.le_iff_toNat_le]
  exact Iff.rfl

/-- What is no letter is of neither case. -/
theorem isAlpha_eq_false_iff {c : Char} :
    c.isAlpha = false ↔ c.isUpper = false ∧ c.isLower = false := Bool.or_eq_false_iff

/-- `toLower` moves upper case letters only. -/
theorem toLower_of_not_isUpper {c : Char} (h : c.isUpper = false) : c.toLower = c := by
  rw [← Bool.not_eq_true, isUpper_iff_val] at h
  exact dif_neg h

/-- A capital letter is 32 characters in front of the small one. -/
theorem toNat_toLower_of_isUpper {c : Char} (h : c.isUpper = true) :
    c.toLower.toNat = c.toNat + 32 := by
  have hval : c.toLower.val = c.val + ('a'.val - 'A'.val) :=
    congrArg Char.val (dif_pos (isUpper_iff_val.mp h))
  have hdiff : ('a'.val - 'A'.val).toNat = 32 := rfl
  have hlt : c.val.toNat ≤ 90 := (isUpper_iff.mp h).2
  change c.toLower.val.toNat = c.val.toNat + 32
  rw [hval, UInt32.toNat_add, hdiff, Nat.mod_eq_of_lt (by omega)]

/-- `toLower` moves a character to a lower case letter or not at all. -/
theorem toLower_eq_self_or (c : Char) : c.toLower = c ∨ c.toLower.isLower = true := by
  cases h : c.isUpper with
  | false => exact .inl (toLower_of_not_isUpper h)
  | true =>
      have hnat := toNat_toLower_of_isUpper h
      obtain ⟨hlow, hhigh⟩ := isUpper_iff.mp h
      exact .inr (isLower_iff.mpr (by omega))

/-- Lowering twice is lowering once. -/
theorem toLower_toLower (c : Char) : c.toLower.toLower = c.toLower := by
  obtain hself | hlower := toLower_eq_self_or c
  · rw [hself, hself]
  · apply toLower_of_not_isUpper
    rw [isLower_iff] at hlower
    rw [← Bool.not_eq_true, isUpper_iff]
    omega

/-- Lower case changes no character that is not a letter, and makes none. -/
theorem toLower_eq_iff {c d : Char} (hd : d.isAlpha = false) : c.toLower = d ↔ c = d := by
  rw [isAlpha_eq_false_iff] at hd
  constructor
  · intro h
    obtain hself | hlower := toLower_eq_self_or c
    · exact hself.symm.trans h
    · rw [h, hd.2] at hlower
      cases hlower
  · intro h
    rw [h, toLower_of_not_isUpper hd.1]

/-- All letters are behind the digits, the signs and the white space. -/
theorem isAlpha_of_toNat_lt {c : Char} (h : c.toNat < 65) : c.isAlpha = false := by
  rw [isAlpha_eq_false_iff, ← Bool.not_eq_true, ← Bool.not_eq_true, isUpper_iff, isLower_iff]
  omega

/-- Digits are in front of the letters. -/
theorem toNat_lt_of_isDigit {c : Char} (h : c.isDigit = true) : c.toNat < 58 := by
  simp only [Char.isDigit, Bool.and_eq_true, decide_eq_true_eq] at h
  have hc : c.toNat ≤ 57 := h.2
  omega

/-- White space is in front of the letters. -/
theorem toNat_lt_of_isSpace {c : Char} (h : isSpace c = true) : c.toNat < 58 := by
  simp only [isSpace, List.mem_cons, List.not_mem_nil, or_false, decide_eq_true_eq] at h
  obtain rfl | rfl | rfl | rfl | rfl | rfl := h <;> decide

/-- Signs are in front of the letters. -/
theorem Sign.toNat_lt_of_mem_text {sign : Sign} {c : Char} (h : c ∈ sign.text) :
    c.toNat < 58 := by
  cases sign with
  | absent => cases h
  | plus =>
      rw [List.mem_singleton.mp h]
      decide
  | minus =>
      rw [List.mem_singleton.mp h]
      decide

/-- The characters of a numeral are in front of the letters. -/
theorem toNat_lt_of_mem_text {c : Char} (h : c ∈ n.text) : c.toNat < 58 := by
  simp only [text, List.mem_append] at h
  obtain (hspace | hsign) | hdigit := h
  · exact toNat_lt_of_isSpace (n.isSpace_of_mem c hspace)
  · exact Sign.toNat_lt_of_mem_text hsign
  · exact toNat_lt_of_isDigit (n.isDigit_of_mem c hdigit)

/-- No letter is part of a numeral. -/
theorem isAlpha_of_mem_text {c : Char} (h : c ∈ n.text) : c.isAlpha = false := by
  have hlt := toNat_lt_of_mem_text h
  exact isAlpha_of_toNat_lt (by omega)

/-- What is not in front of the letters does not get there in lower case. -/
theorem le_toNat_toLower {c : Char} (h : 65 ≤ c.toNat) : 65 ≤ c.toLower.toNat := by
  obtain hself | hlower := toLower_eq_self_or c
  · rw [hself]
    exact h
  · rw [isLower_iff] at hlower
    omega

/-- A text without letters is lowered from itself alone. -/
theorem map_toLower_eq_iff {cs ds : List Char} (hds : ∀ d ∈ ds, d.isAlpha = false) :
    cs.map Char.toLower = ds ↔ cs = ds := by
  induction ds generalizing cs with
  | nil => simp
  | cons d ds ih =>
      cases cs with
      | nil => simp
      | cons c cs =>
          rw [List.map_cons, List.cons.injEq, List.cons.injEq,
            toLower_eq_iff (hds d (by simp)), ih fun d' hd' => hds d' (by simp [hd'])]

/-- Lowering moves no digit to the front and takes none from it. -/
theorem ends_map_toLower_iff {rest : List Char} :
    Ends (rest.map Char.toLower) ↔ Ends rest := by
  cases rest with
  | nil => simp
  | cons c rest =>
      have hdigit : c.toLower.isDigit = c.isDigit := by
        rw [Bool.eq_iff_iff]
        constructor
        · intro h
          have hlt := toNat_lt_of_isDigit h
          have hself : c = c.toLower :=
            (toLower_eq_iff (isAlpha_of_toNat_lt (by omega : c.toLower.toNat < 65))).mp rfl
          rw [hself]
          exact h
        · intro h
          have hlt := toNat_lt_of_isDigit h
          rw [(toLower_eq_iff (isAlpha_of_toNat_lt (by omega : c.toNat < 65))).mpr rfl]
          exact h
      simp [Ends, hdigit]

/-- Lower case leaves the numeral in front of a text as it is. -/
theorem front?_map_toLower (cs : List Char) : front? (cs.map Char.toLower) = front? cs := by
  apply Option.ext
  intro n
  rw [front?_eq_some_iff, front?_eq_some_iff]
  constructor
  · intro ⟨rest, hcs, hrest⟩
    obtain ⟨front, rest', rfl, hfront, rfl⟩ := List.map_eq_append_iff.mp hcs
    rw [map_toLower_eq_iff fun d hd => isAlpha_of_mem_text hd] at hfront
    exact ⟨rest', by rw [hfront], ends_map_toLower_iff.mp hrest⟩
  · intro ⟨rest, hcs, hrest⟩
    have htext : n.text.map Char.toLower = n.text :=
      (map_toLower_eq_iff fun d hd => isAlpha_of_mem_text hd).mpr rfl
    exact ⟨rest.map Char.toLower, by rw [hcs, List.map_append, htext],
      ends_map_toLower_iff.mpr hrest⟩

end Numeral
