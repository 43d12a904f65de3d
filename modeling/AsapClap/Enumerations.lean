import AsapClap.Numbers
import Mathlib.Tactic.FinCases

/-!
# AsapClap.Enumerations

`ParseValue` for enumerations with a signed underlying type.  The library that
looks up an enumerator by its name compares names as they are, and is given the
input in lower case.
-/

namespace AsapClap

open Numeral

/-! ## Enumerations -/

/-- A character that an identifier may begin with; those that are not ASCII belong to letters. -/
def isIdentifierStart (c : Char) : Bool := c.isAlpha || c == '_' || 128 ≤ c.toNat

/-- An enumerator as `magic_enum` sees it. -/
structure Enumerator (w : Nat) where
  name : String
  value : BitVec w
  deriving DecidableEq

/-- An enumeration whose underlying type has `w` bits, with the enumerators that the library
knows. -/
structure Enumeration (w : Nat) where
  enumerators : List (Enumerator w)
  isIdentifier : ∀ e ∈ enumerators, ∃ c ∈ e.name.toList.head?, isIdentifierStart c = true
  nodup_names : (enumerators.map (·.name)).Nodup
  nodup_values : (enumerators.map (·.value)).Nodup

namespace Enumeration

variable {w : Nat}

/-- `magic_enum::enum_cast` of a name. -/
def castName (enumeration : Enumeration w) (name : String) : Option (Enumerator w) :=
  enumeration.enumerators.find? (·.name == name)

/-- `magic_enum::enum_cast` of a value. -/
def castValue (enumeration : Enumeration w) (value : BitVec w) : Option (Enumerator w) :=
  enumeration.enumerators.find? (·.value == value)

/-- `ParseValue` of an enumeration; the number it is read into is not initialised. -/
def parseValue (enumeration : Enumeration w) (val : BitVec w) (input : String)
    (output : BitVec w) : Bool × BitVec w :=
  match enumeration.castName (toLower input) with
  | some e => (true, e.value)
  | none =>
      match numberConversion input val with
      | (false, _) => (false, output)
      | (true, val) =>
          match enumeration.castValue val with
          | none => (false, output)
          | some e => (true, e.value)

/-! ## What an enumeration should accept -/

/-- What covering every enumerator asks for: an enumerator is given by its name, whatever the case
of the letters, and by its value. -/
structure Covers (enumeration : Enumeration w) (val : BitVec w) (input : String)
    (output : BitVec w) : Prop where
  exact : ∀ e ∈ enumeration.enumerators,
    enumeration.parseValue val input output = (true, e.value) ↔
      toLower input = toLower e.name ∨ IsInteger input e.value.toInt
  isEnumerator : (enumeration.parseValue val input output).1 = true →
    ∃ e ∈ enumeration.enumerators, (enumeration.parseValue val input output).2 = e.value

/-! ## Lookup -/

variable {enumeration : Enumeration w} {e : Enumerator w} {input name : String}
  {val output value : BitVec w}

/-- Names are unique. -/
theorem eq_of_name_eq (he : e ∈ enumeration.enumerators) {e' : Enumerator w}
    (he' : e' ∈ enumeration.enumerators) (h : e.name = e'.name) : e = e' :=
  List.inj_on_of_nodup_map enumeration.nodup_names he he' h

/-- Values are unique as well. -/
theorem eq_of_value_eq (he : e ∈ enumeration.enumerators) {e' : Enumerator w}
    (he' : e' ∈ enumeration.enumerators) (h : e.value = e'.value) : e = e' :=
  List.inj_on_of_nodup_map enumeration.nodup_values he he' h

/-- `enum_cast` from a name finds the enumerator of that name. -/
theorem castName_eq_some_iff :
    enumeration.castName name = some e ↔ e ∈ enumeration.enumerators ∧ e.name = name := by
  constructor
  · intro h
    exact ⟨List.mem_of_find?_eq_some h, by simpa using List.find?_some h⟩
  · intro ⟨he, hname⟩
    cases hcast : enumeration.castName name with
    | none =>
        rw [castName, List.find?_eq_none] at hcast
        exact absurd (by simpa using hname) (hcast e he)
    | some e' =>
        have hname' : e'.name = name := by simpa using List.find?_some hcast
        rw [eq_of_name_eq he (List.mem_of_find?_eq_some hcast) (hname.trans hname'.symm)]

/-- `enum_cast` from a value finds the enumerator of that value. -/
theorem castValue_eq_some_iff :
    enumeration.castValue value = some e ↔ e ∈ enumeration.enumerators ∧ e.value = value := by
  constructor
  · intro h
    exact ⟨List.mem_of_find?_eq_some h, by simpa using List.find?_some h⟩
  · intro ⟨he, hvalue⟩
    cases hcast : enumeration.castValue value with
    | none =>
        rw [castValue, List.find?_eq_none] at hcast
        exact absurd (by simpa using hvalue) (hcast e he)
    | some e' =>
        have hvalue' : e'.value = value := by simpa using List.find?_some hcast
        rw [eq_of_value_eq he (List.mem_of_find?_eq_some hcast) (hvalue.trans hvalue'.symm)]

/-- An identifier starts with a letter or an underscore, all of which are behind the digits. -/
theorem le_toNat_of_isIdentifierStart {c : Char} (h : isIdentifierStart c = true) :
    65 ≤ c.toNat := by
  simp only [isIdentifierStart, Bool.or_eq_true, beq_iff_eq, decide_eq_true_eq] at h
  obtain (halpha | rfl) | hlarge := h
  · by_contra hlt
    rw [isAlpha_of_toNat_lt (by omega)] at halpha
    cases halpha
  · decide
  · omega

/-- A name is no literal, in any case of its letters. -/
theorem not_isInteger_of_name (he : e ∈ enumeration.enumerators)
    (h : toLower input = toLower e.name) (n : Int) : ¬IsInteger input n := by
  intro ⟨numeral, htext, _⟩
  obtain ⟨c, hc, hstart⟩ := enumeration.isIdentifier e he
  have hlower : input.toList.map Char.toLower = e.name.toList.map Char.toLower := by
    rw [← toList_toLower, ← toList_toLower, h]
  have hsame : numeral.text.map Char.toLower = numeral.text :=
    (map_toLower_eq_iff fun d hd => isAlpha_of_mem_text hd).mpr rfl
  have hmem : c.toLower ∈ numeral.text := by
    rw [← hsame, ← htext, hlower]
    exact List.mem_map_of_mem (List.mem_of_mem_head? hc)
  have hlt := toNat_lt_of_mem_text hmem
  have hle := le_toNat_toLower (le_toNat_of_isIdentifierStart hstart)
  omega

/-- An input that names an enumerator stands for that one. -/
theorem parseValue_of_name (he : e ∈ enumeration.enumerators) (h : e.name = toLower input) :
    enumeration.parseValue val input output = (true, e.value) := by
  rw [parseValue, castName_eq_some_iff.mpr ⟨he, h⟩]

/-- An input that names no enumerator is a number. -/
theorem parseValue_of_noName (hw : w ≤ 64)
    (h : ∀ e ∈ enumeration.enumerators, e.name ≠ toLower input)
    (he : e ∈ enumeration.enumerators) :
    enumeration.parseValue val input output = (true, e.value) ↔ IsInteger input e.value.toInt := by
  have hname : enumeration.castName (toLower input) = none := by
    cases hcast : enumeration.castName (toLower input) with
    | none => rfl
    | some e' =>
        obtain ⟨he', hname⟩ := castName_eq_some_iff.mp hcast
        exact absurd hname (h e' he')
  rw [parseValue, hname]
  constructor
  · intro hparse
    dsimp only at hparse
    split at hparse
    · cases hparse
    · next val' hnumber =>
        split at hparse
        · cases hparse
        · next e' hcast =>
            obtain ⟨he', hvalue⟩ := castValue_eq_some_iff.mp hcast
            rw [Prod.mk.injEq] at hparse
            rw [← hparse.2, hvalue]
            exact (numberConversion_eq_true_iff hw).mp hnumber
  · intro hinteger
    have hnumber : numberConversion input val = (true, e.value) :=
      (numberConversion_eq_true_iff hw).mpr hinteger
    have hcast := castValue_eq_some_iff.mpr ⟨he, rfl⟩
    simp only [hnumber, hcast]

/-- Whatever is accepted is an enumerator. -/
theorem parseValue_isEnumerator
    (h : (enumeration.parseValue val input output).1 = true) :
    ∃ e ∈ enumeration.enumerators, (enumeration.parseValue val input output).2 = e.value := by
  rw [parseValue] at h ⊢
  split at h
  · next e hcast => exact ⟨e, (castName_eq_some_iff.mp hcast).1, rfl⟩
  · split at h
    · cases h
    · next val' hnumber =>
        split at h
        · cases h
        · next e hcast =>
            exact ⟨e, (castValue_eq_some_iff.mp hcast).1, rfl⟩

/-- To lower a text twice is to lower it once. -/
theorem toLower_toLower (str : String) : toLower (toLower str) = toLower str := by
  apply String.toList_inj.mp
  rw [toList_toLower, toList_toLower, List.map_map]
  exact List.map_congr_left fun c _ => Numeral.toLower_toLower c

/-- Enumerators in lower case are found, however they are typed. -/
theorem covers_of_lower (hw : w ≤ 64)
    (h : ∀ e ∈ enumeration.enumerators, toLower input = toLower e.name →
      toLower e.name = e.name) : enumeration.Covers val input output := by
  refine ⟨?_, parseValue_isEnumerator⟩
  intro e he
  by_cases hnamed : ∃ e' ∈ enumeration.enumerators, e'.name = toLower input
  · obtain ⟨e', he', hname'⟩ := hnamed
    have hlower' : toLower input = toLower e'.name := by rw [hname', toLower_toLower]
    rw [parseValue_of_name he' hname', Prod.mk.injEq]
    constructor
    · intro ⟨_, hvalue⟩
      rw [← eq_of_value_eq he' he hvalue]
      exact .inl hlower'
    · intro hgiven
      obtain hlower | hinteger := hgiven
      · have hname : e.name = toLower input := by rw [hlower, h e he hlower]
        rw [eq_of_name_eq he he' (hname.trans hname'.symm)]
        exact ⟨rfl, rfl⟩
      · exact absurd hinteger (not_isInteger_of_name he' hlower' _)
  · have hnone : ∀ e ∈ enumeration.enumerators, e.name ≠ toLower input :=
      fun e he hname => hnamed ⟨e, he, hname⟩
    rw [parseValue_of_noName hw hnone he]
    constructor
    · exact Or.inr
    · intro hgiven
      obtain hlower | hinteger := hgiven
      · exact absurd ((h e he hlower).symm.trans hlower.symm) (hnone e he)
      · exact hinteger

/-- What is typed for an enumerator is found only if its name is in lower case. -/
theorem lower_of_covers (hw : w ≤ 64) (h : enumeration.Covers val input output)
    (he : e ∈ enumeration.enumerators) (hlower : toLower input = toLower e.name) :
    toLower e.name = e.name := by
  have hparse := (h.exact e he).mpr (.inl hlower)
  by_cases hnamed : ∃ e' ∈ enumeration.enumerators, e'.name = toLower input
  · obtain ⟨e', he', hname'⟩ := hnamed
    rw [parseValue_of_name he' hname', Prod.mk.injEq] at hparse
    rw [← eq_of_value_eq he' he hparse.2, hname', toLower_toLower]
  · have hnone : ∀ e ∈ enumeration.enumerators, e.name ≠ toLower input :=
      fun e he hname => hnamed ⟨e, he, hname⟩
    exact absurd ((parseValue_of_noName hw hnone he).mp hparse)
      (not_isInteger_of_name he hlower _)

/-- Every enumerator is covered, except where the input names one whose declaration has a capital
letter. -/
theorem covers_iff (w : Width) (enumeration : Enumeration w.bits) (val : BitVec w.bits)
    (input : String) (output : BitVec w.bits) :
    enumeration.Covers val input output ↔
      ∀ e ∈ enumeration.enumerators, toLower input = toLower e.name → toLower e.name = e.name := by
  constructor
  · intro h e he hlower
    exact lower_of_covers w.bits_le h he hlower
  · intro h
    exact covers_of_lower w.bits_le h

/-- `enum class Color { Red, green };` -/
def color : Enumeration Width.w32.bits where
  enumerators := [⟨"Red", 0⟩, ⟨"green", 1⟩]
  isIdentifier := by
    intro e he
    fin_cases he
    · exact ⟨'R', rfl, rfl⟩
    · exact ⟨'g', rfl, rfl⟩
  nodup_names := by decide
  nodup_values := by decide

/-- An enumerator that begins with a capital letter is not found under its own name. -/
theorem not_covers_red : ¬color.Covers 0 "Red" 0 := by
  intro h
  have hparse := (h.exact ⟨"Red", 0⟩ (by decide)).mpr (.inl rfl)
  revert hparse
  decide

end Enumeration

end AsapClap
