import AsapClap.Fluent.Spent
import AsapClap.Numbers

/-!
# AsapClap.Typed

`ValueDescriptor<T>` of `detail/value_descriptor.h`, with values of a type of their own: they go
into a `std::any` when a token is parsed or a default is applied, and come out of it with `GetAs<T>`.
A default that is given without a text is printed with `operator<<`, and the text is what help
shows and what is stored as the original token.
-/

namespace AsapClap

/-! ## Types -/

/-- The types of values that `ParseValue` has an overload of its own for, and those that a program
brings with it. -/
inductive ValueType (Tag : Type)
  | bool
  | char
  | signed (w : Width)
  | unsigned (w : Width)
  | string
  | other (tag : Tag)
  deriving DecidableEq

/-- `std::is_same<T, bool>`. -/
def ValueType.isBool {Tag : Type} : ValueType Tag → Bool
  | .bool => true
  | .char | .signed _ | .unsigned _ | .string | .other _ => false

/-- The types a program brings with it, each with `ParseValue` and `operator<<`. -/
structure UserTypes (Tag : Type) where
  El : Tag → Type
  parseValue : ∀ tag, String → Option (El tag)
  print : ∀ tag, El tag → String

/-- A program without types of its own. -/
def noTypes : UserTypes Empty where
  El := Empty.elim
  parseValue := fun tag => tag.elim
  print := fun tag => tag.elim

variable {Tag : Type}

/-- The values of a type. -/
def ValueType.Carrier (types : UserTypes Tag) : ValueType Tag → Type
  | .bool => Bool
  | .char => BitVec 8
  | .signed w | .unsigned w => BitVec w.bits
  | .string => String
  | .other tag => types.El tag

/-- What a `ParseValue` that returns its success has parsed. -/
def accepted {T : Type} (parsed : Bool × T) : Option T := if parsed.1 then some parsed.2 else none

/-- The overloads of `ParseValue`. -/
def ValueType.parseValue (types : UserTypes Tag) :
    (ty : ValueType Tag) → String → Option (ty.Carrier types)
  | .bool => parseFlag
  | .char => fun token => accepted (parseChar token 0)
  | .signed _ => fun token => accepted (parseSigned token 0)
  | .unsigned _ => fun token => accepted (parseUnsigned token 0)
  | .string => some
  | .other tag => types.parseValue tag

/-- `operator<<` for a character type. -/
def printCharacter {n : Nat} (x : BitVec n) : String := String.singleton (Char.ofNat x.toNat)

/-- `operator<<`, for which the integers of 8 bits are characters. -/
def ValueType.print (types : UserTypes Tag) : (ty : ValueType Tag) → ty.Carrier types → String
  | .bool => fun (x : Bool) => if x then "1" else "0"
  | .char => printCharacter
  | .signed w => fun x => if w = .w8 then printCharacter x else toString (BitVec.toInt x)
  | .unsigned w => fun x => if w = .w8 then printCharacter x else toString (BitVec.toNat x)
  | .string => id
  | .other tag => types.print tag

/-! ## Texts -/

/-- The types whose values are written as characters and read as numbers. -/
def ValueType.IsByte : ValueType Tag → Prop
  | .signed w | .unsigned w => w = .w8
  | .bool | .char | .string | .other _ => False

section

variable {w : Width}

/-- A parse function hands a value over exactly when it says that it is done. -/
theorem accepted_eq_some_iff {T : Type} {parsed : Bool × T} {x : T} :
    accepted parsed = some x ↔ parsed = (true, x) := by
  obtain ⟨success, parsed⟩ := parsed
  cases success <;> simp [accepted]

/-- A byte is the code of the character it is printed as. -/
theorem toNat_ofNat_of_lt {n : Nat} (h : n < 256) : (Char.ofNat n).toNat = n := by
  have hvalid : n.isValidChar := .inl (by omega)
  rw [Char.ofNat, dif_pos hvalid]
  rfl

@[simp] theorem toList_printCharacter {n : Nat} (x : BitVec n) :
    (printCharacter x).toList = [Char.ofNat x.toNat] := String.toList_singleton _

/-- A character is read back. -/
theorem parseChar_printCharacter (x output : BitVec 8) :
    parseChar (printCharacter x) output = (true, x) := by
  simp [parseChar, charBits, toNat_ofNat_of_lt x.isLt]

/-- What `operator<<` prints of a natural number is a numeral of it. -/
theorem isUnsigned_toString (m : Nat) : IsUnsigned (toString m) m :=
  ⟨.ofNat .absent m, by simp [Numeral.text, Numeral.ofNat, Numeral.Sign.text], by simp, by simp⟩

/-- Signed integers are read back from what is printed of them. -/
theorem parseSigned_toString_toInt (x output : BitVec w.bits) :
    parseSigned (toString x.toInt) output = (true, x) :=
  (numberConversion_eq_true_iff w.bits_le).mpr (Numeral.exists_eq_toString _)

/-- Unsigned integers are read back from what is printed of them. -/
theorem parseUnsigned_toString_toNat (x output : BitVec w.bits) :
    parseUnsigned (toString x.toNat) output = (true, x) := by
  have hle : x.toNat ≤ 2 ^ w.bits - 1 := by
    have := x.isLt
    omega
  rw [parseUnsigned_of_isUnsigned (isUnsigned_toString _) hle]
  simp

/-- A numeral of one character is a digit, whose code is not its value. -/
theorem value_of_text_singleton {n : Numeral} {c : Char} (h : n.text = [c]) :
    n.sign = .absent ∧ n.magnitude + 48 = c.toNat ∧ c.toNat < 58 := by
  obtain ⟨-, hsign, hdigits⟩ := Numeral.eq_singleton_of_text h
  have hdigit : c.isDigit = true := n.isDigit_of_mem c (by simp [hdigits])
  refine ⟨hsign, ?_, Numeral.toNat_lt_of_isDigit hdigit⟩
  have hle : 48 ≤ c.toNat := by
    simp only [Char.isDigit, Bool.and_eq_true, decide_eq_true_eq] at hdigit
    exact UInt32.le_iff_toNat_le.mp hdigit.1
  rw [Numeral.magnitude, hdigits]
  simp only [Nat.ofDigitChars, List.foldl_cons, List.foldl_nil]
  change 10 * 0 + (c.toNat - 48) + 48 = c.toNat
  omega

/-- Integers of 8 bits are printed as a character: a digit is read as another number, and anything
else as none. -/
theorem not_parseSigned_printCharacter (x output : BitVec 8) :
    parseSigned (printCharacter x) output ≠ (true, x) := by
  intro h
  obtain ⟨n, htext, hvalue⟩ := (numberConversion_eq_true_iff (by decide)).mp h
  rw [toList_printCharacter] at htext
  obtain ⟨hsign, hmagnitude, hlt⟩ := value_of_text_singleton htext.symm
  rw [toNat_ofNat_of_lt x.isLt] at hmagnitude hlt
  have hne : n.sign ≠ .minus := by simp [hsign]
  rw [Numeral.value_of_ne_minus hne, BitVec.toInt_eq_toNat_cond] at hvalue
  omega

/-- The same for unsigned integers of 8 bits. -/
theorem not_parseUnsigned_printCharacter (x output : BitVec 8) :
    parseUnsigned (printCharacter x) output ≠ (true, x) := by
  intro h
  obtain ⟨n, htext, -, -, hvalue⟩ := unsignedNumberConversion_eq_true_iff.mp h
  rw [toList_printCharacter] at htext
  obtain ⟨hsign, hmagnitude, hlt⟩ := value_of_text_singleton htext.symm
  rw [toNat_ofNat_of_lt x.isLt] at hmagnitude
  rw [unsignedValue, if_neg (by simp [hsign])] at hvalue
  omega

end

/-- What is printed of a value parses to the value again, except for the integers of 8 bits, for
which it never does. -/
theorem parseValue_print_iff {types : UserTypes Tag} {ty : ValueType Tag}
    (hlibrary : ∀ tag, ty ≠ .other tag) (x : ty.Carrier types) :
    ty.parseValue types (ty.print types x) = some x ↔ ¬ ty.IsByte := by
  cases ty with
  | bool =>
      have hflags : ∀ x : Bool, parseFlag (if x then "1" else "0") = some x := by decide
      exact iff_of_true (hflags x) id
  | char => exact iff_of_true (accepted_eq_some_iff.mpr (parseChar_printCharacter _ _)) id
  | signed w =>
      change accepted (parseSigned (if w = .w8 then printCharacter x else toString (BitVec.toInt x))
        0) = some x ↔ ¬ w = .w8
      split
      · next hw =>
        subst hw
        refine iff_of_false ?_ (· rfl)
        exact mt accepted_eq_some_iff.mp (not_parseSigned_printCharacter _ _)
      · next hw =>
        exact iff_of_true (accepted_eq_some_iff.mpr (parseSigned_toString_toInt _ _)) hw
  | unsigned w =>
      change accepted (parseUnsigned
        (if w = .w8 then printCharacter x else toString (BitVec.toNat x)) 0) = some x ↔ ¬ w = .w8
      split
      · next hw =>
        subst hw
        refine iff_of_false ?_ (· rfl)
        exact mt accepted_eq_some_iff.mp (not_parseUnsigned_printCharacter _ _)
      · next hw =>
        exact iff_of_true (accepted_eq_some_iff.mpr (parseUnsigned_toString_toNat _ _)) hw
  | string => exact iff_of_true rfl id
  | other tag => exact absurd rfl (hlibrary tag)

/-! ## Descriptors -/

/-- The members of a `ValueDescriptor<T>`. -/
structure TypedDescriptor (types : UserTypes Tag) (ty : ValueType Tag) where
  userFriendlyName : String := "value"
  defaultValue : Option (ty.Carrier types × String) := none
  implicitValue : Option (ty.Carrier types × String) := none
  repeatable : Bool := false

namespace TypedDescriptor

variable {types : UserTypes Tag} {ty : ValueType Tag}

/-- The member functions that configure it. -/
inductive Method (types : UserTypes Tag) (ty : ValueType Tag)
  | userFriendlyName (name : String)
  | defaultValue (value : ty.Carrier types)
  | defaultValueAs (value : ty.Carrier types) (textual : String)
  | implicitValue (value : ty.Carrier types)
  | implicitValueAs (value : ty.Carrier types) (textual : String)
  | repeatable

/-- A call of one of them. -/
def call (d : TypedDescriptor types ty) : Method types ty → TypedDescriptor types ty
  | .userFriendlyName name => { d with userFriendlyName := name }
  | .defaultValue value => { d with defaultValue := some (value, ty.print types value) }
  | .defaultValueAs value textual => { d with defaultValue := some (value, textual) }
  | .implicitValue value => { d with implicitValue := some (value, ty.print types value) }
  | .implicitValueAs value textual => { d with implicitValue := some (value, textual) }
  | .repeatable => { d with repeatable := true }

/-- `WithValue<T>`, which gives a flag an implicit value. -/
def withValue (types : UserTypes Tag) : (ty : ValueType Tag) → TypedDescriptor types ty
  | .bool => { implicitValue := some (true, "true") }
  | _ => {}

end TypedDescriptor

/-! ## Texts of defaults -/

namespace TypedDescriptor

variable {types : UserTypes Tag} {ty : ValueType Tag}

/-- The texts that go with its values parse to them. -/
structure Legible (d : TypedDescriptor types ty) : Prop where
  default : ∀ value text, d.defaultValue = some (value, text) →
    ty.parseValue types text = some value
  implicit : ∀ value text, d.implicitValue = some (value, text) →
    ty.parseValue types text = some value

/-- A text that is given with a value parses to it. -/
def Method.TextFits : Method types ty → Prop
  | .defaultValueAs value textual | .implicitValueAs value textual =>
      ty.parseValue types textual = some value
  | .userFriendlyName _ | .defaultValue _ | .implicitValue _ | .repeatable => True

/-- A call that leaves it to `operator<<` to write the value. -/
def Method.Prints : Method types ty → Prop
  | .defaultValue _ | .implicitValue _ => True
  | .userFriendlyName _ | .defaultValueAs _ _ | .implicitValueAs _ _ | .repeatable => False

/-- A new descriptor has no text but the implicit `true` of a flag, which is read back. -/
theorem legible_withValue (types : UserTypes Tag) (ty : ValueType Tag) :
    (withValue types ty).Legible := by
  cases ty with
  | bool =>
      refine ⟨by simp [withValue], fun value text h => ?_⟩
      cases h
      exact (by decide : parseFlag "true" = some true)
  | _ => exact ⟨by simp [withValue], by simp [withValue]⟩

/-- A call keeps the texts legible, if the text that it is given fits or the one that it prints is
read back. -/
theorem Legible.call {d : TypedDescriptor types ty} (h : d.Legible) {next : Method types ty}
    (hfits : next.TextFits)
    (hprints : next.Prints → ∀ x, ty.parseValue types (ty.print types x) = some x) :
    (d.call next).Legible := by
  cases next with
  | userFriendlyName name => exact ⟨h.default, h.implicit⟩
  | repeatable => exact ⟨h.default, h.implicit⟩
  | defaultValue value =>
      refine ⟨fun value text heq => ?_, h.implicit⟩
      cases heq
      exact hprints trivial _
  | defaultValueAs value textual =>
      refine ⟨fun value text heq => ?_, h.implicit⟩
      cases heq
      exact hfits
  | implicitValue value =>
      refine ⟨h.default, fun value text heq => ?_⟩
      cases heq
      exact hprints trivial _
  | implicitValueAs value textual =>
      refine ⟨h.default, fun value text heq => ?_⟩
      cases heq
      exact hfits

/-- Any number of calls keep the texts legible, each under its own condition. -/
theorem legible_foldl {calls : List (Method types ty)} {d : TypedDescriptor types ty}
    (h : d.Legible) (hfits : ∀ next ∈ calls, next.TextFits)
    (hprints : ∀ next ∈ calls, next.Prints →
      ∀ x, ty.parseValue types (ty.print types x) = some x) :
    (calls.foldl call d).Legible := by
  induction calls generalizing d with
  | nil => exact h
  | cons next calls ih =>
      obtain ⟨hfits, hcalls⟩ := List.forall_mem_cons.mp hfits
      obtain ⟨hprints, hprintsCalls⟩ := List.forall_mem_cons.mp hprints
      exact ih (h.call hfits hprints) hcalls hprintsCalls

/-- A text that is printed and not read back stays with its value. -/
theorem not_legible_call {next : Method types ty} (hprints : next.Prints)
    (hbyte : ∀ x, ty.parseValue types (ty.print types x) ≠ some x) (d : TypedDescriptor types ty) :
    ¬ (d.call next).Legible := by
  intro h
  cases next with
  | defaultValue value => exact hbyte value (h.default _ _ rfl)
  | implicitValue value => exact hbyte value (h.implicit _ _ rfl)
  | _ => exact hprints

/-- **Texts of defaults**: whatever is called on the builder of a value of one of the library's own
types, the texts of its default and its implicit value parse to them, as long as those that are
given do; but what is printed of an integer of 8 bits never does. -/
theorem legible_of_calls (types : UserTypes Tag) (ty : ValueType Tag)
    (hlibrary : ∀ tag, ty ≠ .other tag) :
    (∀ calls : List (Method types ty), (∀ next ∈ calls, next.TextFits) →
      (ty.IsByte → ∀ next ∈ calls, ¬ next.Prints) →
      (calls.foldl call (withValue types ty)).Legible) ∧
    (ty.IsByte → ∀ calls : List (Method types ty), ∀ next, next.Prints →
      ¬ ((calls ++ [next]).foldl call (withValue types ty)).Legible) := by
  constructor
  · intro calls hfits hbyte
    refine legible_foldl (legible_withValue types ty) hfits ?_
    intro next hmem hprints x
    exact (parseValue_print_iff hlibrary x).mpr fun h => hbyte h next hmem hprints
  · intro hbyte calls next hprints
    rw [List.foldl_append]
    exact not_legible_call hprints
      (fun x hx => (parseValue_print_iff hlibrary x).mp hx hbyte) _

/-- A port, by default 8080. -/
theorem legible_of_calls_port :
    ([.defaultValue (8080 : BitVec 16), .repeatable].foldl call
      (withValue noTypes (.unsigned .w16))).Legible :=
  (legible_of_calls noTypes (.unsigned .w16) (by simp)).1 _ (by simp [Method.TextFits])
    (by simp [ValueType.IsByte])

end TypedDescriptor

/-! ## std::any -/

/-- A `std::any` with a value of one of the types. -/
abbrev AnyOf (types : UserTypes Tag) := Any (Σ ty : ValueType Tag, ty.Carrier types)

variable {types : UserTypes Tag}

/-- A value put into a `std::any`. -/
def ValueType.any (types : UserTypes Tag) :
    (ty : ValueType Tag) → ty.Carrier types → AnyOf types
  | .bool => .flag
  | .string => .text
  | ty => fun x => .other ⟨ty, x⟩

/-- What is in a `std::any`, with its type. -/
def Any.content : AnyOf types → Σ ty : ValueType Tag, ty.Carrier types
  | .flag value => ⟨.bool, value⟩
  | .text value => ⟨.string, value⟩
  | .other content => content

@[simp] theorem content_any (ty : ValueType Tag) (x : ty.Carrier types) :
    (ty.any types x).content = ⟨ty, x⟩ := by
  cases ty <;> rfl

section

variable [DecidableEq Tag]

/-- `std::any_cast`, which throws for any other type. -/
def Any.cast? (ty : ValueType Tag) (value : AnyOf types) : Option (ty.Carrier types) :=
  if h : value.content.1 = ty then some (h ▸ value.content.2) else none

/-- `GetAs`. -/
def OptionValue.getAs (ty : ValueType Tag) (v : OptionValue (AnyOf types)) :
    Option (ty.Carrier types) := v.value.cast? ty

/-- What is put into a `std::any` comes out of it as what it was, and as nothing else. -/
theorem cast?_any (ty ty' : ValueType Tag) (x : ty.Carrier types) :
    (ty.any types x).cast? ty' = if h : ty = ty' then some (h ▸ x) else none := by
  unfold Any.cast?
  rw [content_any]

@[simp] theorem cast?_any_self (ty : ValueType Tag) (x : ty.Carrier types) :
    (ty.any types x).cast? ty = some x := by
  simp [cast?_any]

end

/-! ## Options of a type -/

namespace TypedDescriptor

variable {ty : ValueType Tag}

/-- What the parser sees of it, through the interface `ValueSemantics`. -/
def toSemantics (d : TypedDescriptor types ty) : ValueSemantics (AnyOf types) where
  userFriendlyName := d.userFriendlyName
  isFlag := ty.isBool
  defaultValue := d.defaultValue.map fun p => (ty.any types p.1, p.2)
  implicitValue := d.implicitValue.map fun p => (ty.any types p.1, p.2)
  repeatable := d.repeatable
  parseValue := fun token => (ty.parseValue types token).map (ty.any types)

/-- The call as it changes the option that is built. -/
def Method.toCall : Method types ty → OptionBuilder.Call (AnyOf types)
  | .userFriendlyName name => .valueName name
  | .defaultValue value => .defaultValue (ty.any types value) (ty.print types value)
  | .defaultValueAs value textual => .defaultValue (ty.any types value) textual
  | .implicitValue value => .implicitValue (ty.any types value) (ty.print types value)
  | .implicitValueAs value textual => .implicitValue (ty.any types value) textual
  | .repeatable => .repeatable

/-- A call on the builder of the value is one on the descriptor that the option has. -/
theorem valueSemantic_call {o : ClapOption (AnyOf types)} {d : TypedDescriptor types ty}
    (h : o.valueSemantic = some d.toSemantics) (next : Method types ty) :
    (OptionBuilder.call o next.toCall).valueSemantic = some (d.call next).toSemantics := by
  cases next <;> simp [OptionBuilder.call, Method.toCall, call, toSemantics, h]

end TypedDescriptor

/-- The option has a `ValueDescriptor<T>`. -/
def ClapOption.HasType (ty : ValueType Tag) (o : ClapOption (AnyOf types)) : Prop :=
  ∃ d : TypedDescriptor types ty, o.valueSemantic = some d.toSemantics

/-- A call behind `WithValue<T>`. -/
inductive TypedCall (types : UserTypes Tag) (ty : ValueType Tag)
  | option (next : OptionBuilder.Call (AnyOf types)) (onOption : next.onOption = true)
  | value (next : TypedDescriptor.Method types ty)

/-- The call on the builder of the option. -/
def TypedCall.toCall {ty : ValueType Tag} : TypedCall types ty → OptionBuilder.Call (AnyOf types)
  | .option next _ => next
  | .value next => next.toCall

/-- The call on the descriptor, if it is one. -/
def TypedCall.method? {ty : ValueType Tag} :
    TypedCall types ty → Option (TypedDescriptor.Method types ty)
  | .option _ _ => none
  | .value next => some next

/-- After any number of calls the option has the descriptor that the calls on it make, the others
left out. -/
theorem valueSemantic_foldl {ty : ValueType Tag} {o : ClapOption (AnyOf types)}
    {d : TypedDescriptor types ty} (h : o.valueSemantic = some d.toSemantics)
    (calls : List (TypedCall types ty)) :
    ((calls.map TypedCall.toCall).foldl OptionBuilder.call o).valueSemantic =
      some ((calls.filterMap TypedCall.method?).foldl TypedDescriptor.call d).toSemantics := by
  induction calls generalizing o d with
  | nil => exact h
  | cons next calls ih =>
      rw [List.map_cons, List.foldl_cons]
      cases next with
      | option next onOption =>
          refine ih ?_
          cases next <;> first | exact h | cases onOption
      | value next => exact ih (TypedDescriptor.valueSemantic_call h next)

/-- An option that is built with `WithValue<T>`.  The texts that are given parse to their values, and
so do those that are printed. -/
inductive ClapOption.BuiltWith (types : UserTypes Tag) (ty : ValueType Tag) :
    ClapOption (AnyOf types) → Prop
  | mk (key : String) (before : List (OptionBuilder.Call (AnyOf types)))
      (behind : List (TypedCall types ty))
      (fits : ∀ next ∈ behind.filterMap TypedCall.method?, next.TextFits)
      (prints : ∀ next ∈ behind.filterMap TypedCall.method?, next.Prints →
        ∀ x, ty.parseValue types (ty.print types x) = some x) :
      BuiltWith types ty (OptionBuilder.build key
        (before ++ .withValue (TypedDescriptor.withValue types ty).toSemantics ::
          behind.map TypedCall.toCall))

/-- What is built with `WithValue<T>` has a descriptor of `T`, and a legible one. -/
theorem ClapOption.BuiltWith.exists_descriptor {ty : ValueType Tag} {o : ClapOption (AnyOf types)}
    (h : o.BuiltWith types ty) :
    ∃ d : TypedDescriptor types ty, o.valueSemantic = some d.toSemantics ∧ d.Legible := by
  obtain ⟨key, before, behind, hfits, hprints⟩ := h
  refine ⟨(behind.filterMap TypedCall.method?).foldl TypedDescriptor.call
    (TypedDescriptor.withValue types ty), ?_, ?_⟩
  · rw [OptionBuilder.build, List.foldl_append, List.foldl_cons]
    exact valueSemantic_foldl rfl behind
  · exact TypedDescriptor.legible_foldl (TypedDescriptor.legible_withValue types ty) hfits hprints

end AsapClap
