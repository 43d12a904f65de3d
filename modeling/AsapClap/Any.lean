import AsapClap.Option

/-!
# AsapClap.Any

The values of the options that a CLI declares by itself: a `std::any` that holds a
flag, a string or something of the user's, and `ParseValue` of `detail/parse_value.h`
for flags and strings.
-/

namespace AsapClap

variable {V : Type}

/-- A `std::any`. -/
inductive Any (V : Type)
  | flag (value : Bool)
  | text (value : String)
  | other (value : V)
  deriving DecidableEq

/-- `GetAs<std::string>`, which throws for any other type. -/
def Any.text? : Any V → Option String
  | .text value => some value
  | _ => none

/-! ## Flags -/

/-- The value of a number, or the exception that is thrown. -/
inductive Number
  | value (n : Int)
  | invalidArgument
  | outOfRange
  deriving DecidableEq, Repr

/-- The sign in front of a number. -/
def takeSign : List Char → Bool × List Char
  | '-' :: cs => (true, cs)
  | '+' :: cs => (false, cs)
  | cs => (false, cs)

/-- `std::stoll`, which skips white space and ignores what is behind the digits. -/
def stoll (input : String) : Number :=
  let (negative, cs) :=
    takeSign (input.toList.dropWhile fun c => c ∈ [' ', '\t', '\n', '\x0b', '\x0c', '\r'])
  let digits := cs.takeWhile Char.isDigit
  if digits.isEmpty then .invalidArgument
  else
    let magnitude := digits.foldl (fun n c => 10 * n + (c.toNat - '0'.toNat)) 0
    let n : Int := if negative then -magnitude else magnitude
    if Int64.minValue.toInt ≤ n ∧ n ≤ Int64.maxValue.toInt then .value n else .outOfRange

/-- `ToLower` of `string_utils.h`. -/
def toLower (str : String) : String := String.ofList (str.toList.map Char.toLower)

/-- `StringToFlagValue`. -/
def stringToFlagValue (val : String) : Number :=
  let val := toLower val
  match val.toList with
  | [c] =>
      if '1' ≤ c ∧ c ≤ '9' then .value (c.toNat - '0'.toNat : Nat)
      else if c ∈ ['0', 'f', 'n', '-'] then .value (-1)
      else if c ∈ ['t', 'y', '+'] then .value 1
      else .invalidArgument
  | _ =>
      if val ∈ ["true", "on", "yes", "enable"] then .value 1
      else if val ∈ ["false", "off", "no", "disable"] then .value (-1)
      else stoll val

/-- `ParseValue` of a `bool`: of a number, only the sign matters. -/
def parseFlag (input : String) : Option Bool :=
  match stringToFlagValue input with
  | .value n => some (decide (0 < n))
  | .invalidArgument => none
  | .outOfRange => some (input.toList.head? ≠ some '-')

example : ["on", "No", "7", "-3 apples", "maybe"].map parseFlag =
    [some true, some false, some true, some false, none] := by decide

namespace ValueSemantics

/-- `WithValue<bool>()`, which comes with an implicit value. -/
def flag : ValueSemantics (Any V) where
  isFlag := true
  implicitValue := some (.flag true, "true")
  parseValue := fun token => (parseFlag token).map .flag

/-- `WithValue<std::string>()`, to which every token parses. -/
def string : ValueSemantics (Any V) := { parseValue := fun token => some (.text token) }

end ValueSemantics

end AsapClap
