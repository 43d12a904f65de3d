import AsapClap.Library.Multimap

/-!
# AsapClap.Option

Options and their values: `value_semantics.h`, `detail/value_descriptor.h`,
`option.h`, `option_value.h` and `option_values_map.h`.

A `std::any` is a value of an arbitrary type `V`.  The class `Option` of the
sources is `ClapOption` here.
-/

namespace AsapClap

variable {V : Type}

/-! ## Value semantics -/

/-- The members of a `ValueDescriptor`, the one implementation of
`ValueSemantics`; `parseValue` is the `detail::ParseValue` of its type. -/
structure ValueSemantics (V : Type) where
  userFriendlyName : String := "value"
  isFlag : Bool := false
  /-- `default_value_` and `default_value_as_text_` -/
  defaultValue : Option (V × String) := none
  /-- `implicit_value_` and `implicit_value_as_text_` -/
  implicitValue : Option (V × String) := none
  repeatable : Bool := false
  parseValue : String → Option V

namespace ValueSemantics

def isRepeatable (s : ValueSemantics V) : Bool := s.repeatable

def isRequired (s : ValueSemantics V) : Bool := s.implicitValue.isNone

/-- `Parse`: the value to store, when the token parses. -/
def parse (s : ValueSemantics V) (token : String) : Option V := s.parseValue token

/-- `ApplyDefault`: the value and its text, when there is a default. -/
def applyDefault (s : ValueSemantics V) : Option (V × String) := s.defaultValue

/-- `ApplyImplicit`: the value and its text, when there is an implicit value. -/
def applyImplicit (s : ValueSemantics V) : Option (V × String) := s.implicitValue

/-- The semantics of `std::string`, to which every token parses as it is. -/
def text : ValueSemantics String := { parseValue := some }

end ValueSemantics

/-! ## Options -/

/-- `Option` of `option.h`; `valueSemantic` is empty for an option that was
built without `WithValue`. -/
structure ClapOption (V : Type) where
  key : String
  shortName : String := ""
  longName : String := ""
  about : String := ""
  userFriendlyName : String := ""
  required : Bool := false
  valueSemantic : Option (ValueSemantics V) := none

namespace ClapOption

/-- `Option::key_rest`. -/
def keyRest : String := "_REST_"

/-- `UserFriendlyName()`, which falls back on the key. -/
def displayName (o : ClapOption V) : String :=
  if o.userFriendlyName ≠ "" then o.userFriendlyName else o.key

def isRequired (o : ClapOption V) : Bool := o.required

def isPositional (o : ClapOption V) : Bool := o.longName.isEmpty && o.shortName.isEmpty

def isPositionalRest (o : ClapOption V) : Bool := o.isPositional && o.key == keyRest

end ClapOption

/-- `Options` of `option.h`, a labelled group. -/
structure Options (V : Type) where
  label : String
  options : List (ClapOption V) := []

/-- `Options::Add`. -/
def Options.add (g : Options V) (o : ClapOption V) : Options V :=
  { g with options := g.options ++ [o] }

/-! ## Values -/

/-- `OptionValue` of `option_value.h`. -/
structure OptionValue (V : Type) where
  value : V
  originalToken : String
  defaulted : Bool
  deriving DecidableEq

def OptionValue.isDefaulted (v : OptionValue V) : Bool := v.defaulted

/-- `OptionValuesMap` of `option_values_map.h`. -/
abbrev OptionValuesMap (V : Type) := Multimap String (OptionValue V)

namespace OptionValuesMap

/-- `StoreValue`. -/
def storeValue (ovm : OptionValuesMap V) (optionName : String) (newValue : OptionValue V) :
    OptionValuesMap V := ovm.store optionName newValue

/-- `HasOption`. -/
def hasOption (ovm : OptionValuesMap V) (optionName : String) : Bool := ovm.contains optionName

/-- `OccurrencesOf`. -/
def occurrencesOf (ovm : OptionValuesMap V) (optionName : String) : Nat :=
  (ovm.values optionName).length

/-- `ValuesOf`, which throws for a key that is not in the map. -/
def valuesOf? (ovm : OptionValuesMap V) (optionName : String) : Option (List (OptionValue V)) :=
  if ovm.contains optionName then some (ovm.values optionName) else none

theorem hasOption_iff {ovm : OptionValuesMap V} {k : String} :
    ovm.hasOption k = true ↔ ovm.values k ≠ [] := Multimap.contains_iff

theorem hasOption_eq_false_iff {ovm : OptionValuesMap V} {k : String} :
    ovm.hasOption k = false ↔ ovm.values k = [] := Multimap.contains_eq_false_iff

theorem occurrencesOf_pos_iff {ovm : OptionValuesMap V} {k : String} :
    0 < ovm.occurrencesOf k ↔ ovm.values k ≠ [] := List.length_pos_iff

end OptionValuesMap

end AsapClap
