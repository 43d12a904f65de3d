import AsapClap.Option
import Mathlib.Data.List.Basic

/-!
# AsapClap.Command

The class `Command` of `command.h` and `command.cpp`: a command mounted at a
path, its options and its positional arguments.

The constructor rejects an empty segment in a path of several segments, so a
`Command` carries that its path could be constructed.
-/

namespace AsapClap

variable {V : Type}

/-- `Command`. -/
structure Command (V : Type) where
  about : String := ""
  path : List String
  options : List (ClapOption V) := []
  optionsInGroups : List Bool := []
  groups : List (Options V × Bool) := []
  positionalArgs : List (ClapOption V) := []
  /-- whether `parent_cli_` is set -/
  hasParentCli : Bool := false
  path_ne_nil : path ≠ []
  path_valid : "" ∈ path → path.length = 1

namespace Command

/-- `Command::DEFAULT`. -/
def default : String := ""

/-- `Command::VERSION`, with its long and short forms. -/
def version : String := "version"

def versionLong : String := "--version"

def versionShort : String := "-v"

/-- `Command::HELP`, with its long and short forms. -/
def help : String := "help"

def helpLong : String := "--help"

def helpShort : String := "-h"

/-- The constructor, which throws `std::domain_error` for an empty segment among
several. -/
def new (firstSegment : String) (otherSegments : List String) : Except String (Command V) :=
  if h : "" ∈ firstSegment :: otherSegments → (firstSegment :: otherSegments).length = 1 then
    .ok { path := firstSegment :: otherSegments, path_ne_nil := by simp, path_valid := h }
  else .error "default command can only have one path segment (an empty string)"

/-- A default command, as it is constructed. -/
def plainDefault : Command V where
  path := [default]
  path_ne_nil := by decide
  path_valid := by decide

/-- `IsDefault()`. -/
def isDefault (c : Command V) : Bool := c.path.length == 1 && c.path.head c.path_ne_nil == ""

/-- `PathAsString()`. -/
def pathAsString (c : Command V) : String := " ".intercalate c.path

/-- `FindShortOption`. -/
def findShortOption (c : Command V) (name : String) : Option (ClapOption V) :=
  c.options.find? fun option => option.shortName == name

/-- `FindLongOption`. -/
def findLongOption (c : Command V) (name : String) : Option (ClapOption V) :=
  c.options.find? fun option => option.longName == name

/-- `WithOptions`. -/
def withOptions (c : Command V) (options : Options V) (hidden : Bool) : Command V :=
  { c with
    options := c.options ++ options.options
    optionsInGroups := c.optionsInGroups ++ options.options.map fun _ => true
    groups := c.groups ++ [(options, hidden)] }

/-- `WithOption`, which puts the options `help` and `version` in front. -/
def withOption (c : Command V) (option : ClapOption V) : Command V :=
  if option.key = help ∨ option.key = version then
    { c with options := option :: c.options, optionsInGroups := false :: c.optionsInGroups }
  else
    { c with options := c.options ++ [option], optionsInGroups := c.optionsInGroups ++ [false] }

/-- `WithPositionalArguments`. -/
def withPositionalArguments (c : Command V) (options : List (ClapOption V)) : Command V :=
  { c with positionalArgs := c.positionalArgs ++ options }

variable {c : Command V}

/-! ## The default command -/

theorem isDefault_iff : c.isDefault = true ↔ c.path = [""] := by
  obtain ⟨segment, path, hpath⟩ := List.exists_cons_of_ne_nil c.path_ne_nil
  simp [isDefault, hpath, and_comm]

/-- Segments without an empty one among them never start with the path of the
default command. -/
theorem not_isDefault_of_path_typed {typed : List String} (h : c.path <+: typed)
    (htyped : "" ∉ typed) : c.isDefault = false := by
  rw [← Bool.not_eq_true, isDefault_iff]
  intro hpath
  exact htyped (h.subset (by simp [hpath]))

end Command

end AsapClap
