import AsapClap.Command
import AsapClap.Contract
import Mathlib.Data.List.Induction

/-!
# AsapClap.Fluent

The builders of `fluent/` for options and commands, each as the calls that are made before
`Build`.
-/

namespace AsapClap

variable {V : Type}

/-! ## Options -/

namespace OptionBuilder

/-- The calls of an `OptionBuilder`, and behind `WithValue` those of an `OptionValueBuilder`. -/
inductive Call (V : Type)
  | short (shortName : String)
  | long (longName : String)
  | about (about : String)
  | required
  | userFriendlyName (name : String)
  /-- `WithValue`, with the descriptor of the value type as it is constructed -/
  | withValue (descriptor : ValueSemantics V)
  | valueName (name : String)
  | defaultValue (value : V) (textual : String)
  | implicitValue (value : V) (textual : String)
  | repeatable

/-- What a call makes of the option that is built. -/
def call (option : ClapOption V) : Call V → ClapOption V
  | .short shortName => { option with shortName }
  | .long longName => { option with longName }
  | .about about => { option with about }
  | .required => { option with required := true }
  | .userFriendlyName userFriendlyName => { option with userFriendlyName }
  | .withValue descriptor => { option with valueSemantic := some descriptor }
  | .valueName userFriendlyName =>
      { option with valueSemantic := option.valueSemantic.map ({ · with userFriendlyName }) }
  | .defaultValue value textual =>
      { option with
        valueSemantic := option.valueSemantic.map
          ({ · with defaultValue := some (value, textual) }) }
  | .implicitValue value textual =>
      { option with
        valueSemantic := option.valueSemantic.map
          ({ · with implicitValue := some (value, textual) }) }
  | .repeatable =>
      { option with valueSemantic := option.valueSemantic.map ({ · with repeatable := true }) }

/-- `Build`. -/
def build (key : String) (calls : List (Call V)) : ClapOption V := calls.foldl call { key }

/-- An option has value semantics if `WithValue` was called for it. -/
theorem isSome_valueSemantic_build (key : String) (calls : List (Call V)) :
    (build key calls).valueSemantic.isSome = true ↔
      ∃ descriptor, .withValue descriptor ∈ calls := by
  induction calls using List.reverseRecOn with
  | nil => simp [build]
  | append_singleton calls next ih =>
      have hstep : build key (calls ++ [next]) = call (build key calls) next := by
        simp [build]
      rw [hstep]
      cases next with
      | withValue descriptor => simp [call]
      | _ => simpa [call] using ih

end OptionBuilder

/-- The options that are added to a group. -/
def Options.ofAdds (label : String) (added : List (ClapOption V)) : Options V :=
  added.foldl Options.add { label }

theorem Options.options_ofAdds (label : String) (added : List (ClapOption V)) :
    (Options.ofAdds label added).options = added := by
  induction added using List.reverseRecOn with
  | nil => rfl
  | append_singleton added o ih =>
      have hstep : Options.ofAdds label (added ++ [o]) = (Options.ofAdds label added).add o := by
        simp [Options.ofAdds]
      rw [hstep, Options.add, ih]

/-! ## Commands -/

namespace CommandBuilder

/-- The calls of a `CommandBuilder`; a group is given with what has been added to it. -/
inductive Call (V : Type)
  | about (about : String)
  | withOptions (label : String) (added : List (ClapOption V)) (hidden : Bool)
  | withOption (option : ClapOption V)
  | withPositionalArguments (options : List (ClapOption V))

/-- What a call makes of the command that is built. -/
def call (command : Command V) : Call V → Command V
  | .about about => { command with about }
  | .withOptions label added hidden => command.withOptions (Options.ofAdds label added) hidden
  | .withOption option => command.withOption option
  | .withPositionalArguments options => command.withPositionalArguments options

/-- `Build`, where the constructor of the command does not throw. -/
def build (firstSegment : String) (otherSegments : List String) (calls : List (Call V)) :
    Except String (Command V) := do
  let command ← Command.new firstSegment otherSegments
  return calls.foldl call command

/-- The options added by a call. -/
def Call.added : Call V → List (ClapOption V)
  | .withOptions _ added _ => added
  | .withOption option => [option]
  | .about _ | .withPositionalArguments _ => []

/-- The calls with which a command was built. -/
def Builds (calls : List (Call V)) (command : Command V) : Prop :=
  ∃ firstSegment otherSegments, build firstSegment otherSegments calls = .ok command

/-- A call adds its options to those there are, at one end or the other. -/
theorem perm_options_call (command : Command V) (next : Call V) :
    (call command next).options.Perm (command.options ++ next.added) := by
  cases next with
  | about about => simp [call, Call.added]
  | withOptions label added hidden =>
      simp [call, Call.added, Command.withOptions, Options.options_ofAdds]
  | withOption option =>
      rw [call, Command.withOption, Call.added]
      split
      · exact (List.perm_append_singleton ..).symm
      · exact List.Perm.refl _
  | withPositionalArguments options => simp [call, Call.added, Command.withPositionalArguments]

theorem perm_options_foldl (calls : List (Call V)) (command : Command V) :
    (calls.foldl call command).options.Perm (command.options ++ calls.flatMap Call.added) := by
  induction calls generalizing command with
  | nil => simp
  | cons next calls ih =>
      rw [List.foldl_cons, List.flatMap_cons, ← List.append_assoc]
      exact (ih _).trans ((perm_options_call command next).append_right _)

/-- A command has the options that were added to it, each as often as it was. -/
theorem perm_options_of_builds {calls : List (Call V)} {command : Command V}
    (h : Builds calls command) : command.options.Perm (calls.flatMap Call.added) := by
  obtain ⟨firstSegment, otherSegments, hbuild⟩ := h
  obtain ⟨base, hnew, hcommand⟩ := bind_eq_ok.mp hbuild
  cases hcommand
  have hbase : base.options = [] := by
    rw [Command.new] at hnew
    split at hnew <;> cases hnew
    rfl
  simpa [hbase] using perm_options_foldl calls base

end CommandBuilder

end AsapClap
