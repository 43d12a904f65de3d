import AsapClap.Command
import AsapClap.Contract

/-!
# AsapClap.Parser.Context

The context that the states of the parser share (`command_line_context.h`,
`parser/context.h`) and the error messages they report from it
(`detail/errors.cpp`).

`active_command` and `ovm` are references to members of the `Cli`; here they are
fields of the context, handed in and handed back.
-/

namespace AsapClap

variable {V : Type}

/-- `CommandLineContext`. -/
structure CommandLineContext (V : Type) where
  allowLongOptionValueWithNoEqual : Bool := true
  /-- what was written to `out_` -/
  out : String := ""
  /-- what was written to `err_` -/
  err : String := ""
  programName : String
  activeCommand : Option (Command V) := none
  ovm : OptionValuesMap V := ∅

/-- `ParserContext`. -/
structure ParserContext (V : Type) extends CommandLineContext V where
  commands : List (Command V)
  activeOption : Option (ClapOption V) := none
  activeOptionFlag : String := ""
  positionalTokens : List String := []

namespace ParserContext

/-- `ParserContext::New`. -/
def new (base : CommandLineContext V) (cliCommands : List (Command V)) : ParserContext V :=
  { base with commands := cliCommands }

/-- Store one value for an option. -/
def storeValue (context : ParserContext V) (option : ClapOption V) (value : V)
    (originalToken : String) (defaulted : Bool) : ParserContext V :=
  { context with
    ovm := context.ovm.storeValue option.key ⟨value, originalToken, defaulted⟩ }

end ParserContext

namespace Errors

/-! ## Error messages -/

/-- `AppendOptionalMessage`. -/
def appendOptionalMessage (description message : String) : String :=
  if message = "" then description ++ "." else description ++ " - " ++ message ++ "."

/-- `CommandDiagnostic`. -/
def commandDiagnostic : Option (Command V) → String
  | none => ""
  | some command =>
      if command.isDefault then "" else "while parsing command '" ++ command.pathAsString ++ "',"

/-- `UnrecognizedCommand`. -/
def unrecognizedCommand (pathSegments : List String) (message : String := "") : String :=
  appendOptionalMessage
    ("Unrecognized command with path '" ++ " ".intercalate pathSegments ++ "'") message

/-- `MissingCommand`. -/
def missingCommand (context : ParserContext V) (message : String := "") : String :=
  appendOptionalMessage
    ("You must specify a command. Supported commands are: " ++
      ", ".intercalate (context.commands.map fun command => "'" ++ command.pathAsString ++ "'"))
    message

/-- `UnrecognizedOption`. -/
def unrecognizedOption (context : ParserContext V) (token : String) (message : String := "") :
    String :=
  let optionName := if token.length = 1 then "-" ++ token else "--" ++ token
  appendOptionalMessage
    (commandDiagnostic context.activeCommand ++ " '" ++ optionName ++
      "' is not a recognized option") message

/-- `IllegalMultipleOccurrence`, which reads the value the option already has. -/
def illegalMultipleOccurrence (b : Build) (context : ParserContext V) (message : String := "") :
    Except Fault String := do
  b.expect .hasActiveOption context.activeOption.isSome
  let option ← deref context.activeOption
  b.expect .hasOccurrences (decide (0 < context.ovm.occurrencesOf option.key))
  match context.ovm.valuesOf? option.key with
  | none => .error .outOfRange
  | some [] => .error .emptyVector
  | some (value :: _) =>
      return appendOptionalMessage
        (commandDiagnostic context.activeCommand ++ " new occurrence for option '" ++ option.key ++
          "' as '" ++ context.activeOptionFlag ++
          "' is illegal; it can only be used one time and it appeared before with value '" ++
          value.originalToken ++ "'") message

/-- `OptionSyntaxError`. -/
def optionSyntaxError (context : ParserContext V) (message : String := "") :
    Except Fault String := do
  let option ← deref context.activeOption
  return appendOptionalMessage
    (commandDiagnostic context.activeCommand ++ " option '" ++ option.key ++
      "' is using an invalid syntax") message

/-- `MissingValueForOption`. -/
def missingValueForOption (context : ParserContext V) (message : String := "") :
    Except Fault String := do
  let option ← deref context.activeOption
  return appendOptionalMessage
    (commandDiagnostic context.activeCommand ++ " option '" ++ option.key ++ "' seen as '" ++
      context.activeOptionFlag ++ "' has no value on the command line and no implicit one") message

/-- `InvalidValueForOption`. -/
def invalidValueForOption (context : ParserContext V) (token : String) (message : String := "") :
    Except Fault String := do
  let option ← deref context.activeOption
  return appendOptionalMessage
    (commandDiagnostic context.activeCommand ++ " option '" ++ option.key ++ "' seen as '" ++
      context.activeOptionFlag ++ "', got value token '" ++ token ++
      "' which failed to parse to type " ++ "<TODO: TYPE NAME>" ++
      ", and the option has no implicit value") message

/-- `MissingRequiredOption`. -/
def missingRequiredOption (command : Option (Command V)) (option : ClapOption V)
    (message : String := "") : String :=
  appendOptionalMessage
    (commandDiagnostic command ++ " no " ++
      (if option.isPositional then "positional argument" else "option") ++ " '" ++
      option.displayName ++ "' was specified. It is required and does not have a default value")
    message

/-- `UnexpectedPositionalArguments`. -/
def unexpectedPositionalArguments (context : ParserContext V) (message : String := "") : String :=
  appendOptionalMessage
    (commandDiagnostic context.activeCommand ++ " argument" ++
      (if 1 < context.positionalTokens.length then "s" else "") ++ " '" ++
      ", ".intercalate context.positionalTokens ++ "' " ++
      (if 1 < context.positionalTokens.length then "are" else "is") ++
      " not expected by any option") message

end Errors

end AsapClap
