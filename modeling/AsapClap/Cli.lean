import AsapClap.Any
import AsapClap.Parser
import AsapClap.Print

/-!
# AsapClap.Cli

The classes `Cli` and `CliBuilder` (`cli.{h,cpp}`, `fluent/cli_builder.{h,cpp}`): a list of
commands to which the commands `version` and `help` and the options `--version` and `--help`
can be added, and `Cli::Parse`, which answers them.
-/

namespace AsapClap

variable {V : Type}

/-- `Arguments` of `detail/args.h`, whose constructor ensures that there is a program name. -/
structure Arguments where
  programName : String
  args : List String
  programName_ne : programName ≠ ""

/-- `Cli`. -/
structure Cli (V : Type) where
  version : String := ""
  about : String := ""
  programName? : Option String := none
  commands : List (Command (Any V)) := []
  activeCommand : Option (Command (Any V)) := none
  ovm : OptionValuesMap (Any V) := ∅
  hasVersionCommand : Bool := false
  hasHelpCommand : Bool := false

namespace Cli

/-- `ProgramName()`. -/
def programName (cli : Cli V) : String := cli.programName?.getD ""

/-- What its commands read of it. -/
def parent (cli : Cli V) : ParentCli := { programName := cli.programName, about := cli.about }

/-- `WithCommand`, which puts a default command in front. -/
def withCommand (cli : Cli V) (command : Command (Any V)) : Cli V :=
  if command.isDefault then { cli with commands := command :: cli.commands }
  else { cli with commands := cli.commands ++ [command] }

/-- The command that `EnableVersionCommand` adds. -/
def versionCommand : Command (Any V) where
  about := "Display version information."
  path := [Command.version]
  path_ne_nil := by decide
  path_valid := by decide

/-- `EnableVersionCommand`. -/
def enableVersionCommand (cli : Cli V) : Cli V :=
  { cli with commands := cli.commands ++ [versionCommand], hasVersionCommand := true }

/-- The positional argument of the command `help`: the path to display help for. -/
def segments : ClapOption (Any V) where
  key := ClapOption.keyRest
  about := "The path segments (in the correct order) of the sub-command for which help " ++
    "information should be displayed."
  userFriendlyName := "SEGMENTS"
  valueSemantic := some .string

/-- The command that `EnableHelpCommand` adds. -/
def helpCommand (programName : String) : Command (Any V) where
  about := "Display detailed help information. `" ++ programName ++ " help` lists available " ++
    "sub-commands and a summary of what they do. See `" ++ programName ++ " help <command>` to " ++
    "get detailed help for a specific sub-command."
  path := [Command.help]
  positionalArgs := [segments]
  path_ne_nil := by decide
  path_valid := by decide

/-- `EnableHelpCommand`. -/
def enableHelpCommand (cli : Cli V) : Cli V :=
  { cli with commands := cli.commands ++ [helpCommand cli.programName], hasHelpCommand := true }

/-! ## Help and version -/

/-- `PrintDefaultCommand`. -/
def printDefaultCommand (wrap : Wrapping) (cli : Cli V) (width : Nat) : Except Fault String :=
  match cli.commands.find? Command.isDefault with
  | some command => command.print wrap cli.parent width
  | none => .ok ""

/-- `PrintCommands`. -/
def printCommands (wrap : Wrapping) (cli : Cli V) (width : Nat) : String :=
  "SUB-COMMANDS\n\n" ++
    String.join (cli.commands.map fun command =>
      if command.isDefault then ""
      else "   " ++ command.pathAsString ++ "\n" ++
        wrap.filled { width, initially := "     ", andThen := "     " } command.about ++ "\n\n")

/-- Where to look for more help. -/
def tryHelp (cli : Cli V) : String :=
  "Try '" ++ cli.programName ++ " --help' for more information."

/-- `HandleHelpCommand`. -/
def handleHelpCommand (wrap : Wrapping) (cli : Cli V) (context : CommandLineContext (Any V)) :
    Except Fault (CommandLineContext (Any V)) := do
  let activeCommand ← deref context.activeCommand
  if context.ovm.hasOption "help" then
    let text ← activeCommand.print wrap cli.parent 80
    return { context with out := context.out ++ text }
  else if activeCommand.pathAsString = "help" then
    match context.ovm.valuesOf? ClapOption.keyRest with
    | some values =>
        match values.mapM fun value => value.value.text? with
        | none => .error .badAnyCast
        | some commandPath =>
            match cli.commands.find? fun command => command.path = commandPath with
            | some command =>
                let text ← command.print wrap cli.parent 80
                return { context with out := context.out ++ text }
            | none =>
                return { context with
                  err := context.err ++ "The path `" ++ " ".intercalate commandPath ++
                    "` does not correspond to a known command.\n"
                  out := context.out ++ cli.tryHelp ++ "\n" }
    | none =>
        let text ← cli.printDefaultCommand wrap 80
        return { context with out := context.out ++ text ++ cli.printCommands wrap 80 }
  else return context

/-- `HandleVersionCommand`. -/
def handleVersionCommand (cli : Cli V) (context : CommandLineContext (Any V)) :
    CommandLineContext (Any V) :=
  { context with
    out := context.out ++ cli.programName ++ " version " ++ cli.version ++ "\n" ++ "\n" }

/-! ## Parsing -/

/-- How `Parse` of a CLI ends, if it does: it returns, it throws a
`CmdLineArgumentsError`, or it goes wrong. -/
inductive Outcome (V : Type)
  | returned (context : CommandLineContext (Any V))
  | threw (message : String) (context : CommandLineContext (Any V))
  | faulted (fault : Fault)

/-- The first argument, with the options for version and help turned into the commands. -/
def unifyFirst (cli : Cli V) : List String → List String
  | [] => []
  | first :: args =>
      (if cli.hasVersionCommand ∧ (first = Command.versionShort ∨ first = Command.versionLong) then
        Command.version
      else if cli.hasHelpCommand ∧ (first = Command.helpShort ∨ first = Command.helpLong) then
        Command.help
      else first) :: args

/-- What is left to do after a parse that succeeds. -/
def respond (wrap : Wrapping) (cli : Cli V) (context : CommandLineContext (Any V)) :
    Except Fault (CommandLineContext (Any V)) := do
  let command ← deref context.activeCommand
  if command.pathAsString = "help" ∨ context.ovm.hasOption "help" then
    cli.handleHelpCommand wrap context
  else if command.pathAsString = "version" then return cli.handleVersionCommand context
  else return context

/-- What `Parse` makes of the result of the parser. -/
def conclude (wrap : Wrapping) (cli : Cli V) : Parser.Result (Any V) → Outcome V
  | .faulted fault => .faulted fault
  | .returned true context =>
      match cli.respond wrap context.toCommandLineContext with
      | .ok context => .returned context
      | .error fault => .faulted fault
  | .returned false context =>
      .threw ("command line arguments parsing failed, try '" ++ cli.programName ++
          " --help' for more information.")
        { context.toCommandLineContext with
          out := context.out ++ (if cli.hasHelpCommand then cli.tryHelp ++ "\n" else "") }

/-- The program name, unless one was set. -/
def named (cli : Cli V) (arguments : Arguments) : Cli V :=
  { cli with programName? := cli.programName?.or (some arguments.programName) }

/-- The context of a parse. -/
def context (cli : Cli V) : CommandLineContext (Any V) :=
  { programName := cli.programName, activeCommand := cli.activeCommand, ovm := cli.ovm }

/-- `Parse` on these arguments ends like this. -/
def Parses (b : Build) (wrap : Wrapping) (cli : Cli V) (arguments : Arguments)
    (outcome : Outcome V) : Prop :=
  ∃ result, Parser.Parses b (cli.named arguments).context cli.commands
      (cli.unifyFirst arguments.args) result ∧
    (cli.named arguments).conclude wrap result = outcome

end Cli

/-! ## The builder -/

namespace CliBuilder

/-- The calls of a `CliBuilder` before `Build`. -/
inductive Call (V : Type)
  | version (version : String)
  | programName (name : String)
  | about (about : String)
  | withCommand (command : Command (Any V))
  | withVersionCommand
  | withHelpCommand

/-- What a call makes of the CLI that is built. -/
def call (cli : Cli V) : Call V → Cli V
  | .version version => { cli with version }
  | .programName name => { cli with programName? := some name }
  | .about about => { cli with about }
  | .withCommand command => cli.withCommand command
  | .withVersionCommand => cli.enableVersionCommand
  | .withHelpCommand => cli.enableHelpCommand

/-- The option that `AddHelpOptionToCommand` adds. -/
def helpOption (programName : String) : ClapOption (Any V) where
  key := "help"
  about := "Display detailed help information.\nNote that `" ++ programName ++ " --help` is " ++
    "identical to `" ++ programName ++ " help` because the former is internally converted into " ++
    "the latter."
  shortName := "h"
  longName := "help"
  valueSemantic := some .flag

/-- The option that `AddVersionOptionToCommand` adds. -/
def versionOption (programName : String) : ClapOption (Any V) where
  key := "version"
  about := "Display version information.\nNote that `" ++ programName ++ " --version` is " ++
    "identical to `" ++ programName ++ " version` because the former is internally converted " ++
    "into the latter."
  shortName := "v"
  longName := "version"
  valueSemantic := some .flag

/-- `AddHelpOptionToCommand`. -/
def addHelpOptionToCommand (cli : Cli V) (command : Command (Any V)) : Command (Any V) :=
  command.withOption (helpOption cli.programName)

/-- `AddVersionOptionToCommand`. -/
def addVersionOptionToCommand (cli : Cli V) (command : Command (Any V)) : Command (Any V) :=
  command.withOption (versionOption cli.programName)

/-- The options that `Build` adds to a command. -/
def upgrade (cli : Cli V) (command : Command (Any V)) : Command (Any V) :=
  let command := if cli.hasHelpCommand then addHelpOptionToCommand cli command else command
  if command.isDefault ∧ cli.hasVersionCommand then addVersionOptionToCommand cli command
  else command

/-- The setup `Build` does for the commands `version` and `help`.  The default command it
creates for a CLI without one has the program name in its path. -/
def setUp (cli : Cli V) : Except String (Cli V) :=
  if cli.hasHelpCommand ∨ cli.hasVersionCommand then
    let upgraded := { cli with commands := cli.commands.map (upgrade cli) }
    if cli.commands.any Command.isDefault then .ok upgraded
    else do
      let command ← Command.new cli.programName [Command.default]
      let command := if cli.hasHelpCommand then addHelpOptionToCommand cli command else command
      let command :=
        if cli.hasVersionCommand then addVersionOptionToCommand cli command else command
      return upgraded.withCommand command
  else .ok cli

/-- `Build`, which throws where a command cannot be constructed. -/
def build (calls : List (Call V)) : Except String (Cli V) := do
  let cli ← setUp (calls.foldl call {})
  return { cli with commands := cli.commands.map fun c => { c with hasParentCli := true } }

end CliBuilder

end AsapClap
