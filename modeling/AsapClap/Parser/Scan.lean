import AsapClap.Library.LongestPrefix
import AsapClap.Parser.States

/-!
# AsapClap.Parser.Scan

The parser as one pass over the list of its tokens.  Nothing is handed from
state to state here: no event is issued again, no member of a state outlives the
state, and the tokens are a list instead of a lazy stream.  What is left is a
`Phase` and the shared context.

`AsapClap.Parser.Simulation` proves that `CmdLineParser::Parse` computes exactly
this pass; the results about the contents of a parse are proved of the pass.
-/

namespace AsapClap

namespace Parser

open Errors LongestPrefix

variable {V : Type}

/-! ## Phases -/

/-- Where the pass is between two tokens. -/
inductive Phase
  | start
  /-- these values are the beginning of the path of some command -/
  | naming (typed : List String)
  | ready
  /-- behind an option typed with its short name -/
  | short (value : Option String)
  /-- behind an option typed with its long name -/
  | long (value : Option String) (afterEqual : Bool)
  deriving DecidableEq, Repr

/-- Why a pass does not get to the end of its tokens. -/
inductive Stop (V : Type)
  | rejected (message : String) (context : ParserContext V)
  | faulted (fault : Fault)
  /-- a `--` was met: all that follows is ignored, the end of the input included -/
  | swallowed

/-- The last default command of the list. -/
def lastDefault (commands : List (Command V)) : Option (Command V) :=
  (commands.filter Command.isDefault).getLast?

/-- A computation of the states inside the pass. -/
def lift {α : Type} : Except Fault α → Except (Stop V) α
  | .ok a => .ok a
  | .error fault => .error (.faulted fault)

/-- A computation of the states with a status: an error rejects the command
line. -/
def accept : Except Fault (Status × ParserContext V) → Except (Stop V) (ParserContext V)
  | .ok (.terminateWithError message, context) => .error (.rejected message context)
  | .ok (_, context) => .ok context
  | .error fault => .error (.faulted fault)

section

variable {α : Type} {context : ParserContext V} {fault : Fault}

@[simp] theorem lift_ok (a : α) : lift (.ok a : Except Fault α) = (.ok a : Except (Stop V) α) := rfl

@[simp] theorem lift_eq_ok {x : Except Fault α} {a : α} :
    lift x = (.ok a : Except (Stop V) α) ↔ x = .ok a := by
  cases x <;> simp [lift]

@[simp] theorem lift_error :
    lift (.error fault : Except Fault α) = (.error (.faulted fault) : Except (Stop V) α) := rfl

@[simp] theorem accept_continue : accept (.ok (.continue_, context)) = .ok context := rfl

@[simp] theorem accept_terminateWithError (message : String) :
    accept (.ok (.terminateWithError message, context)) = .error (.rejected message context) := rfl

@[simp] theorem accept_error : accept (.error fault) = (.error (.faulted fault) :
    Except (Stop V) (ParserContext V)) := rfl

end

/-! ## One token -/

/-- Settle on a command: the one at the longest path among the values typed, or
else the default command, for which all of them are positional.  The `segments`
are what an error would show. -/
def select (typed segments : List String) (context : ParserContext V) :
    Except (Stop V) (ParserContext V) :=
  match longest Command.path context.commands typed, lastDefault context.commands with
  | some command, _ => .ok { context with activeCommand := some command }
  | none, some command =>
      .ok { context with
        activeCommand := some command
        positionalTokens := context.positionalTokens ++ typed }
  | none, none => .error (.rejected (unrecognizedCommand segments) context)

/-- A token once the command is known and no option waits for a value. -/
def dispatch (b : Build) (context : ParserContext V) :
    Token → Except (Stop V) (Phase × ParserContext V)
  | (.value, token) =>
      .ok (.ready, { context with positionalTokens := context.positionalTokens ++ [token] })
  | (.longOption, token) => do
      let context ← accept
        (enterOption b ("--" ++ token) (·.findLongOption token) token true context)
      return (.long none false, context)
  | (.equalSign, _) => do
      let message ← lift (optionSyntaxError context)
      .error (.rejected message context)
  | (.shortOption, token) | (.loneDash, token) => do
      let context ← accept
        (enterOption b ("-" ++ token) (·.findShortOption token) token true context)
      return (.short none, context)
  -- the end of the input is no token of the line
  | (.dashDash, _) | (.endOfInput, _) => .error .swallowed

/-- The first token of the line. -/
def begin (b : Build) (context : ParserContext V) :
    Token → Except (Stop V) (Phase × ParserContext V)
  | (.value, token) =>
      if InitialState.maybeCommand context token then .ok (.naming [token], context)
      else if context.activeCommand.isSome then dispatch b context (.value, token)
      else .error (.rejected (unrecognizedCommand [token]) context)
  | token =>
      if context.activeCommand.isSome then dispatch b context token
      else .error (.rejected (missingCommand context) context)

/-- A token behind the beginning of a path. -/
def continueNaming (b : Build) (typed : List String) (context : ParserContext V) :
    Token → Except (Stop V) (Phase × ParserContext V)
  | (.value, token) =>
      if candidates Command.path context.commands (typed ++ [token]) ≠ [] then
        .ok (.naming (typed ++ [token]), context)
      else do
        let context ← select typed (typed ++ [token]) context
        dispatch b context (.value, token)
  | token => do
      let context ← select typed typed context
      dispatch b context token

/-- A value behind an option: it is taken, or left to be positional when the
option makes do with its implicit value (`fallback` permitting). -/
def offer (b : Build) (option : ClapOption V) (semantics : ValueSemantics V) (taken : Phase)
    (fallback : Bool) (context : ParserContext V) (token : String) :
    Except (Stop V) (Phase × ParserContext V) :=
  match semantics.parse token, fallback, semantics.applyImplicit with
  | some value, _, _ => .ok (taken, context.storeValue option value token false)
  | none, true, some (value, valueAsText) =>
      dispatch b (context.storeValue option value valueAsText false) (.value, token)
  | none, _, _ => do
      let message ← lift (missingValueForOption context)
      .error (.rejected message context)

section

variable {b : Build} {option : ClapOption V} {semantics : ValueSemantics V} {taken : Phase}
  {fallback : Bool} {context : ParserContext V} {token valueAsText : String} {value : V}

/-- A value that parses is stored. -/
theorem offer_of_parse (hparse : semantics.parse token = some value) :
    offer b option semantics taken fallback context token =
      .ok (taken, context.storeValue option value token false) := by
  simp [offer, hparse]

/-- One that does not is dispatched behind the implicit value. -/
theorem offer_of_implicit (hparse : semantics.parse token = none)
    (himplicit : semantics.applyImplicit = some (value, valueAsText)) :
    offer b option semantics taken true context token =
      dispatch b (context.storeValue option value valueAsText false) (.value, token) := by
  simp [offer, hparse, himplicit]

/-- Without an implicit value the option lacks its own. -/
theorem offer_of_missing (hparse : semantics.parse token = none)
    (hmissing : fallback = false ∨ semantics.applyImplicit = none) :
    offer b option semantics taken fallback context token = (do
      let message ← lift (missingValueForOption context)
      .error (.rejected message context)) := by
  obtain rfl | himplicit := hmissing
  · simp [offer, hparse]
  · cases fallback <;> simp [offer, hparse, himplicit]

end

/-- A token behind an option typed with its short name. -/
def continueShort (b : Build) (value : Option String) (context : ParserContext V) :
    Token → Except (Stop V) (Phase × ParserContext V)
  | (.value, token) => do
      let (option, semantics?) ← lift (activeSemantics b context)
      if value.isSome then dispatch b context (.value, token)
      else
        let semantics ← lift (deref semantics?)
        offer b option semantics (.short (some token)) true context token
  | token => do
      let context ← accept (leaveOption value context)
      dispatch b context token

/-- A token behind an option typed with its long name. -/
def continueLong (b : Build) (value : Option String) (afterEqual : Bool)
    (context : ParserContext V) : Token → Except (Stop V) (Phase × ParserContext V)
  | (.equalSign, _) => do
      let _ ← lift (activeSemantics b context)
      return (.long value true, context)
  | (.value, token) => do
      let (option, semantics?) ← lift (activeSemantics b context)
      if value.isSome then dispatch b context (.value, token)
      else if !afterEqual && !context.allowLongOptionValueWithNoEqual then
        let message ← lift (optionSyntaxError context
          ("option name must be followed by '=' sign because this option " ++
            "takes a value and does not have an implicit one"))
        .error (.rejected message context)
      else
        let semantics ← lift (deref semantics?)
        offer b option semantics (.long (some token) afterEqual) (!afterEqual) context token
  | token => do
      let context ← accept (leaveOption value context)
      dispatch b context token

/-- One token. -/
def advance (b : Build) : Phase → ParserContext V → Token →
    Except (Stop V) (Phase × ParserContext V)
  | .start, context, token => begin b context token
  | .naming typed, context, token => continueNaming b typed context token
  | .ready, context, token => dispatch b context token
  | .short value, context, token => continueShort b value context token
  | .long value afterEqual, context, token => continueLong b value afterEqual context token

/-- Behind the beginning of a path, a token that is no value settles the command. -/
theorem advance_naming_other {b : Build} {typed : List String} {context : ParserContext V}
    {token : Token} (hvalue : token.1 ≠ .value) :
    advance b (.naming typed) context token =
      select typed typed context >>= (dispatch b · token) := by
  obtain ⟨tokenType, text⟩ := token
  cases tokenType <;> first | rfl | exact absurd rfl hvalue

/-- Behind an option, a token that has nothing to do with it settles the option. -/
theorem advance_short_other {b : Build} {value : Option String} {context : ParserContext V}
    {token : Token} (hvalue : token.1 ≠ .value) :
    advance b (.short value) context token =
      accept (leaveOption value context) >>= (dispatch b · token) := by
  obtain ⟨tokenType, text⟩ := token
  cases tokenType <;> first | rfl | exact absurd rfl hvalue

/-- Any other token leaves the long option. -/
theorem advance_long_other {b : Build} {value : Option String} {afterEqual : Bool}
    {context : ParserContext V} {token : Token} (hvalue : token.1 ≠ .value)
    (hequal : token.1 ≠ .equalSign) :
    advance b (.long value afterEqual) context token =
      accept (leaveOption value context) >>= (dispatch b · token) := by
  obtain ⟨tokenType, text⟩ := token
  cases tokenType <;> first | rfl | exact absurd rfl hvalue | exact absurd rfl hequal

/-! ## The whole line -/

/-- The end of the tokens: the context with which `FinalState` is entered. -/
def finish (b : Build) : Phase → ParserContext V → Except (Stop V) (ParserContext V)
  | .start, context =>
      if context.activeCommand.isSome then .ok context
      else .error (.rejected (missingCommand context) context)
  | .naming typed, context => do
      let context' ← select typed typed context
      -- the fallback goes through `ParseOptionsState`, which does not expect the end of input
      if (longest Command.path context.commands typed).isNone then
        lift (b.expect .tokenIsNotEndOfInput false)
      return context'
  | .ready, context => .ok context
  | .short value, context => accept (leaveOption value context)
  | .long value _, context => accept (leaveOption value context)

/-- All tokens of a line, one after the other. -/
def scan (b : Build) : Phase → ParserContext V → List Token → Except (Stop V) (ParserContext V)
  | phase, context, [] => finish b phase context
  | phase, context, token :: tokens => do
      let (phase, context) ← advance b phase context token
      scan b phase context tokens

/-! ## Beginnings of lines -/

section

variable {b : Build}

/-- The tokens of the beginning of a line. -/
def advanceAll (b : Build) (p : Phase × ParserContext V) (tokens : List Token) :
    Except (Stop V) (Phase × ParserContext V) :=
  tokens.foldlM (fun p token => advance b p.1 p.2 token) p

theorem scan_cons (phase : Phase) (context : ParserContext V) (token : Token)
    (tokens : List Token) :
    scan b phase context (token :: tokens) =
      advance b phase context token >>= fun p => scan b p.1 p.2 tokens := rfl

/-- A line is scanned part by part. -/
theorem scan_append (phase : Phase) (context : ParserContext V) (tokens rest : List Token) :
    scan b phase context (tokens ++ rest) =
      advanceAll b (phase, context) tokens >>= fun p => scan b p.1 p.2 rest := by
  induction tokens generalizing phase context with
  | nil => rfl
  | cons token tokens ih =>
      rw [List.cons_append, scan_cons, advanceAll, List.foldlM_cons]
      cases advance b phase context token with
      | error stop => rfl
      | ok p => exact ih p.1 p.2

end

end Parser

end AsapClap
