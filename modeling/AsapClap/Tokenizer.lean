import AsapClap.Library.Fsm

/-!
# AsapClap.Tokenizer

The tokenizer of `clap/src/parser/tokenizer.{h,cpp}`: a seven-state machine over
the characters of one argument, emitting typed tokens into a queue, and the
lazy stream of tokens that `NextToken` reads from that queue and from the
arguments not yet tokenized.

`std::string` is `String`; a C++ `char` is a `Char`.
-/

namespace AsapClap

/-- `TokenType` of `tokenizer.h`. -/
inductive TokenType
  | shortOption
  | longOption
  | loneDash
  | dashDash
  | value
  | equalSign
  | endOfInput
  deriving DecidableEq, Repr

/-- `Token` of `tokenizer.h`, a pair of a type and a text. -/
abbrev Token := TokenType × String

/-- A token is its type and some text. -/
theorem Token.exists_text {token : Token} {tokenType : TokenType} (h : token.1 = tokenType) :
    ∃ text, token = (tokenType, text) :=
  ⟨token.2, Prod.ext h rfl⟩

namespace Tokenizer

/-! ## The character machine -/

/-- The states of the machine, one C++ class each. -/
inductive State
  | initialState
  | valueState
  | optionState
  | shortOptionState
  | dashDashState
  | longOptionState
  | finalState
  deriving DecidableEq, Repr

/-- The events of the machine. -/
inductive Event
  | inputChar (value : Char)
  | inputEnd
  deriving DecidableEq, Repr

/-- The members of the state objects, and the token queue they append to
through the `TokenConsumer` they share. -/
structure Data where
  /-- `ValueState::token_` -/
  valueToken : String := ""
  /-- `LongOptionState::token_` -/
  longToken : String := ""
  /-- `LongOptionState::after_equal_sign` -/
  afterEqualSign : Bool := false
  tokens : List Token := []
  deriving DecidableEq, Repr

/-- `consume_token_`, the callback `Tokenize` hands to every state. -/
def Data.consumeToken (d : Data) (tokenType : TokenType) (token : String) : Data :=
  { d with tokens := d.tokens ++ [(tokenType, token)] }

/-- The `Handle` members of the states. -/
def handle : State → Event → Data → Fsm.Action State × Data
  | .initialState, .inputChar c, d =>
      if c = '-' then (.transitionTo .optionState false, d)
      else (.transitionTo .valueState false, d)
  | .initialState, .inputEnd, d => (.transitionTo .finalState false, d)
  | .valueState, .inputChar c, d => (.doNothing, { d with valueToken := d.valueToken.push c })
  | .valueState, .inputEnd, d => (.transitionTo .finalState false, d)
  | .optionState, .inputChar c, d =>
      if c = '-' then (.transitionTo .dashDashState false, d)
      else (.transitionTo .shortOptionState false, d)
  | .optionState, .inputEnd, d => (.transitionTo .finalState false, d.consumeToken .loneDash "-")
  | .shortOptionState, .inputChar c, d =>
      (.doNothing, d.consumeToken .shortOption (String.singleton c))
  | .shortOptionState, .inputEnd, d => (.transitionTo .finalState false, d)
  | .dashDashState, .inputChar _, d => (.transitionTo .longOptionState false, d)
  | .dashDashState, .inputEnd, d => (.transitionTo .finalState false, d.consumeToken .dashDash "--")
  | .longOptionState, .inputChar c, d =>
      if c = '=' then
        (.doNothing, { (d.consumeToken .longOption d.longToken).consumeToken .equalSign "=" with
          afterEqualSign := true })
      else if d.afterEqualSign then (.transitionTo .valueState false, d)
      else (.doNothing, { d with longToken := d.longToken.push c })
  | .longOptionState, .inputEnd, d => (.transitionTo .finalState false, d)
  | .finalState, _, d => (.doNothing, d)

/-- The `OnLeave` members of the states; a state without one lets go. -/
def onLeave : State → Event → Data → Fsm.Status × Data
  | .valueState, .inputEnd, d => (.continue_, d.consumeToken .value d.valueToken)
  | .longOptionState, .inputEnd, d => (.continue_, d.consumeToken .longOption d.longToken)
  | .longOptionState, .inputChar _, d => (.continue_, { d with afterEqualSign := false })
  | _, _, d => (.continue_, d)

/-- The `OnEnter` members of the states. -/
def onEnter : State → Event → Bool → Data → Fsm.Status × Data
  | .valueState, .inputChar c, _, d => (.continue_, { d with valueToken := d.valueToken.push c })
  | .shortOptionState, .inputChar c, _, d =>
      (.continue_, d.consumeToken .shortOption (String.singleton c))
  | .longOptionState, .inputChar c, _, d => (.continue_, { d with longToken := d.longToken.push c })
  | _, _, _, d => (.continue_, d)

/-- The machine `Tokenize` makes for each argument. -/
def machine : Fsm.StateMachine Id State Event Data := { handle, onLeave, onEnter }

/-- `machine.Handle`, whose status `Tokenize` ignores. -/
def feed (p : State × Data) (e : Event) : State × Data := (Id.run (machine.step p.1 e p.2)).2

/-- The events an argument turns into. -/
def events (arg : String) : List Event := arg.toList.map .inputChar ++ [.inputEnd]

/-- The tokens that `Tokenizer::Tokenize` appends to a queue for `arg`. -/
def tokenizeOnto (tokens : List Token) (arg : String) : List Token :=
  ((events arg).foldl feed (.initialState, { tokens })).2.tokens

/-- `Tokenizer::Tokenize` on an empty queue. -/
def tokenize (arg : String) : List Token := tokenizeOnto [] arg

end Tokenizer

/-! ## The token stream -/

/-- The `Tokenizer` class: the arguments from the cursor on, and the queue. -/
structure Tokenizer where
  args : List String
  tokens : List Token := []
  deriving DecidableEq, Repr

namespace Tokenizer

/-- The constructor `Tokenizer(args)`. -/
def new (args : List String) : Tokenizer := { args }

/-- `Token{TokenType::EndOfInput, ""}`. -/
def endOfInput : Token := (.endOfInput, "")

/-- `Tokenizer::NextToken`. -/
def nextToken (t : Tokenizer) : Token × Tokenizer :=
  match t.tokens with
  | token :: tokens => (token, { t with tokens })
  | [] => match t.args with
      | [] => (endOfInput, t)
      | arg :: args => match tokenizeOnto t.tokens arg with
          | token :: tokens => (token, { args, tokens })
          | [] => (endOfInput, { args })

/-- `Tokenizer::HasMoreTokens`. -/
def hasMoreTokens (t : Tokenizer) : Bool := !t.tokens.isEmpty || !t.args.isEmpty

end Tokenizer

end AsapClap
