import AsapClap.Library.Loop
import AsapClap.Tokenizer.Stream
import AsapClap.Parser.States

/-!
# AsapClap.Parser

`CmdLineParser::Parse` (`parser/parser.cpp`): tokens are fed to the machine one
by one until a status ends the run, and a token is fed again when the machine
asks for it.
-/

namespace AsapClap

namespace Parser

variable {V : Type}

/-- The variables of the `do … while` loop of `Parse`. -/
structure Config (V : Type) where
  tokenizer : Tokenizer
  token : Token
  state : State
  data : Data V

/-- How `Parse` ends, if it does. -/
inductive Result (V : Type)
  | returned (noErrors : Bool) (context : ParserContext V)
  | faulted (fault : Fault)

/-- The line `Parse` writes to `err_` for an error. -/
def reportError (context : ParserContext V) (message : String) : ParserContext V :=
  { context with err := context.err ++ context.programName ++ ": " ++ message ++ "\n" }

/-- One turn of the loop. -/
def turn (b : Build) (cfg : Config V) : Config V ⊕ Result V :=
  match (machine b).step cfg.state cfg.token cfg.data with
  | .error fault => .inr (.faulted fault)
  | .ok (.terminate, _, data) => .inr (.returned true data.context)
  | .ok (.terminateWithError message, _, data) =>
      .inr (.returned false (reportError data.context message))
  | .ok (.reissueEvent, state, data) => .inl { cfg with state, data }
  | .ok (.continue_, state, data) =>
      match b.expect .loopTokenIsNotEndOfInput (cfg.token.1 ≠ .endOfInput) with
      | .error fault => .inr (.faulted fault)
      | .ok () =>
          let (token, tokenizer) := cfg.tokenizer.nextToken
          .inl { tokenizer, token, state, data }

/-- What a turn does that goes round again. -/
theorem turn_eq_inl {b : Build} {cfg cfg' : Config V} (h : turn b cfg = .inl cfg') :
    (machine b).step cfg.state cfg.token cfg.data = .ok (.reissueEvent, cfg'.state, cfg'.data) ∧
        cfg'.token = cfg.token ∧ cfg'.tokenizer = cfg.tokenizer ∨
      (machine b).step cfg.state cfg.token cfg.data = .ok (.continue_, cfg'.state, cfg'.data) ∧
        b.expect .loopTokenIsNotEndOfInput (cfg.token.1 ≠ .endOfInput) = .ok () ∧
        cfg.tokenizer.nextToken = (cfg'.token, cfg'.tokenizer) := by
  unfold turn at h
  split at h
  · cases h
  · cases h
  · cases h
  · next hstep =>
    cases h
    exact .inl ⟨hstep, rfl, rfl⟩
  · next hstep =>
    split at h
    · cases h
    · next hexpect =>
      cases h
      exact .inr ⟨hstep, hexpect, rfl⟩

/-- It has a step of the machine behind it. -/
theorem exists_step_of_turn {b : Build} {cfg cfg' : Config V} (h : turn b cfg = .inl cfg') :
    ∃ status : Status, (status = .continue_ ∨ status = .reissueEvent) ∧
      (machine b).step cfg.state cfg.token cfg.data = .ok (status, cfg'.state, cfg'.data) := by
  obtain ⟨hstep, -⟩ | ⟨hstep, -⟩ := turn_eq_inl h
  · exact ⟨_, .inr rfl, hstep⟩
  · exact ⟨_, .inl rfl, hstep⟩

/-- Where `Parse` starts: the machine in its `InitialState`, the first token
fetched. -/
def start (context : CommandLineContext V) (commands : List (Command V)) (args : List String) :
    Config V :=
  let (token, tokenizer) := (Tokenizer.new args).nextToken
  { tokenizer, token, state := .initialState,
    data := { context := InitialState.new (ParserContext.new context commands) } }

/-- `Parse` started on these arguments ends with `result`. -/
def Parses (b : Build) (context : CommandLineContext V) (commands : List (Command V))
    (args : List String) (result : Result V) : Prop :=
  Loop.Returns (turn b) (start context commands args) result

/-- The configurations in which a run of `Parse` handles a token. -/
def Reachable (b : Build) (context : CommandLineContext V) (commands : List (Command V))
    (args : List String) (cfg : Config V) : Prop :=
  Loop.Reaches (turn b) (start context commands args) cfg

/-- **Invariant rule**: what holds of the machine at the start, and is kept up by the steps that do
not end the run, holds whenever a token is handled. -/
theorem invariant_of_reachable {b : Build} {context : CommandLineContext V}
    {commands : List (Command V)} {args : List String} {cfg : Config V}
    (Inv : State → Data V → Prop)
    (h₀ : Inv .initialState (start context commands args).data)
    (hstep : ∀ {state token d status state' d'}, Inv state d →
      (machine b).step state token d = .ok (status, state', d') →
      status = .continue_ ∨ status = .reissueEvent → Inv state' d')
    (h : Reachable b context commands args cfg) : Inv cfg.state cfg.data := by
  refine Loop.invariant_of_reaches (fun cfg => Inv cfg.state cfg.data) h₀ ?_ h
  intro cfg cfg' hinv hturn
  obtain ⟨status, hstatus, hturn⟩ := exists_step_of_turn hturn
  exact hstep hinv hturn hstatus

/-- The token is handled by entering `FinalState` with this context. -/
def EntersFinal (b : Build) (cfg : Config V) (context : ParserContext V) : Prop :=
  ∃ d, (machine b).depart cfg.state cfg.token cfg.data = .ok (.enters .finalState true d) ∧
    d.context = context

end Parser

end AsapClap
