import AsapClap.Library.Assertions
import AsapClap.Parser.Run

/-!
# AsapClap.Parser.Builds

The two builds of the parser.  A debug build goes through the same states as a release build
and comes to the same result, unless a contract stops it: the contracts only look on.
-/

namespace AsapClap

variable {V : Type}

/-- The faults of contracts that do not hold. -/
def Fault.IsContract (fault : Fault) : Prop := ∃ c, fault = .contract c

/-- A contract is enforced in one build only. -/
theorem Build.expect_guards (c : Contract) (holds : Bool) :
    Assertions.Guards Fault.IsContract (Build.debug.expect c holds)
      (Build.release.expect c holds) := by
  cases holds with
  | true => exact .same _
  | false =>
      rw [Build.expect_debug_false]
      exact .fails ⟨c, rfl⟩ _

namespace Parser

open Assertions

/-- The debug build of a computation and its release build. -/
abbrev BuildsAgree {α : Type} (f : Build → Except Fault α) : Prop :=
  Guards Fault.IsContract (f .debug) (f .release)

/-- A contract, and what is done behind it. -/
theorem guards_expect {α : Type} {x y : Except Fault α} (c : Contract) (holds : Bool)
    (h : Guards Fault.IsContract x y) :
    Guards Fault.IsContract (Build.debug.expect c holds >>= fun _ => x)
      (Build.release.expect c holds >>= fun _ => y) :=
  (Build.expect_guards c holds).bind fun _ _ => h

/-- The assertion that a state is entered with data guards what comes behind it. -/
theorem guards_takeData {α : Type} {x y : Except Fault α} (hasData : Bool)
    (h : Guards Fault.IsContract x y) :
    Guards Fault.IsContract (takeData .debug hasData >>= fun _ => x)
      (takeData .release hasData >>= fun _ => y) :=
  Guards.bind (guards_expect .dataHasValue hasData (.same _)) fun _ _ => h

/-! ## IdentifyCommandState -/

section

variable (event : Token) (d : Data V)

/-- The fallback on the default command asserts that there are no positional tokens yet. -/
theorem buildsAgree_useDefault (command : Command V) (segments : List String) :
    BuildsAgree fun b => IdentifyCommandState.useDefault b command segments d :=
  guards_expect _ _ (.same _)

/-- `IdentifyCommandState` asserts before it handles a token that it has collected a segment. -/
theorem buildsAgree_identifyHandle :
    BuildsAgree fun b => IdentifyCommandState.handle b event d := by
  by_cases hvalue : event.1 = .value
  · obtain ⟨token, rfl⟩ := Token.exists_text hvalue
    refine guards_expect _ _ ?_
    dsimp only
    split
    · split
      · exact .same _
      · exact buildsAgree_useDefault _ _ _
      · exact .same _
    · exact .same _
  · simp only [BuildsAgree, IdentifyCommandState.handle_of_ne_value hvalue]
    refine guards_expect _ _ ?_
    split
    · exact .same _
    · exact buildsAgree_useDefault _ _ _
    · exact .same _

/-- It is entered with assertions about the commands there are and those that it keeps. -/
theorem buildsAgree_identifyEnter (hasData : Bool) :
    BuildsAgree fun b => IdentifyCommandState.onEnter b event hasData d := by
  unfold IdentifyCommandState.onEnter
  split
  · exact guards_takeData _ (guards_expect _ _ (guards_expect _ _ (.same _)))
  · exact .same _

/-! ## The option states -/

/-- `ParseOptionsState` asserts that it is not entered at the end of the input, and that there is a
command. -/
theorem buildsAgree_optionsEnter (hasData : Bool) :
    BuildsAgree fun b => ParseOptionsState.onEnter b event hasData d := by
  unfold ParseOptionsState.onEnter
  split
  · exact guards_expect _ _ (guards_takeData _ (guards_expect _ _ (.same _)))
  · exact guards_expect _ _ (.same _)

/-- The message asserts that there is an option, with a value already. -/
theorem buildsAgree_illegalMultipleOccurrence (context : ParserContext V) (message : String) :
    BuildsAgree fun b => Errors.illegalMultipleOccurrence b context message :=
  guards_expect _ _ (Guards.bind_same _ fun _ _ => guards_expect _ _ (.same _))

/-- Both option states are entered with the same assertions about the command. -/
theorem buildsAgree_enterOption (flag : String) (find : Command V → Option (ClapOption V))
    (token : String) (hasData : Bool) (context : ParserContext V) :
    BuildsAgree fun b => enterOption b flag find token hasData context := by
  refine guards_takeData _ (guards_expect _ _ (Guards.bind_same _ fun command _ => ?_))
  split
  · exact .same _
  · refine Guards.bind_same _ fun single _ => ?_
    cases single with
    | true => exact .same _
    | false => exact (buildsAgree_illegalMultipleOccurrence _ "").bind fun _ _ => .same _

/-- The assertion that the option has value semantics stands in front of the dereference. -/
theorem buildsAgree_activeSemantics (context : ParserContext V) :
    BuildsAgree fun b => activeSemantics b context :=
  guards_expect _ _ (Guards.bind_same _ fun _ _ => guards_expect _ _ (.same _))

theorem buildsAgree_shortEnter (hasData : Bool) :
    BuildsAgree fun b => ParseShortOptionState.onEnter b event hasData d := by
  unfold ParseShortOptionState.onEnter
  split
  · exact (buildsAgree_enterOption _ _ _ _ _).bind fun _ _ => .same _
  · exact (buildsAgree_enterOption _ _ _ _ _).bind fun _ _ => .same _
  · exact .same _

theorem buildsAgree_shortHandle :
    BuildsAgree fun b => ParseShortOptionState.handle b event d := by
  unfold ParseShortOptionState.handle
  split
  · exact (buildsAgree_activeSemantics _).bind fun _ _ => .same _
  · exact .same _

theorem buildsAgree_longEnter (hasData : Bool) :
    BuildsAgree fun b => ParseLongOptionState.onEnter b event hasData d := by
  unfold ParseLongOptionState.onEnter
  split
  · exact (buildsAgree_enterOption _ _ _ _ _).bind fun _ _ => .same _
  · exact .same _

theorem buildsAgree_longHandle :
    BuildsAgree fun b => ParseLongOptionState.handle b event d := by
  unfold ParseLongOptionState.handle
  split
  · exact (buildsAgree_activeSemantics _).bind fun _ _ => .same _
  · exact (buildsAgree_activeSemantics _).bind fun _ _ => .same _
  · exact .same _

end

/-! ## FinalState -/

/-- Storing a positional value asserts the value semantics that it goes on to dereference. -/
theorem buildsAgree_storePositional (option : ClapOption V) (context : ParserContext V)
    (token : String) :
    BuildsAgree fun b => FinalState.storePositional b option context token :=
  guards_expect _ _ (.same _)

/-- One turn of the loop over the positional arguments asserts that the argument is one. -/
theorem buildsAgree_assign (pass : FinalState.Pass V) (option : ClapOption V) :
    BuildsAgree fun b => FinalState.assign b pass option := by
  refine guards_expect _ _ ?_
  split
  · exact .same _
  · split
    · split
      · exact .same _
      · exact (buildsAgree_storePositional _ _ _).bind fun _ _ => .same _
    · split
      · exact .same _
      · exact (buildsAgree_storePositional _ _ _).bind fun _ _ => .same _

/-- `FinalState`: the loop, the values for `Rest`, and the checks, which assert nothing. -/
theorem buildsAgree_settle (context : ParserContext V) :
    BuildsAgree fun b => FinalState.settle b context := by
  refine Guards.bind_same _ fun command _ => ?_
  refine Guards.bind (Guards.foldlM (fun pass o _ => buildsAgree_assign pass o) _) fun pass _ => ?_
  split
  · exact .same _
  · refine Guards.bind (Guards.foldlM (fun context token _ => ?_) _) fun _ _ => .same _
    exact buildsAgree_storePositional _ _ _
  · exact .same _

/-! ## Machine and loop -/

/-- The debug build of the machine is the release build with contracts in it. -/
theorem machine_guards :
    Assertions.Machine Fault.IsContract (machine (V := V) .debug) (machine .release) where
  handle := by
    intro state event d
    cases state with
    | initialState | dashDashState | finalState | parseOptionsState => exact .same _
    | identifyCommandState => exact buildsAgree_identifyHandle event d
    | parseShortOptionState => exact buildsAgree_shortHandle event d
    | parseLongOptionState => exact buildsAgree_longHandle event d
  onLeave := fun _ _ _ => .same _
  onEnter := by
    intro state event hasData d
    cases state with
    | initialState => exact .same _
    | identifyCommandState => exact buildsAgree_identifyEnter event d hasData
    | parseOptionsState => exact buildsAgree_optionsEnter event d hasData
    | parseShortOptionState => exact buildsAgree_shortEnter event d hasData
    | parseLongOptionState => exact buildsAgree_longEnter event d hasData
    | dashDashState => exact guards_takeData _ (.same _)
    | finalState =>
        exact guards_takeData _ ((buildsAgree_settle _).bind fun _ _ => .same _)

/-- A run that a contract stopped. -/
def Result.BrokeContract (result : Result V) : Prop := ∃ c, result = .faulted (.contract c)

/-- One turn of the loop: the step, and the assertion of the loop that a token it goes on behind is
not the end of the input. -/
theorem turn_guards :
    LoopGuards Result.BrokeContract (turn (V := V) .debug) (turn .release) := by
  intro cfg
  obtain hstep | ⟨fault, ⟨c, rfl⟩, hfails⟩ :=
    guards_iff.mp (machine_guards.step cfg.state cfg.token cfg.data)
  · unfold turn
    rw [hstep]
    split
    · exact .inl rfl
    · exact .inl rfl
    · exact .inl rfl
    · exact .inl rfl
    · obtain hexpect | ⟨fault, ⟨c, rfl⟩, hfails⟩ := guards_iff.mp
        (Build.expect_guards .loopTokenIsNotEndOfInput (cfg.token.1 ≠ .endOfInput))
      · rw [hexpect]
        exact .inl rfl
      · rw [hfails]
        exact .inr ⟨_, ⟨c, rfl⟩, rfl⟩
  · unfold turn
    rw [hfails]
    exact .inr ⟨_, ⟨c, rfl⟩, rfl⟩

section

variable (context : CommandLineContext V) (commands : List (Command V)) (args : List String)

/-- The debug build always comes to a result. -/
theorem exists_parses_debug : ∃ result, Parses .debug context commands args result := by
  cases hpass : conclude .debug (pass .debug context commands args) with
  | some result => exact ⟨result, parses_iff.mpr hpass⟩
  | none =>
      unfold conclude at hpass
      split at hpass <;> cases hpass

/-- **The builds agree**: what a debug build goes through a release build goes through, and what
either comes to the other comes to, unless a contract stops the debug build; that is the only
thing to stop it when the release build goes on for ever. -/
theorem builds_agree :
    (∀ cfg, Reachable .debug context commands args cfg →
      Reachable .release context commands args cfg) ∧
    (∀ result, Parses .debug context commands args result →
      result.BrokeContract ∨ Parses .release context commands args result) ∧
    (∀ result, Parses .release context commands args result →
      Parses .debug context commands args result ∨
        ∃ c, Parses .debug context commands args (.faulted (.contract c))) ∧
    (Loop.Diverges (turn .release) (start context commands args) →
      ∃ c, Parses .debug context commands args (.faulted (.contract c))) := by
  obtain ⟨result, hdebug⟩ := exists_parses_debug context commands args
  have hreturns := turn_guards.returns hdebug
  refine ⟨fun cfg => turn_guards.reaches, fun result => turn_guards.returns, ?_, ?_⟩
  · intro result' hrelease
    obtain ⟨c, rfl⟩ | hreturns := hreturns
    · exact .inr ⟨c, hdebug⟩
    · rw [Loop.returns_unique hrelease hreturns]
      exact .inl hdebug
  · intro hdiverges
    obtain ⟨c, rfl⟩ | hreturns := hreturns
    · exact ⟨c, hdebug⟩
    · exact absurd hdiverges (Loop.not_diverges_of_returns hreturns)

end

end Parser

end AsapClap
