import AsapClap.Cli
import AsapClap.Fluent
import AsapClap.Library.Handout

/-!
# AsapClap.Fluent.Spent

The builders of `fluent/` as they are used: each keeps what it builds in a `unique_ptr`
and moves it out in `Build`, and a call on a builder that was used up is a bug that most
calls assert.  An `OptionValueBuilder` has another pointer to the descriptor of its option,
which `Build` does not give up.
-/

namespace AsapClap

open Handout

variable {V : Type}

/-! ## Pointers -/

/-- How a call on a builder goes wrong. -/
inductive Misuse
  /-- "builder used after Build() was called" -/
  | usedAfterBuild
  | nullPointer
  deriving DecidableEq, Repr

/-- A pointer that is asserted to be set before it is dereferenced. -/
def checked {α : Type} (b : Build) : Option α → Except Misuse α
  | some a => .ok a
  | none =>
      match b with
      | .debug => .error .usedAfterBuild
      | .release => .error .nullPointer

/-- A pointer that is just dereferenced. -/
def unchecked {α : Type} : Option α → Except Misuse α
  | some a => .ok a
  | none => .error .nullPointer

/-! ## OptionBuilder -/

namespace OptionBuilder

/-- Whether a call configures the option itself. -/
def Call.onOption : Call V → Bool
  | .short _ | .long _ | .about _ | .required | .userFriendlyName _ => true
  | .withValue _ | .valueName _ | .defaultValue _ _ | .implicitValue _ _ | .repeatable => false

/-- The member functions of an `OptionBuilder`. -/
inductive Method (V : Type)
  | configure (next : Call V) (onOption : next.onOption = true)
  | withValue
  | build

/-- A call of one of them.  `WithValue` passes the option on to the constructor of an
`OptionValueBuilder`, which gives it its descriptor. -/
def step (b : Build) (s : Owner (ClapOption V)) : Method V → Except Misuse (Owner (ClapOption V))
  | .configure next _ => do
      let option ← checked b s.held
      return .holds (call option next)
  | .withValue => do
      let _ ← unchecked s.held
      return .passedOn
  | .build => return s.give

def maker (b : Build) : Maker (Owner (ClapOption V)) (Method V) (ClapOption V) Misuse where
  call := step b
  handedOut := Owner.given

/-- The constructor. -/
def IsNew (s : Owner (ClapOption V)) : Prop := ∃ key, s = .holds { key }

/-- Which calls assert that the builder was not used up. -/
def Method.IsGuarded : Method V → Prop
  | .configure _ _ => True
  | .withValue | .build => False

theorem step_eq_usedAfterBuild_iff {b : Build} {s : Owner (ClapOption V)} {next : Method V}
    (h : s.held = none) :
    step b s next = .error .usedAfterBuild ↔ b = .debug ∧ next.IsGuarded := by
  cases b <;> cases next <;> simp [step, h, checked, unchecked, Method.IsGuarded]

/-- What is handed out is what the calls build. -/
theorem run_build (b : Build) (key : String) (calls : List { next : Call V // next.onOption }) :
    (maker b).run (.holds { key }) (calls.map (fun next => .configure next.1 next.2) ++ [.build]) =
      .ok (.gave (build key (calls.map Subtype.val))) := by
  have hrun := Maker.run_map_holds (m := maker b) (fun option next => call option next.1)
    (fun next : { next : Call V // next.onOption } => .configure next.1 next.2)
    (fun _ _ => rfl) { key } calls
  rw [Maker.run_concat hrun, build, List.foldl_map]
  rfl

end OptionBuilder

/-! ## OptionValueBuilder -/

/-- `ValueDescriptor`, with where it stores a value, which the parser does not read. -/
structure ValueDescriptor (V : Type) extends ValueSemantics V where
  /-- `store_to_`, an address -/
  storeTo : Option Nat := none

/-- An option and the descriptor that its `value_semantic_` points to. -/
structure Described (V : Type) where
  option : ClapOption V
  descriptor : ValueDescriptor V

/-- The option as the parser sees it. -/
def Described.toOption (d : Described V) : ClapOption V :=
  { d.option with valueSemantic := some d.descriptor.toValueSemantics }

/-- `OptionValueBuilder`: the option and the descriptor, which the option points to as well. -/
structure OptionValueBuilder (V : Type) where
  owner : Owner (ClapOption V)
  /-- what `value_descriptor_` points to, which is never given up -/
  descriptor : ValueDescriptor V

namespace OptionValueBuilder

/-- The constructor, with an option and the descriptor that it makes for it. -/
def new (option : ClapOption V) (descriptor : ValueDescriptor V) : OptionValueBuilder V :=
  { owner := .holds option, descriptor }

/-- The member functions of an `OptionValueBuilder`, with those of an `OptionBuilder` in front. -/
inductive Method (V : Type)
  | configure (next : OptionBuilder.Call V) (onOption : next.onOption = true)
  | withValue
  | build
  | storeTo (address : Option Nat)
  | userFriendlyName (name : String)
  | defaultValue (value : V) (textual : String)
  | implicitValue (value : V) (textual : String)
  | repeatable

/-- A call that configures the value: it asserts that there is a descriptor. -/
def describe (b : Build) (s : OptionValueBuilder V) (f : ValueDescriptor V → ValueDescriptor V) :
    Except Misuse (OptionValueBuilder V) := do
  let descriptor ← checked b (some s.descriptor)
  return { s with descriptor := f descriptor }

/-- A call of one of them. -/
def step (b : Build) (s : OptionValueBuilder V) : Method V → Except Misuse (OptionValueBuilder V)
  | .configure next _ => do
      let option ← checked b s.owner.held
      return { s with owner := .holds (OptionBuilder.call option next) }
  | .withValue => do
      let _ ← unchecked s.owner.held
      return { s with owner := .passedOn }
  | .build => return { s with owner := s.owner.give }
  | .storeTo address => describe b s ({ · with storeTo := address })
  | .userFriendlyName name => describe b s ({ · with userFriendlyName := name })
  | .defaultValue value textual => describe b s ({ · with defaultValue := some (value, textual) })
  | .implicitValue value textual => describe b s ({ · with implicitValue := some (value, textual) })
  | .repeatable => describe b s ({ · with repeatable := true })

/-- The option that was handed out points to the descriptor that the builder points to. -/
def handedOut (s : OptionValueBuilder V) : Option (Described V) :=
  s.owner.given.map fun option => { option, descriptor := s.descriptor }

def maker (b : Build) : Maker (OptionValueBuilder V) (Method V) (Described V) Misuse where
  call := step b
  handedOut := handedOut

def IsNew (s : OptionValueBuilder V) : Prop := ∃ option descriptor, s = .new option descriptor

/-- Only what is inherited asserts something that `Build` changes. -/
def Method.IsGuarded : Method V → Prop
  | .configure _ _ => True
  | .withValue | .build | .storeTo _ | .userFriendlyName _ | .defaultValue _ _
  | .implicitValue _ _ | .repeatable => False

theorem step_eq_usedAfterBuild_iff {b : Build} {s : OptionValueBuilder V} {next : Method V}
    (h : s.owner.held = none) :
    step b s next = .error .usedAfterBuild ↔ b = .debug ∧ next.IsGuarded := by
  cases b <;> cases next <;> simp [step, describe, h, checked, unchecked, Method.IsGuarded]

/-- What a call means for the option as the parser sees it. -/
def Method.means : Method V → Option (OptionBuilder.Call V)
  | .configure next _ => some next
  | .userFriendlyName name => some (.valueName name)
  | .defaultValue value textual => some (.defaultValue value textual)
  | .implicitValue value textual => some (.implicitValue value textual)
  | .repeatable => some .repeatable
  | .storeTo _ | .withValue | .build => none

/-- A call that neither passes the option on nor hands it out. -/
def Method.Configures : Method V → Prop
  | .withValue | .build => False
  | _ => True

theorem step_of_configures (b : Build) (option : ClapOption V) (descriptor : ValueDescriptor V)
    {next : Method V} (h : next.Configures) :
    ∃ option' descriptor', step b (.new option descriptor) next = .ok (.new option' descriptor') ∧
      (Described.mk option' descriptor').toOption =
        next.means.toList.foldl OptionBuilder.call (Described.mk option descriptor).toOption := by
  cases next with
  | configure next onOption =>
      refine ⟨OptionBuilder.call option next, descriptor, rfl, ?_⟩
      cases next <;> first | rfl | cases onOption
  | withValue | build => exact h.elim
  | _ => exact ⟨option, _, rfl, rfl⟩

theorem run_of_configures (b : Build) (option : ClapOption V) (descriptor : ValueDescriptor V)
    {methods : List (Method V)} (h : ∀ next ∈ methods, next.Configures) :
    ∃ option' descriptor', (maker b).run (.new option descriptor) methods =
        .ok (.new option' descriptor') ∧
      (Described.mk option' descriptor').toOption =
        (methods.flatMap fun next => next.means.toList).foldl OptionBuilder.call
          (Described.mk option descriptor).toOption := by
  induction methods generalizing option descriptor with
  | nil => exact ⟨option, descriptor, rfl, rfl⟩
  | cons next methods ih =>
      obtain ⟨option₁, descriptor₁, hstep, hmeans⟩ := step_of_configures b option descriptor
        (h next List.mem_cons_self)
      obtain ⟨option', descriptor', hrun, htoOption⟩ :=
        ih option₁ descriptor₁ fun next hnext => h next (List.mem_cons_of_mem _ hnext)
      refine ⟨option', descriptor', ?_, ?_⟩
      · have hcall : (maker b).call (.new option descriptor) next =
            .ok (.new option₁ descriptor₁) := hstep
        rw [Maker.run_cons, hcall]
        exact hrun
      · rw [htoOption, hmeans, List.flatMap_cons, List.foldl_append]

/-- What is handed out is what the calls build, behind `WithValue`. -/
theorem run_build (b : Build) (option : ClapOption V) (descriptor : ValueDescriptor V)
    {methods : List (Method V)} (h : ∀ next ∈ methods, next.Configures) :
    ∃ s built, (maker b).run (.new option descriptor) (methods ++ [.build]) = .ok s ∧
      s.handedOut = some built ∧
      built.toOption = (methods.flatMap fun next => next.means.toList).foldl OptionBuilder.call
        (OptionBuilder.call option (.withValue descriptor.toValueSemantics)) := by
  obtain ⟨option', descriptor', hrun, htoOption⟩ := run_of_configures b option descriptor h
  exact ⟨_, ⟨option', descriptor'⟩, Maker.run_concat hrun, rfl, htoOption⟩

end OptionValueBuilder

/-! ## CommandBuilder -/

namespace CommandBuilder

/-- The member functions of a `CommandBuilder`; the conversions do what `Build` does. -/
inductive Method (V : Type)
  | configure (next : Call V)
  | build
  | toUniquePtr
  | toSharedPtr

/-- A call of one of them. -/
def step (b : Build) (s : Owner (Command V)) : Method V → Except Misuse (Owner (Command V))
  | .configure (.withPositionalArguments options) => do
      let command ← unchecked s.held
      return .holds (call command (.withPositionalArguments options))
  | .configure next => do
      let command ← checked b s.held
      return .holds (call command next)
  | .build | .toUniquePtr | .toSharedPtr => return s.give

def maker (b : Build) : Maker (Owner (Command V)) (Method V) (Command V) Misuse where
  call := step b
  handedOut := Owner.given

/-- The constructor, where that of the command does not throw. -/
def IsNew (s : Owner (Command V)) : Prop :=
  ∃ firstSegment otherSegments command,
    Command.new firstSegment otherSegments = .ok command ∧ s = .holds command

/-- Which calls assert that the builder was not used up. -/
def Method.IsGuarded : Method V → Prop
  | .configure (.about _) | .configure (.withOptions _ _ _) | .configure (.withOption _) => True
  | .configure (.withPositionalArguments _) | .build | .toUniquePtr | .toSharedPtr => False

theorem step_eq_usedAfterBuild_iff {b : Build} {s : Owner (Command V)} {next : Method V}
    (h : s.held = none) :
    step b s next = .error .usedAfterBuild ↔ b = .debug ∧ next.IsGuarded := by
  cases next with
  | configure next =>
      cases b <;> cases next <;> simp [step, h, checked, unchecked, Method.IsGuarded]
  | build | toUniquePtr | toSharedPtr => simp [step, Method.IsGuarded]

/-- What is handed out is what the calls build. -/
theorem run_build (b : Build) {firstSegment : String} {otherSegments : List String}
    {calls : List (Call V)} {command base : Command V}
    (hnew : Command.new firstSegment otherSegments = .ok base)
    (hbuild : build firstSegment otherSegments calls = .ok command) :
    (maker b).run (.holds base) (calls.map .configure ++ [.build]) = .ok (.gave command) := by
  rw [build, hnew, ok_bind] at hbuild
  cases hbuild
  have hcall : ∀ (command : Command V) (next : Call V),
      (maker b).call (.holds command) (.configure next) = .ok (.holds (call command next)) := by
    intro command next
    cases next <;> rfl
  have hrun := Maker.run_map_holds call Method.configure hcall base calls
  rw [Maker.run_concat hrun]
  rfl

end CommandBuilder

/-! ## CliBuilder -/

/-- The command knows its CLI. -/
def Command.adopted (c : Command V) : Command V := { c with hasParentCli := true }

namespace CliBuilder

/-- The member functions of a `CliBuilder`. -/
inductive Method (V : Type)
  | configure (next : Call V)
  | build
  | toUniquePtr

/-- `Build`, which leaves the CLI where it is when a command cannot be constructed. -/
def giveBuilt (s : Owner (Cli V)) : Except Misuse (Owner (Cli V)) := do
  let cli ← unchecked s.held
  match setUp cli with
  -- the exception comes when the commands there are have their options
  | .error _ => return .holds { cli with commands := cli.commands.map (upgrade cli) }
  | .ok cli =>
      return .gave { cli with commands := cli.commands.map Command.adopted }

/-- A call of one of them. -/
def step (b : Build) (s : Owner (Cli V)) : Method V → Except Misuse (Owner (Cli V))
  | .configure next => do
      let cli ← checked b s.held
      return .holds (call cli next)
  | .build | .toUniquePtr => giveBuilt s

def maker (b : Build) : Maker (Owner (Cli V)) (Method V) (Cli V) Misuse where
  call := step b
  handedOut := Owner.given

/-- The constructor. -/
def IsNew (s : Owner (Cli V)) : Prop := s = .holds {}

/-- Which calls assert that the builder was not used up. -/
def Method.IsGuarded : Method V → Prop
  | .configure _ => True
  | .build | .toUniquePtr => False

theorem step_eq_usedAfterBuild_iff {b : Build} {s : Owner (Cli V)} {next : Method V}
    (h : s.held = none) :
    step b s next = .error .usedAfterBuild ↔ b = .debug ∧ next.IsGuarded := by
  cases b <;> cases next <;> simp [step, giveBuilt, h, checked, unchecked, Method.IsGuarded]

/-- What is handed out is what the calls build. -/
theorem run_build (b : Build) {calls : List (Call V)} {cli : Cli V} (h : build calls = .ok cli) :
    (maker b).run (.holds {}) (calls.map .configure ++ [.build]) = .ok (.gave cli) := by
  obtain ⟨ready, hsetUp, h⟩ := bind_eq_ok.mp h
  cases h
  have hrun := Maker.run_map_holds (m := maker b) call Method.configure (fun _ _ => rfl) {} calls
  rw [Maker.run_concat hrun]
  simp [maker, step, giveBuilt, unchecked, Owner.held, hsetUp, Command.adopted]

end CliBuilder

/-! ## Used up -/

/-- **A builder is used up** when its object is out, for calls that begin with one that asserts so
in a debug build, and for no others. -/
theorem spentFor_guarded (V : Type) (b : Build) :
    (OptionBuilder.maker b (V := V)).SpentFor .usedAfterBuild OptionBuilder.IsNew
        (fun next => b = .debug ∧ next.IsGuarded) ∧
      (OptionValueBuilder.maker b (V := V)).SpentFor .usedAfterBuild OptionValueBuilder.IsNew
        (fun next => b = .debug ∧ next.IsGuarded) ∧
      (CommandBuilder.maker b (V := V)).SpentFor .usedAfterBuild CommandBuilder.IsNew
        (fun next => b = .debug ∧ next.IsGuarded) ∧
      (CliBuilder.maker b (V := V)).SpentFor .usedAfterBuild CliBuilder.IsNew
        (fun next => b = .debug ∧ next.IsGuarded) := by
  refine ⟨?_, ?_, ?_, ?_⟩
  · apply Maker.spentFor_of_call
    intro s next hout
    exact OptionBuilder.step_eq_usedAfterBuild_iff (Owner.held_of_given hout)
  · apply Maker.spentFor_of_call
    intro s next hout
    have hgiven : s.owner.given.isSome := (Option.isSome_map ..).symm.trans hout
    exact OptionValueBuilder.step_eq_usedAfterBuild_iff (Owner.held_of_given hgiven)
  · apply Maker.spentFor_of_call
    intro s next hout
    exact CommandBuilder.step_eq_usedAfterBuild_iff (Owner.held_of_given hout)
  · apply Maker.spentFor_of_call
    intro s next hout
    exact CliBuilder.step_eq_usedAfterBuild_iff (Owner.held_of_given hout)

/-- A builder of an option that takes a level. -/
def leveller : OptionValueBuilder String :=
  .new { key := "level", shortName := "l" } { parseValue := some }

/-- The builder when the option is out. -/
def levelled : OptionValueBuilder String := { leveller with owner := leveller.owner.give }

theorem spent_levelled : (OptionValueBuilder.maker .debug).Spent .usedAfterBuild levelled
    [.configure (.long "level") rfl, .build] := by
  refine ((spentFor_guarded String .debug).2.1 leveller [.build] levelled ⟨_, _, rfl⟩ rfl rfl
    _).mpr ?_
  intro next hnext
  cases hnext
  exact ⟨rfl, trivial⟩

/-- The option that was handed out gets another default value. -/
theorem not_spent_levelled :
    (OptionValueBuilder.maker .debug).run leveller [.build] = .ok levelled ∧
      levelled.handedOut.map (·.descriptor.defaultValue) = some none ∧
      (∃ s, (OptionValueBuilder.maker .debug).call levelled (.defaultValue "5" "5") = .ok s ∧
        s.handedOut.map (·.descriptor.defaultValue) = some (some ("5", "5"))) ∧
      ¬(OptionValueBuilder.maker .debug).Spent .usedAfterBuild levelled
        [.defaultValue "5" "5"] := by
  refine ⟨rfl, rfl, ⟨_, rfl, rfl⟩, fun h => ?_⟩
  have hstop := h.stopped [] (.defaultValue "5" "5") [] rfl levelled rfl
  cases hstop

end AsapClap
