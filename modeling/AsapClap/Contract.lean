/-!
# AsapClap.Contract

What can go wrong inside the parser other than an error it reports: a contract
of the sources that does not hold, or an operation without defined behaviour.

`ASAP_EXPECT`, `ASAP_ENSURE` and `ASAP_ASSERT` are enforced in a debug build,
where a violation ends the program, and compiled out of a release build, where
execution goes on.
-/

namespace AsapClap

/-- Whether contracts are enforced. -/
inductive Build
  | debug
  | release
  deriving DecidableEq, Repr

/-- The conditions that the contracts of `states.h`, `errors.cpp` and
`parser.cpp` assert. -/
inductive Contract
  /-- `data.has_value()`, in `OnEnter` of every state that takes data -/
  | dataHasValue
  /-- `!Commands().empty()`, in `IdentifyCommandState::OnEnter` -/
  | commandsNotEmpty
  /-- `!filtered_commands_.empty()`, in `IdentifyCommandState::OnEnter` -/
  | filteredCommandsNotEmpty
  /-- `!path_segments_.empty()`, in `IdentifyCommandState::Handle` -/
  | pathSegmentsNotEmpty
  /-- `context_->positional_tokens.empty()`, in `IdentifyCommandState::Handle` -/
  | positionalTokensEmpty
  /-- `token_type != TokenType::EndOfInput`, in `ParseOptionsState::OnEnter` -/
  | tokenIsNotEndOfInput
  /-- `context_->active_command`, in `OnEnter` of the option states -/
  | hasActiveCommand
  /-- `context_`, in `ParseOptionsState::OnEnter` without data -/
  | hasContext
  /-- `context_->active_option`, in `Handle` of the two option states -/
  | hasActiveOption
  /-- `semantics`, wherever a value is about to be parsed -/
  | hasValueSemantics
  /-- `option->IsPositional()`, in `FinalState::OnEnter` -/
  | optionIsPositional
  /-- `ASAP_UNREACHABLE()` of `states.h` -/
  | unreachable
  /-- `OccurrencesOf(…) > 0`, in `IllegalMultipleOccurrence` -/
  | hasOccurrences
  /-- `token.first != TokenType::EndOfInput`, in `CmdLineParser::Parse` -/
  | loopTokenIsNotEndOfInput
  deriving DecidableEq, Repr

/-- How an execution can leave the behaviour the sources define. -/
inductive Fault
  | contract (c : Contract)
  /-- `std::any_cast` on an empty `std::any` -/
  | badAnyCast
  /-- a null pointer is dereferenced -/
  | nullPointer
  /-- an element of an empty `std::vector` is read or removed -/
  | emptyVector
  /-- `at` on a key that is not in the map -/
  | outOfRange
  deriving DecidableEq, Repr

/-- A contract on its way through an execution. -/
def Build.expect (b : Build) (c : Contract) (holds : Bool) : Except Fault Unit :=
  if b = .debug ∧ holds = false then .error (.contract c) else .ok ()

@[simp] theorem Build.expect_true (b : Build) (c : Contract) : b.expect c true = .ok () := by
  simp [expect]

@[simp] theorem Build.expect_release (c : Contract) (holds : Bool) :
    Build.release.expect c holds = .ok () := by
  simp [expect]

@[simp] theorem Build.expect_debug_false (c : Contract) :
    Build.debug.expect c false = .error (.contract c) := by
  simp [expect]

/-- Dereference a pointer. -/
def deref {α : Type} : Option α → Except Fault α
  | some a => .ok a
  | none => .error .nullPointer

@[simp] theorem deref_some {α : Type} (a : α) : deref (some a) = .ok a := rfl

@[simp] theorem deref_none {α : Type} : deref (none : Option α) = .error .nullPointer := rfl

@[simp] theorem deref_eq_ok {α : Type} {p : Option α} {a : α} : deref p = .ok a ↔ p = some a := by
  cases p <;> simp [deref]

/-! ## Sequencing -/

section

variable {ε α β : Type}

@[simp] theorem ok_bind (a : α) (f : α → Except ε β) : (Except.ok a >>= f) = f a := rfl

@[simp] theorem error_bind (e : ε) (f : α → Except ε β) :
    ((Except.error e : Except ε α) >>= f) = .error e := rfl

@[simp] theorem pure_eq_ok (a : α) : (pure a : Except ε α) = .ok a := rfl

/-- A sequence that succeeds splits at its first step. -/
theorem bind_eq_ok {x : Except ε α} {f : α → Except ε β} {b : β} :
    (x >>= f) = .ok b ↔ ∃ a, x = .ok a ∧ f a = .ok b := by
  cases x <;> simp

/-- A sequence that fails does so at its first step or behind it. -/
theorem bind_eq_error {x : Except ε α} {f : α → Except ε β} {e : ε} :
    (x >>= f) = .error e ↔ x = .error e ∨ ∃ a, x = .ok a ∧ f a = .error e := by
  cases x <;> simp

/-- A step for each element succeeds if each step does. -/
theorem exists_mapM_eq_ok_iff {f : α → Except ε β} {xs : List α} :
    (∃ ys, xs.mapM f = .ok ys) ↔ ∀ x ∈ xs, ∃ y, f x = .ok y := by
  induction xs with
  | nil => simp
  | cons x xs ih =>
      rw [List.forall_mem_cons, ← ih]
      simp only [List.mapM_cons, bind_eq_ok, pure_eq_ok, Except.ok.injEq]
      constructor
      · rintro ⟨ys, y, hy, ys', hys, -⟩
        exact ⟨⟨y, hy⟩, ys', hys⟩
      · rintro ⟨⟨y, hy⟩, ys, hys⟩
        exact ⟨y :: ys, y, hy, ys, hys, rfl⟩

/-- A step for each element fails at one of them. -/
theorem mapM_eq_error {f : α → Except ε β} {xs : List α} {e : ε} (h : xs.mapM f = .error e) :
    ∃ x ∈ xs, f x = .error e := by
  induction xs with
  | nil => cases h
  | cons x xs ih =>
      rw [List.mapM_cons] at h
      obtain h | ⟨y, -, h⟩ := bind_eq_error.mp h
      · exact ⟨x, List.mem_cons_self, h⟩
      · obtain h | ⟨ys, -, h⟩ := bind_eq_error.mp h
        · obtain ⟨x', hx', hfail⟩ := ih h
          exact ⟨x', List.mem_cons_of_mem _ hx', hfail⟩
        · cases h

end

end AsapClap
