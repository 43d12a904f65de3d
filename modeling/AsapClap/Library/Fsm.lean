/-!
# AsapClap.Library.Fsm

Event driven state machines in the style of a C++ state class per state: a
state answers an event with an `Action`, and a transition runs the `OnLeave` of
the state that is left and the `OnEnter` of the state that is entered, each of
which has a say in the `Status` the machine reports for the event.

The data of all the states is one value `D` that the callbacks pass along, so a
state that is left and entered again finds its members as they were.  Callbacks
run in a monad `m`: `Id` for a machine that cannot fail, an error monad for one
whose callbacks can go wrong.
-/

namespace Fsm

/-- What handling an event says to whoever feeds the machine. -/
inductive Status
  | continue_
  | terminate
  | terminateWithError (message : String)
  | reissueEvent
  deriving DecidableEq, Repr

/-- What a state answers to an event.  A transition may carry data for the
state it enters; only whether it does matters here. -/
inductive Action (S : Type)
  | doNothing
  | reportError (message : String)
  | transitionTo (target : S) (hasData : Bool)
  deriving DecidableEq, Repr

/-- The callbacks of the states of a machine. -/
structure StateMachine (m : Type → Type) (S E D : Type) where
  handle : S → E → D → m (Action S × D)
  onLeave : S → E → D → m (Status × D)
  onEnter : S → E → Bool → D → m (Status × D)

/-- How an event leaves the current state: the machine stays with a status, or
it goes on to enter a state. -/
inductive Departure (S D : Type)
  | stays (status : Status) (data : D)
  | enters (target : S) (hasData : Bool) (data : D)

/-- The data of the states when the event has left the current state. -/
def Departure.data {S D : Type} : Departure S D → D
  | .stays _ d | .enters _ _ d => d

namespace StateMachine

variable {m : Type → Type} [Monad m] {S E D : Type}

/-- Handle an event up to the point where a state would be entered: a
transition runs `OnLeave` and stops there unless that says `Continue`. -/
def depart (M : StateMachine m S E D) (s : S) (e : E) (d : D) : m (Departure S D) := do
  let (action, d) ← M.handle s e d
  match action with
  | .doNothing => pure (.stays .continue_ d)
  | .reportError message => pure (.stays (.terminateWithError message) d)
  | .transitionTo target hasData =>
      let (status, d) ← M.onLeave s e d
      match status with
      | .continue_ => pure (.enters target hasData d)
      | status => pure (.stays status d)

/-- Handle an event: the status, the state the machine is in afterwards and the
data of the states.  A state that is entered becomes current before its
`OnEnter` runs. -/
def step (M : StateMachine m S E D) (s : S) (e : E) (d : D) : m (Status × S × D) := do
  match ← M.depart s e d with
  | .stays status d => pure (status, s, d)
  | .enters target hasData d =>
      let (status, d) ← M.onEnter target e hasData d
      pure (status, target, d)

variable [LawfulMonad m] {M : StateMachine m S E D} {s t : S} {e : E} {d d₁ d₂ : D}

/-! ## The ways an event is handled -/

theorem step_of_doNothing (h : M.handle s e d = pure (.doNothing, d₁)) :
    M.step s e d = pure (.continue_, s, d₁) := by
  simp [step, depart, h]

theorem step_of_reportError {message : String}
    (h : M.handle s e d = pure (.reportError message, d₁)) :
    M.step s e d = pure (.terminateWithError message, s, d₁) := by
  simp [step, depart, h]

theorem step_of_leaveError {hasData : Bool} {message : String}
    (h : M.handle s e d = pure (.transitionTo t hasData, d₁))
    (hl : M.onLeave s e d₁ = pure (.terminateWithError message, d₂)) :
    M.step s e d = pure (.terminateWithError message, s, d₂) := by
  simp [step, depart, h, hl]

theorem depart_of_transition {hasData : Bool}
    (h : M.handle s e d = pure (.transitionTo t hasData, d₁))
    (hl : M.onLeave s e d₁ = pure (.continue_, d₂)) :
    M.depart s e d = pure (.enters t hasData d₂) := by
  simp [depart, h, hl]

/-- The state that is entered has the last word on the status. -/
theorem step_of_depart {hasData : Bool} (h : M.depart s e d = pure (.enters t hasData d₁)) :
    M.step s e d = (fun p => (p.1, t, p.2)) <$> M.onEnter t e hasData d₁ := by
  simp only [step, h, pure_bind, map_eq_pure_bind]

theorem step_of_transition {hasData : Bool}
    (h : M.handle s e d = pure (.transitionTo t hasData, d₁))
    (hl : M.onLeave s e d₁ = pure (.continue_, d₂)) :
    M.step s e d = (fun p => (p.1, t, p.2)) <$> M.onEnter t e hasData d₂ :=
  step_of_depart (depart_of_transition h hl)

/-! ## Callbacks that fail -/

section

variable {ε : Type} {M : StateMachine (Except ε) S E D} {fault : ε} {d' : D}

theorem step_of_handle_error (h : M.handle s e d = .error fault) :
    M.step s e d = .error fault := by
  simp only [step, depart, h]
  rfl

theorem step_of_leave_error {hasData : Bool}
    (h : M.handle s e d = .ok (.transitionTo t hasData, d₁))
    (hl : M.onLeave s e d₁ = .error fault) : M.step s e d = .error fault := by
  simp only [step, depart, h]
  change (M.onLeave s e d₁ >>= _) >>= _ = _
  rw [hl]
  rfl

/-- How an event leaves a state, in terms of the callbacks of the state. -/
theorem depart_ok {departure : Departure S D} (h : M.depart s e d = .ok departure) :
    ∃ action d₁, M.handle s e d = .ok (action, d₁) ∧
      (action = .doNothing ∧ departure = .stays .continue_ d₁ ∨
        (∃ message, action = .reportError message ∧
          departure = .stays (.terminateWithError message) d₁) ∨
        ∃ t hasData status d₂, action = .transitionTo t hasData ∧
          M.onLeave s e d₁ = .ok (status, d₂) ∧
          (status = .continue_ ∧ departure = .enters t hasData d₂ ∨
            status ≠ .continue_ ∧ departure = .stays status d₂)) := by
  cases hhandle : M.handle s e d with
  | error fault =>
      rw [StateMachine.depart, hhandle] at h
      cases h
  | ok p =>
      obtain ⟨action, d₁⟩ := p
      refine ⟨action, d₁, rfl, ?_⟩
      rw [StateMachine.depart, hhandle] at h
      cases action with
      | doNothing =>
          cases h
          exact .inl ⟨rfl, rfl⟩
      | reportError message =>
          cases h
          exact .inr (.inl ⟨message, rfl, rfl⟩)
      | transitionTo t hasData =>
          change (M.onLeave s e d₁ >>= _) = _ at h
          cases hleave : M.onLeave s e d₁ with
          | error fault =>
              rw [hleave] at h
              cases h
          | ok q =>
              obtain ⟨status, d₂⟩ := q
              rw [hleave] at h
              refine .inr (.inr ⟨t, hasData, status, d₂, rfl, rfl, ?_⟩)
              cases status <;> cases h
              · exact .inl ⟨rfl, rfl⟩
              all_goals exact .inr ⟨by simp, rfl⟩

/-- A state is entered by a transition that the state that is left does not hold up. -/
theorem depart_eq_enters {hasData : Bool} (h : M.depart s e d = .ok (.enters t hasData d₂)) :
    ∃ d₁, M.handle s e d = .ok (.transitionTo t hasData, d₁) ∧
      M.onLeave s e d₁ = .ok (.continue_, d₂) := by
  obtain ⟨action, d₁, hhandle, ⟨-, h⟩ | ⟨message, -, h⟩ |
    ⟨t', hasData', status, d', rfl, hleave, ⟨rfl, h⟩ | ⟨-, h⟩⟩⟩ := depart_ok h
  all_goals cases h
  exact ⟨d₁, hhandle, hleave⟩

/-- An event that does not lead to another state ends in `Handle` or in the `OnLeave` behind it. -/
theorem depart_eq_stays {status : Status} (h : M.depart s e d = .ok (.stays status d')) :
    ∃ action d₁, M.handle s e d = .ok (action, d₁) ∧
      (d' = d₁ ∧ (status = .continue_ ∨ ∃ message, status = .terminateWithError message) ∨
        ∃ t hasData, action = .transitionTo t hasData ∧ M.onLeave s e d₁ = .ok (status, d') ∧
          status ≠ .continue_) := by
  obtain ⟨action, d₁, hhandle, ⟨-, h⟩ | ⟨message, -, h⟩ |
    ⟨t, hasData, status', d₂, htransition, hleave, ⟨-, h⟩ | ⟨hne, h⟩⟩⟩ := depart_ok h
  all_goals cases h
  · exact ⟨action, _, hhandle, .inl ⟨rfl, .inl rfl⟩⟩
  · exact ⟨action, _, hhandle, .inl ⟨rfl, .inr ⟨message, rfl⟩⟩⟩
  · exact ⟨action, d₁, hhandle, .inr ⟨t, hasData, htransition, hleave, hne⟩⟩

/-- The event is done with in the state it came to, or the state it leads to is entered. -/
theorem step_eq_ok {status : Status} (h : M.step s e d = .ok (status, t, d')) :
    t = s ∧ M.depart s e d = .ok (.stays status d') ∨
      ∃ hasData d₂, M.depart s e d = .ok (.enters t hasData d₂) ∧
        M.onEnter t e hasData d₂ = .ok (status, d') := by
  cases hdepart : M.depart s e d with
  | error fault =>
      rw [StateMachine.step, hdepart] at h
      cases h
  | ok departure =>
      cases departure with
      | stays status' data =>
          rw [StateMachine.step, hdepart] at h
          cases h
          exact .inl ⟨rfl, rfl⟩
      | enters target hasData data =>
          rw [step_of_depart hdepart] at h
          cases henter : M.onEnter target e hasData data with
          | error fault =>
              rw [henter] at h
              cases h
          | ok q =>
              rw [henter] at h
              cases h
              exact .inr ⟨hasData, data, rfl, henter⟩

/-- Where the status of an event comes from. -/
theorem step_ok {status : Status} (h : M.step s e d = .ok (status, t, d')) :
    status = .continue_ ∨ (∃ message, status = .terminateWithError message) ∨
      (∃ d₁, M.onLeave s e d₁ = .ok (status, d')) ∨
      ∃ hasData d₁ d₂, M.handle s e d = .ok (.transitionTo t hasData, d₁) ∧
        M.onLeave s e d₁ = .ok (.continue_, d₂) ∧ M.onEnter t e hasData d₂ = .ok (status, d') := by
  obtain ⟨-, hdepart⟩ | ⟨hasData, d₂, hdepart, henter⟩ := step_eq_ok h
  · obtain ⟨action, d₁, -, ⟨-, hstatus | hstatus⟩ | ⟨target, hasData, -, hleave, -⟩⟩ :=
      depart_eq_stays hdepart
    · exact .inl hstatus
    · exact .inr (.inl hstatus)
    · exact .inr (.inr (.inl ⟨d₁, hleave⟩))
  · obtain ⟨d₁, hhandle, hleave⟩ := depart_eq_enters hdepart
    exact .inr (.inr (.inr ⟨hasData, d₁, d₂, hhandle, hleave, henter⟩))

/-- Without a transition to it, a state is not entered. -/
theorem not_enters_of_handle {action : Action S} (h : M.handle s e d = .ok (action, d₁))
    (hne : ∀ hasData, action ≠ .transitionTo t hasData) :
    ¬ ∃ hasData d₂, M.depart s e d = .ok (.enters t hasData d₂) := by
  rintro ⟨hasData, d₂, hdepart⟩
  obtain ⟨d', hhandle, -⟩ := depart_eq_enters hdepart
  rw [h] at hhandle
  cases hhandle
  exact hne hasData rfl

/-! ## What the callbacks preserve -/

/-- Every callback preserves `P` on this event. -/
structure PreservesOn (M : StateMachine (Except ε) S E D) (e : E) (P : D → Prop) : Prop where
  handle : ∀ {s d action d'}, P d → M.handle s e d = .ok (action, d') → P d'
  onLeave : ∀ {s d status d'}, P d → M.onLeave s e d = .ok (status, d') → P d'
  onEnter : ∀ {s hasData d status d'}, P d → M.onEnter s e hasData d = .ok (status, d') → P d'

/-- Every callback preserves `P`. -/
structure Preserves (M : StateMachine (Except ε) S E D) (P : D → Prop) : Prop where
  handle : ∀ {s e d action d'}, P d → M.handle s e d = .ok (action, d') → P d'
  onLeave : ∀ {s e d status d'}, P d → M.onLeave s e d = .ok (status, d') → P d'
  onEnter : ∀ {s e hasData d status d'}, P d → M.onEnter s e hasData d = .ok (status, d') → P d'

variable {P : D → Prop} {departure : Departure S D} {status : Status}

theorem Preserves.on (h : M.Preserves P) (e : E) : M.PreservesOn e P :=
  ⟨h.handle, h.onLeave, h.onEnter⟩

theorem PreservesOn.depart (h : M.PreservesOn e P) (hd : P d)
    (hdepart : M.depart s e d = .ok departure) : P departure.data := by
  obtain ⟨action, d₁, hhandle, ⟨-, rfl⟩ | ⟨message, -, rfl⟩ |
    ⟨t, hasData, status, d₂, -, hleave, ⟨-, rfl⟩ | ⟨-, rfl⟩⟩⟩ := depart_ok hdepart
  · exact h.handle hd hhandle
  · exact h.handle hd hhandle
  · exact h.onLeave (h.handle hd hhandle) hleave
  · exact h.onLeave (h.handle hd hhandle) hleave

/-- What every callback preserves on an event, handling the event preserves. -/
theorem PreservesOn.step (h : M.PreservesOn e P) (hd : P d)
    (hstep : M.step s e d = .ok (status, t, d')) : P d' := by
  obtain ⟨-, hdepart⟩ | ⟨hasData, d₂, hdepart, henter⟩ := step_eq_ok hstep
  · exact h.depart hd hdepart
  · exact h.onEnter (h.depart hd hdepart) henter

theorem Preserves.depart (h : M.Preserves P) (hd : P d) (hdepart : M.depart s e d = .ok departure) :
    P departure.data := (h.on e).depart hd hdepart

/-- **Invariant rule**: what every callback preserves, every step preserves. -/
theorem Preserves.step (h : M.Preserves P) (hd : P d) (hstep : M.step s e d = .ok (status, t, d')) :
    P d' := (h.on e).step hd hstep

/-! ## What holds in each state -/

/-- `In` holds in the current state, `Entering` when a state is about to be entered, and `Out` of
the data whatever becomes of the event. -/
structure StateInvariant (M : StateMachine (Except ε) S E D) (In Entering : S → D → Prop)
    (Out : D → Prop) : Prop where
  out : ∀ {s d}, In s d → Out d
  handle : ∀ {s e d action d'}, In s d → M.handle s e d = .ok (action, d') → In s d'
  leave : ∀ {s e d t hasData d₁ status d₂}, In s d →
    M.handle s e d = .ok (.transitionTo t hasData, d₁) → M.onLeave s e d₁ = .ok (status, d₂) →
    Out d₂ ∧ status ≠ .reissueEvent ∧ (status = .continue_ → Entering t d₂)
  enter : ∀ {t e hasData d status d'}, Entering t d →
    M.onEnter t e hasData d = .ok (status, d') →
    Out d' ∧ (status = .continue_ ∨ status = .reissueEvent → In t d')

/-- **Invariant rule**: an event that does not end the run leads from a state in which its invariant
holds to another such state. -/
theorem StateInvariant.step {In Entering : S → D → Prop} {Out : D → Prop}
    (h : M.StateInvariant In Entering Out) (hd : In s d)
    (hstep : M.step s e d = .ok (status, t, d')) :
    Out d' ∧ (status = .continue_ ∨ status = .reissueEvent → In t d') := by
  obtain ⟨rfl, hdepart⟩ | ⟨hasData, d₂, hdepart, henter⟩ := step_eq_ok hstep
  · obtain ⟨action, d₁, hhandle, ⟨rfl, -⟩ | ⟨target, hasData, rfl, hleave, hne⟩⟩ :=
      depart_eq_stays hdepart
    · exact ⟨h.out (h.handle hd hhandle), fun _ => h.handle hd hhandle⟩
    · obtain ⟨hout, hreissue, -⟩ := h.leave hd hhandle hleave
      exact ⟨hout, fun hstatus => absurd hstatus (not_or.mpr ⟨hne, hreissue⟩)⟩
  · obtain ⟨d₁, hhandle, hleave⟩ := depart_eq_enters hdepart
    obtain ⟨-, -, hentering⟩ := h.leave hd hhandle hleave
    exact h.enter (hentering rfl) henter

/-! ## States that clean up behind themselves -/

/-- `Reset s` says that nothing is left in the members of the state `s`.  The callbacks of a state
keep to the members of that state, and its `OnLeave` resets them when it lets the machine go on. -/
structure CleansUp (M : StateMachine (Except ε) S E D) (Reset : S → D → Prop) : Prop where
  handle : ∀ {s u e d action d'}, u ≠ s → Reset u d → M.handle s e d = .ok (action, d') → Reset u d'
  onLeave : ∀ {s u e d status d'}, u ≠ s → Reset u d → M.onLeave s e d = .ok (status, d') →
    Reset u d'
  onEnter : ∀ {s u e hasData d status d'}, u ≠ s → Reset u d →
    M.onEnter s e hasData d = .ok (status, d') → Reset u d'
  reset : ∀ {s e d d'}, M.onLeave s e d = .ok (.continue_, d') → Reset s d'

variable {Reset : S → D → Prop}

/-- A state that is entered finds nothing left in any state. -/
theorem CleansUp.enters {hasData : Bool} (h : M.CleansUp Reset) (hd : ∀ u, u ≠ s → Reset u d)
    (hdepart : M.depart s e d = .ok (.enters t hasData d')) (u : S) : Reset u d' := by
  obtain ⟨d₁, hhandle, hleave⟩ := depart_eq_enters hdepart
  by_cases hu : u = s
  · rw [hu]
    exact h.reset hleave
  · exact h.onLeave hu (h.handle hu (hd u hu) hhandle) hleave

/-- **Invariant rule**: whatever becomes of an event, only the state the machine is in afterwards
has something left in its members. -/
theorem CleansUp.step (h : M.CleansUp Reset) (hd : ∀ u, u ≠ s → Reset u d)
    (hstep : M.step s e d = .ok (status, t, d')) : ∀ u, u ≠ t → Reset u d' := by
  intro u hu
  obtain ⟨rfl, hdepart⟩ | ⟨hasData, d₂, hdepart, henter⟩ := step_eq_ok hstep
  · obtain ⟨action, d₁, hhandle, ⟨rfl, -⟩ | ⟨target, hasData, -, hleave, -⟩⟩ :=
      depart_eq_stays hdepart
    · exact h.handle hu (hd u hu) hhandle
    · exact h.onLeave hu (h.handle hu (hd u hu) hhandle) hleave
  · exact h.onEnter hu (h.enters hd hdepart u) henter

end

end StateMachine

end Fsm
