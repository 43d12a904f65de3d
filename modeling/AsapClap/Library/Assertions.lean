import AsapClap.Library.Fsm
import AsapClap.Library.Loop

/-!
# AsapClap.Library.Assertions

The same program with assertions and without.  `Guards E x y` says that the computation `x`
comes to what `y` comes to, unless an assertion of `x` fails; `E` are the errors that failing
assertions raise.  The rules follow the way computations are put together, up to the handling
of an event by a state machine; for loops see `LoopGuards`.
-/

namespace Assertions

variable {ε α β γ : Type}

/-- `x` is `y`, unless an assertion fails in it. -/
inductive Guards (E : ε → Prop) : Except ε α → Except ε α → Prop
  | same (x : Except ε α) : Guards E x x
  | fails {e : ε} (h : E e) (y : Except ε α) : Guards E (.error e) y

variable {E : ε → Prop} {x y : Except ε α}

theorem guards_iff : Guards E x y ↔ x = y ∨ ∃ e, E e ∧ x = .error e := by
  constructor
  · intro h
    cases h with
    | same => exact .inl rfl
    | fails h => exact .inr ⟨_, h, rfl⟩
  · rintro (rfl | ⟨e, h, rfl⟩)
    · exact .same x
    · exact .fails h y

/-! ## Computations -/

/-- **Sequencing**: assertions may fail in front or behind. -/
theorem Guards.bind {f g : α → Except ε β} (h : Guards E x y)
    (hf : ∀ a, y = .ok a → Guards E (f a) (g a)) : Guards E (x >>= f) (y >>= g) := by
  cases h with
  | same =>
      cases x with
      | ok a => exact hf a rfl
      | error e => exact .same _
  | fails h => exact .fails h _

theorem Guards.bind_same {f g : α → Except ε β} (x : Except ε α)
    (hf : ∀ a, x = .ok a → Guards E (f a) (g a)) : Guards E (x >>= f) (x >>= g) :=
  (Guards.same x).bind hf

theorem Guards.foldlM {f g : α → γ → Except ε α} {cs : List γ}
    (hstep : ∀ a, ∀ c ∈ cs, Guards E (f a c) (g a c)) (a : α) :
    Guards E (cs.foldlM f a) (cs.foldlM g a) := by
  induction cs generalizing a with
  | nil => exact .same _
  | cons c cs ih =>
      rw [List.foldlM_cons, List.foldlM_cons]
      have hcs : ∀ a, ∀ c' ∈ cs, Guards E (f a c') (g a c') :=
        fun a c' hc' => hstep a c' (List.mem_cons_of_mem c hc')
      exact (hstep a c List.mem_cons_self).bind fun a₁ _ => ih hcs a₁

/-! ## State machines -/

section

variable {S A D : Type} {M N : Fsm.StateMachine (Except ε) S A D}

/-- The callbacks of `M` are those of `N` with assertions. -/
structure Machine (E : ε → Prop) (M N : Fsm.StateMachine (Except ε) S A D) : Prop where
  handle : ∀ s e d, Guards E (M.handle s e d) (N.handle s e d)
  onLeave : ∀ s e d, Guards E (M.onLeave s e d) (N.onLeave s e d)
  onEnter : ∀ s e hasData d, Guards E (M.onEnter s e hasData d) (N.onEnter s e hasData d)

theorem Machine.depart (h : Machine E M N) (s : S) (e : A) (d : D) :
    Guards E (M.depart s e d) (N.depart s e d) := by
  refine (h.handle s e d).bind ?_
  intro p _
  obtain ⟨action, d₁⟩ := p
  cases action with
  | doNothing => exact .same _
  | reportError message => exact .same _
  | transitionTo target hasData => exact (h.onLeave s e d₁).bind fun _ _ => .same _

/-- A machine handles an event as it does without its assertions, unless one fails. -/
theorem Machine.step (h : Machine E M N) (s : S) (e : A) (d : D) :
    Guards E (M.step s e d) (N.step s e d) := by
  refine (h.depart s e d).bind ?_
  intro departure _
  cases departure with
  | stays status d₁ => exact .same _
  | enters target hasData d₁ => exact (h.onEnter target e hasData d₁).bind fun _ _ => .same _

end

/-! ## Loops -/

section

variable {σ ρ : Type} {F : ρ → Prop} {body body' : σ → σ ⊕ ρ} {s s' : σ} {r : ρ}

/-- A turn is the same in both loops, unless the first one leaves with a failing assertion. -/
def LoopGuards (F : ρ → Prop) (body body' : σ → σ ⊕ ρ) : Prop :=
  ∀ s, body s = body' s ∨ ∃ r, F r ∧ body s = .inr r

theorem LoopGuards.inl (h : LoopGuards F body body') (hturn : body s = .inl s') :
    body' s = .inl s' := by
  obtain heq | ⟨r, -, hfails⟩ := h s
  · rw [← heq, hturn]
  · rw [hturn] at hfails
    cases hfails

/-- The states of the guarded loop are states of the other one. -/
theorem LoopGuards.reaches (h : LoopGuards F body body') (hreach : Loop.Reaches body s s') :
    Loop.Reaches body' s s' := by
  refine Loop.invariant_of_reaches (fun s' => Loop.Reaches body' s s') (Loop.reaches_refl s) ?_
    hreach
  intro s₁ s₂ hreach₁ hturn
  exact hreach₁.trans (Loop.reaches_of_inl (h.inl hturn))

/-- What the guarded loop leaves with is a failing assertion or what the other one leaves
with. -/
theorem LoopGuards.returns (h : LoopGuards F body body') (hreturns : Loop.Returns body s r) :
    F r ∨ Loop.Returns body' s r := by
  obtain ⟨s', hreach, hlast⟩ := Loop.returns_iff_reaches.mp hreturns
  obtain heq | ⟨r', hF, hfails⟩ := h s'
  · exact .inr (Loop.returns_iff_reaches.mpr ⟨s', h.reaches hreach, heq.symm.trans hlast⟩)
  · rw [hlast] at hfails
    cases hfails
    exact .inl hF

end

end Assertions
