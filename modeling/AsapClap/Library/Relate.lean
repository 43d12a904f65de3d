import Mathlib.Data.List.Basic

/-!
# AsapClap.Library.Relate

Two fallible computations side by side.  `Agree E R x y` says that both succeed, with
results that `R` relates, or both fail, with errors that `E` relates; the rules follow the
way computations are put together.
-/

namespace Relate

variable {ε ε' α α' β β' γ : Type}

/-- Both computations succeed and `R` relates the results, or both fail and `E` relates the
errors. -/
inductive Agree (E : ε → ε' → Prop) (R : α → α' → Prop) : Except ε α → Except ε' α' → Prop
  | ok {a : α} {a' : α'} (h : R a a') : Agree E R (.ok a) (.ok a')
  | error {e : ε} {e' : ε'} (h : E e e') : Agree E R (.error e) (.error e')

variable {E : ε → ε' → Prop} {R : α → α' → Prop} {S : β → β' → Prop} {x : Except ε α}
  {x' : Except ε' α'}

theorem Agree.mono {E' : ε → ε' → Prop} {R' : α → α' → Prop} (h : Agree E R x x')
    (hE : ∀ e e', E e e' → E' e e') (hR : ∀ a a', R a a' → R' a a') : Agree E' R' x x' := by
  cases h with
  | ok h => exact .ok (hR _ _ h)
  | error h => exact .error (hE _ _ h)

/-- Where nothing is said of results and errors, it is enough that one succeeds if the other
does. -/
theorem Agree.of_exists_iff {x : Except ε α} {x' : Except ε' α'}
    (h : (∃ a, x = .ok a) ↔ ∃ a', x' = .ok a') :
    Agree (fun _ _ => True) (fun _ _ => True) x x' := by
  cases x with
  | ok a =>
      obtain ⟨a', rfl⟩ := h.mp ⟨a, rfl⟩
      exact .ok trivial
  | error e =>
      cases x' with
      | ok a' =>
          obtain ⟨a, ha⟩ := h.mpr ⟨a', rfl⟩
          cases ha
      | error e' => exact .error trivial

/-- The results that are related are those of the computations. -/
theorem Agree.attach (h : Agree E R x x') :
    Agree E (fun a a' => x = .ok a ∧ x' = .ok a' ∧ R a a') x x' := by
  cases h with
  | ok h => exact .ok ⟨rfl, rfl, h⟩
  | error h => exact .error h

/-- **Sequencing**: related results go into steps that agree. -/
theorem Agree.bind {f : α → Except ε β} {f' : α' → Except ε' β'} (h : Agree E R x x')
    (hf : ∀ a a', x = .ok a → x' = .ok a' → R a a' → Agree E S (f a) (f' a')) :
    Agree E S (x >>= f) (x' >>= f') := by
  cases h with
  | ok h => exact hf _ _ rfl rfl h
  | error h => exact .error h

/-- The same computation in front. -/
theorem Agree.bind_same {E : ε → ε → Prop} {f : α → Except ε β} {f' : α → Except ε β'}
    (hE : ∀ e, E e e) (x : Except ε α) (hf : ∀ a, x = .ok a → Agree E S (f a) (f' a)) :
    Agree E S (x >>= f) (x >>= f') := by
  cases x with
  | ok a => exact hf a rfl
  | error e => exact .error (hE e)

/-- **Loops**: steps that agree on related states make loops that do. -/
theorem Agree.foldlM {f : α → γ → Except ε α} {f' : α' → γ → Except ε' α'} {xs : List γ}
    (hstep : ∀ a a', ∀ c ∈ xs, R a a' → Agree E R (f a c) (f' a' c)) {a : α} {a' : α'}
    (h : R a a') : Agree E R (xs.foldlM f a) (xs.foldlM f' a') := by
  induction xs generalizing a a' with
  | nil => exact .ok h
  | cons c xs ih =>
      rw [List.foldlM_cons, List.foldlM_cons]
      obtain ⟨hc, hxs⟩ : (∀ a a', R a a' → Agree E R (f a c) (f' a' c)) ∧
          ∀ a a', ∀ c ∈ xs, R a a' → Agree E R (f a c) (f' a' c) :=
        ⟨fun a a' => hstep a a' c (by simp), fun a a' c hc => hstep a a' c (by simp [hc])⟩
      exact (hc a a' h).bind fun a₁ a₁' _ _ h₁ => ih hxs h₁

end Relate
