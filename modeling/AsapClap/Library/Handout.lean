import Mathlib.Data.List.Basic

/-!
# AsapClap.Library.Handout

Objects that are made by a sequence of calls and then handed out.  What makes them
keeps the object behind a pointer that it gives up, so it is in one of three states
(`Owner`); a `Maker` is what its calls do, and `Spent` is what one expects of it when
the object is out: every call is stopped, and the object stays as it is.
-/

namespace Handout

/-! ## Giving up a pointer -/

/-- An object behind a pointer that can be given up. -/
inductive Owner (α : Type)
  | holds (a : α)
  /-- the object was handed out -/
  | gave (a : α)
  /-- the object went on to another owner -/
  | passedOn
  deriving DecidableEq, Repr

namespace Owner

variable {α : Type}

/-- The pointer, null when it was given up. -/
def held : Owner α → Option α
  | holds a => some a
  | gave _ | passedOn => none

/-- The object, once it is out. -/
def given : Owner α → Option α
  | gave a => some a
  | holds _ | passedOn => none

/-- Give the pointer up, to whoever asks for the object. -/
def give : Owner α → Owner α
  | holds a | gave a => gave a
  | passedOn => passedOn

/-- Once the object is out, the pointer is null. -/
theorem held_of_given {owner : Owner α} (h : owner.given.isSome) : owner.held = none := by
  cases owner with
  | holds a => cases h
  | gave a => rfl
  | passedOn => rfl

end Owner

/-! ## Makers -/

/-- What a call does, and the object as whoever it was handed out to sees it. -/
structure Maker (σ κ ο ε : Type) where
  call : σ → κ → Except ε σ
  handedOut : σ → Option ο

namespace Maker

variable {σ κ ο ε : Type} {m : Maker σ κ ο ε} {s s' : σ} {stop : ε} {calls later : List κ}

/-- One call after the other. -/
def run (m : Maker σ κ ο ε) (s : σ) (calls : List κ) : Except ε σ := calls.foldlM m.call s

@[simp] theorem run_nil : m.run s [] = .ok s := rfl

theorem run_cons {next : κ} : m.run s (next :: calls) = m.call s next >>= (m.run · calls) := rfl

/-- No call gets anywhere, and nothing happens to the object. -/
structure Spent (m : Maker σ κ ο ε) (stop : ε) (s : σ) (later : List κ) : Prop where
  stopped : ∀ before next after, later = before ++ next :: after →
    ∀ s', m.run s before = .ok s' → m.call s' next = .error stop
  unchanged : ∀ before after, later = before ++ after →
    ∀ s', m.run s before = .ok s' → m.handedOut s' = m.handedOut s

/-- If the first call is stopped, there is no other one. -/
theorem spent_iff : m.Spent stop s later ↔ ∀ next ∈ later.head?, m.call s next = .error stop := by
  constructor
  · intro h next hnext
    obtain ⟨after, rfl⟩ := List.head?_eq_some_iff.mp hnext
    exact h.stopped [] next after rfl s rfl
  · intro hfirst
    have hnothing : ∀ before after s', later = before ++ after → m.run s before = .ok s' →
        before = [] ∧ s' = s := by
      intro before after s' hlater hrun
      cases before with
      | nil =>
          cases hrun
          exact ⟨rfl, rfl⟩
      | cons next before =>
          have hstop := hfirst next (by rw [hlater]; rfl)
          rw [run_cons, hstop] at hrun
          cases hrun
    constructor
    · intro before next after hlater s' hrun
      obtain ⟨rfl, rfl⟩ := hnothing before (next :: after) s' hlater hrun
      exact hfirst next (by rw [hlater]; rfl)
    · intro before after hlater s' hrun
      obtain ⟨-, rfl⟩ := hnothing before after s' hlater hrun
      rfl

/-- Whatever calls led to handing the object out, the maker is spent for the calls that begin with
one of these, and for no others. -/
def SpentFor (m : Maker σ κ ο ε) (stop : ε) (new : σ → Prop) (Guarded : κ → Prop) : Prop :=
  ∀ s₀ calls s, new s₀ → m.run s₀ calls = .ok s → (m.handedOut s).isSome →
    ∀ later, m.Spent stop s later ↔ ∀ next ∈ later.head?, Guarded next

/-- Calls that change the object while it is held. -/
theorem run_map_holds {α γ : Type} {m : Maker (Owner α) κ ο ε} (f : α → γ → α) (lift : γ → κ)
    (h : ∀ a c, m.call (.holds a) (lift c) = .ok (.holds (f a c))) (a : α) (cs : List γ) :
    m.run (.holds a) (cs.map lift) = .ok (.holds (cs.foldl f a)) := by
  induction cs generalizing a with
  | nil => rfl
  | cons c cs ih =>
      rw [List.map_cons, run_cons, h]
      exact ih (f a c)

theorem run_concat {next : κ} (h : m.run s calls = .ok s') :
    m.run s (calls ++ [next]) = m.call s' next := by
  rw [run, List.foldlM_append]
  change m.run s calls >>= _ = _
  rw [h]
  change m.call s' next >>= pure = _
  cases m.call s' next <;> rfl

/-- It is enough to know which calls are stopped once the object is out. -/
theorem spentFor_of_call {new : σ → Prop} {Guarded : κ → Prop}
    (h : ∀ s next, (m.handedOut s).isSome → (m.call s next = .error stop ↔ Guarded next)) :
    m.SpentFor stop new Guarded := by
  intro s₀ calls s _ _ hout later
  rw [spent_iff]
  exact forall₂_congr fun next _ => h s next hout

end Maker

end Handout
