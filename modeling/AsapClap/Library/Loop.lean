import Mathlib.Logic.Relation

/-!
# AsapClap.Library.Loop

`do … while` loops as a body on an explicit state: one turn of the body either
goes round again with a new state (`.inl`) or leaves the loop with a result
(`.inr`).  Nothing is assumed about termination, so a loop has three views:

* `run` — at most `fuel` turns, computable;
* `Reaches` — the states the loop head sees, `after` so many turns;
* `Returns` / `Diverges` — what the loop does when nobody counts turns.

The rules below are what a verification of a concrete loop uses: an invariant
holds of every reachable state, a result is unique, a result is exactly what
some reachable state leaves with, and an invariant under which the body always
goes round again makes the loop diverge.
-/

namespace Loop

variable {σ ρ : Type} {body : σ → σ ⊕ ρ} {s s' : σ} {r r' : ρ}

/-! ## Running -/

/-- Run the loop for at most `fuel` turns; `none` when it has not left by then. -/
def run (body : σ → σ ⊕ ρ) : Nat → σ → Option ρ
  | 0, _ => none
  | fuel + 1, s => match body s with
      | .inl s' => run body fuel s'
      | .inr r => some r

/-- The loop started in `s` leaves with `r`. -/
def Returns (body : σ → σ ⊕ ρ) (s : σ) (r : ρ) : Prop := ∃ fuel, run body fuel s = some r

/-- The loop started in `s` never leaves. -/
def Diverges (body : σ → σ ⊕ ρ) (s : σ) : Prop := ∀ fuel, run body fuel s = none

/-- What the loop started in `s` comes to: a result, or none for ever. -/
def Outcome (body : σ → σ ⊕ ρ) (s : σ) : Option ρ → Prop
  | some r => Returns body s r
  | none => Diverges body s

/-- The states seen at the loop head when the loop is started in `s`. -/
def Reaches (body : σ → σ ⊕ ρ) : σ → σ → Prop :=
  Relation.ReflTransGen fun s s' => body s = .inl s'

/-! ## One turn -/

theorem returns_of_inr (h : body s = .inr r) : Returns body s r :=
  ⟨1, by simp [run, h]⟩

/-- A turn that goes round again does not change what the loop leaves with. -/
theorem returns_iff_of_inl (h : body s = .inl s') : Returns body s r ↔ Returns body s' r := by
  constructor
  · rintro ⟨fuel, hrun⟩
    cases fuel with
    | zero => simp [run] at hrun
    | succ fuel => exact ⟨fuel, by simpa [run, h] using hrun⟩
  · rintro ⟨fuel, hrun⟩
    exact ⟨fuel + 1, by simpa [run, h] using hrun⟩

theorem reaches_refl (s : σ) : Reaches body s s := Relation.ReflTransGen.refl

theorem reaches_of_inl (h : body s = .inl s') : Reaches body s s' :=
  Relation.ReflTransGen.single h

theorem Reaches.trans {s₁ s₂ s₃ : σ} (h₁ : Reaches body s₁ s₂) (h₂ : Reaches body s₂ s₃) :
    Reaches body s₁ s₃ := Relation.ReflTransGen.trans h₁ h₂

/-! ## Whole runs -/

/-- **Invariant rule**: what holds at the start and is preserved by every turn
that goes round again holds of every reachable state. -/
theorem invariant_of_reaches (Inv : σ → Prop) (h₀ : Inv s)
    (hstep : ∀ s s', Inv s → body s = .inl s' → Inv s') (h : Reaches body s s') : Inv s' := by
  induction h with
  | refl => exact h₀
  | tail _ hturn ih => exact hstep _ _ ih hturn

/-- The state after so many turns, if the loop is still running. -/
def after (body : σ → σ ⊕ ρ) : Nat → σ → Option σ
  | 0, s => some s
  | n + 1, s => match body s with
      | .inl s' => after body n s'
      | .inr _ => none

/-- The states a loop goes through are reached. -/
theorem reaches_of_after {n : Nat} (h : after body n s = some s') : Reaches body s s' := by
  induction n generalizing s with
  | zero =>
      cases h
      exact reaches_refl s'
  | succ n ih =>
      rw [after] at h
      split at h
      · next s₁ hturn => exact (reaches_of_inl hturn).trans (ih h)
      · cases h

/-- A loop that leaves at once reaches nothing else. -/
theorem forall_reaches_of_inr {P : σ → Prop} (h : body s = .inr r) (h₀ : P s) :
    ∀ s', Reaches body s s' → P s' := by
  intro s' hreach
  obtain rfl | ⟨s₁, hturn, -⟩ := hreach.cases_head
  · exact h₀
  · simp [h] at hturn

/-- A loop that goes round again reaches its first state and what it reaches from the
next. -/
theorem forall_reaches_of_inl {P : σ → Prop} (h : body s = .inl s') (h₀ : P s)
    (hrest : ∀ s'', Reaches body s' s'' → P s'') : ∀ s'', Reaches body s s'' → P s'' := by
  intro s'' hreach
  obtain rfl | ⟨s₁, hturn, hreach⟩ := hreach.cases_head
  · exact h₀
  · obtain rfl : s' = s₁ := by simpa [h] using hturn
    exact hrest s'' hreach

/-- A reachable state leaves with what the whole loop leaves with. -/
theorem returns_iff_of_reaches (h : Reaches body s s') :
    Returns body s r ↔ Returns body s' r := by
  induction h with
  | refl => exact Iff.rfl
  | tail _ hturn ih => exact ih.trans (returns_iff_of_inl hturn)

/-- The loop leaves with `r` exactly when some reachable state does. -/
theorem returns_iff_reaches : Returns body s r ↔ ∃ s', Reaches body s s' ∧ body s' = .inr r := by
  constructor
  · rintro ⟨fuel, hrun⟩
    induction fuel generalizing s with
    | zero => simp [run] at hrun
    | succ fuel ih =>
        cases hb : body s with
        | inl s₁ =>
            obtain ⟨s', hreach, hlast⟩ := ih (by simpa [run, hb] using hrun)
            exact ⟨s', (reaches_of_inl hb).trans hreach, hlast⟩
        | inr r₁ =>
            have hr : r₁ = r := by simpa [run, hb] using hrun
            exact ⟨s, reaches_refl s, by rw [hb, hr]⟩
  · rintro ⟨s', hreach, hlast⟩
    exact (returns_iff_of_reaches hreach).mpr (returns_of_inr hlast)

/-- A loop whose states are known turn by turn reaches the last of them. -/
theorem reaches_of_turns {state : Nat → σ} {n : Nat}
    (hturn : ∀ i < n, body (state i) = .inl (state (i + 1))) :
    Reaches body (state 0) (state n) := by
  induction n with
  | zero => exact reaches_refl _
  | succ n ih =>
      have hreach := ih fun i hi => hturn i (Nat.lt_succ_of_lt hi)
      exact hreach.trans (reaches_of_inl (hturn n (Nat.lt_succ_self n)))

/-- **Counting rule**: it leaves with what the last of them leaves with. -/
theorem returns_of_turns {state : Nat → σ} {n : Nat}
    (hturn : ∀ i < n, body (state i) = .inl (state (i + 1))) (hlast : body (state n) = .inr r) :
    Returns body (state 0) r :=
  returns_iff_reaches.mpr ⟨state n, reaches_of_turns hturn, hlast⟩

/-- A loop leaves in at most one state. -/
theorem eq_of_reaches_of_inr {s₁ s₂ : σ} (h₁ : Reaches body s s₁) (h₂ : Reaches body s s₂)
    (hlast₁ : body s₁ = .inr r) (hlast₂ : body s₂ = .inr r') : s₁ = s₂ := by
  have hunique : Relator.RightUnique fun s s' => body s = .inl s' := by
    intro a b c hb hc
    exact Sum.inl.inj (hb.symm.trans hc)
  obtain h | h := Relation.ReflTransGen.total_of_right_unique hunique h₁ h₂
  · obtain rfl | ⟨s', hturn, -⟩ := h.cases_head
    · rfl
    · simp [hlast₁] at hturn
  · obtain rfl | ⟨s', hturn, -⟩ := h.cases_head
    · rfl
    · simp [hlast₂] at hturn

/-- A loop leaves with at most one result. -/
theorem returns_unique (h : Returns body s r) (h' : Returns body s r') : r = r' := by
  obtain ⟨s₁, hreach, hlast⟩ := returns_iff_reaches.mp h
  rw [returns_iff_of_reaches hreach] at h'
  obtain ⟨fuel, hrun⟩ := h'
  cases fuel with
  | zero => simp [run] at hrun
  | succ fuel => simpa [run, hlast] using hrun

/-- A loop that diverges leaves with nothing. -/
theorem diverges_iff : Diverges body s ↔ ∀ r, ¬ Returns body s r := by
  constructor
  · rintro h r ⟨fuel, hrun⟩
    simp [h fuel] at hrun
  · intro h fuel
    cases hrun : run body fuel s with
    | none => rfl
    | some r => exact absurd ⟨fuel, hrun⟩ (h r)

/-- **Divergence rule**: an invariant under which the body always goes round
again keeps the loop running for ever. -/
theorem diverges_of_invariant (Inv : σ → Prop) (h₀ : Inv s)
    (hstep : ∀ s, Inv s → ∃ s', body s = .inl s' ∧ Inv s') : Diverges body s := by
  intro fuel
  induction fuel generalizing s with
  | zero => rfl
  | succ fuel ih =>
      obtain ⟨s', hb, hinv⟩ := hstep s h₀
      simpa [run, hb] using ih hinv

/-- A loop that leaves with `r` from a state it reaches never diverges. -/
theorem not_diverges_of_returns (h : Returns body s r) : ¬ Diverges body s :=
  fun hdiv => diverges_iff.mp hdiv r h

/-- More fuel does no harm. -/
theorem run_mono {fuel fuel' : Nat} (h : run body fuel s = some r) (hle : fuel ≤ fuel') :
    run body fuel' s = some r := by
  induction fuel generalizing s fuel' with
  | zero => simp [run] at h
  | succ fuel ih =>
      obtain ⟨fuel', rfl⟩ : ∃ n, fuel' = n + 1 := ⟨fuel' - 1, by omega⟩
      rw [run] at h ⊢
      cases hbody : body s with
      | inl s' =>
          rw [hbody] at h
          exact ih h (by omega)
      | inr r' =>
          rw [hbody] at h
          exact h

/-- **Variant rule**: a loop that leaves does so within the turns a variant allows, where every turn
that goes round again lets it fall, except for those from which the loop never leaves. -/
theorem run_of_variant (Inv : σ → Nat → Prop)
    (hstep : ∀ s n, Inv s n → (∃ s' m, body s = .inl s' ∧ Inv s' m ∧ m < n) ∨
      (∃ r, body s = .inr r) ∨ Diverges body s) {n : Nat} (h : Inv s n)
    (hreturns : Returns body s r) : run body (n + 1) s = some r := by
  induction n using Nat.strongRecOn generalizing s with
  | ind n ih =>
      obtain ⟨s', m, hbody, hinv, hlt⟩ | ⟨r', hbody⟩ | hdiverges := hstep s n h
      · have hrun := ih m hlt hinv ((returns_iff_of_inl hbody).mp hreturns)
        rw [run, hbody]
        exact run_mono hrun hlt
      · obtain rfl := returns_unique (returns_of_inr hbody) hreturns
        rw [run, hbody]
      · exact absurd hreturns (diverges_iff.mp hdiverges r)

theorem diverges_iff_of_inl (h : body s = .inl s') : Diverges body s ↔ Diverges body s' := by
  simp only [diverges_iff, returns_iff_of_inl h]

/-- A turn that goes round again does not change what the loop comes to. -/
theorem outcome_iff_of_inl (h : body s = .inl s') {o : Option ρ} :
    Outcome body s o ↔ Outcome body s' o := by
  cases o with
  | none => exact diverges_iff_of_inl h
  | some r => exact returns_iff_of_inl h

/-- A loop comes to one thing only. -/
theorem outcome_unique {o o' : Option ρ} (h : Outcome body s o) (h' : Outcome body s o') :
    o = o' := by
  cases o with
  | none =>
      cases o' with
      | none => rfl
      | some r => exact absurd h (not_diverges_of_returns h')
  | some r =>
      cases o' with
      | none => exact absurd h' (not_diverges_of_returns h)
      | some r' => exact congrArg some (returns_unique h h')

/-! ## Ghost variables -/

section

variable {γ : Type} {update : σ → γ → γ} {g g' : γ}

/-- A loop with a variable that the body does not read, updated at every turn that goes round
again. -/
def withGhost (body : σ → σ ⊕ ρ) (update : σ → γ → γ) (p : σ × γ) : (σ × γ) ⊕ ρ :=
  match body p.1 with
  | .inl s' => .inl (s', update p.1 p.2)
  | .inr r => .inr r

theorem withGhost_eq_inl_iff {p : σ × γ} :
    withGhost body update p = .inl (s', g') ↔ body p.1 = .inl s' ∧ update p.1 p.2 = g' := by
  unfold withGhost
  cases body p.1 <;> simp

/-- Every state the loop reaches comes with a value of the ghost variable. -/
theorem exists_reaches_withGhost (h : Reaches body s s') (g : γ) :
    ∃ g', Reaches (withGhost body update) (s, g) (s', g') := by
  induction h with
  | refl => exact ⟨g, reaches_refl _⟩
  | @tail s₁ s₂ _ hturn ih =>
      obtain ⟨g₁, hreach⟩ := ih
      have hghost : withGhost body update (s₁, g₁) = .inl (s₂, update s₁ g₁) :=
        withGhost_eq_inl_iff.mpr ⟨hturn, rfl⟩
      exact ⟨update s₁ g₁, hreach.trans (reaches_of_inl hghost)⟩

end

end Loop
