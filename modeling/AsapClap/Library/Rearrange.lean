import Mathlib.Data.List.Perm.Basic

/-!
# AsapClap.Library.Rearrange

Lists of items of which some belong to a group.  Whether an item fails depends on the items of
its own group in front of it, so a list is `Rearranges` without harm by moving items past those
of other groups: its first failure is the first failure of some group, and which group comes
first does not matter exactly if all that fail do so in the same way.
-/

namespace Rearrange

variable {α κ φ : Type} [DecidableEq κ] {group : α → Option κ} {judge : List α → α → Option φ}
  {before l l' : List α} {a : α} {e : φ} {k : κ}

/-- The items of a group, in their order. -/
def members (group : α → Option κ) (k : κ) (l : List α) : List α :=
  l.filter fun a => group a = some k

/-- The same items, and those of each group in the same order. -/
structure Rearranges (group : α → Option κ) (l l' : List α) : Prop where
  perm : l'.Perm l
  members_eq : ∀ k, members group k l' = members group k l

/-- The first failure in a list, behind the items there are before it. -/
def firstFailure (judge : List α → α → Option φ) : List α → List α → Option φ
  | _, [] => none
  | before, a :: l => (judge before a).or (firstFailure judge (before ++ [a]) l)

/-- What becomes of an item is up to its own group. -/
structure Local (group : α → Option κ) (judge : List α → α → Option φ) : Prop where
  member : ∀ before a k, group a = some k → judge before a = judge (members group k before) a
  free : ∀ before a, group a = none → judge before a = judge [] a

/-- A group, or an item without one, fails in this way if it comes first. -/
def CanFail (group : α → Option κ) (judge : List α → α → Option φ) (before l : List α) (e : φ) :
    Prop :=
  (∃ k, firstFailure judge (members group k before) (members group k l) = some e) ∨
    ∃ a ∈ l, group a = none ∧ judge [] a = some e

/-! ## Members -/

theorem members_append (group : α → Option κ) (k : κ) (l l' : List α) :
    members group k (l ++ l') = members group k l ++ members group k l' := List.filter_append ..

theorem members_cons_of_eq (h : group a = some k) (l : List α) :
    members group k (a :: l) = a :: members group k l := List.filter_cons_of_pos (by simp [h])

theorem members_cons_of_ne (h : group a ≠ some k) (l : List α) :
    members group k (a :: l) = members group k l := List.filter_cons_of_neg (by simp [h])

theorem members_concat_of_eq (h : group a = some k) (l : List α) :
    members group k (l ++ [a]) = members group k l ++ [a] := by
  rw [members_append, members_cons_of_eq h]
  rfl

theorem members_concat_of_ne (h : group a ≠ some k) (l : List α) :
    members group k (l ++ [a]) = members group k l := by
  rw [members_append, members_cons_of_ne h]
  exact List.append_nil _

/-! ## First failures -/

theorem firstFailure_append (before l l' : List α) :
    firstFailure judge before (l ++ l') =
      (firstFailure judge before l).or (firstFailure judge (before ++ l) l') := by
  induction l generalizing before with
  | nil => simp [firstFailure]
  | cons a l ih =>
      rw [List.cons_append, firstFailure, firstFailure, ih, Option.or_assoc, List.append_assoc]
      rfl

/-- The members of a group do not see the others. -/
theorem firstFailure_members (hlocal : Local group judge) (before l : List α) :
    firstFailure judge before (members group k l) =
      firstFailure judge (members group k before) (members group k l) := by
  induction l generalizing before with
  | nil => rfl
  | cons a l ih =>
      by_cases hk : group a = some k
      · rw [members_cons_of_eq hk, firstFailure, firstFailure, hlocal.member before a k hk, ih,
          members_concat_of_eq hk]
      · rw [members_cons_of_ne hk, ih]

/-- An item that does not fail makes no difference to what can. -/
theorem canFail_cons_of_none (hlocal : Local group judge) (h : judge before a = none) :
    CanFail group judge before (a :: l) e ↔ CanFail group judge (before ++ [a]) l e := by
  have hgroups : ∀ k, firstFailure judge (members group k before) (members group k (a :: l)) =
      firstFailure judge (members group k (before ++ [a])) (members group k l) := by
    intro k
    by_cases hk : group a = some k
    · have hjudge := (hlocal.member before a k hk).symm.trans h
      rw [members_cons_of_eq hk, members_concat_of_eq hk, firstFailure, hjudge, Option.none_or]
    · rw [members_cons_of_ne hk, members_concat_of_ne hk]
  have hfree : ¬ (group a = none ∧ judge [] a = some e) := by
    rintro ⟨hnone, hfails⟩
    rw [← hlocal.free before a hnone, h] at hfails
    cases hfails
  simp only [CanFail, hgroups, List.mem_cons, or_and_right, exists_or, exists_eq_left, hfree,
    false_or]

/-- The first failure is that of some group. -/
theorem canFail_of_firstFailure (hlocal : Local group judge)
    (h : firstFailure judge before l = some e) : CanFail group judge before l e := by
  induction l generalizing before with
  | nil => cases h
  | cons a l ih =>
      rw [firstFailure] at h
      cases hjudge : judge before a with
      | none =>
          rw [hjudge, Option.none_or] at h
          exact (canFail_cons_of_none hlocal hjudge).mpr (ih h)
      | some e' =>
          obtain rfl : e' = e := by simpa [hjudge] using h
          cases hgroup : group a with
          | none =>
              have hfails := (hlocal.free before a hgroup).symm.trans hjudge
              exact .inr ⟨a, List.mem_cons_self, hgroup, hfails⟩
          | some k =>
              have hfails := (hlocal.member before a k hgroup).symm.trans hjudge
              refine .inl ⟨k, ?_⟩
              rw [members_cons_of_eq hgroup, firstFailure, hfails, Option.some_or]

/-- Where a group can fail, something does. -/
theorem firstFailure_ne_none (hlocal : Local group judge) (h : CanFail group judge before l e) :
    firstFailure judge before l ≠ none := by
  induction l generalizing before with
  | nil =>
      obtain ⟨k, h⟩ | ⟨a, ha, -⟩ := h
      · cases h
      · cases ha
  | cons a l ih =>
      rw [firstFailure]
      cases hjudge : judge before a with
      | some e' => simp
      | none =>
          rw [Option.none_or]
          exact ih ((canFail_cons_of_none hlocal hjudge).mp h)

/-! ## Rearranging -/

theorem Rearranges.canFail_iff (h : Rearranges group l l') :
    CanFail group judge before l' e ↔ CanFail group judge before l e := by
  simp only [CanFail, h.members_eq, h.perm.mem_iff]

/-- Any group can be put in front. -/
theorem rearranges_group (k : κ) (l : List α) :
    Rearranges group l (members group k l ++ l.filter fun a => !decide (group a = some k)) where
  perm := List.filter_append_perm ..
  members_eq k' := by
    rw [members_append, members, members, members, List.filter_filter, List.filter_filter]
    by_cases hk : k' = k
    · subst hk
      simp only [Bool.and_self, Bool.and_not_self, List.filter_false, List.append_nil]
      rfl
    · have hnone : l.filter (fun a => decide (group a = some k') && decide (group a = some k)) =
          [] := by
        rw [List.filter_eq_nil_iff]
        intro a _
        simp only [Bool.and_eq_true, decide_eq_true_eq, not_and]
        intro h h'
        exact hk (Option.some.inj (h.symm.trans h'))
      rw [hnone, List.nil_append]
      refine List.filter_congr fun a _ => ?_
      by_cases h : group a = some k'
      · have hne : group a ≠ some k := fun h' => hk (Option.some.inj (h.symm.trans h'))
        simp [h, hk]
      · simp [h]

/-- So can an item without a group. -/
theorem rearranges_free {s t : List α} (h : group a = none) :
    Rearranges group (s ++ a :: t) (a :: (s ++ t)) where
  perm := List.perm_middle.symm
  members_eq k := by
    have hne : group a ≠ some k := by simp [h]
    rw [members_cons_of_ne hne, members_append, members_append, members_cons_of_ne hne]

theorem exists_rearranges_of_canFail (hlocal : Local group judge)
    (h : CanFail group judge before l e) :
    ∃ l', Rearranges group l l' ∧ firstFailure judge before l' = some e := by
  obtain ⟨k, h⟩ | ⟨a, ha, hgroup, h⟩ := h
  · refine ⟨_, rearranges_group k l, ?_⟩
    rw [firstFailure_append, firstFailure_members hlocal, h, Option.some_or]
  · obtain ⟨s, t, rfl⟩ := List.append_of_mem ha
    refine ⟨_, rearranges_free hgroup, ?_⟩
    rw [firstFailure, hlocal.free before a hgroup, h, Option.some_or]

/-- **Order does not matter** for the first failure exactly if everything that can fail fails in
the same way. -/
theorem firstFailure_eq_iff (hlocal : Local group judge) (before l : List α) :
    (∀ l₁ l₂, Rearranges group l l₁ → Rearranges group l l₂ →
        firstFailure judge before l₁ = firstFailure judge before l₂) ↔
      ∀ e₁ e₂, CanFail group judge before l e₁ → CanFail group judge before l e₂ → e₁ = e₂ := by
  constructor
  · intro h e₁ e₂ h₁ h₂
    obtain ⟨l₁, hl₁, hfirst₁⟩ := exists_rearranges_of_canFail hlocal h₁
    obtain ⟨l₂, hl₂, hfirst₂⟩ := exists_rearranges_of_canFail hlocal h₂
    have hsame := h l₁ l₂ hl₁ hl₂
    rw [hfirst₁, hfirst₂] at hsame
    exact Option.some.inj hsame
  · intro h l₁ l₂ hl₁ hl₂
    have hcan : ∀ {l'}, Rearranges group l l' → ∀ {e}, firstFailure judge before l' = some e →
        CanFail group judge before l e :=
      fun hl' _ hfirst => hl'.canFail_iff.mp (canFail_of_firstFailure hlocal hfirst)
    cases hfirst₁ : firstFailure judge before l₁ with
    | none =>
        cases hfirst₂ : firstFailure judge before l₂ with
        | none => rfl
        | some e₂ =>
            have hfails := hl₁.canFail_iff.mpr (hcan hl₂ hfirst₂)
            exact absurd hfirst₁ (firstFailure_ne_none hlocal hfails)
    | some e₁ =>
        cases hfirst₂ : firstFailure judge before l₂ with
        | none =>
            have hfails := hl₂.canFail_iff.mpr (hcan hl₁ hfirst₁)
            exact absurd hfirst₂ (firstFailure_ne_none hlocal hfails)
        | some e₂ => rw [h e₁ e₂ (hcan hl₁ hfirst₁) (hcan hl₂ hfirst₂)]

end Rearrange
