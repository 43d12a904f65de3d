import Mathlib.Data.List.AList

/-!
# AsapClap.Library.Multimap

Finite maps from a key to the values stored under it, in the order in which they
were stored.  A key is in the map exactly when it holds a value: the structure
carries that no key holds an empty list, so being stored at all and having a
value are one notion.
-/

/-- A finite map from keys to nonempty lists of values. -/
structure Multimap (α β : Type) where
  entries : AList fun _ : α => List β
  ne_nil : ∀ p ∈ entries.entries, p.2 ≠ []

namespace Multimap

variable {α β : Type}

instance : EmptyCollection (Multimap α β) := ⟨⟨∅, by simp⟩⟩

instance : Inhabited (Multimap α β) := ⟨∅⟩

variable [DecidableEq α]

/-- The values stored under a key, oldest first. -/
def values (m : Multimap α β) (k : α) : List β := (m.entries.lookup k).getD []

/-- Whether anything is stored under a key. -/
def contains (m : Multimap α β) (k : α) : Bool := (m.entries.lookup k).isSome

/-- Store one more value under a key: behind the values it has, or alone under a
new key. -/
def store (m : Multimap α β) (k : α) (v : β) : Multimap α β where
  entries := match m.entries.lookup k with
    | some vs => m.entries.insert k (vs ++ [v])
    | none => m.entries.insert k [v]
  ne_nil := by
    intro p hp
    cases h : m.entries.lookup k with
    | some vs =>
        simp only [h, AList.entries_insert, List.mem_cons] at hp
        obtain rfl | hp := hp
        · simp
        · exact m.ne_nil p (List.mem_of_mem_eraseP hp)
    | none =>
        simp only [h, AList.entries_insert, List.mem_cons] at hp
        obtain rfl | hp := hp
        · simp
        · exact m.ne_nil p (List.mem_of_mem_eraseP hp)

/-- Store a list of values, each under its key. -/
def storeAll (m : Multimap α β) (es : List (α × β)) : Multimap α β :=
  es.foldl (fun m e => m.store e.1 e.2) m

variable {m : Multimap α β} {k k' : α} {v : β}

@[simp] theorem values_empty : (∅ : Multimap α β).values k = [] := rfl

@[simp] theorem contains_empty : (∅ : Multimap α β).contains k = false := rfl

/-- A key is in the map exactly when it holds a value. -/
theorem contains_iff : m.contains k = true ↔ m.values k ≠ [] := by
  rw [contains, values]
  cases h : m.entries.lookup k with
  | none => simp
  | some vs =>
      have hmem : (⟨k, vs⟩ : Sigma fun _ : α => List β) ∈ m.entries.entries :=
        AList.mem_lookup_iff.mp h
      simpa using m.ne_nil _ hmem

/-- A key that is not there has no values. -/
theorem contains_eq_false_iff : m.contains k = false ↔ m.values k = [] := by
  rw [← Bool.not_eq_true, contains_iff, not_not]

/-- Storing under a key appends to its values and leaves every other key alone. -/
theorem values_store (m : Multimap α β) (k k' : α) (v : β) :
    (m.store k v).values k' = m.values k' ++ if k = k' then [v] else [] := by
  by_cases hk : k = k'
  · subst hk
    cases h : m.entries.lookup k <;> simp [values, store, h]
  · have hne : k' ≠ k := Ne.symm hk
    cases h : m.entries.lookup k <;> simp [values, store, h, hk, AList.lookup_insert_ne hne]

@[simp] theorem storeAll_nil (m : Multimap α β) : m.storeAll [] = m := rfl

@[simp] theorem storeAll_cons (m : Multimap α β) (e : α × β) (es : List (α × β)) :
    m.storeAll (e :: es) = (m.store e.1 e.2).storeAll es := rfl

/-- Entries are stored one after the other. -/
theorem storeAll_append (m : Multimap α β) (es es' : List (α × β)) :
    m.storeAll (es ++ es') = (m.storeAll es).storeAll es' :=
  List.foldl_append

/-- The values under a key after storing a list: those it had, then those of the
list, in order. -/
theorem values_storeAll (m : Multimap α β) (es : List (α × β)) (k : α) :
    (m.storeAll es).values k = m.values k ++ (es.filter fun e => e.1 = k).map Prod.snd := by
  induction es generalizing m with
  | nil => simp
  | cons e es ih =>
      rw [storeAll_cons, ih, values_store]
      by_cases hk : e.1 = k <;> simp [hk]

/-- The values under a key after storing what a list of sources yields: those of the
sources with that key. -/
theorem values_storeAll_filterMap {γ : Type} (m : Multimap α β) (key : γ → α)
    (f : γ → Option β) (xs : List γ) (k : α) :
    (m.storeAll (xs.filterMap fun x => (f x).map (key x, ·))).values k =
      m.values k ++ (xs.filter fun x => key x = k).filterMap f := by
  rw [values_storeAll]
  congr 1
  induction xs with
  | nil => rfl
  | cons x xs ih =>
      by_cases hk : key x = k <;> cases hf : f x <;> simp [hk, hf, ih]

end Multimap
