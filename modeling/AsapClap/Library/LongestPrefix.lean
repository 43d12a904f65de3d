import Mathlib.Data.List.Infix
import Mathlib.Data.List.TakeWhile

/-!
# AsapClap.Library.LongestPrefix

Entries registered at paths, and what a typed sequence selects among them:

* `candidates` — the entries whose path starts with what was typed so far;
* `lastAt` — the entry registered last at a given path;
* `longest` — the entry registered last at the longest path that is a prefix
  of what was typed;
* `probe` — how much of what was typed still starts some path.

Each of them has a law for typing one more element, so a matcher that reads its
input element by element can be compared with the closed form, and `longest` is
characterized by the order on paths alone.
-/

namespace LongestPrefix

variable {ι α : Type} [DecidableEq α] (path : ι → List α) (xs : List ι)

/-- The entries whose path starts with `typed`, in registration order. -/
def candidates (typed : List α) : List ι := xs.filter fun x => typed.isPrefixOf (path x)

/-- The entry registered last at exactly the path `p`. -/
def lastAt (p : List α) : Option ι := (xs.filter fun x => path x = p).getLast?

/-- The entry registered last at the longest path that is a prefix of `typed`. -/
def longest (typed : List α) : Option ι := (typed.inits.filterMap (lastAt path xs)).getLast?

/-- Extend `typed` by elements of the second list as long as some path starts
with the result. -/
def probeFrom (typed : List α) : List α → List α
  | [] => typed
  | v :: vs => if candidates path xs (typed ++ [v]) = [] then typed else probeFrom (typed ++ [v]) vs

/-- The longest prefix of `vs` that starts some path. -/
def probe (vs : List α) : List α := probeFrom path xs [] vs

variable {path xs}

/-! ## Candidates -/

theorem mem_candidates {x : ι} {typed : List α} :
    x ∈ candidates path xs typed ↔ x ∈ xs ∧ typed <+: path x := by
  simp [candidates]

@[simp] theorem candidates_nil : candidates path xs [] = xs := by
  simp [candidates]

omit [DecidableEq α] in
/-- A path starts with one element more exactly when it starts with what came
before and has that element next. -/
theorem concat_prefix_iff {typed p : List α} {v : α} :
    typed ++ [v] <+: p ↔ typed <+: p ∧ p[typed.length]? = some v := by
  constructor
  · rintro ⟨t, rfl⟩
    simp
  · rintro ⟨⟨t, rfl⟩, h⟩
    cases t with
    | nil => simp at h
    | cons w t =>
        have hw : w = v := by simpa using h
        exact ⟨t, by simp [hw]⟩

/-- Typing one element more filters the candidates by that element alone. -/
theorem candidates_concat (typed : List α) (v : α) :
    candidates path xs (typed ++ [v]) =
      (candidates path xs typed).filter fun x => (path x)[typed.length]? = some v := by
  simp only [candidates, List.filter_filter]
  congr 1
  funext x
  rw [Bool.eq_iff_iff]
  simp [concat_prefix_iff, and_comm]

theorem candidates_eq_nil_of_longer {typed typed' : List α} (hpre : typed <+: typed')
    (h : candidates path xs typed = []) : candidates path xs typed' = [] := by
  rw [List.eq_nil_iff_forall_not_mem] at h ⊢
  intro x hx
  rw [mem_candidates] at hx
  exact h x (mem_candidates.mpr ⟨hx.1, hpre.trans hx.2⟩)

/-! ## The last entry at a path -/

theorem lastAt_eq_none {p : List α} : lastAt path xs p = none ↔ ∀ x ∈ xs, path x ≠ p := by
  simp [lastAt]

/-- `lastAt` finds an entry at `p` that no later entry shares its path with. -/
theorem lastAt_eq_some {p : List α} {c : ι} :
    lastAt path xs p = some c ↔
      path c = p ∧ ∃ before after, xs = before ++ c :: after ∧ ∀ x ∈ after, path x ≠ p := by
  constructor
  · intro h
    rw [lastAt, List.getLast?_eq_some_iff] at h
    obtain ⟨ys, hys⟩ := h
    obtain ⟨l₁, l₂, rfl, hl₁, hl₂⟩ := List.filter_eq_append_iff.mp hys
    obtain ⟨m₁, m₂, rfl, hm₁, hc, hm₂⟩ := List.filter_eq_cons_iff.mp hl₂
    refine ⟨by simpa using hc, l₁ ++ m₁, m₂, by simp, fun x hx hp => ?_⟩
    have := List.filter_eq_nil_iff.mp hm₂ x hx
    simp [hp] at this
  · rintro ⟨hc, before, after, rfl, hafter⟩
    have hnil : after.filter (fun x => path x = p) = [] := by
      rw [List.filter_eq_nil_iff]
      intro x hx
      simpa using hafter x hx
    simp [lastAt, List.filter_append, hc, hnil]

/-- The last entry at a path with one more element is among the candidates for
the shorter one. -/
theorem lastAt_concat (typed : List α) (v : α) :
    lastAt path xs (typed ++ [v]) =
      ((candidates path xs typed).filter fun x =>
        (path x)[typed.length]? = some v ∧ (path x).length = typed.length + 1).getLast? := by
  rw [lastAt, candidates, List.filter_filter]
  congr 2
  funext x
  rw [Bool.eq_iff_iff]
  simp only [decide_eq_true_eq, Bool.and_eq_true, List.isPrefixOf_iff_prefix]
  constructor
  · intro h
    simp [h]
  · rintro ⟨⟨hv, hlen⟩, hpre⟩
    have hconcat := concat_prefix_iff.mpr ⟨hpre, hv⟩
    exact (hconcat.eq_of_length (by simp [hlen])).symm

theorem lastAt_eq_none_of_candidates {p : List α} (h : candidates path xs p = []) :
    lastAt path xs p = none := by
  rw [lastAt_eq_none]
  rintro x hx rfl
  have hmem : x ∈ candidates path xs (path x) := mem_candidates.mpr ⟨hx, List.prefix_rfl⟩
  simp [h] at hmem

/-! ## The longest match -/

/-- Typing one element more replaces the match exactly when some entry has the
longer path. -/
theorem longest_concat (typed : List α) (v : α) :
    longest path xs (typed ++ [v]) =
      (lastAt path xs (typed ++ [v])).or (longest path xs typed) := by
  cases h : lastAt path xs (typed ++ [v]) <;>
    simp [longest, List.filterMap_append, h]

theorem longest_nil : longest path xs [] = lastAt path xs [] := by
  cases h : lastAt path xs [] <;> simp [longest, h]

/-- No match: no path is a prefix of what was typed. -/
theorem longest_eq_none {typed : List α} :
    longest path xs typed = none ↔ ∀ x ∈ xs, ¬ path x <+: typed := by
  simp only [longest, List.getLast?_eq_none_iff, List.filterMap_eq_nil_iff, List.mem_inits,
    lastAt_eq_none]
  exact ⟨fun h x hx hpre => h _ hpre x hx rfl, fun h p hp x hx hpx => h x hx (hpx ▸ hp)⟩

/-- **The longest match**: its path is a prefix of what was typed, no longer
path is, and no later entry has the same path. -/
theorem longest_eq_some {typed : List α} {c : ι} :
    longest path xs typed = some c ↔
      path c <+: typed ∧ (∀ x ∈ xs, path x <+: typed → (path x).length ≤ (path c).length) ∧
        lastAt path xs (path c) = some c := by
  induction typed using List.reverseRecOn with
  | nil =>
      rw [longest_nil]
      constructor
      · intro h
        obtain ⟨hc, -⟩ := lastAt_eq_some.mp h
        refine ⟨by simp [hc], fun x _ hx => ?_, by rw [hc]; exact h⟩
        rw [List.prefix_nil.mp hx]
        exact Nat.zero_le _
      · rintro ⟨hc, -, h⟩
        rwa [List.prefix_nil.mp hc] at h
  | append_singleton typed v ih =>
      rw [longest_concat]
      cases hlast : lastAt path xs (typed ++ [v]) with
      | none =>
          have hnone := lastAt_eq_none.mp hlast
          have hpre : ∀ x ∈ xs, (path x <+: typed ++ [v] ↔ path x <+: typed) := by
            intro x hx
            rw [List.prefix_concat_iff]
            exact ⟨fun h => h.resolve_left (hnone x hx), Or.inr⟩
          have hmem : ∀ {c}, lastAt path xs (path c) = some c → c ∈ xs := by
            intro c h
            obtain ⟨-, before, after, rfl, -⟩ := lastAt_eq_some.mp h
            simp
          rw [Option.none_or, ih]
          constructor
          · rintro ⟨h₁, h₂, h₃⟩
            exact ⟨(hpre c (hmem h₃)).mpr h₁, fun x hx h => h₂ x hx ((hpre x hx).mp h), h₃⟩
          · rintro ⟨h₁, h₂, h₃⟩
            exact ⟨(hpre c (hmem h₃)).mp h₁, fun x hx h => h₂ x hx ((hpre x hx).mpr h), h₃⟩
      | some d =>
          rw [Option.some_or]
          obtain ⟨hd, before, after, hxs, hafter⟩ := lastAt_eq_some.mp hlast
          constructor
          · rintro ⟨⟩
            exact ⟨by rw [hd], fun x _ h => by rw [hd]; exact h.length_le, by rw [hd]; exact hlast⟩
          · rintro ⟨h₁, h₂, h₃⟩
            have hlen : (typed ++ [v]).length ≤ (path c).length := by
              rw [← hd]
              exact h₂ d (by simp [hxs]) (by rw [hd])
            have hc : path c = typed ++ [v] := h₁.eq_of_length_le hlen
            rw [hc, hlast] at h₃
            exact h₃

/-- An entry at what was typed is the longest match. -/
theorem longest_of_lastAt {p : List α} {c : ι} (h : lastAt path xs p = some c) :
    longest path xs p = some c := by
  obtain ⟨rfl, -⟩ := lastAt_eq_some.mp h
  exact longest_eq_some.mpr ⟨List.prefix_rfl, fun x _ hpre => hpre.length_le, h⟩

/-! ## Probing -/

theorem prefix_probeFrom (typed vs : List α) : typed <+: probeFrom path xs typed vs := by
  induction vs generalizing typed with
  | nil => simp [probeFrom]
  | cons v vs ih =>
      rw [probeFrom]
      split
      · exact List.prefix_rfl
      · exact (List.prefix_append _ _).trans (ih _)

theorem probeFrom_isPrefix_line (typed vs : List α) :
    probeFrom path xs typed vs <+: typed ++ vs := by
  induction vs generalizing typed with
  | nil => simp [probeFrom]
  | cons v vs ih =>
      rw [probeFrom]
      split
      · exact List.prefix_append _ _
      · simpa using ih (typed ++ [v])

/-- What is probed is a prefix of what was typed. -/
theorem probe_isPrefix_line (vs : List α) : probe path xs vs <+: vs := by
  have hpre : probeFrom path xs [] vs <+: [] ++ vs := probeFrom_isPrefix_line [] vs
  simpa [probe] using hpre

/-- A prefix of what was typed that starts some path has been probed. -/
theorem prefix_probeFrom_of_candidates {typed vs p : List α} (hpre : p <+: typed ++ vs)
    (hc : candidates path xs p ≠ []) : p <+: probeFrom path xs typed vs ∨ p <+: typed := by
  induction vs generalizing typed with
  | nil => exact .inr (by simpa using hpre)
  | cons v vs ih =>
      rw [probeFrom]
      split
      · next hnil =>
        right
        obtain hlt | hge := Nat.lt_or_ge typed.length p.length
        · have hv : typed ++ [v] <+: p := by
            have hlong : typed ++ [v] <+: typed ++ v :: vs := ⟨vs, by simp⟩
            exact List.prefix_of_prefix_length_le hlong hpre (by simpa using Nat.succ_le_of_lt hlt)
          exact absurd (candidates_eq_nil_of_longer hv hnil) hc
        · exact List.prefix_of_prefix_length_le hpre (List.prefix_append _ _) hge
      · have hpre' : p <+: typed ++ [v] ++ vs := by simpa using hpre
        obtain h | h := ih hpre'
        · exact .inl h
        · exact .inl (h.trans (prefix_probeFrom _ _))

/-- Exactly the probed part of what was typed starts some path. -/
theorem prefix_probe_iff {vs p : List α} (hpre : p <+: vs) (hp : p ≠ []) :
    p <+: probe path xs vs ↔ candidates path xs p ≠ [] := by
  constructor
  · intro h hnil
    suffices hall : ∀ typed vs : List α, typed = [] ∨ candidates path xs typed ≠ [] →
        probeFrom path xs typed vs = [] ∨ candidates path xs (probeFrom path xs typed vs) ≠ [] by
      obtain hnone | hsome := hall [] vs (.inl rfl)
      · exact hp (List.prefix_nil.mp (hnone ▸ h))
      · exact hsome (candidates_eq_nil_of_longer h hnil)
    intro typed vs h
    induction vs generalizing typed with
    | nil => exact h
    | cons v vs ih =>
        rw [probeFrom]
        split
        · exact h
        · next hne => exact ih _ (.inr hne)
  · intro hc
    have hpre' : p <+: [] ++ vs := by simpa using hpre
    obtain h | h := prefix_probeFrom_of_candidates hpre' hc
    · exact h
    · exact absurd (List.prefix_nil.mp h) hp

/-- The match only depends on which paths have been typed. -/
theorem longest_eq_of_prefix_iff {typed line : List α}
    (h : ∀ x ∈ xs, (path x <+: typed ↔ path x <+: line)) :
    longest path xs typed = longest path xs line := by
  cases hline : longest path xs line with
  | none =>
      rw [longest_eq_none] at hline ⊢
      exact fun x hx hpre => hline x hx ((h x hx).mp hpre)
  | some c =>
      rw [longest_eq_some] at hline ⊢
      obtain ⟨h₁, h₂, h₃⟩ := hline
      have hc : c ∈ xs := by
        obtain ⟨-, before, after, rfl, -⟩ := lastAt_eq_some.mp h₃
        simp
      exact ⟨(h c hc).mpr h₁, fun x hx hpre => h₂ x hx ((h x hx).mp hpre), h₃⟩

/-- What was typed beyond the probed part takes no part in the match. -/
theorem longest_probe (hne : ∀ x ∈ xs, path x ≠ []) (vs : List α) :
    longest path xs (probe path xs vs) = longest path xs vs := by
  refine longest_eq_of_prefix_iff fun x hx => ⟨fun h => h.trans (probe_isPrefix_line vs), ?_⟩
  intro h
  rw [prefix_probe_iff h (hne x hx)]
  exact List.ne_nil_of_mem (mem_candidates.mpr ⟨hx, List.prefix_rfl⟩)

/-- Where no path goes on, the match is the one of the whole line. -/
theorem longest_of_settled {typed line : List α} (hpre : typed <+: line)
    (hstop : ∀ v, typed ++ [v] <+: line → candidates path xs (typed ++ [v]) = []) :
    longest path xs typed = longest path xs line := by
  refine longest_eq_of_prefix_iff fun x hx => ⟨fun h => h.trans hpre, ?_⟩
  intro h
  obtain hshorter | ⟨rest, hrest⟩ := List.prefix_or_prefix_of_prefix h hpre
  · exact hshorter
  · cases rest with
    | nil => exact ⟨[], by rw [List.append_nil, ← hrest, List.append_nil]⟩
    | cons v rest =>
        have hpath : typed ++ [v] <+: path x := ⟨rest, by simpa using hrest⟩
        have hmem : x ∈ candidates path xs (typed ++ [v]) := mem_candidates.mpr ⟨hx, hpath⟩
        rw [hstop v (hpath.trans h)] at hmem
        cases hmem

end LongestPrefix
