import AsapClap.Parser.Choice

/-!
# AsapClap.Parser.Remainder

What becomes of every value of a command line on its way to `FinalState`: it spells
the path of the command, is taken by an option, or is a positional token.

`IdentifyCommandState` collects values as long as some path goes on with them.  When
it falls back on a shorter path that matched, the values collected beyond that path
are dropped, so nothing is lost exactly if there are none.
-/

namespace AsapClap

namespace Parser

open LongestPrefix Tokenizer

variable {V : Type} {b : Build}

/-- The values a line names a command with; a default command is not named. -/
def spelled (c : Command V) : List String := if c.isDefault then [] else c.path

/-- Every value is accounted for: the values of the line are the path of the command
and a remainder, and what no option takes of the remainder is positional. -/
def AccountsForValues (c : Command V) (tokens : List Token) (positionalTokens : List String) :
    Prop :=
  ∃ before remainder, marks c none tokens = before ++ remainder ∧
    values tokens = spelled c ++ remainder.map Prod.fst ∧
    positionalTokens = (remainder.filter fun m => !m.2).map Prod.fst

/-- No path goes on from that of the command with the next leading value. -/
def PathEnds (commands : List (Command V)) (vs : List String) (c : Command V) : Prop :=
  ∀ c' ∈ commands, ∀ v, c.path ++ [v] <+: c'.path → ¬ c.path ++ [v] <+: vs

section

variable {c : Command V}

theorem map_fst_marks (c : Command V) (pending : Option (ClapOption V)) (tokens : List Token) :
    (marks c pending tokens).map Prod.fst = values tokens := by
  induction tokens generalizing pending with
  | nil => cases pending <;> rfl
  | cons token tokens ih =>
      obtain ⟨tokenType, text⟩ := token
      cases tokenType with
      | value => simp [marks, values, ih]
      | _ => exact ih _

theorem marks_values_append (vs : List String) (tokens : List Token) :
    marks c none (vs.map (Prod.mk .value) ++ tokens) =
      vs.map (·, false) ++ marks c none tokens := by
  induction vs with
  | nil => rfl
  | cons v vs ih => simp [marks, ih]

theorem untaken_eq_nil_iff {ms : List (String × Bool)} :
    (ms.filter fun m => !m.2).map Prod.fst = [] ↔ ms = (ms.map Prod.fst).map (·, true) := by
  rw [List.map_eq_nil_iff, List.filter_eq_nil_iff]
  induction ms with
  | nil => simp
  | cons m ms ih =>
      obtain ⟨text, taken⟩ := m
      cases taken with
      | false => simp
      | true => simpa using ih

theorem untaken_values (vs : List String) :
    ((vs.map (·, false)).filter fun m => !m.2).map Prod.fst = vs := by
  simp [List.filter_map, Function.comp_def]

/-- Exactly the path has been probed if no path goes on from it. -/
theorem probed_eq_path_iff {commands : List (Command V)} {tokens : List Token}
    (hlong : longest Command.path commands (leadingValues tokens) = some c) :
    probed commands tokens = c.path ↔ PathEnds commands (leadingValues tokens) c := by
  obtain ⟨hpre, -, hlast⟩ := longest_eq_some.mp hlong
  have hmem : c ∈ commands := by
    obtain ⟨-, before, after, hsplit, -⟩ := lastAt_eq_some.mp hlast
    simp [hsplit]
  have hpath : c.path <+: probed commands tokens := by
    rw [probed, prefix_probe_iff hpre c.path_ne_nil]
    exact List.ne_nil_of_mem (mem_candidates.mpr ⟨hmem, List.prefix_rfl⟩)
  constructor
  · intro heq c' hc' v hpre' hvs
    have hprobed : c.path ++ [v] <+: probed commands tokens := by
      rw [probed, prefix_probe_iff hvs (by simp)]
      exact List.ne_nil_of_mem (mem_candidates.mpr ⟨hc', hpre'⟩)
    rw [heq] at hprobed
    have hlen := hprobed.length_le
    rw [List.length_append, List.length_singleton] at hlen
    omega
  · intro hends
    obtain ⟨more, hmore⟩ := hpath
    cases more with
    | nil => simpa using hmore.symm
    | cons v more =>
        have hpre' : c.path ++ [v] <+: probed commands tokens := ⟨more, by simp [← hmore]⟩
        have hvs : c.path ++ [v] <+: leadingValues tokens := hpre'.trans (probe_isPrefix_line _)
        rw [probed, prefix_probe_iff hvs (by simp)] at hpre'
        obtain ⟨c', hc'⟩ := List.exists_mem_of_ne_nil _ hpre'
        obtain ⟨hc', hprobed⟩ := mem_candidates.mp hc'
        exact absurd hvs (hends c' hc' v hprobed)

/-- A line that names the command by its path is accounted for exactly if nothing is
probed beyond the path. -/
theorem accountsForValues_of_matched {commands : List (Command V)} {tokens : List Token}
    (hdefault : c.isDefault = false)
    (hlong : longest Command.path commands (leadingValues tokens) = some c) :
    AccountsForValues c tokens (freeValues c none (behindPath commands tokens)) ↔
      PathEnds commands (leadingValues tokens) c := by
  have hpre : c.path <+: probed commands tokens := by
    rw [← longest_probed] at hlong
    exact (longest_eq_some.mp hlong).1
  have hmarks : marks c none tokens = (probed commands tokens).map (·, false) ++
      marks c none (tokens.drop (probed commands tokens).length) := by
    conv_lhs => rw [← probed_append_drop commands tokens]
    exact marks_values_append _ _
  rw [← probed_eq_path_iff hlong, behindPath, hlong, Option.isSome_some, if_pos rfl]
  constructor
  · rintro ⟨before, remainder, hsplit, hvalues, hpos⟩
    rw [← map_fst_marks c none, hsplit, List.map_append, spelled, hdefault,
      if_neg Bool.false_ne_true] at hvalues
    have hbefore := List.append_cancel_right hvalues
    obtain ⟨more, hmore⟩ := hpre
    have hlen : before.length = (c.path.map (·, false)).length := by
      simp [← hbefore]
    rw [← hmore, List.map_append, List.append_assoc, hsplit] at hmarks
    obtain ⟨-, hremainder⟩ := List.append_inj hmarks hlen
    rw [hremainder, List.filter_append, List.map_append, untaken_values, hmore, freeValues] at hpos
    have hnil : more = [] := by simpa using hpos
    rw [← hmore, hnil, List.append_nil]
  · intro heq
    refine ⟨_, _, hmarks, ?_, rfl⟩
    rw [← map_fst_marks c none, hmarks, List.map_append, heq, spelled, hdefault,
      if_neg Bool.false_ne_true]
    simp [Function.comp_def]

/-- A line that does not name the command is accounted for exactly if the command need
not be named, or is named by values that options take. -/
theorem accountsForValues_of_unmatched {commands : List (Command V)} {tokens : List Token}
    (hlong : longest Command.path commands (leadingValues tokens) = none) :
    AccountsForValues c tokens (freeValues c none (behindPath commands tokens)) ↔
      (spelled c).map (·, true) <+: marks c none tokens := by
  rw [behindPath, hlong, Option.isSome_none, if_neg Bool.false_ne_true, freeValues]
  constructor
  · rintro ⟨before, remainder, hsplit, hvalues, hpos⟩
    rw [← map_fst_marks c none, hsplit, List.map_append] at hvalues
    have hbefore := List.append_cancel_right hvalues
    rw [hsplit, List.filter_append, List.map_append, List.append_left_eq_self] at hpos
    rw [untaken_eq_nil_iff, hbefore] at hpos
    exact ⟨remainder, by rw [hsplit, ← hpos]⟩
  · rintro ⟨remainder, hsplit⟩
    refine ⟨_, remainder, hsplit.symm, ?_, ?_⟩
    · rw [← map_fst_marks c none, ← hsplit, List.map_append, List.map_map]
      simp [Function.comp_def]
    · have hnil : (((spelled c).map (·, true)).filter fun m => !m.2).map Prod.fst = [] := by
        rw [untaken_eq_nil_iff]
        simp [Function.comp_def]
      rw [← hsplit, List.filter_append, List.map_append, hnil, List.nil_append]

end

section

variable {context : CommandLineContext V} {commands : List (Command V)} {args : List String}
  {result : ParserContext V}

/-- **The remainder**: in a parse that succeeds, the positional tokens `FinalState` is
entered with account for every value exactly if no path goes on from the one that
matched, or, when none did, the command is a default one (or, where a parse started with
another command, options take the values that name it). -/
theorem accountsForValues_iff (h : Parses b context commands args (.returned true result)) :
    ∃ c entry, result.activeCommand = some c ∧
      (∃ cfg, Reachable b context commands args cfg ∧ EntersFinal b cfg entry) ∧
      (∀ cfg entry', Reachable b context commands args cfg → EntersFinal b cfg entry' →
        entry' = entry) ∧
      (AccountsForValues c (delivered args) entry.positionalTokens ↔
        match longest Command.path commands (leadingValues (delivered args)) with
        | some _ => PathEnds commands (leadingValues (delivered args)) c
        | none => (spelled c).map (·, true) <+: marks c none (delivered args)) := by
  obtain ⟨entry, hpass, hsettle⟩ := parses_true_iff.mp h
  obtain ⟨c, hchosen, hentry, -, hpos⟩ := entry_of_pass hpass
  obtain ⟨c', ps, hentry', -, hresult, -⟩ := FinalState.settle_terminate hsettle
  obtain rfl : c = c' := by simpa [hentry] using hentry'
  obtain ⟨henters, hunique⟩ := entersFinal_of_parses h hpass
  refine ⟨c, entry, hresult, henters, hunique, ?_⟩
  obtain ⟨activeCommand, hinitial⟩ := initial_eq context commands
  rw [hinitial] at hpos
  have hpositional : entry.positionalTokens =
      freeValues c none (behindPath commands (delivered args)) := by
    simpa [ParserContext.new] using hpos
  rw [hpositional]
  split
  · next command hlong =>
    rw [chosen, initial_commands, hlong, if_neg (probed_ne_nil_of_longest hlong)] at hchosen
    cases hchosen
    have hdefault := (deepest_of_longest (notMem_leadingValues args) hlong).not_default
    exact accountsForValues_of_matched hdefault hlong
  · next hlong => exact accountsForValues_of_unmatched hlong

end

/-- `give [--to <text>] [<what>...]` -/
def give : Command String where
  path := ["give"]
  options := [{ key := "to", longName := "to", valueSemantic := some .text }]
  positionalArgs := [{ key := ClapOption.keyRest, valueSemantic := some .text }]
  path_ne_nil := by decide
  path_valid := by decide

/-- `bob` goes to the option, `apple` is left. -/
theorem accountsForValues_give : ∃ cfg entry,
    Reachable .debug { programName := "prog" } [give] ["give", "--to=bob", "apple"] cfg ∧
      EntersFinal .debug cfg entry ∧
      AccountsForValues give (delivered ["give", "--to=bob", "apple"]) entry.positionalTokens := by
  obtain ⟨result, hparses, hresult⟩ : ∃ result, Parses .debug { programName := "prog" } [give]
      ["give", "--to=bob", "apple"] (.returned true result) ∧ result.activeCommand = some give :=
    ⟨_, ⟨12, rfl⟩, rfl⟩
  obtain ⟨c, entry, hcommand, ⟨cfg, hreach, henters⟩, -, hiff⟩ := accountsForValues_iff hparses
  obtain rfl : c = give := Option.some.inj (hcommand.symm.trans hresult)
  have hends : PathEnds [give] (leadingValues (delivered ["give", "--to=bob", "apple"])) give := by
    intro c' hc' v hpre
    rw [List.mem_singleton.mp hc'] at hpre
    exact absurd hpre.length_le (by simp [give])
  exact ⟨cfg, entry, hreach, henters, hiff.mpr hends⟩

/-- What `just do` is parsed to, next to a command `just do it`. -/
def justOnly : ParserContext String where
  programName := "prog"
  commands := [just, justDoIt]
  activeCommand := some just

/-- The `do` of `just do` is lost in the search for `just do it`. -/
theorem not_accountsForValues_justDo :
    Parses .debug { programName := "prog" } [just, justDoIt] ["just", "do"]
        (.returned true justOnly) ∧
      (∃ cfg, Reachable .debug { programName := "prog" } [just, justDoIt] ["just", "do"] cfg ∧
        EntersFinal .debug cfg justOnly) ∧
      ¬ AccountsForValues just (delivered ["just", "do"]) justOnly.positionalTokens := by
  have hparses : Parses .debug { programName := "prog" } [just, justDoIt] ["just", "do"]
      (.returned true justOnly) := ⟨9, rfl⟩
  have hlong : longest Command.path [just, justDoIt] (leadingValues (delivered ["just", "do"])) =
      some just := rfl
  refine ⟨hparses, (entersFinal_of_parses hparses rfl).1, fun h => ?_⟩
  have hends := (accountsForValues_of_matched rfl hlong).mp h
  exact hends justDoIt (by simp) "do" (by decide) (by decide)

end Parser

end AsapClap
