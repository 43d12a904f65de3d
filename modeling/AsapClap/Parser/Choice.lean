import AsapClap.Parser.Contents

/-!
# AsapClap.Parser.Choice

The command a parse is about: the one whose path is the longest that the leading
values begin with, or else a default command.
-/

namespace AsapClap

namespace Parser

open LongestPrefix Tokenizer

variable {V : Type} {b : Build}

/-- The deepest command for these values: no other path among them is longer, and no
command behind it in the list has the same path. -/
structure Deepest (commands : List (Command V)) (vs : List String) (c : Command V) : Prop where
  not_default : c.isDefault = false
  path_typed : c.path <+: vs
  longest : ∀ c' ∈ commands, c'.isDefault = false → c'.path <+: vs →
    c'.path.length ≤ c.path.length
  last : ∃ before after, commands = before ++ c :: after ∧ ∀ c' ∈ after, c'.path ≠ c.path

/-- No command but the default ones is mounted at a path these values begin with. -/
def NoPath (commands : List (Command V)) (vs : List String) : Prop :=
  ∀ c ∈ commands, c.isDefault = false → ¬ c.path <+: vs

theorem notMem_leadingValues (args : List String) : "" ∉ leadingValues (delivered args) := by
  intro hmem
  obtain ⟨token, htoken, htext⟩ := List.mem_map.mp hmem
  exact text_ne_empty_of_mem_delivered args token ((List.takeWhile_sublist _).subset htoken) htext

section

variable {commands : List (Command V)} {vs : List String}

theorem deepest_of_longest (hvs : "" ∉ vs) {c : Command V}
    (h : LongestPrefix.longest Command.path commands vs = some c) : Deepest commands vs c := by
  obtain ⟨hpre, hlongest, hlast⟩ := longest_eq_some.mp h
  exact ⟨Command.not_isDefault_of_path_typed hpre hvs, hpre,
    fun c' hc' _ hpre' => hlongest c' hc' hpre', (lastAt_eq_some.mp hlast).2⟩

/-- The path of a default command is no prefix of values without an empty one. -/
theorem longest_eq_none_iff_noPath (hvs : "" ∉ vs) :
    LongestPrefix.longest Command.path commands vs = none ↔ NoPath commands vs := by
  rw [longest_eq_none]
  constructor
  · exact fun h c hc _ => h c hc
  · exact fun h c hc hpre => h c hc (Command.not_isDefault_of_path_typed hpre hvs) hpre

end

section

variable {context : CommandLineContext V} {commands : List (Command V)} {args : List String}

theorem initial_activeCommand (context : CommandLineContext V) (commands : List (Command V)) :
    (initial context commands).activeCommand =
      (commands.find? Command.isDefault).or context.activeCommand := by
  rw [initial, InitialState.new]
  cases hfind : commands.find? Command.isDefault <;> simp [ParserContext.new, hfind]

theorem initial_commands (context : CommandLineContext V) (commands : List (Command V)) :
    (initial context commands).commands = commands := by
  obtain ⟨activeCommand, hinitial⟩ := initial_eq context commands
  rw [hinitial]
  rfl

/-- Without a path that matches, the command is one of the default commands. -/
theorem isDefault_of_chosen (hactive : context.activeCommand = none)
    (hlong : LongestPrefix.longest Command.path commands (leadingValues (delivered args)) = none)
    {c : Command V} (h : chosen (initial context commands) (delivered args) = some c) :
    c ∈ commands ∧ c.isDefault = true := by
  rw [chosen, initial_commands, initial_activeCommand, hactive, Option.or_none, hlong,
    Option.none_or] at h
  split at h
  · exact ⟨List.mem_of_find?_eq_some h, List.find?_some h⟩
  · exact List.mem_filter.mp (List.mem_of_getLast? h)

/-- Without a path that matches and without a default command, the line is rejected. -/
theorem rejected_of_no_command (hactive : context.activeCommand = none)
    (hlong : LongestPrefix.longest Command.path commands (leadingValues (delivered args)) = none)
    (hdefault : ∀ c ∈ commands, c.isDefault = false) :
    ∃ message context', pass b context commands args = .error (.rejected message context') := by
  have hlast : lastDefault commands = none := by
    rw [lastDefault, List.getLast?_eq_none_iff, List.filter_eq_nil_iff]
    exact fun c hc => by simp [hdefault c hc]
  have hinitial : (initial context commands).activeCommand = none := by
    rw [initial_activeCommand, hactive, Option.or_none, List.find?_eq_none]
    exact fun c hc => by simp [hdefault c hc]
  have hselect : ∀ segments, ∃ message context', select
      (probed (initial context commands).commands (delivered args)) segments
        (initial context commands) = .error (.rejected message context') := by
    intro segments
    rw [select, longest_probed, initial_commands, hlong, hlast]
    exact ⟨_, _, rfl⟩
  rw [pass]
  rcases scan_start (b := b) (initial context commands) (delivered args) with
    ⟨-, segments, hscan⟩ | ⟨-, ⟨hsome, -⟩ | ⟨-, message, hscan⟩⟩
  · rw [hscan]
    split
    · obtain ⟨message, context', h⟩ := hselect (probed (initial context commands).commands
        (delivered args))
      exact ⟨message, context', by rw [finish, h]; rfl⟩
    · obtain ⟨message, context', h⟩ := hselect segments
      exact ⟨message, context', by rw [h]; rfl⟩
  · rw [hinitial] at hsome
    cases hsome
  · exact ⟨message, _, hscan⟩

/-- **The command**: a parse that succeeds is about the deepest command the leading
values name, or without one about a default command; without either, the command
line is refused. -/
theorem deepest_of_parses (hactive : context.activeCommand = none) :
    (∀ result, Parses b context commands args (.returned true result) →
      ∃ c ∈ commands, result.activeCommand = some c ∧
        (¬ NoPath commands (leadingValues (delivered args)) →
          Deepest commands (leadingValues (delivered args)) c) ∧
        (NoPath commands (leadingValues (delivered args)) → c.isDefault = true)) ∧
    (NoPath commands (leadingValues (delivered args)) → (∀ c ∈ commands, c.isDefault = false) →
      ∃ context', Parses b context commands args (.returned false context')) := by
  have hvs := notMem_leadingValues args
  constructor
  · intro result h
    obtain ⟨entry, hpass, hsettle⟩ := parses_true_iff.mp h
    obtain ⟨c, hchosen, hentry, -, -⟩ := entry_of_pass hpass
    obtain ⟨c', ps, hentry', -, hresult, -⟩ := FinalState.settle_terminate hsettle
    obtain rfl : c = c' := by simpa [hentry] using hentry'
    cases hlong : LongestPrefix.longest Command.path commands (leadingValues (delivered args)) with
    | some c' =>
        rw [chosen, initial_commands, hlong, if_neg (probed_ne_nil_of_longest hlong)] at hchosen
        cases hchosen
        have hdeepest := deepest_of_longest hvs hlong
        obtain ⟨before, after, hsplit, -⟩ := hdeepest.last
        refine ⟨c, by simp [hsplit], hresult, fun _ => hdeepest, fun hno => ?_⟩
        rw [← longest_eq_none_iff_noPath hvs, hlong] at hno
        cases hno
    | none =>
        obtain ⟨hmem, hdefault⟩ := isDefault_of_chosen hactive hlong hchosen
        exact ⟨c, hmem, hresult,
          fun hpath => absurd ((longest_eq_none_iff_noPath hvs).mp hlong) hpath, fun _ => hdefault⟩
  · intro hno hdefault
    obtain ⟨message, context', hpass⟩ := rejected_of_no_command (b := b) hactive
      ((longest_eq_none_iff_noPath hvs).mpr hno) hdefault
    exact ⟨reportError context' message, parses_iff.mpr (by rw [hpass]; rfl)⟩

end

/-- `just` -/
def just : Command String where
  path := ["just"]
  path_ne_nil := by decide
  path_valid := by decide

/-- `just do it` -/
def justDoIt : Command String where
  path := ["just", "do", "it"]
  path_ne_nil := by decide
  path_valid := by decide

theorem deepest_justDoIt : ∃ c ∈ [just, justDoIt], some justDoIt = some c ∧
    (¬ NoPath [just, justDoIt] (leadingValues (delivered ["just", "do", "it"])) →
      Deepest [just, justDoIt] (leadingValues (delivered ["just", "do", "it"])) c) ∧
    (NoPath [just, justDoIt] (leadingValues (delivered ["just", "do", "it"])) →
      c.isDefault = true) := by
  have hactive : ({ programName := "prog" } : CommandLineContext String).activeCommand = none := rfl
  exact (deepest_of_parses (b := .debug) hactive).1
    { programName := "prog", commands := [just, justDoIt], activeCommand := some justDoIt }
    ⟨9, rfl⟩

end Parser

end AsapClap
