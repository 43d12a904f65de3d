import AsapClap.Parser.Selection
import AsapClap.Parser.Final

/-!
# AsapClap.Parser.Contents

What a successful parse holds, from the command line alone.

The command is `chosen` by the leading values, the options get what the
`occurrences` give them, the values no option takes go to the positional
arguments, and a key with nothing of its own holds its first default.
-/

namespace AsapClap

namespace Parser

open LongestPrefix Tokenizer

variable {V : Type} {b : Build}

/-! ## Reference semantics -/

/-- The command these tokens choose: the one at the longest path they begin with, or
else a default command. -/
def chosen (context : ParserContext V) (tokens : List Token) : Option (Command V) :=
  if probed context.commands tokens = [] then context.activeCommand
  else (longest Command.path context.commands (leadingValues tokens)).or
    (lastDefault context.commands)

/-- The tokens behind the path of a command, all of them if no path matches. -/
def behindPath (commands : List (Command V)) (tokens : List Token) : List Token :=
  if (longest Command.path commands (leadingValues tokens)).isSome then
    tokens.drop (probed commands tokens).length
  else tokens

/-- What the options with a key are given, in the order of the line. -/
def optionsGiven (c : Command V) (tokens : List Token) (k : String) : List (V × String) :=
  ((occurrences c tokens).filter fun p => p.1.key = k).filterMap Prod.snd

/-- What the positional arguments with a key make of their tokens. -/
def positionalsGiven (ps : List (ClapOption V × String)) (k : String) : List (V × String) :=
  (ps.filter fun p => p.1.key = k).filterMap fun p => (p.1.parse p.2).map (·, p.2)

/-- Values and their texts as they are stored. -/
def flagged (defaulted : Bool) (given : List (V × String)) : List (OptionValue V) :=
  given.map fun value => ⟨value.1, value.2, defaulted⟩

section

variable {c : Command V}

@[simp] theorem occurrences_values_append (vs : List String) (tokens : List Token) :
    occurrences c (vs.map (Prod.mk .value) ++ tokens) = occurrences c tokens := by
  induction vs with
  | nil => rfl
  | cons v vs ih => simpa using ih

theorem freeValues_values_append (vs : List String) (tokens : List Token) :
    freeValues c none (vs.map (Prod.mk .value) ++ tokens) = vs ++ freeValues c none tokens := by
  induction vs with
  | nil => rfl
  | cons v vs ih => simpa [freeValues_value] using ih

end

@[simp] theorem flagged_nil (defaulted : Bool) :
    flagged defaulted ([] : List (V × String)) = [] := rfl

@[simp] theorem flagged_eq_nil {defaulted : Bool} {given : List (V × String)} :
    flagged defaulted given = [] ↔ given = [] := List.map_eq_nil_iff

theorem flagged_append (defaulted : Bool) (given given' : List (V × String)) :
    flagged defaulted (given ++ given') = flagged defaulted given ++ flagged defaulted given' :=
  List.map_append

/-- What is probed are the first tokens. -/
theorem probed_append_drop (commands : List (Command V)) (tokens : List Token) :
    (probed commands tokens).map (Prod.mk .value) ++
      tokens.drop (probed commands tokens).length = tokens := by
  obtain ⟨others, hothers⟩ : probed commands tokens <+: leadingValues tokens :=
    probe_isPrefix_line _
  have htokens := leadingValues_append_drop tokens
  rw [← hothers, List.map_append, List.append_assoc] at htokens
  have hdrop := congrArg (List.drop (probed commands tokens).length) htokens
  rw [List.drop_left' (by simp)] at hdrop
  rw [← hdrop]
  exact htokens

/-- A path that matches has been probed. -/
theorem probed_ne_nil_of_longest {commands : List (Command V)} {tokens : List Token}
    {command : Command V}
    (h : longest Command.path commands (leadingValues tokens) = some command) :
    probed commands tokens ≠ [] := by
  intro hnil
  rw [← longest_probed, hnil, longest_nil] at h
  exact command.path_ne_nil (lastAt_eq_some.mp h).1

/-! ## The context with which `FinalState` is entered -/

/-- What the tokens of a command line have made of the context at their end. -/
structure Entry (c : Command V) (context : ParserContext V) (tokens : List Token)
    (entry : ParserContext V) : Prop where
  chosen : chosen context tokens = some c
  activeCommand : entry.activeCommand = some c
  stored : ∃ es, (occurrences c tokens).map entryOf = es.map some ∧
    entry.ovm = context.ovm.storeAll es
  positional : entry.positionalTokens =
    context.positionalTokens ++ freeValues c none (behindPath context.commands tokens)

theorem singleEqualSigns_delivered (args : List String) : SingleEqualSigns (delivered args) := by
  refine (isChain_delivered args (.value, "")).tail.imp fun s t hattached hs ht => ?_
  rw [hattached ht] at hs
  cases hs

/-- The rest of the line is read by the command that is chosen. -/
theorem summary_of_selected {context context' entry : ParserContext V} {tokens rest : List Token}
    (hselected : Selected context tokens context' rest) (hsingle : SingleEqualSigns tokens)
    (h : scan b .ready context' rest = .ok entry) :
    ∃ c, Entry c context tokens entry := by
  have hrest : ∀ {c : Command V} {context' : ParserContext V} {n : Nat},
      context'.activeCommand = some c → scan b .ready context' (tokens.drop n) = .ok entry →
      Summary c none (tokens.drop n) context' entry := by
    intro c context' n hactive hscan
    have hready : Phase.ready.BehindCommand context' := trivial
    exact summary_of_scan hready hactive (hsingle.suffix (List.drop_suffix n tokens))
      (by rintro option hpending; cases hpending) hscan
  have hoccurrences : ∀ c : Command V,
      occurrences c (tokens.drop (probed context.commands tokens).length) =
        occurrences c tokens := by
    intro c
    conv_rhs => rw [← probed_append_drop context.commands tokens]
    rw [occurrences_values_append]
  cases hselected with
  | @matched command hlong =>
      obtain ⟨hactive, hstored, hpos⟩ := hrest (c := command) rfl h
      refine ⟨command, ?_, hactive, ?_, ?_⟩
      · simp [chosen, hlong, probed_ne_nil_of_longest hlong]
      · rwa [pendingOccurrences, hoccurrences] at hstored
      · simpa [behindPath, hlong] using hpos
  | @fallback command hprobed hlong hdefault =>
      obtain ⟨hactive, hstored, hpos⟩ := hrest (c := command) rfl h
      refine ⟨command, ?_, hactive, ?_, ?_⟩
      · simp [chosen, hlong, hprobed, hdefault]
      · rwa [pendingOccurrences, hoccurrences] at hstored
      · have htokens := freeValues_values_append (c := command) (probed context.commands tokens)
          (tokens.drop (probed context.commands tokens).length)
        rw [probed_append_drop] at htokens
        simpa [behindPath, hlong, htokens] using hpos
  | direct hprobed hactive =>
      obtain ⟨command, hcommand⟩ := Option.isSome_iff_exists.mp hactive
      have hlong : longest Command.path context.commands (leadingValues tokens) = none := by
        rw [Option.eq_none_iff_forall_ne_some]
        exact fun command hlong => probed_ne_nil_of_longest hlong hprobed
      obtain ⟨hactive, hstored, hpos⟩ := hrest (n := 0) hcommand h
      refine ⟨command, by simp [chosen, hprobed, hcommand], hactive, hstored, ?_⟩
      simpa [behindPath, hlong] using hpos

section

variable {context : CommandLineContext V} {commands : List (Command V)} {args : List String}
  {entry result : ParserContext V}

/-- The context in which the first token is handled. -/
abbrev initial (context : CommandLineContext V) (commands : List (Command V)) : ParserContext V :=
  InitialState.new (ParserContext.new context commands)

theorem initial_eq (context : CommandLineContext V) (commands : List (Command V)) :
    ∃ activeCommand, initial context commands =
      { ParserContext.new context commands with activeCommand } := by
  rw [initial, InitialState.new]
  split
  · exact ⟨_, rfl⟩
  · exact ⟨_, rfl⟩

theorem entry_of_pass (h : pass b context commands args = .ok entry) :
    ∃ c, Entry c (initial context commands) (delivered args) entry := by
  obtain ⟨context', rest, hselected, hscan⟩ := selected_of_scan h
  exact summary_of_selected hselected (singleEqualSigns_delivered args) hscan

theorem filterMap_entryOf (os : List (ClapOption V × Option (V × String))) :
    os.filterMap entryOf = os.filterMap fun p =>
      (p.2.map fun value => (⟨value.1, value.2, false⟩ : OptionValue V)).map (p.1.key, ·) := by
  refine List.filterMap_congr fun p _ => ?_
  simp [entryOf, Function.comp_def]

theorem filterMap_positionalEntry (ps : List (ClapOption V × String)) :
    ps.filterMap positionalEntry = ps.filterMap fun p =>
      ((p.1.parse p.2).map fun value => (⟨value, p.2, true⟩ : OptionValue V)).map (p.1.key, ·) := by
  refine List.filterMap_congr fun p _ => ?_
  simp [positionalEntry, Function.comp_def]

/-- Storing what the positional arguments make of their tokens. -/
theorem values_storeAll_positionals (ovm : OptionValuesMap V) (ps : List (ClapOption V × String))
    (k : String) :
    (ovm.storeAll (ps.filterMap positionalEntry)).values k =
      ovm.values k ++ flagged true (positionalsGiven ps k) := by
  rw [filterMap_positionalEntry, Multimap.values_storeAll_filterMap]
  simp [flagged, positionalsGiven, List.map_filterMap, Function.comp_def]

/-- Every option typed has been given a value. -/
theorem Entry.given {c : Command V} {context : ParserContext V} {tokens : List Token}
    (h : Entry c context tokens entry) : ∀ p ∈ occurrences c tokens, p.2.isSome := by
  obtain ⟨es, hes, -⟩ := h.stored
  intro p hp
  have hmem : entryOf p ∈ es.map some := hes ▸ List.mem_map_of_mem hp
  obtain ⟨e, -, he⟩ := List.mem_map.mp hmem
  cases hp2 : p.2 with
  | some value => rfl
  | none => simp [entryOf, hp2] at he

/-- What the options typed are given is behind what was there before. -/
theorem Entry.values {c : Command V} {context : ParserContext V} {tokens : List Token}
    (h : Entry c context tokens entry) (k : String) :
    entry.ovm.values k = context.ovm.values k ++ flagged false (optionsGiven c tokens k) := by
  obtain ⟨es, hes, hovm⟩ := h.stored
  have hfilter : es = (occurrences c tokens).filterMap entryOf := by
    have := congrArg (List.filterMap id) hes
    simpa [List.filterMap_map] using this.symm
  rw [hovm, hfilter, filterMap_entryOf, Multimap.values_storeAll_filterMap]
  simp [flagged, optionsGiven, List.map_filterMap]

/-- The contents of a parse that succeeds, behind what was there before. -/
theorem contents_behind_of_parses (h : Parses b context commands args (.returned true result)) :
    ∃ c ps, chosen (initial context commands) (delivered args) = some c ∧
      result.activeCommand = some c ∧
      assigned c.positionalArgs (freeValues c none (behindPath commands (delivered args))) =
        some ps ∧
      (∀ p ∈ occurrences c (delivered args), p.2.isSome) ∧
      ∀ k, result.ovm.values k =
        orDefault (context.ovm.values k ++ flagged false (optionsGiven c (delivered args) k) ++
            flagged true (positionalsGiven ps k))
          (firstDefault (c.options ++ c.positionalArgs) k) := by
  obtain ⟨entry, hpass, hsettle⟩ := parses_true_iff.mp h
  obtain ⟨c, hentry⟩ := entry_of_pass hpass
  obtain ⟨c', ps, hactive', hassigned, hresult, hvalues, -⟩ := FinalState.settle_terminate hsettle
  obtain rfl : c = c' := by simpa [hentry.activeCommand] using hactive'
  obtain ⟨activeCommand, hinitial⟩ := initial_eq context commands
  have hovm : ∀ k, entry.ovm.values k =
      context.ovm.values k ++ flagged false (optionsGiven c (delivered args) k) := by
    intro k
    rw [hentry.values, hinitial]
    rfl
  have hpos := hentry.positional
  rw [hinitial] at hpos
  refine ⟨c, ps, hentry.chosen, hresult, ?_, hentry.given, fun k => ?_⟩
  · simpa [ParserContext.new, hpos] using hassigned
  · rw [hvalues, values_storeAll_positionals, hovm]

/-- **The contents of a parse** that starts with nothing stored and succeeds. -/
theorem contents_of_parses (hempty : context.ovm = ∅)
    (h : Parses b context commands args (.returned true result)) :
    ∃ c ps, chosen (initial context commands) (delivered args) = some c ∧
      result.activeCommand = some c ∧
      assigned c.positionalArgs (freeValues c none (behindPath commands (delivered args))) =
        some ps ∧
      (∀ p ∈ occurrences c (delivered args), p.2.isSome) ∧
      ∀ k, result.ovm.values k =
        orDefault (flagged false (optionsGiven c (delivered args) k) ++
            flagged true (positionalsGiven ps k))
          (firstDefault (c.options ++ c.positionalArgs) k) := by
  obtain ⟨c, ps, hchosen, hactive, hassigned, hgiven, hvalues⟩ := contents_behind_of_parses h
  refine ⟨c, ps, hchosen, hactive, hassigned, hgiven, fun k => ?_⟩
  rw [hvalues, hempty, Multimap.values_empty, List.nil_append]

/-! ## The values of the options -/

/-- Under a key: the values the options typed are given, one each and in order, or
without any the first default. -/
def HoldsGiven (c : Command V) (tokens : List Token) (k : String) (vs : List (OptionValue V)) :
    Prop :=
  let os := (occurrences c tokens).filter fun p => p.1.key = k
  (os ≠ [] → vs.map (fun v => some (v.value, v.originalToken)) = os.map Prod.snd) ∧
    (os = [] → vs.map (fun v => (v.value, v.originalToken)) = (firstDefault c.options k).toList)

theorem map_snd_eq {os : List (ClapOption V × Option (V × String))} (h : ∀ p ∈ os, p.2.isSome) :
    os.map Prod.snd = (os.filterMap Prod.snd).map some := by
  induction os with
  | nil => rfl
  | cons p os ih =>
      obtain ⟨hp, hos⟩ := List.forall_mem_cons.mp h
      obtain ⟨value, hvalue⟩ := Option.isSome_iff_exists.mp hp
      simp [hvalue, ih hos]

/-- **Options**: a parse that succeeds holds, under every key that is no positional
argument's, what the command line gives the options with that key. -/
theorem holdsGiven_of_parses (hempty : context.ovm = ∅)
    (h : Parses b context commands args (.returned true result)) :
    ∃ c, result.activeCommand = some c ∧ ∀ k, (∀ o ∈ c.positionalArgs, o.key ≠ k) →
      HoldsGiven c (delivered args) k (result.ovm.values k) := by
  obtain ⟨c, ps, -, hactive, hassigned, hgiven, hvalues⟩ := contents_of_parses hempty h
  refine ⟨c, hactive, fun k hk => ?_⟩
  have hpositionals : positionalsGiven ps k = [] := by
    have hnil : ps.filter (fun p => p.1.key = k) = [] := by
      rw [List.filter_eq_nil_iff]
      intro p hp
      simpa using hk p.1 (mem_of_assigned hassigned p hp)
    rw [positionalsGiven, hnil, List.filterMap_nil]
  have hdefault : firstDefault (c.options ++ c.positionalArgs) k = firstDefault c.options k := by
    have hnil : c.positionalArgs.filter (fun o => o.key = k) = [] := by
      rw [List.filter_eq_nil_iff]
      intro o ho
      simpa using hk o ho
    rw [firstDefault_append, firstDefault, firstDefault, hnil]
    exact Option.or_none
  rw [hvalues, hpositionals, hdefault]
  constructor
  · intro hos
    have hall : ∀ p ∈ (occurrences c (delivered args)).filter fun p => p.1.key = k, p.2.isSome :=
      fun p hp => hgiven p (List.mem_of_mem_filter hp)
    have hsnd := map_snd_eq hall
    have hne : flagged false (optionsGiven c (delivered args) k) ≠ [] := by
      intro hnil
      rw [flagged_eq_nil, optionsGiven] at hnil
      rw [hnil, List.map_nil, List.map_eq_nil_iff] at hsnd
      exact hos hsnd
    rw [flagged_nil, List.append_nil, orDefault_of_ne_nil hne, hsnd]
    simp [flagged, optionsGiven]
  · intro hos
    rw [optionsGiven, hos]
    cases firstDefault c.options k <;> simp [flagged, orDefault]

end

/-- The option `--name`, by default the world. -/
def name : ClapOption String where
  key := "name"
  shortName := "n"
  longName := "name"
  valueSemantic := some { ValueSemantics.text with defaultValue := some ("world", "world") }

/-- `greet [--name <text>]` -/
def greet : Command String where
  path := ["greet"]
  options := [name]
  path_ne_nil := by decide
  path_valid := by decide

/-- What `greet --name=bob` is parsed to. -/
def greetBob : ParserContext String where
  programName := "prog"
  commands := [greet]
  activeCommand := some greet
  activeOption := some name
  activeOptionFlag := "--name"
  ovm := (∅ : OptionValuesMap String).storeValue "name" ⟨"bob", "bob", false⟩

theorem holdsGiven_greetBob : ∃ c, greetBob.activeCommand = some c ∧
    ∀ k, (∀ o ∈ c.positionalArgs, o.key ≠ k) →
      HoldsGiven c (delivered ["greet", "--name=bob"]) k (greetBob.ovm.values k) :=
  holdsGiven_of_parses rfl
    (show Parses .debug { programName := "prog" } [greet] ["greet", "--name=bob"] _ from ⟨9, rfl⟩)

end Parser

end AsapClap
