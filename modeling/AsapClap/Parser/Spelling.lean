import AsapClap.Parser.Acceptance
import AsapClap.Parser.Contracts
import AsapClap.Parser.Order

/-!
# AsapClap.Parser.Spelling

What can be given can be typed: values for the options and for the positional arguments of a
command, spelled out in any order behind the path of the command, are read back by `Parse` as what
they were.
-/

namespace AsapClap

variable {V : Type}

/-! ## Items of a command line -/

/-- An option given a value with its long name. -/
structure LongSetting (c : Command V) extends LongArg where
  option : ClapOption V
  parsed : V
  find : c.findLongOption name = some option
  parses : option.parse value = some parsed

/-- An option given a value with its short name. -/
structure ShortSetting (c : Command V) where
  name : Char
  value : PlainArg
  option : ClapOption V
  parsed : V
  not_dash : name ≠ '-'
  find : c.findShortOption (String.singleton name) = some option
  parses : option.parse value.text = some parsed

/-- What is given on a command line, complete in itself. -/
inductive Item (c : Command V)
  | positional (p : PlainArg)
  | long (s : LongSetting c)
  | short (s : ShortSetting c)

namespace Item

open Tokenizer

variable {c : Command V}

/-- The item as it is typed. -/
def args : Item c → List String
  | .positional p => [p.text]
  | .long s => ["--" ++ s.name ++ "=" ++ s.value]
  | .short s => ["-" ++ String.singleton s.name, s.value.text]

def tokens : Item c → List Token
  | .positional p => [(.value, p.text)]
  | .long s => [(.longOption, s.name), (.equalSign, "="), (.value, s.value)]
  | .short s => [(.shortOption, String.singleton s.name), (.value, s.value.text)]

/-- The option that is given a value, the value and its text. -/
def setting? : Item c → Option (ClapOption V × V × String)
  | .positional _ => none
  | .long s => some (s.option, s.parsed, s.value)
  | .short s => some (s.option, s.parsed, s.value.text)

def positional? : Item c → Option String
  | .positional p => some p.text
  | .long _ | .short _ => none

/-- The settings of a list of items. -/
def settings (items : List (Item c)) : List (ClapOption V × V × String) :=
  items.filterMap setting?

def positionals (items : List (Item c)) : List String := items.filterMap positional?

/-- What the items give the options with a key. -/
def given (items : List (Item c)) (k : String) : List (V × String) :=
  ((settings items).filter fun s => s.1.key = k).map Prod.snd

theorem delivered_args (items : List (Item c)) :
    delivered (items.flatMap args) = items.flatMap tokens := by
  induction items with
  | nil => rfl
  | cons item items ih =>
      rw [List.flatMap_cons, List.flatMap_cons, ← ih]
      cases item with
      | positional p =>
          rw [args, List.singleton_append, delivered_cons p.ne_empty,
            tokenize_value p.ne_empty p.no_dash]
          rfl
      | long s =>
          rw [args, List.singleton_append, delivered_cons (by simp),
            tokenize_longOption_value s.name_ne s.no_equal s.value_ne s.value_head]
          rfl
      | short s =>
          rw [args, List.cons_append, List.singleton_append, delivered_cons (by simp),
            tokenize_shortOption s.not_dash, delivered_cons s.value.ne_empty,
            tokenize_value s.value.ne_empty s.value.no_dash]
          rfl

end Item

namespace Parser

open LongestPrefix Tokenizer

variable {b : Build} {c : Command V} {items : List (Item c)}

/-! ## What the parser makes of the items -/

theorem occurrences_items (items : List (Item c)) :
    occurrences c (items.flatMap Item.tokens) =
      (Item.settings items).map fun s => (s.1, some s.2) := by
  induction items with
  | nil => rfl
  | cons item items ih =>
      rw [List.flatMap_cons]
      cases item with
      | positional p => exact ih
      | long s =>
          have hfind : c.resolve (.longOption, s.name) = some s.option := s.find
          simp [Item.tokens, occurrences_cons_of_some hfind, ih, Item.settings, Item.setting?,
            ClapOption.given, directValue, s.parses]
      | short s =>
          have hfind : c.resolve (.shortOption, String.singleton s.name) = some s.option := s.find
          simp [Item.tokens, occurrences_cons_of_some hfind, ih, Item.settings, Item.setting?,
            ClapOption.given, directValue, s.parses]

theorem freeValues_items (items : List (Item c)) :
    freeValues c none (items.flatMap Item.tokens) = Item.positionals items := by
  induction items with
  | nil => simp [Item.positionals]
  | cons item items ih =>
      rw [List.flatMap_cons]
      cases item with
      | positional p =>
          simp [Item.tokens, freeValues_value, ih, Item.positionals, Item.positional?]
      | long s =>
          have hfind : c.resolve (.longOption, s.name) = some s.option := s.find
          refine Eq.trans ?_ ih
          simp [Item.tokens, freeValues_cons_of_some hfind, freeValues_equalSign,
            freeValues_value, s.parses]
      | short s =>
          have hfind : c.resolve (.shortOption, String.singleton s.name) = some s.option := s.find
          refine Eq.trans ?_ ih
          simp [Item.tokens, freeValues_cons_of_some hfind, freeValues_value, s.parses]

/-- Items are in order if no option is typed again that must not be. -/
theorem inOrderFrom_items {allow : Bool} {stored : String → Prop}
    (hstored : ∀ s ∈ Item.settings items, stored s.1.key → s.1.IsRepeatable)
    (hpairwise : (Item.settings items).Pairwise
      fun s s' => s.1.key = s'.1.key → s'.1.IsRepeatable) :
    InOrderFrom c allow stored (items.flatMap Item.tokens) := by
  induction items generalizing stored with
  | nil => trivial
  | cons item items ih =>
      have hbehind : ∀ {s : ClapOption V × V × String},
          Item.settings (item :: items) = s :: Item.settings items →
          InOrderFrom c allow (fun k => stored k ∨ k = s.1.key) (items.flatMap Item.tokens) := by
        intro s hs
        rw [hs] at hstored hpairwise
        obtain ⟨hfirst, hpairwise⟩ := List.pairwise_cons.mp hpairwise
        refine ih (fun s' hs' h => ?_) hpairwise
        exact h.elim (hstored s' (.tail _ hs')) fun heq => hfirst s' hs' heq.symm
      rw [List.flatMap_cons]
      cases item with
      | positional p => exact ih hstored hpairwise
      | long s =>
          exact ⟨s.option, s.find, hstored (s.option, s.parsed, s.value) (.head _),
            by simp [ClapOption.Takes, ClapOption.TakesBound, s.parses], hbehind rfl⟩
      | short s =>
          exact ⟨s.option, s.find, hstored (s.option, s.parsed, s.value.text) (.head _),
            by simp [ClapOption.Takes, Freely, s.parses], hbehind rfl⟩

/-! ## What the items stand behind -/

/-- What is typed in front of the items: the path of the command, where no other path goes on from
it, or nothing if the command is active from the start and the first item begins no path. -/
inductive Opens (context : ParserContext V) (c : Command V) : List String → List (Item c) → Prop
  | named (mem : c ∈ context.commands)
      (unique : ∀ c' ∈ context.commands, c.path <+: c'.path → c' = c)
      (plain : ∀ s ∈ c.path, s ≠ "" ∧ s.toList.head? ≠ some '-') (items : List (Item c)) :
      Opens context c c.path items
  | active {items : List (Item c)} (active : context.activeCommand = some c)
      (first : ∀ v ∈ items.head?.bind Item.positional?,
        candidates Command.path context.commands [v] = []) : Opens context c [] items

section

variable {commands : List (Command V)} {context : ParserContext V} {lead : List String}

theorem leadingValues_path_append (vs : List String) (tokens : List Token) :
    leadingValues (vs.map (Prod.mk .value) ++ tokens) = vs ++ leadingValues tokens := by
  induction vs with
  | nil => rfl
  | cons v vs ih => simp [ih]

/-- Behind a path that no other path goes on from, nothing more is searched. -/
theorem probe_path_append (hmem : c ∈ commands)
    (hunique : ∀ c' ∈ commands, c.path <+: c'.path → c' = c) (vs : List String) :
    longest Command.path commands (c.path ++ vs) = some c ∧
      probe Command.path commands (c.path ++ vs) = c.path := by
  have hcandidates : candidates Command.path commands c.path ≠ [] :=
    List.ne_nil_of_mem (mem_candidates.mpr ⟨hmem, List.prefix_rfl⟩)
  have hline : c.path <+: c.path ++ vs := List.prefix_append _ _
  constructor
  · rw [longest_eq_some]
    refine ⟨hline, fun c' hc' hpath => ?_, ?_⟩
    · by_contra hlonger
      have hpre := List.prefix_of_prefix_length_le hline hpath (by omega)
      rw [hunique c' hc' hpre] at hlonger
      exact hlonger le_rfl
    · cases hlast : lastAt Command.path commands c.path with
      | none => exact absurd rfl (lastAt_eq_none.mp hlast c hmem)
      | some c' =>
          obtain ⟨hpath, before, after, hsplit, -⟩ := lastAt_eq_some.mp hlast
          have hc' : c' ∈ commands := by simp [hsplit]
          rw [hunique c' hc' (by rw [hpath])]
  · have hprobe := (prefix_probe_iff hline c.path_ne_nil).mpr hcandidates
    have hne : probe Command.path commands (c.path ++ vs) ≠ [] := by
      intro hnil
      rw [hnil] at hprobe
      exact c.path_ne_nil (List.prefix_nil.mp hprobe)
    have hself := (prefix_probe_iff (probe_isPrefix_line (c.path ++ vs)) hne).mp List.prefix_rfl
    obtain ⟨c', hc'⟩ := List.exists_mem_of_ne_nil _ hself
    obtain ⟨hmem', hpre⟩ := mem_candidates.mp hc'
    rw [hunique c' hmem' (hprobe.trans hpre)] at hpre
    exact hpre.eq_of_length_le hprobe.length_le

theorem delivered_lead (h : Opens context c lead items) :
    delivered (lead ++ items.flatMap Item.args) =
      lead.map (Prod.mk .value) ++ items.flatMap Item.tokens := by
  cases h with
  | active => exact Item.delivered_args items
  | named _ _ hplain =>
      rw [delivered_append fun hmem => (hplain "" hmem).1 rfl, Item.delivered_args,
        delivered_eq_flatMap fun hmem => (hplain "" hmem).1 rfl]
      congr 1
      rw [List.map_eq_flatMap]
      exact List.flatMap_congr fun s hs => tokenize_value (hplain s hs).1 (hplain s hs).2

/-- The leading values of the items begin with the first one. -/
theorem probe_items_eq_nil
    (hfirst : ∀ v ∈ items.head?.bind Item.positional?, candidates Command.path commands [v] = []) :
    probe Command.path commands (leadingValues (items.flatMap Item.tokens)) = [] := by
  cases items with
  | nil => rfl
  | cons item items =>
      cases item with
      | positional p =>
          have hnil := hfirst p.text rfl
          simp [Item.tokens, probe, probeFrom, hnil]
      | long s => rfl
      | short s => rfl

/-- The command in front of the items is chosen, in time, and they are what is left to it. -/
theorem chosen_of_opens (h : Opens context c lead items) :
    let tokens := lead.map (Prod.mk .value) ++ items.flatMap Item.tokens
    chosen context tokens = some c ∧ InTime b context.commands tokens ∧
      behindPath context.commands tokens = items.flatMap Item.tokens := by
  cases h with
  | named hmem hunique =>
      obtain ⟨hlong, hprobe⟩ := probe_path_append hmem hunique
        (leadingValues (items.flatMap Item.tokens))
      simp [chosen, InTime, behindPath, probed, leadingValues_path_append, hlong, hprobe,
        c.path_ne_nil]
  | active hactive hfirst =>
      have hprobe := probe_items_eq_nil hfirst
      have hlong : longest Command.path context.commands
          (leadingValues (items.flatMap Item.tokens)) = none := by
        rw [← longest_probe (fun c _ => c.path_ne_nil), hprobe, longest_nil,
          lastAt_eq_none]
        exact fun c _ => c.path_ne_nil
      simp [chosen, InTime, behindPath, probed, hlong, hprobe, hactive]

/-- What is left of a complete command with enough positional tokens does not go wrong. -/
theorem not_finalFaults (hcomplete : c.Complete) {ps : List (ClapOption V × String)}
    (hassigned : assigned c.positionalArgs context.positionalTokens = some ps) :
    ¬ FinalFaults b c context := by
  obtain ⟨⟨qs, left⟩, htake, -⟩ := Option.bind_eq_some_iff.mp hassigned
  have hlen := length_of_takePositionals htake
  have hsem : ∀ o ∈ c.options ++ c.positionalArgs, o.valueSemantic ≠ none := by
    intro o ho hnone
    have hsome := hcomplete.semantics o ho
    simp [hnone] at hsome
  intro h
  cases h with
  | unserved h =>
      exact h ⟨fun _ => hcomplete.positional,
        fun o ho _ => hcomplete.semantics o (List.mem_append_right _ ho)⟩
  | runsOut h => omega
  | rest _ hrest hnone =>
      have hmem := List.mem_of_getLast? hrest
      exact hsem _ (List.mem_append_right _ (List.mem_of_mem_filter hmem)) hnone
  | asks _ h =>
      obtain ⟨before, o, behind, hsplit, hnone, -⟩ := h
      exact hsem o (by simp [hsplit]) hnone

end

/-! ## Reading it back -/

section

variable {context : CommandLineContext V} {commands : List (Command V)} {lead : List String}
  {ps : List (ClapOption V × String)}

/-- Items that can be read back: no option is given again that must not be, every positional value
has an argument, and what is required is given. -/
structure Readable (c : Command V) (items : List (Item c)) (ps : List (ClapOption V × String)) :
    Prop where
  once : (Item.settings items).Pairwise fun s s' => s.1.key = s'.1.key → s'.1.IsRepeatable
  assigned : assigned c.positionalArgs (Item.positionals items) = some ps
  required : ∀ o ∈ c.options ++ c.positionalArgs, o.isRequired = true → o.default? = none →
    Item.given items o.key ≠ [] ∨ positionalsGiven ps o.key ≠ []

theorem optionsGiven_items (lead : List String) (items : List (Item c)) (k : String) :
    optionsGiven c (lead.map (Prod.mk .value) ++ items.flatMap Item.tokens) k =
      Item.given items k := by
  rw [optionsGiven, occurrences_values_append, occurrences_items, Item.given]
  simp [List.filter_map, Function.comp_def, List.filterMap_map]

theorem values_gathered (context : ParserContext V) (tokens : List Token) (k : String) :
    (gathered c context tokens).ovm.values k =
      context.ovm.values k ++ flagged false (optionsGiven c tokens k) := by
  rw [gathered, filterMap_entryOf, Multimap.values_storeAll_filterMap]
  simp [flagged, optionsGiven, List.map_filterMap]

theorem initial_frame (context : CommandLineContext V) (commands : List (Command V)) :
    (initial context commands).commands = commands ∧
      (initial context commands).ovm = context.ovm ∧
      (initial context commands).positionalTokens = [] := by
  obtain ⟨activeCommand, hinitial⟩ := initial_eq context commands
  rw [hinitial]
  exact ⟨rfl, rfl, rfl⟩

/-- A line that spells readable items is accepted. -/
theorem accepted_spelled (hempty : context.ovm = ∅) (hcomplete : c.Complete)
    (hopens : Opens (initial context commands) c lead items) (hreadable : Readable c items ps) :
    Accepted b (initial context commands) (delivered (lead ++ items.flatMap Item.args)) c := by
  obtain ⟨hcommands, hovm, hpos⟩ := initial_frame context commands
  obtain ⟨hchosen, htime, hbehind⟩ := chosen_of_opens (b := b) hopens
  rw [delivered_lead hopens]
  have hassigned : assigned c.positionalArgs (gathered c (initial context commands)
      (lead.map (Prod.mk .value) ++ items.flatMap Item.tokens)).positionalTokens = some ps := by
    simp only [gathered, hpos, hbehind, freeValues_items, List.nil_append]
    exact hreadable.assigned
  refine ⟨hchosen, htime, ?_, not_finalFaults hcomplete hassigned, ps, hassigned, ?_⟩
  · rw [← inOrderFrom_iff, inOrderFrom_values_append]
    refine inOrderFrom_items (fun s _ hstored => ?_) hreadable.once
    rw [hovm, hempty, OptionValuesMap.hasOption_iff, Multimap.values_empty] at hstored
    exact absurd rfl hstored
  · intro h
    obtain ⟨before, o, behind, hsplit, hrequired, hdefault, hvalues, -⟩ := h
    rw [values_storeAll_positionals, values_gathered, optionsGiven_items, List.append_eq_nil_iff,
      List.append_eq_nil_iff, flagged_eq_nil, flagged_eq_nil] at hvalues
    obtain hgiven | hgiven := hreadable.required o (by simp [hsplit]) hrequired hdefault
    · exact hgiven hvalues.1.2
    · exact hgiven hvalues.2

end

/-- `--to`, once for each recipient. -/
def recipient : ClapOption String where
  key := "to"
  shortName := "t"
  longName := "to"
  valueSemantic := some { ValueSemantics.text with repeatable := true }

def message : ClapOption String where
  key := "message"
  required := true
  valueSemantic := some .text

/-- `send [--to <text>]... <message>` -/
def send : Command String where
  path := ["send"]
  options := [recipient]
  positionalArgs := [message]
  path_ne_nil := by decide
  path_valid := by decide

/-- `-t ann "hi there" --to=eve` -/
def hiToTwo : List (Item send) := [
  .short {
    name := 't'
    value := ⟨"ann", by decide, by decide⟩
    option := recipient
    parsed := "ann"
    not_dash := by decide
    find := rfl
    parses := rfl },
  .positional ⟨"hi there", by decide, by decide⟩,
  .long {
    name := "to"
    value := "eve"
    name_ne := by decide
    no_equal := by decide
    value_ne := by decide
    value_head := by decide
    option := recipient
    parsed := "eve"
    find := rfl
    parses := rfl }]

end Parser

end AsapClap
