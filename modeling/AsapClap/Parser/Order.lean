import AsapClap.Library.Rearrange
import AsapClap.Parser.Agreement
import AsapClap.Parser.Ahead
import AsapClap.Parser.Lines

/-!
# AsapClap.Parser.Order

Arguments that are complete in themselves, `--name=value` and values, behind a command and one
argument `--name=value`.  Whether such an argument is stored, refused or goes wrong depends on
those with the same key in front of it, so their order only matters in the end if one kind of
failure may come before the other.
-/

namespace AsapClap

variable {V : Type}

/-! ## Arguments -/

/-- An argument that is a value. -/
structure PlainArg where
  text : String
  ne_empty : text ≠ ""
  no_dash : text.toList.head? ≠ some '-'

/-- An argument `--name=value`. -/
structure LongArg where
  name : String
  value : String
  name_ne : name ≠ ""
  no_equal : '=' ∉ name.toList
  value_ne : value ≠ ""
  value_head : value.toList.head? ≠ some '='

/-- An argument that is complete in itself. -/
inductive Arg
  | plain (p : PlainArg)
  | long (q : LongArg)

namespace Arg

/-- The argument as it is typed. -/
def text : Arg → String
  | .plain p => p.text
  | .long q => "--" ++ q.name ++ "=" ++ q.value

def tokens : Arg → List Token
  | .plain p => [(.value, p.text)]
  | .long q => [(.longOption, q.name), (.equalSign, "="), (.value, q.value)]

def plain? : Arg → Option PlainArg
  | .plain p => some p
  | .long _ => none

def long? : Arg → Option LongArg
  | .plain _ => none
  | .long q => some q

theorem text_ne_empty (a : Arg) : a.text ≠ "" := by
  cases a with
  | plain p => exact p.ne_empty
  | long q => simp [text]

theorem tokenize_text (a : Arg) : Tokenizer.tokenize a.text = a.tokens := by
  cases a with
  | plain p => exact Tokenizer.tokenize_value p.ne_empty p.no_dash
  | long q =>
      exact Tokenizer.tokenize_longOption_value q.name_ne q.no_equal q.value_ne q.value_head

theorem delivered_texts (args : List Arg) :
    Tokenizer.delivered (args.map text) = args.flatMap tokens := by
  induction args with
  | nil => rfl
  | cons a args ih =>
      rw [List.map_cons, Tokenizer.delivered_cons a.text_ne_empty, tokenize_text, ih]
      rfl

end Arg

namespace Parser

open Errors Relate Rearrange

/-! ## What becomes of an argument -/

/-- How an argument fails. -/
inductive Failure
  | refused
  | faulted (fault : Fault)

/-- A pass that stops because of this failure. -/
def Stop.IsA : Failure → Stop V → Prop
  | .refused, .rejected _ _ => True
  | .faulted fault, .faulted fault' => fault = fault'
  | _, _ => False

/-- The key of the option of an argument, if the command has it. -/
def LongArg.key? (c : Command V) (q : LongArg) : Option String :=
  (c.findLongOption q.name).map ClapOption.key

/-- Values are one group, and so are the arguments whose options share a key. -/
def group (c : Command V) : Arg → Option (Option String)
  | .plain _ => some none
  | .long q => (LongArg.key? c q).map some

/-- Whether an argument fails, behind these others that did not: there are as many values under
the key of its option as there were at first and arguments with that key. -/
def judge (b : Build) (c : Command V) (ovm : OptionValuesMap V) (before : List Arg) :
    Arg → Option Failure
  | .plain _ => none
  | .long q =>
      match c.findLongOption q.name with
      | none => some .refused
      | some option =>
          let occurrences :=
            ovm.occurrencesOf option.key + (members (group c) (some option.key) before).length
          match option.valueSemantic with
          | none =>
              if occurrences = 0 ∧ b = .debug then some (.faulted (.contract .hasValueSemantics))
              else some (.faulted .nullPointer)
          | some semantics =>
              if 0 < occurrences ∧ semantics.isRepeatable = false ∨
                  (semantics.parse q.value).isNone then some .refused
              else none

/-- What an argument that does not fail stores. -/
def stored? (c : Command V) : Arg → Option (String × OptionValue V)
  | .plain _ => none
  | .long q => (c.findLongOption q.name).bind fun option =>
      (option.parse q.value).map fun value => (option.key, ⟨value, q.value, false⟩)

section

variable {b : Build} {c : Command V} {ovm : OptionValuesMap V} {before : List Arg}

theorem members_members (k : Option String) (args : List Arg) :
    members (group c) k (members (group c) k args) = members (group c) k args := by
  simp [members, List.filter_filter]

theorem local_judge (b : Build) (c : Command V) (ovm : OptionValuesMap V) :
    Local (group c) (judge b c ovm) where
  member before a k hk := by
    cases a with
    | plain p => rfl
    | long q =>
        obtain ⟨key, hkey, rfl⟩ := Option.map_eq_some_iff.mp hk
        obtain ⟨option, hfind, rfl⟩ := Option.map_eq_some_iff.mp hkey
        simp only [judge, hfind, members_members]
  free before a hnone := by
    cases a with
    | plain p => rfl
    | long q =>
        have hfind : c.findLongOption q.name = none := by
          simpa [group, LongArg.key?] using hnone
        simp only [judge, hfind]

end

/-! ## Behind an option with its value -/

section

variable {b : Build} {context : ParserContext V} {o : ClapOption V} {rest : List Token}

/-- Once an option has its value, what follows is read as if there was no option. -/
theorem scan_long_of_value (hoption : context.activeOption = some o)
    (hsem : o.valueSemantic.isSome) (hrest : ∀ t ∈ rest.head?, t.1 ≠ .equalSign) (v : String)
    (afterEqual : Bool) :
    scan b (.long (some v) afterEqual) context rest = scan b .ready context rest := by
  cases rest with
  | nil =>
      rw [scan, scan, finish, finish, leaveOption_some]
      rfl
  | cons token rest =>
      have hequal : token.1 ≠ .equalSign := hrest token rfl
      rw [scan_cons, scan_cons]
      by_cases hvalue : token.1 = .value
      · obtain ⟨text, rfl⟩ := Token.exists_text hvalue
        obtain ⟨semantics, hsem⟩ := Option.isSome_iff_exists.mp hsem
        have hadvance : advance b (.long (some v) afterEqual) context (.value, text) =
            dispatch b context (.value, text) := by
          change continueLong b (some v) afterEqual context (.value, text) = _
          rw [continueLong_value (.inl rfl), activeSemantics_of_some hoption hsem]
          rfl
        rw [hadvance]
        rfl
      · rw [advance_long_other hvalue hequal, leaveOption_some]
        rfl

theorem head?_tokens (args : List Arg) :
    ∀ t ∈ (args.flatMap Arg.tokens).head?, t.1 ≠ .equalSign := by
  intro t ht
  cases args with
  | nil => cases ht
  | cons a args =>
      cases a with
      | plain p =>
          obtain rfl : (TokenType.value, p.text) = t := by simpa [Arg.tokens] using ht
          simp
      | long q =>
          obtain rfl : (TokenType.longOption, q.name) = t := by simpa [Arg.tokens] using ht
          simp

end

/-! ## One argument -/

section

variable {b : Build} {c : Command V} {context : ParserContext V} {option : ClapOption V}
  {semantics : ValueSemantics V}

/-- The context behind an argument that was stored. -/
def StoredBehind (c : Command V) (a : Arg) (context context' : ParserContext V) : Prop :=
  ∃ activeOption activeOptionFlag, context' = { context with
    positionalTokens := context.positionalTokens ++ (a.plain?.map PlainArg.text).toList
    ovm := context.ovm.storeAll (stored? c a).toList
    activeOption
    activeOptionFlag }

/-- The option of a long argument, as it is looked up and entered. -/
theorem dispatch_long_of_find {name : String} (hcommand : context.activeCommand = some c)
    (hfind : c.findLongOption name = some option)
    (h : context.ovm.occurrencesOf option.key = 0 ∨
      ∃ semantics, option.valueSemantic = some semantics ∧ semantics.isRepeatable = true) :
    dispatch b context (.longOption, name) = .ok (.long none false, { context with
      activeOptionFlag := "--" ++ name
      activeOption := some option }) := by
  have henter : enterOption b ("--" ++ name) (·.findLongOption name) name true context =
      .ok (.continue_, { context with
        activeOptionFlag := "--" ++ name
        activeOption := some option }) := by
    by_cases hfresh : context.ovm.occurrencesOf option.key = 0
    · simp [enterOption, checkMultipleOccurrence, hcommand, hfind, hfresh]
    · obtain ⟨semantics, hsem, hrepeatable⟩ := h.resolve_left hfresh
      simp [enterOption, checkMultipleOccurrence, hcommand, hfind, hsem, hrepeatable]
  rw [dispatch, henter]
  rfl

theorem dispatch_long_of_unknown {name : String} (hcommand : context.activeCommand = some c)
    (hfind : c.findLongOption name = none) :
    ∃ message context', dispatch b context (.longOption, name) =
      .error (.rejected message context') := by
  have henter : ∃ message context', enterOption b ("--" ++ name) (·.findLongOption name) name true
      context = .ok (.terminateWithError message, context') := by
    simp [enterOption, hcommand, hfind]
  obtain ⟨message, context', henter⟩ := henter
  exact ⟨message, context', by rw [dispatch, henter]; rfl⟩

/-- An option that has values already is not entered again unless it is repeatable. -/
theorem dispatch_long_of_repeated {name : String} (hcommand : context.activeCommand = some c)
    (hfind : c.findLongOption name = some option)
    (hoccurs : 0 < context.ovm.occurrencesOf option.key) :
    (option.valueSemantic = none →
      dispatch b context (.longOption, name) = .error (.faulted .nullPointer)) ∧
    ∀ semantics, option.valueSemantic = some semantics → semantics.isRepeatable = false →
      ∃ message context', dispatch b context (.longOption, name) =
        .error (.rejected message context') := by
  have hnot : context.ovm.occurrencesOf option.key ≠ 0 := by omega
  constructor
  · intro hsem
    have henter : enterOption b ("--" ++ name) (·.findLongOption name) name true context =
        .error .nullPointer := by
      simp [enterOption, hcommand, hfind, checkMultipleOccurrence, hnot, hsem]
    rw [dispatch, henter]
    rfl
  · intro semantics hsem hrepeatable
    -- the message shows the first of the values there are
    have hne := OptionValuesMap.occurrencesOf_pos_iff.mp hoccurs
    obtain ⟨value, values, hvalues⟩ := List.exists_cons_of_ne_nil hne
    have hcontains : context.ovm.contains option.key = true := Multimap.contains_iff.mpr hne
    have henter : ∃ message context', enterOption b ("--" ++ name) (·.findLongOption name) name
        true context = .ok (.terminateWithError message, context') := by
      simp [enterOption, hcommand, hfind, checkMultipleOccurrence, hnot, hsem, hrepeatable,
        illegalMultipleOccurrence, hoccurs, OptionValuesMap.valuesOf?, hcontains, hvalues]
    obtain ⟨message, context', henter⟩ := henter
    exact ⟨message, context', by rw [dispatch, henter]; rfl⟩

/-- Without value semantics, an option does not get over the equal sign in a debug build and
not over the value in a release build. -/
theorem scan_long_of_no_semantics (hoption : context.activeOption = some option)
    (hsem : option.valueSemantic = none) (equal v : String) (rest : List Token) :
    scan b (.long none false) context ((.equalSign, equal) :: (.value, v) :: rest) =
      .error (.faulted (if b = .debug then .contract .hasValueSemantics else .nullPointer)) := by
  rw [scan_cons]
  cases b with
  | debug =>
      have hequal : advance .debug (.long none false) context (.equalSign, equal) =
          .error (.faulted (.contract .hasValueSemantics)) := by
        change continueLong .debug none false context (.equalSign, equal) = _
        rw [continueLong, activeSemantics_eq hoption, if_pos ⟨rfl, hsem⟩]
        rfl
      rw [hequal]
      rfl
  | release =>
      have hactive : activeSemantics .release context = .ok (option, none) := by
        rw [activeSemantics_eq hoption, if_neg (by simp), hsem]
      have hequal : advance .release (.long none false) context (.equalSign, equal) =
          .ok (.long none true, context) := by
        change continueLong .release none false context (.equalSign, equal) = _
        rw [continueLong, hactive]
        rfl
      have hvalue : advance .release (.long none true) context (.value, v) =
          .error (.faulted .nullPointer) := by
        change continueLong .release none true context (.value, v) = _
        rw [continueLong_value (.inr rfl), hactive]
        rfl
      rw [hequal, ok_bind, scan_cons, hvalue]
      rfl

variable {ovm : OptionValuesMap V} {before : List Arg} {a : Arg}

/-- What the map of the context has to do with what was there at first. -/
def Counts (c : Command V) (ovm : OptionValuesMap V) (before : List Arg)
    (context : ParserContext V) : Prop :=
  ∀ k, context.ovm.occurrencesOf k =
    ovm.occurrencesOf k + (members (group c) (some k) before).length

/-- A long argument that does not fail: its option is known, may be entered, and takes the
value. -/
theorem judge_long_eq_none {q : LongArg} (h : judge b c ovm before (.long q) = none) :
    ∃ option semantics value, c.findLongOption q.name = some option ∧
      option.valueSemantic = some semantics ∧ semantics.parse q.value = some value ∧
      (ovm.occurrencesOf option.key + (members (group c) (some option.key) before).length = 0 ∨
        semantics.isRepeatable = true) := by
  cases hfind : c.findLongOption q.name with
  | none => simp [judge, hfind] at h
  | some option =>
      cases hsem : option.valueSemantic with
      | none =>
          simp only [judge, hfind, hsem] at h
          split at h <;> cases h
      | some semantics =>
          simp only [judge, hfind, hsem] at h
          split at h
          · cases h
          · next hgood =>
            obtain ⟨hrepeats, hparses⟩ := not_or.mp hgood
            rw [Option.isNone_iff_eq_none] at hparses
            obtain ⟨value, hparse⟩ := Option.ne_none_iff_exists'.mp hparses
            refine ⟨option, semantics, value, rfl, hsem, hparse, ?_⟩
            by_cases hrepeatable : semantics.isRepeatable = true
            · exact .inr hrepeatable
            · left
              simp only [hrepeatable, and_true] at hrepeats
              omega

/-- One that does: its option is unknown, has no value semantics, may not be entered again, or
does not take the value. -/
inductive FailsWith (b : Build) (c : Command V) (ovm : OptionValuesMap V) (before : List Arg)
    (q : LongArg) : Failure → Prop
  | unknown (find : c.findLongOption q.name = none) : FailsWith b c ovm before q .refused
  | noSemantics {option : ClapOption V} (find : c.findLongOption q.name = some option)
      (semantics : option.valueSemantic = none) {fault : Fault}
      (fresh : ovm.occurrencesOf option.key +
          (members (group c) (some option.key) before).length = 0 →
        fault = if b = .debug then .contract .hasValueSemantics else .nullPointer)
      (repeated : 0 < ovm.occurrencesOf option.key +
          (members (group c) (some option.key) before).length → fault = .nullPointer) :
      FailsWith b c ovm before q (.faulted fault)
  | repeated {option : ClapOption V} {semantics : ValueSemantics V}
      (find : c.findLongOption q.name = some option)
      (sem : option.valueSemantic = some semantics)
      (repeats : 0 < ovm.occurrencesOf option.key +
        (members (group c) (some option.key) before).length)
      (notRepeatable : semantics.isRepeatable = false) : FailsWith b c ovm before q .refused
  | unparsed {option : ClapOption V} {semantics : ValueSemantics V}
      (find : c.findLongOption q.name = some option)
      (sem : option.valueSemantic = some semantics) (parse : semantics.parse q.value = none)
      (enters : ovm.occurrencesOf option.key +
          (members (group c) (some option.key) before).length = 0 ∨
        semantics.isRepeatable = true) : FailsWith b c ovm before q .refused

theorem failsWith_of_judge {q : LongArg} {failure : Failure}
    (h : judge b c ovm before (.long q) = some failure) :
    FailsWith b c ovm before q failure := by
  cases hfind : c.findLongOption q.name with
  | none =>
      obtain rfl : .refused = failure := by simpa [judge, hfind] using h
      exact .unknown hfind
  | some option =>
      cases hsem : option.valueSemantic with
      | none =>
          simp only [judge, hfind, hsem] at h
          split at h
          · next hfresh =>
            cases h
            refine .noSemantics hfind hsem (fun _ => by rw [if_pos hfresh.2]) fun hpos => ?_
            omega
          · next hnot =>
            cases h
            refine .noSemantics hfind hsem (fun hfresh => ?_) fun _ => rfl
            rw [if_neg fun hb => hnot ⟨hfresh, hb⟩]
      | some semantics =>
          simp only [judge, hfind, hsem] at h
          split at h
          · next hbad =>
            cases h
            by_cases hrepeats : 0 < ovm.occurrencesOf option.key +
                (members (group c) (some option.key) before).length ∧
                semantics.isRepeatable = false
            · exact .repeated hfind hsem hrepeats.1 hrepeats.2
            · have hparse : semantics.parse q.value = none := by
                simpa using hbad.resolve_left hrepeats
              refine .unparsed hfind hsem hparse ?_
              by_cases hrepeatable : semantics.isRepeatable = true
              · exact .inr hrepeatable
              · left
                simp only [hrepeatable, and_true] at hrepeats
                omega
          · cases h

/-- An option that may be entered. -/
theorem scan_long_of_enters {q : LongArg} (hcommand : context.activeCommand = some c)
    (hfind : c.findLongOption q.name = some option)
    (h : context.ovm.occurrencesOf option.key = 0 ∨
      ∃ semantics, option.valueSemantic = some semantics ∧ semantics.isRepeatable = true)
    (args : List Arg) :
    scan b .ready context ((Arg.long q :: args).flatMap Arg.tokens) =
      scan b (.long none false)
        { context with activeOptionFlag := "--" ++ q.name, activeOption := some option }
        ((.equalSign, "=") :: (.value, q.value) :: args.flatMap Arg.tokens) := by
  have htokens : (Arg.long q :: args).flatMap Arg.tokens = (.longOption, q.name) ::
      (.equalSign, "=") :: (.value, q.value) :: args.flatMap Arg.tokens := rfl
  have hdispatch : advance b .ready context (.longOption, q.name) = _ :=
    dispatch_long_of_find hcommand hfind h
  rw [htokens, scan_cons, hdispatch]
  rfl

/-- An argument that does not fail is stored. -/
theorem scan_arg_of_stored (hcommand : context.activeCommand = some c)
    (hcounts : Counts c ovm before context) (hjudge : judge b c ovm before a = none) :
    ∃ context', StoredBehind c a context context' ∧ ∀ args : List Arg,
      scan b .ready context ((a :: args).flatMap Arg.tokens) =
        scan b .ready context' (args.flatMap Arg.tokens) := by
  cases a with
  | plain p =>
      exact ⟨_, ⟨context.activeOption, context.activeOptionFlag, rfl⟩, fun args => rfl⟩
  | long q =>
      obtain ⟨option, semantics, value, hfind, hsem, hparse, henters⟩ := judge_long_eq_none hjudge
      rw [← hcounts] at henters
      have hentry : stored? c (.long q) = some (option.key, ⟨value, q.value, false⟩) := by
        simp [stored?, hfind, ClapOption.parse, hsem, hparse]
      refine ⟨_, ⟨some option, "--" ++ q.name, rfl⟩, fun args => ?_⟩
      rw [scan_long_of_enters hcommand hfind (henters.imp_right fun h => ⟨semantics, hsem, h⟩),
        scan_long_value rfl hsem, offer_of_parse hparse, ok_bind,
        scan_long_of_value (o := option) rfl (by simp [hsem]) (head?_tokens args), hentry]
      simp [Arg.plain?, ParserContext.storeValue, OptionValuesMap.storeValue]

/-- An argument that fails stops the pass. -/
theorem scan_arg_of_fails {failure : Failure} (hcommand : context.activeCommand = some c)
    (hcounts : Counts c ovm before context) (hjudge : judge b c ovm before a = some failure) :
    ∃ stop : Stop V, stop.IsA failure ∧ ∀ args : List Arg,
      scan b .ready context ((a :: args).flatMap Arg.tokens) = .error stop := by
  cases a with
  | plain p => cases hjudge
  | long q =>
      have hstops : ∀ {stop : Stop V}, dispatch b context (.longOption, q.name) = .error stop →
          ∀ args : List Arg,
            scan b .ready context ((Arg.long q :: args).flatMap Arg.tokens) = .error stop := by
        intro stop hdispatch args
        have hfirst : advance b .ready context (.longOption, q.name) = .error stop := hdispatch
        have htokens : (Arg.long q :: args).flatMap Arg.tokens = (.longOption, q.name) ::
            (.equalSign, "=") :: (.value, q.value) :: args.flatMap Arg.tokens := rfl
        rw [htokens, scan_cons, hfirst]
        rfl
      cases failsWith_of_judge hjudge with
      | unknown hfind =>
          obtain ⟨message, context', hdispatch⟩ :=
            dispatch_long_of_unknown (b := b) hcommand hfind
          exact ⟨.rejected message context', trivial, hstops hdispatch⟩
      | @noSemantics option hfind hsem fault hfresh hrepeated =>
          rw [← hcounts] at hfresh hrepeated
          refine ⟨.faulted fault, rfl, fun args => ?_⟩
          by_cases hzero : context.ovm.occurrencesOf option.key = 0
          · rw [scan_long_of_enters hcommand hfind (.inl hzero),
              scan_long_of_no_semantics rfl hsem, hfresh hzero]
          · have hpos : 0 < context.ovm.occurrencesOf option.key := by omega
            rw [hrepeated hpos]
            exact hstops ((dispatch_long_of_repeated hcommand hfind hpos).1 hsem) args
      | repeated hfind hsem hrepeats hnot =>
          rw [← hcounts] at hrepeats
          obtain ⟨message, context', hdispatch⟩ :=
            (dispatch_long_of_repeated (b := b) hcommand hfind hrepeats).2 _ hsem hnot
          exact ⟨.rejected message context', trivial, hstops hdispatch⟩
      | @unparsed option semantics hfind hsem hparse henters =>
          rw [← hcounts] at henters
          obtain ⟨message, hmessage⟩ : ∃ message, missingValueForOption { context with
              activeOptionFlag := "--" ++ q.name
              activeOption := some option } = .ok message := ⟨_, rfl⟩
          refine ⟨.rejected message { context with
            activeOptionFlag := "--" ++ q.name
            activeOption := some option }, trivial, fun args => ?_⟩
          rw [scan_long_of_enters hcommand hfind (henters.imp_right fun h => ⟨semantics, hsem, h⟩),
            scan_long_value rfl hsem, offer_of_missing hparse (.inl rfl), hmessage]
          rfl

/-! ## All arguments -/

/-- Storing an argument counts it. -/
theorem counts_of_stored {context' : ParserContext V} (hcounts : Counts c ovm before context)
    (hjudge : judge b c ovm before a = none) (hstored : StoredBehind c a context context') :
    Counts c ovm (before ++ [a]) context' := by
  obtain ⟨activeOption, activeOptionFlag, rfl⟩ := hstored
  intro k
  have hvalues : ({ context with
      positionalTokens := context.positionalTokens ++ (a.plain?.map PlainArg.text).toList
      ovm := context.ovm.storeAll (stored? c a).toList
      activeOption
      activeOptionFlag } : ParserContext V).ovm.occurrencesOf k =
      context.ovm.occurrencesOf k +
        (((stored? c a).toList.filter fun e => e.1 = k).map Prod.snd).length := by
    rw [OptionValuesMap.occurrencesOf, Multimap.values_storeAll, List.length_append]
    rfl
  have hnew : (((stored? c a).toList.filter fun e => e.1 = k).map Prod.snd).length =
      (members (group c) (some k) [a]).length := by
    cases a with
    | plain p => simp [stored?, members, group]
    | long q =>
        obtain ⟨option, semantics, value, hfind, hsem, hparse, -⟩ := judge_long_eq_none hjudge
        by_cases hk : option.key = k <;>
          simp [stored?, members, group, LongArg.key?, hfind, ClapOption.parse, hsem, hparse, hk]
  rw [hvalues, hcounts k, hnew, members_append, List.length_append, Nat.add_assoc]

/-- The pass over arguments comes to a stop at the first of them that fails, or stores them
all. -/
theorem scan_args (hcommand : context.activeCommand = some c)
    (hcounts : Counts c ovm before context) (args : List Arg) :
    match firstFailure (judge b c ovm) before args with
    | some failure => ∃ stop : Stop V, stop.IsA failure ∧
        scan b .ready context (args.flatMap Arg.tokens) = .error stop
    | none => ∃ activeOption activeOptionFlag,
        scan b .ready context (args.flatMap Arg.tokens) = .ok { context with
          positionalTokens :=
            context.positionalTokens ++ (args.filterMap Arg.plain?).map PlainArg.text
          ovm := context.ovm.storeAll (args.filterMap (stored? c))
          activeOption
          activeOptionFlag } := by
  induction args generalizing context before with
  | nil =>
      refine ⟨context.activeOption, context.activeOptionFlag, ?_⟩
      simp [scan, finish]
  | cons a args ih =>
      rw [firstFailure]
      cases hjudge : judge b c ovm before a with
      | some failure =>
          obtain ⟨stop, hstop, hscan⟩ := scan_arg_of_fails hcommand hcounts hjudge
          exact ⟨stop, hstop, hscan args⟩
      | none =>
          obtain ⟨context', hstored, hscan⟩ := scan_arg_of_stored hcommand hcounts hjudge
          have hcounts' := counts_of_stored hcounts hjudge hstored
          have hcommand' : context'.activeCommand = some c := by
            obtain ⟨activeOption, activeOptionFlag, rfl⟩ := hstored
            exact hcommand
          have hothers := ih hcommand' hcounts'
          rw [Option.none_or, hscan]
          cases hfirst : firstFailure (judge b c ovm) (before ++ [a]) args with
          | some failure =>
              rw [hfirst] at hothers
              exact hothers
          | none =>
              rw [hfirst] at hothers
              obtain ⟨activeOption, activeOptionFlag, hothers⟩ := hothers
              obtain ⟨activeOption', activeOptionFlag', rfl⟩ := hstored
              refine ⟨activeOption, activeOptionFlag, ?_⟩
              rw [hothers, ← Multimap.storeAll_append]
              cases hplain : a.plain? <;> cases hentry : stored? c a <;>
                simp [hplain, hentry]

end

end Parser

end AsapClap
