import AsapClap.Parser.Contents

/-!
# AsapClap.Parser.Lines

The pass over two kinds of lines: the path of a command with an option behind it, and
values only.
-/

namespace AsapClap

namespace Parser

open LongestPrefix

variable {V : Type} {b : Build} {context : ParserContext V} {command : Command V}

/-! ## An option at the end -/

/-- An option that was not typed before is what the next value would go to. -/
theorem dispatch_of_resolve {token : Token} {option : ClapOption V}
    (hcommand : context.activeCommand = some command)
    (hresolve : command.resolve token = some option)
    (hfresh : context.ovm.occurrencesOf option.key = 0) :
    ∃ flag phase, (phase = .short none ∨ phase = .long none false) ∧
      dispatch b context token =
        .ok (phase, { context with activeOptionFlag := flag, activeOption := some option }) := by
  have henter : ∀ {flag text : String} {find : Command V → Option (ClapOption V)},
      find command = some option → enterOption b flag find text true context =
        .ok (.continue_,
          { context with activeOptionFlag := flag, activeOption := some option }) := by
    intro flag text find hfind
    simp [enterOption, checkMultipleOccurrence, hcommand, hfind, hfresh]
  obtain ⟨tokenType, text⟩ := token
  cases tokenType with
  | shortOption | loneDash =>
      refine ⟨"-" ++ text, .short none, .inl rfl, ?_⟩
      rw [dispatch, henter hresolve]
      rfl
  | longOption =>
      refine ⟨"--" ++ text, .long none false, .inr rfl, ?_⟩
      rw [dispatch, henter hresolve]
      rfl
  | _ => cases hresolve

/-- An option at the end of a line gets its implicit value. -/
theorem scan_ready_option {token : Token} {option : ClapOption V} {value : V} {text : String}
    (hcommand : context.activeCommand = some command)
    (hresolve : command.resolve token = some option)
    (hfresh : context.ovm.occurrencesOf option.key = 0)
    (himplicit : option.implicit = some (value, text)) :
    ∃ entry, scan b .ready context [token] = .ok entry ∧ entry.activeCommand = some command ∧
      entry.ovm = context.ovm.storeValue option.key ⟨value, text, false⟩ ∧
      entry.positionalTokens = context.positionalTokens ∧ entry.out = context.out := by
  obtain ⟨flag, phase, hphase, hdispatch⟩ := dispatch_of_resolve (b := b) hcommand hresolve hfresh
  obtain ⟨semantics, hsem, himplicit⟩ := Option.bind_eq_some_iff.mp himplicit
  have hleave : accept (leaveOption none
      { context with activeOptionFlag := flag, activeOption := some option }) =
      (.ok ({ context with activeOptionFlag := flag, activeOption := some option }.storeValue
        option value text false) : Except (Stop V) (ParserContext V)) := by
    rw [leaveOption_none rfl]
    simp [hsem, himplicit]
  have hscan : scan b .ready context [token] =
      .ok ({ context with activeOptionFlag := flag, activeOption := some option }.storeValue
        option value text false) := by
    rw [scan, advance, hdispatch, ok_bind]
    rcases hphase with rfl | rfl <;> exact hleave
  exact ⟨_, hscan, hcommand, rfl, rfl, rfl⟩

/-! ## Values -/

theorem scan_ready_values (vs : List String) :
    scan b .ready context (vs.map (Prod.mk .value)) =
      .ok { context with positionalTokens := context.positionalTokens ++ vs } := by
  induction vs generalizing context with
  | nil => simp [scan, finish]
  | cons v vs ih =>
      have hstep : scan b .ready context ((v :: vs).map (Prod.mk .value)) =
          scan b .ready { context with positionalTokens := context.positionalTokens ++ [v] }
            (vs.map (Prod.mk .value)) := rfl
      rw [hstep, ih]
      simp

/-! ## Behind the path of a command -/

@[simp] theorem leadingValues_values (vs : List String) :
    leadingValues (vs.map (Prod.mk .value)) = vs := by
  induction vs with
  | nil => rfl
  | cons v vs ih => simpa using ih

theorem leadingValues_values_append {token : Token} (h : token.1 ≠ .value) (vs : List String)
    (tokens : List Token) : leadingValues (vs.map (Prod.mk .value) ++ token :: tokens) = vs := by
  induction vs with
  | nil => exact leadingValues_other h tokens
  | cons v vs ih => simpa using ih

/-- With a command at a path that was probed to its end, what follows the path is for this
command. -/
theorem scan_start_of_longest {tokens : List Token}
    (hlong : longest Command.path context.commands (leadingValues tokens) = some command) :
    scan b .start context tokens =
      scan b .ready { context with activeCommand := some command }
        (tokens.drop (probed context.commands tokens).length) := by
  have hselect : ∀ segments, select (probed context.commands tokens) segments context =
      (.ok { context with activeCommand := some command } :
        Except (Stop V) (ParserContext V)) := by
    intro segments
    rw [select, longest_probed, hlong]
  rcases scan_start (b := b) context tokens with ⟨-, segments, hscan⟩ | ⟨hprobed, -⟩
  · rw [hscan]
    cases tokens.drop (probed context.commands tokens).length with
    | nil =>
        rw [finish, hselect, longest_probed, hlong]
        rfl
    | cons token rest =>
        rw [hselect]
        rfl
  · exact absurd hprobed (probed_ne_nil_of_longest hlong)

/-- The path of a command is probed to its end. -/
theorem probe_path (h : command ∈ context.commands) :
    probe Command.path context.commands command.path = command.path := by
  have hpre : command.path <+: probe Command.path context.commands command.path := by
    rw [prefix_probe_iff List.prefix_rfl command.path_ne_nil]
    exact List.ne_nil_of_mem (mem_candidates.mpr ⟨h, List.prefix_rfl⟩)
  exact ((probe_isPrefix_line command.path).eq_of_length_le hpre.length_le)

/-- Arguments that are values are delivered as they are. -/
theorem delivered_values_append {vs : List String}
    (h : ∀ s ∈ vs, Tokenizer.tokenize s = [(.value, s)]) (args : List String) :
    Tokenizer.delivered (vs ++ args) = vs.map (Prod.mk .value) ++ Tokenizer.delivered args := by
  induction vs with
  | nil => rfl
  | cons v vs ih =>
      obtain ⟨hv, hvs⟩ := List.forall_mem_cons.mp h
      have hne : v ≠ "" := by
        rintro rfl
        rw [(Tokenizer.tokenize_eq_nil_iff "").mpr rfl] at hv
        cases hv
      rw [List.cons_append, Tokenizer.delivered_cons hne, hv, ih hvs]
      rfl

end Parser

end AsapClap
