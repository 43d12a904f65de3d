import AsapClap.Parser.Contents
import AsapClap.Parser.History
import AsapClap.Typed

/-!
# AsapClap.Parser.Typing

What a parse that succeeds holds under a key was supplied by options of the command with that
key, so it has their type and its original token stands for it.
-/

namespace AsapClap

variable {V Tag : Type}

/-! ## Options of a type -/

/-- The texts of the values that an option has without the command line parse to them. -/
def ClapOption.Legible (o : ClapOption V) : Prop :=
  ∀ value text, o.implicit = some (value, text) ∨ o.default? = some (value, text) →
    o.parse text = some value

/-- What a legible option supplies is what the original token parses to. -/
theorem ClapOption.Supplies.parse_originalToken {o : ClapOption V} {v : OptionValue V}
    (h : o.Supplies v) (hlegible : o.Legible) : o.parse v.originalToken = some v.value := by
  cases h with
  | parsed defaulted h => exact h
  | implicit h => exact hlegible _ _ (.inl h)
  | default h => exact hlegible _ _ (.inr h)

section

variable {types : UserTypes Tag} {ty : ValueType Tag} {o : ClapOption (AnyOf types)}

theorem ClapOption.HasType.parse (h : o.HasType ty) (token : String) :
    o.parse token = (ty.parseValue types token).map (ty.any types) := by
  obtain ⟨d, hd⟩ := h
  simp [ClapOption.parse, hd, ValueSemantics.parse, TypedDescriptor.toSemantics]

theorem any_inj {x x' : ty.Carrier types} (h : ty.any types x = ty.any types x') : x = x' := by
  have hcontent := congrArg Any.content h
  simpa using hcontent

/-- The option is as legible as its descriptor. -/
theorem legible_of_descriptor {d : TypedDescriptor types ty} (h : d.Legible)
    (hd : o.valueSemantic = some d.toSemantics) : o.Legible := by
  intro value text hvalue
  rw [ClapOption.HasType.parse ⟨d, hd⟩]
  rcases hvalue with hvalue | hvalue
  · rw [ClapOption.implicit, hd, Option.bind_some] at hvalue
    obtain ⟨⟨x, text'⟩, himplicit, heq⟩ := Option.map_eq_some_iff.mp hvalue
    cases heq
    rw [h.implicit x text' himplicit, Option.map_some]
  · rw [ClapOption.default?, hd, Option.bind_some] at hvalue
    obtain ⟨⟨x, text'⟩, hdefault, heq⟩ := Option.map_eq_some_iff.mp hvalue
    cases heq
    rw [h.default x text' hdefault, Option.map_some]

/-- An option of a type supplies values of the type. -/
theorem ClapOption.HasType.supplies (h : o.HasType ty) {v : OptionValue (AnyOf types)}
    (hsupplies : o.Supplies v) : ∃ x, v.value = ty.any types x := by
  obtain ⟨d, hd⟩ := h
  cases hsupplies with
  | parsed defaulted hparse =>
      rw [ClapOption.HasType.parse ⟨d, hd⟩] at hparse
      obtain ⟨x, -, heq⟩ := Option.map_eq_some_iff.mp hparse
      exact ⟨x, heq.symm⟩
  | implicit himplicit =>
      rw [ClapOption.implicit, hd, Option.bind_some] at himplicit
      obtain ⟨⟨x, text⟩, -, heq⟩ := Option.map_eq_some_iff.mp himplicit
      cases heq
      exact ⟨x, rfl⟩
  | default hdefault =>
      rw [ClapOption.default?, hd, Option.bind_some] at hdefault
      obtain ⟨⟨x, text⟩, -, heq⟩ := Option.map_eq_some_iff.mp hdefault
      cases heq
      exact ⟨x, rfl⟩

end

namespace Parser

/-! ## Whole runs -/

variable {b : Build}

section

variable {context : CommandLineContext V} {commands : List (Command V)} {args : List String}
  {result : ParserContext V} {c : Command V} {k : String}

/-- The options with this key, positional arguments included. -/
def WithKey (c : Command V) (k : String) (o : ClapOption V) : Prop :=
  o ∈ c.options ++ c.positionalArgs ∧ o.key = k

theorem supplies_of_given {o : ClapOption V} {tokens : List Token} {value : V} {text : String}
    (h : o.given tokens = some (value, text)) : o.Supplies ⟨value, text, false⟩ := by
  unfold ClapOption.given at h
  split at h
  · next value' hdirect =>
    cases h
    obtain ⟨text', -, hparse⟩ := Option.bind_eq_some_iff.mp hdirect
    obtain ⟨parsed, hparse, heq⟩ := Option.map_eq_some_iff.mp hparse
    cases heq
    exact .parsed false hparse
  · exact .implicit h

/-- An option that occurs is one of the command, and is given what the tokens behind it say. -/
theorem given_of_mem_occurrences {tokens : List Token} {p : ClapOption V × Option (V × String)}
    (h : p ∈ occurrences c tokens) :
    p.1 ∈ c.options ∧ ∃ following, p.2 = p.1.given following := by
  induction tokens with
  | nil => simp [occurrences] at h
  | cons token tokens ih =>
      rw [occurrences] at h
      split at h
      · next option hresolve =>
        obtain rfl | h := List.mem_cons.mp h
        · exact ⟨mem_options_of_resolve hresolve, tokens, rfl⟩
        · exact ih h
      · exact ih h

theorem mem_flagged {defaulted : Bool} {given : List (V × String)} {v : OptionValue V}
    (h : v ∈ flagged defaulted given) :
    ∃ value text, (value, text) ∈ given ∧ v = ⟨value, text, defaulted⟩ := by
  obtain ⟨⟨value, text⟩, hmem, rfl⟩ := List.mem_map.mp h
  exact ⟨value, text, hmem, rfl⟩

/-- Whatever a parse holds in the end was supplied by an option of the command with its key. -/
theorem supplied_of_parses (hempty : context.ovm = ∅)
    (h : Parses b context commands args (.returned true result)) :
    ∃ c, result.activeCommand = some c ∧ ∀ k, ∀ v ∈ result.ovm.values k,
      ∃ o, WithKey c k o ∧ o.Supplies v := by
  obtain ⟨c, ps, -, hactive, hassigned, -, hvalues⟩ := contents_of_parses hempty h
  refine ⟨c, hactive, fun k v hv => ?_⟩
  rw [hvalues, orDefault] at hv
  split at hv
  · obtain ⟨⟨value, text⟩, hdefault, rfl⟩ : ∃ p, firstDefault (c.options ++ c.positionalArgs) k =
        some p ∧ ⟨p.1, p.2, false⟩ = v := by simpa using hv
    obtain ⟨o, ho, hdefault⟩ := List.mem_filterMap.mp (List.mem_of_mem_head? hdefault)
    obtain ⟨hmem, hkey⟩ := List.mem_filter.mp ho
    exact ⟨o, ⟨hmem, of_decide_eq_true hkey⟩, .default hdefault⟩
  · obtain hv | hv := List.mem_append.mp hv
    · obtain ⟨value, text, hmem, rfl⟩ := mem_flagged hv
      obtain ⟨p, hp, hgiven⟩ := List.mem_filterMap.mp hmem
      obtain ⟨hoccurs, hkey⟩ := List.mem_filter.mp hp
      obtain ⟨hoption, following, heq⟩ := given_of_mem_occurrences hoccurs
      refine ⟨p.1, ⟨List.mem_append_left _ hoption, of_decide_eq_true hkey⟩, ?_⟩
      exact supplies_of_given (heq.symm.trans hgiven)
    · obtain ⟨value, text, hmem, rfl⟩ := mem_flagged hv
      obtain ⟨p, hp, hgiven⟩ := List.mem_filterMap.mp hmem
      obtain ⟨hassign, hkey⟩ := List.mem_filter.mp hp
      obtain ⟨parsed, hparse, heq⟩ := Option.map_eq_some_iff.mp hgiven
      cases heq
      exact ⟨p.1, ⟨List.mem_append_right _ (mem_of_assigned hassigned p hassign),
        of_decide_eq_true hkey⟩, .parsed true hparse⟩

end

/-! ## Types -/

section

variable {types : UserTypes Tag} [DecidableEq Tag] {ty : ValueType Tag}

/-- A value is read back as one of this type and of no other. -/
structure Reads (ty : ValueType Tag) (v : OptionValue (AnyOf types)) (x : ty.Carrier types) :
    Prop where
  getAs : v.getAs ty = some x
  badCast : ∀ ty', ty' ≠ ty → v.getAs ty' = none

theorem reads_of_value {v : OptionValue (AnyOf types)} {x : ty.Carrier types}
    (h : v.value = ty.any types x) : Reads ty v x where
  getAs := by
    rw [OptionValue.getAs, h]
    exact cast?_any_self ty x
  badCast := by
    intro ty' hne
    rw [OptionValue.getAs, h, cast?_any, dif_neg (Ne.symm hne)]

/-- A value that options of a type supply is of the type, and its original token parses to it. -/
theorem exists_reads_of_supplies {o : ClapOption (AnyOf types)} {v : OptionValue (AnyOf types)}
    (htype : o.HasType ty) (h : o.Supplies v) :
    ∃ x, Reads ty v x ∧ (o.Legible → ty.parseValue types v.originalToken = some x) := by
  obtain ⟨x, hx⟩ := htype.supplies h
  refine ⟨x, reads_of_value hx, fun hlegible => ?_⟩
  have hparse := h.parse_originalToken hlegible
  rw [htype.parse, hx] at hparse
  obtain ⟨x', hx', heq⟩ := Option.map_eq_some_iff.mp hparse
  rw [hx', any_inj heq]

end

end Parser

end AsapClap
