import AsapClap.Library.Loop
import AsapClap.Print
import Mathlib.Algebra.Group.Nat.Defs

/-!
# AsapClap.Print.Options

`Command::PrintOptions` in its steps: the loop over the options, which counts them with an
`unsigned`, then the groups and the positional arguments.  `Command.printOptions` is the text
it writes; here it is taken apart into what is printed, and followed to its end, which it
does not reach if there are more options than the `unsigned` can count.
-/

namespace AsapClap

variable {V : Type}

/-- What goes to `out`: an option that prints itself, or a text. -/
inductive Written (V : Type)
  | option (option : ClapOption V)
  | text (text : String)

namespace Written

/-- The text of what is written. -/
def render (wrap : Wrapping) (width : Nat) : Written V → String
  | .option o => o.print wrap width
  | .text s => s

/-- The option that is written, if it is one. -/
def option? : Written V → Option (ClapOption V)
  | .option o => some o
  | .text _ => none

/-- The options that are printed. -/
def options (written : List (Written V)) : List (ClapOption V) := written.filterMap option?

/-- An option and two line breaks. -/
def paragraph (option : ClapOption V) : List (Written V) := [.option option, .text "\n\n"]

end Written

/-- `Options::Print`. -/
def Options.written (g : Options V) : List (Written V) :=
  (if g.label.isEmpty then [] else [.text (g.label ++ "\n")]) ++ g.options.map .option

namespace Command

/-- The variables of the loop over the options; an `unsigned` has 32 bits. -/
structure OptionsLoop (V : Type) where
  optionIndex : BitVec 32 := 0
  written : List (Written V) := []

/-- One turn of the loop.  It leaves with what is written, or with nothing where an index is out
of range. -/
def printOptionsTurn (c : Command V) (s : OptionsLoop V) :
    OptionsLoop V ⊕ Option (List (Written V)) :=
  if s.optionIndex.toNat < c.options.length then
    match c.optionsInGroups[s.optionIndex.toNat]? with
    | none => .inr none
    | some true => .inl { s with optionIndex := s.optionIndex + 1 }
    | some false =>
        match c.options[s.optionIndex.toNat]? with
        | none => .inr none
        | some option =>
            .inl { optionIndex := s.optionIndex + 1
                   written := s.written ++ Written.paragraph option }
  else .inr (some s.written)

/-- The part of `PrintOptions` about the groups. -/
def writtenGroups (c : Command V) : List (Written V) :=
  c.groups.flatMap fun p => if p.2 then [] else p.1.written ++ [.text "\n\n"]

/-- The part of `PrintOptions` about the positional arguments. -/
def writtenPositionals (c : Command V) : List (Written V) :=
  c.positionalArgs.flatMap Written.paragraph

/-- `PrintOptions` writes this. -/
def PrintsOptions (c : Command V) (written : List (Written V)) : Prop :=
  ∃ individual, Loop.Returns c.printOptionsTurn {} (some individual) ∧
    written = individual ++ c.writtenGroups ++ c.writtenPositionals

end Command

/-! ## What is written -/

namespace Written

variable {wrap : Wrapping} {width : Nat}

@[simp] theorem options_append (l l' : List (Written V)) :
    options (l ++ l') = options l ++ options l' := List.filterMap_append

@[simp] theorem options_text (s : String) : options [text (V := V) s] = [] := rfl

@[simp] theorem options_paragraph (option : ClapOption V) : options (paragraph option) = [option] :=
  rfl

/-- The options of several parts are those of each. -/
theorem options_flatMap {α : Type} (f : α → List (Written V)) (l : List α) :
    options (l.flatMap f) = l.flatMap fun a => options (f a) := List.filterMap_flatMap

@[simp] theorem options_map_option (l : List (ClapOption V)) :
    options (l.map Written.option) = l := by
  have hsome : option? ∘ Written.option (V := V) = some := rfl
  rw [options, List.filterMap_map, hsome, List.filterMap_some]

/-- The text of what is written item by item. -/
theorem join_render_flatMap {α : Type} (f : α → List (Written V)) (l : List α) :
    String.join ((l.flatMap f).map (render wrap width)) =
      String.join (l.map fun a => String.join ((f a).map (render wrap width))) := by
  induction l with
  | nil => rfl
  | cons a l ih =>
      rw [List.flatMap_cons, List.map_append, String.join_append, ih, List.map_cons,
        String.join_cons]

theorem join_render_ite (skipped : Bool) (l : List (Written V)) :
    String.join ((if skipped then [] else l).map (render wrap width)) =
      if skipped then "" else String.join (l.map (render wrap width)) := by
  cases skipped <;> rfl

theorem join_render_paragraph (option : ClapOption V) :
    String.join ((paragraph option).map (render wrap width)) =
      option.print wrap width ++ "\n\n" := by
  simp [paragraph, render]

end Written

/-- A group writes all its options. -/
@[simp] theorem Options.options_written (g : Options V) :
    Written.options g.written = g.options := by
  rw [Options.written, Written.options_append, Written.options_map_option]
  split
  · rfl
  · rw [Written.options_text, List.nil_append]

/-- A group is written as `Print` prints it. -/
theorem Options.join_render_written (wrap : Wrapping) (width : Nat) (g : Options V) :
    String.join (g.written.map (Written.render wrap width)) = g.print wrap width := by
  have hprint : Written.render wrap width ∘ Written.option =
      ClapOption.print (V := V) wrap width := rfl
  rw [Options.written, List.map_append, String.join_append, List.map_map, hprint, Options.print]
  split <;> simp [Written.render]

/-- With an empty line behind it as well. -/
theorem Options.join_render_paragraph (wrap : Wrapping) (width : Nat) (g : Options V) :
    String.join ((g.written ++ [Written.text "\n\n"]).map (Written.render wrap width)) =
      g.print wrap width ++ "\n\n" := by
  rw [List.map_append, String.join_append, Options.join_render_written]
  simp [Written.render]

namespace Command

variable {c : Command V} {written : List (Written V)}

/-! ## The loop over the options -/

/-- What the loop is to write: the options that are not in a group, in their order. -/
def writtenIndividually (c : Command V) : List (Written V) :=
  (c.options.zip c.optionsInGroups).flatMap fun p => if p.2 then [] else Written.paragraph p.1

/-- The loop in front of a turn, as long as its index has not wrapped around. -/
def optionsLoopAt (c : Command V) (i : Nat) : OptionsLoop V where
  optionIndex := BitVec.ofNat 32 i
  written := ((c.options.zip c.optionsInGroups).take i).flatMap fun p =>
    if p.2 then [] else Written.paragraph p.1

/-- A turn goes round again unless there are no more options, and reads nothing out of range. -/
theorem printOptionsTurn_of_lt (hlength : c.options.length = c.optionsInGroups.length)
    {s : OptionsLoop V} (hlt : s.optionIndex.toNat < c.options.length) :
    ∃ option inGroups, (c.options.zip c.optionsInGroups)[s.optionIndex.toNat]? =
        some (option, inGroups) ∧
      c.printOptionsTurn s = .inl
        { optionIndex := s.optionIndex + 1
          written := s.written ++ if inGroups then [] else Written.paragraph option } := by
  have hoption := List.getElem?_eq_getElem hlt
  have hinGroups := List.getElem?_eq_getElem (hlength ▸ hlt)
  refine ⟨_, _, List.getElem?_zip_eq_some.mpr ⟨hoption, hinGroups⟩, ?_⟩
  rw [printOptionsTurn, if_pos hlt, hinGroups]
  split
  · next hnone => cases hnone
  · next htrue =>
    simp only [Option.some.injEq] at htrue
    simp [htrue]
  · next hfalse =>
    simp only [Option.some.injEq] at hfalse
    simp [hfalse, hoption]

/-- Below 2^32 the index is not wrapped. -/
theorem toNat_optionsLoopAt {i : Nat} (hi : i < 2 ^ 32) :
    (c.optionsLoopAt i).optionIndex.toNat = i := by
  rw [optionsLoopAt, BitVec.toNat_ofNat]
  exact Nat.mod_eq_of_lt hi

/-- One turn of the loop goes on to the next option. -/
theorem printOptionsTurn_optionsLoopAt {i : Nat}
    (hlength : c.options.length = c.optionsInGroups.length) (hi : i < 2 ^ 32)
    (hlt : i < c.options.length) :
    c.printOptionsTurn (c.optionsLoopAt i) = .inl (c.optionsLoopAt (i + 1)) := by
  have hindex : (c.optionsLoopAt i).optionIndex.toNat = i := toNat_optionsLoopAt hi
  obtain ⟨option, inGroups, hget, hturn⟩ :=
    printOptionsTurn_of_lt hlength (s := c.optionsLoopAt i) (hindex.symm ▸ hlt)
  rw [hindex] at hget
  rw [hturn]
  simp [optionsLoopAt, List.take_add_one, hget, BitVec.ofNat_add]

/-- The loop ends if its index can count the options. -/
theorem returns_printOptions (hlength : c.options.length = c.optionsInGroups.length)
    (hlt : c.options.length < 2 ^ 32) :
    Loop.Returns c.printOptionsTurn {} (some c.writtenIndividually) := by
  have hend : (c.optionsLoopAt c.options.length).optionIndex.toNat = c.options.length :=
    toNat_optionsLoopAt hlt
  have hlast : c.printOptionsTurn (c.optionsLoopAt c.options.length) =
      .inr (some c.writtenIndividually) := by
    rw [printOptionsTurn, if_neg (by omega)]
    simp [optionsLoopAt, writtenIndividually, List.take_of_length_le, hlength]
  have hturn : ∀ i < c.options.length,
      c.printOptionsTurn (c.optionsLoopAt i) = .inl (c.optionsLoopAt (i + 1)) :=
    fun i hi => printOptionsTurn_optionsLoopAt hlength (Nat.lt_trans hi hlt) hi
  exact Loop.returns_of_turns hturn hlast

/-- If it cannot, the loop is back at the first option with 2 ^ 32 of them behind it, and prints
again what it has printed of them. -/
theorem reaches_again (hlength : c.options.length = c.optionsInGroups.length)
    (hle : 2 ^ 32 ≤ c.options.length) :
    Loop.Reaches c.printOptionsTurn {} { c.optionsLoopAt (2 ^ 32) with optionIndex := 0 } := by
  have hturn : ∀ i < 2 ^ 32,
      c.printOptionsTurn (c.optionsLoopAt i) = .inl (c.optionsLoopAt (i + 1)) :=
    fun i hi => printOptionsTurn_optionsLoopAt hlength hi (Nat.lt_of_lt_of_le hi hle)
  exact Loop.reaches_of_turns hturn

/-- So the loop runs for ever: the index is less than the number of options, whatever it is. -/
theorem diverges_printOptions (hlength : c.options.length = c.optionsInGroups.length)
    (hle : 2 ^ 32 ≤ c.options.length) : Loop.Diverges c.printOptionsTurn {} := by
  refine Loop.diverges_of_invariant (fun _ => True) trivial fun s _ => ?_
  have hlt : s.optionIndex.toNat < c.options.length := Nat.lt_of_lt_of_le s.optionIndex.isLt hle
  obtain ⟨option, inGroups, -, hturn⟩ := printOptionsTurn_of_lt hlength hlt
  exact ⟨_, hturn, trivial⟩

/-! ## What `PrintOptions` comes to -/

/-- **The loop ends exactly if its index can reach the end**, and has then written every part. -/
theorem printsOptions_iff (hlength : c.options.length = c.optionsInGroups.length) :
    c.PrintsOptions written ↔ c.options.length < 2 ^ 32 ∧
      written = c.writtenIndividually ++ c.writtenGroups ++ c.writtenPositionals := by
  constructor
  · intro h
    obtain ⟨individual, hreturns, hwritten⟩ := h
    have hlt : c.options.length < 2 ^ 32 := by
      by_contra hle
      exact Loop.not_diverges_of_returns hreturns
        (diverges_printOptions hlength (Nat.le_of_not_lt hle))
    cases Loop.returns_unique hreturns (returns_printOptions hlength hlt)
    exact ⟨hlt, hwritten⟩
  · intro h
    obtain ⟨hlt, hwritten⟩ := h
    exact ⟨_, returns_printOptions hlength hlt, hwritten⟩

/-- What is written is the text of `printOptions`. -/
theorem join_render_of_printsOptions (wrap : Wrapping) (width : Nat)
    (hlength : c.options.length = c.optionsInGroups.length) (h : c.PrintsOptions written) :
    String.join (written.map (Written.render wrap width)) = c.printOptions wrap width := by
  rw [((printsOptions_iff hlength).mp h).2, List.map_append, List.map_append, String.join_append,
    String.join_append, writtenIndividually, writtenGroups, writtenPositionals, printOptions]
  simp only [Written.join_render_flatMap, Written.join_render_ite, Written.join_render_paragraph,
    Options.join_render_paragraph]

end Command

end AsapClap
