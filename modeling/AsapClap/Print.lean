import AsapClap.Command
import AsapClap.Contract

/-!
# AsapClap.Print

How options and commands print themselves: `Option::Print` and `Options::Print` of
`option.cpp`, `Command::Print` of `command.cpp`.

Text is wrapped by a `TextWrapper` of another library, which is a parameter here.
-/

namespace AsapClap

variable {V : Type}

/-! ## Wrapping -/

/-- The settings of a `TextWrapper`. -/
structure TextWrapper where
  width : Nat
  collapseWhiteSpace : Bool := false
  trimLines : Bool := true
  /-- the indentation of the first line and of the others -/
  initially : String
  andThen : String
  deriving DecidableEq

/-- The wrapper of indented paragraphs. -/
def TextWrapper.paragraph (width : Nat) : TextWrapper :=
  { width, collapseWhiteSpace := true, initially := "   ", andThen := "   " }

/-- `TextWrapper::Fill`, which comes back with a text wherever it is used. -/
structure Wrapping where
  fill : TextWrapper → String → Option String
  fill_isSome : ∀ wrapper text, (fill wrapper text).isSome

/-- `Fill(text).value()`. -/
def Wrapping.filled (wrap : Wrapping) (wrapper : TextWrapper) (text : String) : String :=
  (wrap.fill wrapper text).get (wrap.fill_isSome wrapper text)

/-- A wrapper that leaves every text on one line. -/
def oneLine : Wrapping where
  fill := fun _ text => some text
  fill_isSome := fun _ _ => rfl

/-! ## Options -/

namespace ClapOption

/-- `PrintValueDescription`. -/
def printValueDescription (o : ClapOption V) (separator : String) : String :=
  (match o.valueSemantic with
    | some semantics =>
        if semantics.isFlag then ""
        else
          separator ++ (if semantics.isRequired then "" else "[") ++
            "<" ++ semantics.userFriendlyName ++ ">" ++
            (if semantics.isRepeatable then "..." else "") ++
            (if semantics.isRequired then "" else "[")
    | none => "") ++ "\n"

/-- `Print`. -/
def print (wrap : Wrapping) (width : Nat) (o : ClapOption V) : String :=
  (if o.isPositional then
    "   " ++ (if o.isRequired then "" else "[") ++ "<" ++ o.displayName ++ ">" ++
      (if o.isRequired then "" else "]") ++ "\n"
  else
    (if o.shortName.isEmpty then "" else "   -" ++ o.shortName ++ o.printValueDescription " ") ++
      (if o.longName.isEmpty then "" else "   --" ++ o.longName ++ o.printValueDescription "=")) ++
  wrap.filled (.paragraph width) o.about

end ClapOption

/-- `Options::Print`. -/
def Options.print (wrap : Wrapping) (width : Nat) (g : Options V) : String :=
  (if g.label.isEmpty then "" else g.label ++ "\n") ++
    String.join (g.options.map (ClapOption.print wrap width))

/-! ## Commands -/

/-- What a command reads of its parent CLI. -/
structure ParentCli where
  programName : String
  about : String

namespace Command

/-- `ProgramName()`. -/
def programName (cli : ParentCli) (c : Command V) : String :=
  if c.hasParentCli then cli.programName else "<program>"

/-- The part of `PrintSynopsis` about one option. -/
def printSynopsisOption (o : ClapOption V) : Except Fault String := do
  let semantics ← deref o.valueSemantic
  return (if semantics.isRequired then "" else "[") ++
    (if o.shortName.isEmpty then ""
      else "-" ++ o.shortName ++ (if o.longName.isEmpty then "" else ",")) ++
    (if o.longName.isEmpty then "" else "--" ++ o.longName) ++
    (if semantics.isRequired then " " else "] ")

/-- The part of `PrintSynopsis` about one positional argument; only of those other than
`Rest` the value semantics are asked. -/
def printSynopsisPositional (o : ClapOption V) : Except Fault String :=
  if o.isPositionalRest then
    return (if o.isRequired then "" else "[") ++ "<" ++ o.displayName ++ ">" ++
      (if o.isRequired then "" else "]")
  else do
    let semantics ← deref o.valueSemantic
    return " " ++ (if semantics.isRequired then "" else "[") ++ o.key ++
      (if semantics.isRequired then "" else "]")

/-- `PrintSynopsis`. -/
def printSynopsis (cli : ParentCli) (c : Command V) : Except Fault String := do
  let options ← c.options.mapM printSynopsisOption
  let positionals ← c.positionalArgs.mapM printSynopsisPositional
  return c.programName cli ++ " " ++ c.pathAsString ++ " " ++ String.join options ++
    String.join positionals

/-- `PrintOptions`, as long as the loop over the options comes to an end. -/
def printOptions (wrap : Wrapping) (width : Nat) (c : Command V) : String :=
  String.join ((c.options.zip c.optionsInGroups).map fun p =>
      if p.2 then "" else p.1.print wrap width ++ "\n\n") ++
    String.join (c.groups.map fun p => if p.2 then "" else p.1.print wrap width ++ "\n\n") ++
    String.join (c.positionalArgs.map fun o => o.print wrap width ++ "\n\n")

/-- What `Print` shows under `DESCRIPTION`. -/
def description (cli : ParentCli) (c : Command V) : Except Fault String :=
  if c.pathAsString = default then
    if c.hasParentCli then .ok cli.about else .error .nullPointer
  else .ok c.about

/-- `Print`. -/
def print (wrap : Wrapping) (cli : ParentCli) (width : Nat) (c : Command V) :
    Except Fault String := do
  let synopsis ← c.printSynopsis cli
  let description ← c.description cli
  return "SYNOPSIS\n" ++ wrap.filled (.paragraph width) synopsis ++ "\n\n" ++
    "DESCRIPTION\n" ++ wrap.filled (.paragraph width) description ++ "\n\n" ++
    "OPTIONS\n" ++ c.printOptions wrap width

/-! ## Whether a command can be printed -/

section

variable {wrap : Wrapping} {cli : ParentCli} {width : Nat} {c : Command V}

theorem exists_printSynopsisOption_iff {o : ClapOption V} :
    (∃ text, printSynopsisOption o = .ok text) ↔ o.valueSemantic.isSome := by
  cases h : o.valueSemantic <;> simp [printSynopsisOption, h]

theorem exists_printSynopsisPositional_iff {o : ClapOption V} :
    (∃ text, printSynopsisPositional o = .ok text) ↔
      (o.isPositionalRest = false → o.valueSemantic.isSome) := by
  cases hrest : o.isPositionalRest <;> cases h : o.valueSemantic <;>
    simp [printSynopsisPositional, hrest, h]

theorem exists_printSynopsis_iff (cli : ParentCli) :
    (∃ text, c.printSynopsis cli = .ok text) ↔
      (∀ o ∈ c.options, o.valueSemantic.isSome) ∧
        ∀ o ∈ c.positionalArgs, o.isPositionalRest = false → o.valueSemantic.isSome := by
  have hoptions : (∃ texts, c.options.mapM printSynopsisOption = .ok texts) ↔ _ :=
    exists_mapM_eq_ok_iff
  have hpositionals : (∃ texts, c.positionalArgs.mapM printSynopsisPositional = .ok texts) ↔ _ :=
    exists_mapM_eq_ok_iff
  simp only [exists_printSynopsisOption_iff] at hoptions
  simp only [exists_printSynopsisPositional_iff] at hpositionals
  rw [← hoptions, ← hpositionals]
  simp only [printSynopsis, bind_eq_ok]
  constructor
  · rintro ⟨text, options, hoptions, positionals, hpositionals, -⟩
    exact ⟨⟨options, hoptions⟩, positionals, hpositionals⟩
  · rintro ⟨⟨options, hoptions⟩, positionals, hpositionals⟩
    exact ⟨_, options, hoptions, positionals, hpositionals, rfl⟩

theorem exists_description_iff (cli : ParentCli) :
    (∃ text, c.description cli = .ok text) ↔
      (c.pathAsString = default → c.hasParentCli = true) := by
  by_cases hdefault : c.pathAsString = default <;> cases hparent : c.hasParentCli <;>
    simp [description, hdefault, hparent]

/-- A command prints itself if everything that the synopsis asks has value semantics, and
the default command if it has a parent CLI. -/
theorem exists_print_iff :
    (∃ text, c.print wrap cli width = .ok text) ↔
      ((∀ o ∈ c.options, o.valueSemantic.isSome) ∧
        ∀ o ∈ c.positionalArgs, o.isPositionalRest = false → o.valueSemantic.isSome) ∧
      (c.pathAsString = default → c.hasParentCli = true) := by
  rw [← exists_printSynopsis_iff cli, ← exists_description_iff cli]
  simp only [print, bind_eq_ok]
  constructor
  · rintro ⟨text, synopsis, hsynopsis, description, hdescription, -⟩
    exact ⟨⟨synopsis, hsynopsis⟩, description, hdescription⟩
  · rintro ⟨⟨synopsis, hsynopsis⟩, description, hdescription⟩
    exact ⟨_, synopsis, hsynopsis, description, hdescription, rfl⟩

/-! ## How printing a command fails -/

theorem printSynopsisOption_eq_error {o : ClapOption V} {fault : Fault}
    (h : printSynopsisOption o = .error fault) : fault = .nullPointer := by
  cases hsem : o.valueSemantic with
  | none =>
      rw [printSynopsisOption, hsem] at h
      cases h
      rfl
  | some semantics =>
      rw [printSynopsisOption, hsem] at h
      cases h

theorem printSynopsisPositional_eq_error {o : ClapOption V} {fault : Fault}
    (h : printSynopsisPositional o = .error fault) : fault = .nullPointer := by
  rw [printSynopsisPositional] at h
  split at h
  · cases h
  · cases hsem : o.valueSemantic with
    | none =>
        rw [hsem] at h
        cases h
        rfl
    | some semantics =>
        rw [hsem] at h
        cases h

/-- All that can go wrong with a synopsis is that something is absent. -/
theorem printSynopsis_eq_error {fault : Fault} (h : c.printSynopsis cli = .error fault) :
    fault = .nullPointer := by
  rw [printSynopsis] at h
  obtain h | ⟨options, -, h⟩ := bind_eq_error.mp h
  · obtain ⟨o, -, h⟩ := mapM_eq_error h
    exact printSynopsisOption_eq_error h
  · obtain h | ⟨positionals, -, h⟩ := bind_eq_error.mp h
    · obtain ⟨o, -, h⟩ := mapM_eq_error h
      exact printSynopsisPositional_eq_error h
    · cases h

theorem description_eq_error {fault : Fault} (h : c.description cli = .error fault) :
    fault = .nullPointer := by
  rw [description] at h
  split at h
  · split at h <;> cases h
    rfl
  · cases h

theorem print_eq_error {fault : Fault} (h : c.print wrap cli width = .error fault) :
    fault = .nullPointer := by
  rw [print] at h
  obtain h | ⟨synopsis, -, h⟩ := bind_eq_error.mp h
  · exact printSynopsis_eq_error h
  · obtain h | ⟨description, -, h⟩ := bind_eq_error.mp h
    · exact description_eq_error h
    · cases h

/-- The help of a command begins with its synopsis. -/
theorem exists_eq_append_of_print {text : String} (h : c.print wrap cli width = .ok text) :
    ∃ rest, text = "SYNOPSIS\n" ++ rest := by
  simp only [print, bind_eq_ok] at h
  obtain ⟨synopsis, -, description, -, h⟩ := h
  cases h
  exact ⟨_, by simp only [String.append_assoc]; rfl⟩

end

end Command

end AsapClap
