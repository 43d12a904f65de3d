import AsapClap.Cli.Built
import AsapClap.Fluent
import AsapClap.Library.Insertions
import AsapClap.Print.Options

/-!
# AsapClap.Fluent.Groups

What a command knows of the options it was given: `options_` has all of them, those of
groups and those that were added on their own, and `options_in_groups_` has to say in step
with it which is which.  `PrintOptions` relies on that.
-/

namespace AsapClap

namespace CommandBuilder

variable {V : Type}

/-! ## What is added to a command -/

/-- An option that is added, and whether that is through a group. -/
structure Addition (V : Type) where
  option : ClapOption V
  throughGroup : Bool

/-- The options a call adds, with how it adds them. -/
def Call.additions : Call V → List (Addition V)
  | .withOptions _ added _ => added.map fun option => { option, throughGroup := true }
  | .withOption option => [{ option, throughGroup := false }]
  | .about _ | .withPositionalArguments _ => []

/-- Whether a call puts them in front of the options that are there. -/
def Call.inFront : Call V → Bool
  | .withOption option => option.key = Command.help ∨ option.key = Command.version
  | .withOptions _ _ _ | .about _ | .withPositionalArguments _ => false

/-- The additions of the calls, in the order in which the command has their options. -/
def entries (calls : List (Call V)) : List (Addition V) :=
  Insertions.assemble (calls.map fun next => { inFront := next.inFront, items := next.additions })

/-- The options a call adds on their own. -/
def Call.individual : Call V → List (ClapOption V)
  | .withOption option => [option]
  | .withOptions _ _ _ | .about _ | .withPositionalArguments _ => []

/-- The options a call adds through a group that is not hidden. -/
def Call.visible : Call V → List (ClapOption V)
  | .withOptions _ added hidden => if hidden then [] else added
  | .withOption _ | .about _ | .withPositionalArguments _ => []

/-- The positional arguments a call adds. -/
def Call.positional : Call V → List (ClapOption V)
  | .withPositionalArguments options => options
  | .withOptions _ _ _ | .withOption _ | .about _ => []

/-- The group a call adds, and whether it is hidden. -/
def Call.groups : Call V → List (Options V × Bool)
  | .withOptions label added hidden => [(Options.ofAdds label added, hidden)]
  | .withOption _ | .about _ | .withPositionalArguments _ => []

/-- The calls that were made on a command since it was constructed, also those that `Build` of a
CLI makes. -/
inductive Received : List (Call V) → Command V → Prop
  | constructed {firstSegment : String} {otherSegments : List String} {command : Command V}
      (new : Command.new firstSegment otherSegments = .ok command) : Received [] command
  | called {calls : List (Call V)} {command : Command V} (received : Received calls command)
      (next : Call V) : Received (calls ++ [next]) (call command next)
  | mounted {calls : List (Call V)} {command : Command V} (received : Received calls command) :
      Received calls { command with hasParentCli := true }

/-- A path of one segment is always good for a command. -/
theorem received_singleton (segment : String) : Received []
    ({ path := [segment], path_ne_nil := by simp, path_valid := fun _ => rfl } : Command V) := by
  have hnew : Command.new (V := V) segment [] =
      .ok { path := [segment], path_ne_nil := by simp, path_valid := fun _ => rfl } :=
    dif_pos fun _ => rfl
  exact .constructed hnew

/-- More calls have been received in addition. -/
theorem Received.foldl {made : List (Call V)} {command : Command V} (h : Received made command)
    (calls : List (Call V)) : Received (made ++ calls) (calls.foldl call command) := by
  induction calls generalizing made command with
  | nil => simpa using h
  | cons next calls ih => simpa using ih (h.called next)

/-- A command that is built has received the calls that build it. -/
theorem received_of_builds {calls : List (Call V)} {command : Command V}
    (h : Builds calls command) : Received calls command := by
  obtain ⟨firstSegment, otherSegments, hbuild⟩ := h
  obtain ⟨base, hnew, hcommand⟩ := bind_eq_ok.mp hbuild
  cases hcommand
  exact (Received.constructed hnew).foldl calls

section

variable {cli : Cli V} {c : Command (Any V)}

/-- A command that gets an option, or not, has received calls. -/
theorem received_withOption_ite {made : List (Call (Any V))} (h : Received made c)
    (option : ClapOption (Any V)) (added : Prop) [Decidable added] :
    ∃ made, Received made (if added then c.withOption option else c) := by
  split
  · exact ⟨_, h.called (.withOption option)⟩
  · exact ⟨_, h⟩

/-- So has one that is upgraded. -/
theorem received_upgrade {made : List (Call (Any V))} (h : Received made c) :
    ∃ made, Received made (CliBuilder.upgrade cli c) := by
  obtain ⟨made, hhelp⟩ := received_withOption_ite h (CliBuilder.helpOption cli.programName)
    (cli.hasHelpCommand = true)
  exact received_withOption_ite hhelp (CliBuilder.versionOption cli.programName) _

/-- What `Build` makes of a command are more calls. -/
theorem received_release {made : List (Call (Any V))} (h : Received made c) :
    ∃ made, Received made (release cli c) := by
  rw [release]
  split
  · obtain ⟨made, hupgrade⟩ : ∃ made, Received made (CliBuilder.upgrade cli c) :=
      received_upgrade h
    exact ⟨made, hupgrade.mounted⟩
  · exact ⟨made, h.mounted⟩

/-- The built-in `version` has. -/
theorem received_versionCommand :
    ∃ made, Received made (Cli.versionCommand : Command (Any V)) :=
  ⟨_, (received_singleton _).called (.about "Display version information.")⟩

/-- The built-in `help` has. -/
theorem received_helpCommand (programName : String) :
    ∃ made, Received made (Cli.helpCommand programName : Command (Any V)) :=
  ⟨_, ((received_singleton _).called (.about _)).called (.withPositionalArguments [Cli.segments])⟩

/-- The commands of a CLI have received nothing but calls, if those given to it were built. -/
theorem received_of_build {calls : List (CliBuilder.Call V)}
    (hgiven : ∀ c, .withCommand c ∈ calls → ∃ made, Builds made c)
    (h : CliBuilder.build calls = .ok cli) : ∀ c ∈ cli.commands, ∃ made, Received made c := by
  obtain ⟨-, rfl⟩ := (build_eq_ok_iff rfl).mp h
  intro c hc
  obtain ⟨base, hbase, rfl⟩ := List.mem_map.mp hc
  obtain hmem | rfl | ⟨programName, rfl⟩ := (built_foldl calls).commands base hbase
  · obtain ⟨made, hmade⟩ := hgiven base hmem
    exact received_release (received_of_builds hmade)
  · obtain ⟨made, hmade⟩ := received_versionCommand (V := V)
    exact received_release hmade
  · obtain ⟨made, hmade⟩ := received_helpCommand (V := V) programName
    exact received_release hmade

end

/-! ## What a command has of it -/

/-- A command has what was added to it. -/
structure Keeps (calls : List (Call V)) (command : Command V) : Prop where
  options : command.options = (entries calls).map Addition.option
  optionsInGroups : command.optionsInGroups = (entries calls).map Addition.throughGroup
  groups : command.groups = calls.flatMap Call.groups
  positionalArgs : command.positionalArgs = calls.flatMap Call.positional

section

variable {calls : List (Call V)} {command : Command V}

/-- The options of a call, without the way they are added. -/
theorem additions_map_option (next : Call V) : next.additions.map Addition.option = next.added := by
  cases next with
  | withOptions label added hidden =>
      rw [Call.additions, List.map_map]
      exact List.map_id added
  | about | withOption | withPositionalArguments => rfl

/-- A call adds to `options_` at one end … -/
theorem options_call (command : Command V) (next : Call V) :
    (call command next).options =
      Insertions.insert command.options { inFront := next.inFront, items := next.added } := by
  cases next with
  | about about => exact (Insertions.insert_nil _ _).symm
  | withOptions label added hidden =>
      exact congrArg (command.options ++ ·) (Options.options_ofAdds label added)
  | withOption option =>
      rw [call, Command.withOption]
      split
      · next hkey => simp [Insertions.insert, Call.inFront, Call.added, hkey]
      · next hkey => simp [Insertions.insert, Call.inFront, Call.added, hkey]
  | withPositionalArguments options => exact (Insertions.insert_nil _ _).symm

/-- … and to `options_in_groups_` at the same. -/
theorem optionsInGroups_call (command : Command V) (next : Call V) :
    (call command next).optionsInGroups =
      Insertions.insert command.optionsInGroups
        { inFront := next.inFront, items := next.additions.map Addition.throughGroup } := by
  cases next with
  | about about => exact (Insertions.insert_nil _ _).symm
  | withOptions label added hidden =>
      rw [call, Command.withOptions, Options.options_ofAdds, Call.additions, List.map_map]
      rfl
  | withOption option =>
      rw [call, Command.withOption]
      split
      · next hkey => simp [Insertions.insert, Call.inFront, Call.additions, hkey]
      · next hkey => simp [Insertions.insert, Call.inFront, Call.additions, hkey]
  | withPositionalArguments options => exact (Insertions.insert_nil _ _).symm

/-- A call adds its groups behind the others. -/
theorem groups_call (command : Command V) (next : Call V) :
    (call command next).groups = command.groups ++ next.groups := by
  cases next with
  | withOptions label added hidden => rfl
  | withOption option =>
      rw [call, Command.withOption]
      split <;> exact (List.append_nil _).symm
  | about | withPositionalArguments => exact (List.append_nil _).symm

/-- A call adds its positional arguments behind the others. -/
theorem positionalArgs_call (command : Command V) (next : Call V) :
    (call command next).positionalArgs = command.positionalArgs ++ next.positional := by
  cases next with
  | withPositionalArguments options => rfl
  | withOption option =>
      rw [call, Command.withOption]
      split <;> exact (List.append_nil _).symm
  | about | withOptions => exact (List.append_nil _).symm

/-- The last call goes in last, seen through any function. -/
theorem map_entries_append_singleton {β : Type} (f : Addition V → β) (calls : List (Call V))
    (next : Call V) : (entries (calls ++ [next])).map f =
      Insertions.insert ((entries calls).map f)
        { inFront := next.inFront, items := next.additions.map f } := by
  rw [entries, List.map_append, List.map_singleton, Insertions.assemble_append_singleton,
    Insertions.map_insert]
  rfl

/-- **One more call keeps the lists in step.** -/
theorem Keeps.call (h : Keeps calls command) (next : Call V) :
    Keeps (calls ++ [next]) (call command next) where
  options := by
    rw [options_call, h.options, map_entries_append_singleton, additions_map_option]
  optionsInGroups := by
    rw [optionsInGroups_call, h.optionsInGroups, map_entries_append_singleton]
  groups := by
    rw [groups_call, h.groups, List.flatMap_append, List.flatMap_singleton]
  positionalArgs := by
    rw [positionalArgs_call, h.positionalArgs, List.flatMap_append, List.flatMap_singleton]

/-- A command has what was added to it, whatever the calls and their order. -/
theorem Received.keeps (h : Received calls command) : Keeps calls command := by
  induction h with
  | constructed hnew =>
      rw [Command.new] at hnew
      split at hnew <;> cases hnew
      exact ⟨rfl, rfl, rfl, rfl⟩
  | called _ next ih => exact ih.call next
  | mounted _ ih => exact ⟨ih.options, ih.optionsInGroups, ih.groups, ih.positionalArgs⟩

/-- Its options are those that were added, each once for each time. -/
theorem perm_entries (calls : List (Call V)) :
    (entries calls).Perm (calls.flatMap Call.additions) := by
  have hperm := Insertions.perm_assemble
    (calls.map fun next => { inFront := next.inFront, items := next.additions })
  rwa [List.flatMap_map] at hperm

/-- Both lists are as long. -/
theorem Keeps.length_eq (h : Keeps calls command) :
    command.options.length = command.optionsInGroups.length := by
  rw [h.options, h.optionsInGroups, List.length_map, List.length_map]

/-- There are as many options as were added. -/
theorem Keeps.length_options (h : Keeps calls command) :
    command.options.length = (calls.flatMap Call.added).length := by
  have hadded : (calls.flatMap Call.additions).map Addition.option = calls.flatMap Call.added := by
    rw [List.map_flatMap]
    simp only [additions_map_option]
  rw [h.options, ← hadded, List.length_map, List.length_map, (perm_entries calls).length_eq]

/-! ## What it prints -/

/-- What is printed of an addition on its own. -/
def Addition.individual (a : Addition V) : List (ClapOption V) :=
  if a.throughGroup then [] else [a.option]

/-- The options of a call that belong to no group. -/
theorem additions_flatMap_individual (next : Call V) :
    next.additions.flatMap Addition.individual = next.individual := by
  cases next with
  | withOptions label added hidden =>
      rw [Call.additions, List.flatMap_map]
      exact List.flatMap_eq_nil_iff.mpr fun _ _ => rfl
  | about | withOption | withPositionalArguments => rfl

/-- The loop over the options prints the options that were added on their own. -/
theorem Keeps.perm_individual (h : Keeps calls command) :
    (Written.options command.writtenIndividually).Perm (calls.flatMap Call.individual) := by
  have hindividual : calls.flatMap Call.individual =
      (calls.flatMap Call.additions).flatMap Addition.individual := by
    simp only [List.flatMap_assoc, additions_flatMap_individual]
  have hwritten : Written.options command.writtenIndividually =
      (entries calls).flatMap Addition.individual := by
    rw [Command.writtenIndividually, h.options, h.optionsInGroups, List.zip_map', List.flatMap_map,
      Written.options_flatMap]
    refine congrArg (List.flatMap · _) (funext fun a => ?_)
    rw [Addition.individual]
    cases a.throughGroup <;> rfl
  rw [hindividual, hwritten]
  exact (perm_entries calls).flatMap_right _

/-- The groups that are not hidden print their options. -/
theorem Keeps.options_groups (h : Keeps calls command) :
    Written.options command.writtenGroups = calls.flatMap Call.visible := by
  have hvisible : ∀ next : Call V, (next.groups.flatMap fun p => Written.options
      (if p.2 then [] else p.1.written ++ [.text "\n\n"])) = next.visible := by
    intro next
    cases next with
    | withOptions label added hidden =>
        rw [Call.groups, List.flatMap_singleton, Call.visible]
        cases hidden with
        | true => rfl
        | false => simp [Options.options_ofAdds]
    | about | withOption | withPositionalArguments => rfl
  rw [Command.writtenGroups, h.groups, Written.options_flatMap, List.flatMap_assoc]
  simp only [hvisible]

/-- The positional arguments are written in the order of the calls. -/
theorem Keeps.options_positionals (h : Keeps calls command) :
    Written.options command.writtenPositionals = calls.flatMap Call.positional := by
  rw [Command.writtenPositionals, h.positionalArgs, Written.options_flatMap]
  simp only [Written.options_paragraph]
  exact List.flatMap_singleton' _

/-! ## The bookkeeping of groups -/

/-- What a command knows of its options, and what `PrintOptions` makes of it. -/
structure KeepsGroups (calls : List (Call V)) (command : Command V) : Prop where
  /-- The two lists are equally long. -/
  length_eq : command.options.length = command.optionsInGroups.length
  /-- Entry for entry, one has the options that were added … -/
  options_eq : command.options = (entries calls).map Addition.option
  /-- … and the other says whether that was through a group. -/
  optionsInGroups_eq : command.optionsInGroups = (entries calls).map Addition.throughGroup
  /-- The entries are what the calls added, each once for each time. -/
  entries_perm : (entries calls).Perm (calls.flatMap Call.additions)
  /-- The loop over the options stays in range. -/
  inRange : ∀ s, Loop.Reaches command.printOptionsTurn {} s →
    command.printOptionsTurn s ≠ .inr none
  /-- What is printed: the options that were added on their own, those of each visible group, and
  the positional arguments. -/
  prints : ∃ individual grouped positional,
    command.PrintsOptions (individual ++ grouped ++ positional) ∧
      (Written.options individual).Perm (calls.flatMap Call.individual) ∧
      Written.options grouped = calls.flatMap Call.visible ∧
      Written.options positional = calls.flatMap Call.positional
  /-- So no option is printed that was only added through hidden groups. -/
  hidden : ∀ written o, command.PrintsOptions written → o ∈ Written.options written →
    o ∈ calls.flatMap Call.individual ∨ o ∈ calls.flatMap Call.visible ∨
      o ∈ calls.flatMap Call.positional

/-- The loop never reads out of range, also where it does not end. -/
theorem Keeps.inRange (h : Keeps calls command) (s : Command.OptionsLoop V) :
    command.printOptionsTurn s ≠ .inr none := by
  by_cases hlt : s.optionIndex.toNat < command.options.length
  · obtain ⟨option, inGroups, -, hturn⟩ := Command.printOptionsTurn_of_lt h.length_eq hlt
    simp [hturn]
  · simp [Command.printOptionsTurn, hlt]

/-- `PrintOptions` comes to an end if there are not too many options. -/
theorem Keeps.printsOptions_iff (h : Keeps calls command) {written : List (Written V)} :
    command.PrintsOptions written ↔ (calls.flatMap Call.added).length < 2 ^ 32 ∧
      written = command.writtenIndividually ++ command.writtenGroups ++
        command.writtenPositionals := by
  rw [Command.printsOptions_iff h.length_eq, h.length_options]

/-- What is printed was added on its own, through a visible group, or as positional. -/
theorem Keeps.mem_of_printsOptions (h : Keeps calls command) {written : List (Written V)}
    {o : ClapOption V} (hprints : command.PrintsOptions written)
    (ho : o ∈ Written.options written) :
    o ∈ calls.flatMap Call.individual ∨ o ∈ calls.flatMap Call.visible ∨
      o ∈ calls.flatMap Call.positional := by
  obtain ⟨-, rfl⟩ := h.printsOptions_iff.mp hprints
  rw [Written.options_append, Written.options_append, h.options_groups, h.options_positionals,
    List.append_assoc, List.mem_append, List.mem_append] at ho
  exact ho.imp_left h.perm_individual.mem_iff.mp

/-- The index of the loop has to be able to count the options. -/
theorem not_keepsGroups_of_le (h : Keeps calls command)
    (hle : 2 ^ 32 ≤ (calls.flatMap Call.added).length) : ¬ KeepsGroups calls command := by
  intro hkeeps
  obtain ⟨individual, grouped, positional, hprints, -⟩ := hkeeps.prints
  exact Nat.not_lt_of_le hle (h.printsOptions_iff.mp hprints).1

/-- **Groups**: the two lists are always in step, and `PrintOptions` prints every option as often
as it should, unless there are more options than an `unsigned` can count. -/
theorem keepsGroups_iff (h : Received calls command) :
    KeepsGroups calls command ↔ (calls.flatMap Call.added).length < 2 ^ 32 := by
  have hkeeps := h.keeps
  constructor
  · intro hgroups
    exact Nat.lt_of_not_le fun hle => not_keepsGroups_of_le hkeeps hle hgroups
  · intro hlt
    exact
      { length_eq := hkeeps.length_eq
        options_eq := hkeeps.options
        optionsInGroups_eq := hkeeps.optionsInGroups
        entries_perm := perm_entries calls
        inRange := fun s _ => hkeeps.inRange s
        prints := ⟨_, _, _, hkeeps.printsOptions_iff.mpr ⟨hlt, rfl⟩, hkeeps.perm_individual,
          hkeeps.options_groups, hkeeps.options_positionals⟩
        hidden := fun _ _ => hkeeps.mem_of_printsOptions }

end

/-- A group, two options on their own, one of them in front, and a hidden group. -/
def tunedCalls : List (Call Unit) :=
  [.withOptions "Tuning" [{ key := "fast" }, { key := "small" }] false,
    .withOption { key := "count" },
    .withOption { key := "help" },
    .withOptions "Internal" [{ key := "trace" }] true]

def tuned : Command Unit := tunedCalls.foldl call Command.plainDefault

example : tuned.options.map ClapOption.key = ["help", "fast", "small", "count", "trace"] ∧
    tuned.optionsInGroups = [false, true, true, false, true] := by decide

theorem keepsGroups_tuned : KeepsGroups tunedCalls tuned :=
  (keepsGroups_iff ((received_singleton _).foldl tunedCalls)).mpr (by decide)

/-- An option on its own and, so many times, a group of so many options. -/
def groupCalls (n : Nat) : List (Call Unit) :=
  .withOption { key := "count" } ::
    List.replicate n (.withOptions "Tuning" (List.replicate n { key := "fast" }) false)

/-- `groupCalls` adds quadratically many options. -/
theorem length_added_groupCalls (n : Nat) :
    ((groupCalls n).flatMap Call.added).length = 1 + n * n := by
  simp [groupCalls, Call.added, List.length_flatMap, Nat.add_comm]

/-- A group that is added 65536 times and has as many options is too much for the index: the loop
prints the option on its own again and again. -/
theorem not_keepsGroups_groupCalls :
    Received (groupCalls 65536) ((groupCalls 65536).foldl call Command.plainDefault) ∧
      ¬ KeepsGroups (groupCalls 65536) ((groupCalls 65536).foldl call Command.plainDefault) := by
  have hreceived : Received (groupCalls 65536)
      ((groupCalls 65536).foldl call Command.plainDefault) :=
    (received_singleton _).foldl (groupCalls 65536)
  refine ⟨hreceived, not_keepsGroups_of_le hreceived.keeps ?_⟩
  rw [length_added_groupCalls]
  decide

end CommandBuilder

end AsapClap
