import AsapClap.Cli.Build
import AsapClap.Fluent

/-!
# AsapClap.Cli.Lookup

Which options of a CLI are found under their own names.  Nothing is rejected when an option is
added, so a name belongs to the first option that has it; and `Build` puts its options in front.
An option is told from an equal one by where it stands.
-/

namespace AsapClap

open CliBuilder CommandBuilder.Call

variable {V : Type}

/-! ## Finding what was added -/

namespace Command

/-- Where `FindShortOption` finds what it returns. -/
def shortAt (c : Command V) (name : String) : Option Nat :=
  c.options.findIdx? fun option => option.shortName == name

/-- Where `FindLongOption` finds what it returns. -/
def longAt (c : Command V) (name : String) : Option Nat :=
  c.options.findIdx? fun option => option.longName == name

theorem findShortOption_eq (c : Command V) (name : String) :
    c.findShortOption name = (c.shortAt name).bind (c.options[·]?) :=
  List.find?_eq_bind_findIdx?_getElem?

theorem findLongOption_eq (c : Command V) (name : String) :
    c.findLongOption name = (c.longAt name).bind (c.options[·]?) :=
  List.find?_eq_bind_findIdx?_getElem?

end Command

/-- Each of its names leads to the option, and to the one at this place. -/
structure FoundAt (command : Command V) (i : Nat) (o : ClapOption V) : Prop where
  here : command.options[i]? = some o
  short : o.shortName ≠ "" →
    command.findShortOption o.shortName = some o ∧ command.shortAt o.shortName = some i
  long : o.longName ≠ "" →
    command.findLongOption o.longName = some o ∧ command.longAt o.longName = some i

theorem FoundAt.of_at {command : Command V} {i : Nat} {o : ClapOption V}
    (here : command.options[i]? = some o)
    (short : o.shortName ≠ "" → command.shortAt o.shortName = some i)
    (long : o.longName ≠ "" → command.longAt o.longName = some i) : FoundAt command i o := by
  refine ⟨here, fun hne => ⟨?_, short hne⟩, fun hne => ⟨?_, long hne⟩⟩
  · rw [Command.findShortOption_eq, short hne, Option.bind_some, here]
  · rw [Command.findLongOption_eq, long hne, Option.bind_some, here]

/-- `Build` makes `command` of the command `user` of the builder. -/
def Becomes (calls : List (CliBuilder.Call V)) (cli : Cli V) (user command : Command (Any V)) :
    Prop :=
  (user, command) ∈ (calls.foldl call {}).commands.zip cli.commands

/-- The user has given a command that was built with these calls. -/
def Gives (calls : List (CliBuilder.Call V)) (user : Command (Any V))
    (userCalls : List (CommandBuilder.Call (Any V))) : Prop :=
  .withCommand user ∈ calls ∧ CommandBuilder.Builds userCalls user

/-- The options have a name in common. -/
def SharesName (o o' : ClapOption V) : Prop :=
  o.shortName ≠ "" ∧ o'.shortName = o.shortName ∨ o.longName ≠ "" ∧ o'.longName = o.longName

/-- Every option that was added to a command is found in the CLI, and none was added under a name
that was taken. -/
structure FindsOptions (calls : List (CliBuilder.Call V)) (cli : Cli V) : Prop where
  /-- the options of a command that was given stand behind those of `Build`, and each of them is
  found where it stands -/
  finds : ∀ user userCalls command, Gives calls user userCalls → Becomes calls cli user command →
    ∃ front, command.options = front ++ user.options ∧
      ∀ i o, user.options[i]? = some o → FoundAt command (front.length + i) o
  /-- calls that add an option under a name that is taken do not come through -/
  rejects : ∀ user userCalls, Gives calls user userCalls → ∀ before o behind,
    userCalls.flatMap added = before ++ o :: behind → ∀ o' ∈ before, ¬ SharesName o' o

/-- The options that are added to a command have no names in common, neither with each other
nor with the options that `Build` adds. -/
structure NamesApart (calls : List (CliBuilder.Call V)) (cli : Cli V) : Prop where
  own : ∀ user userCalls, Gives calls user userCalls →
    (userCalls.flatMap added).Pairwise fun o o' => ¬ SharesName o o'
  help : .withHelpCommand ∈ calls → ∀ user userCalls, Gives calls user userCalls →
    ∀ o ∈ userCalls.flatMap added, ¬ SharesName o (helpOption cli.programName)
  version : .withVersionCommand ∈ calls → ∀ user userCalls, Gives calls user userCalls →
    user.isDefault = true → ∀ o ∈ userCalls.flatMap added,
      ¬ SharesName o (versionOption cli.programName)

theorem SharesName.symm {o o' : ClapOption V} (h : SharesName o o') : SharesName o' o :=
  h.imp (fun ⟨hne, hsame⟩ => ⟨hsame ▸ hne, hsame.symm⟩)
    fun ⟨hne, hsame⟩ => ⟨hsame ▸ hne, hsame.symm⟩

/-! ## The options of a command -/

section

variable {cli : Cli V} {c : Command (Any V)}

/-- The options that `Build` puts in front of those of a command. -/
def inserted (cli : Cli V) (c : Command (Any V)) : List (ClapOption (Any V)) :=
  (if c.isDefault ∧ cli.hasVersionCommand then [versionOption cli.programName] else []) ++
    if cli.hasHelpCommand then [helpOption cli.programName] else []

theorem isDefault_withOption (option : ClapOption (Any V)) :
    (c.withOption option).isDefault = c.isDefault := by
  rw [Bool.eq_iff_iff, Command.isDefault_iff, Command.isDefault_iff, path_withOption]

theorem options_release : (release cli c).options = inserted cli c ++ c.options := by
  have hhelp : (addHelpOptionToCommand cli c).options =
      helpOption cli.programName :: c.options := by
    rw [addHelpOptionToCommand, withOption_front (.inl rfl)]
  have hversion : ∀ c : Command (Any V), (addVersionOptionToCommand cli c).options =
      versionOption cli.programName :: c.options := by
    intro c
    rw [addVersionOptionToCommand, withOption_front (.inr rfl)]
  have hdefault : (addHelpOptionToCommand cli c).isDefault = c.isDefault := isDefault_withOption _
  cases hhas : cli.hasHelpCommand <;> cases hhas' : cli.hasVersionCommand <;>
    cases hc : c.isDefault <;>
    simp [release, upgrade, inserted, hhas, hhas', hc, hdefault, hhelp, hversion]

theorem mem_inserted {o : ClapOption (Any V)} :
    o ∈ inserted cli c ↔
      c.isDefault = true ∧ cli.hasVersionCommand = true ∧ o = versionOption cli.programName ∨
        cli.hasHelpCommand = true ∧ o = helpOption cli.programName := by
  rw [inserted, List.mem_append]
  split <;> split <;> simp_all

end

/-! ## First matches -/

/-- No name is taken where it is added if no two have one in common. -/
theorem pairwise_iff_forall_before {α : Type} {R : α → α → Prop} {l : List α} :
    l.Pairwise R ↔ ∀ before a behind, l = before ++ a :: behind → ∀ a' ∈ before, R a' a := by
  constructor
  · rintro h before a behind rfl a' ha'
    exact (List.pairwise_append.mp h).2.2 a' ha' a List.mem_cons_self
  · intro h
    rw [List.pairwise_iff_getElem]
    intro i j hi hj hij
    refine h (l.take j) l[j] (l.drop (j + 1)) (by simp) l[i] ?_
    rw [List.mem_take_iff_getElem]
    exact ⟨i, by omega, rfl⟩

/-- A name is found behind options that do not have it. -/
theorem findIdx?_append_of_apart {α : Type} {p : α → Bool} {front l : List α} {i : Nat} {a : α}
    (ha : l[i]? = some a) (hp : p a = true) (hfront : ∀ x ∈ front, p x = false)
    (hbefore : ∀ j < i, ∀ x, l[j]? = some x → p x = false) :
    (front ++ l).findIdx? p = some (front.length + i) := by
  obtain ⟨hi, rfl⟩ := List.getElem?_eq_some_iff.mp ha
  have hnone : front.findIdx? p = none := List.findIdx?_eq_none_iff.mpr hfront
  have hsome : l.findIdx? p = some i := by
    refine List.findIdx?_eq_some_iff_getElem.mpr ⟨hi, hp, fun j hj => ?_⟩
    simp [hbefore j hj _ (List.getElem?_eq_getElem (by omega))]
  rw [List.findIdx?_append, hnone, hsome, Option.none_or, Option.map_some, Nat.add_comm]

/-- What is found is the first that has the name. -/
theorem FoundAt.not_sharesName {command : Command V} {i j : Nat} {o o' : ClapOption V}
    (h : FoundAt command i o) (hj : j < i) (ho' : command.options[j]? = some o') :
    ¬ SharesName o o' := by
  obtain ⟨hjlen, rfl⟩ := List.getElem?_eq_some_iff.mp ho'
  rintro (⟨hne, hsame⟩ | ⟨hne, hsame⟩)
  · obtain ⟨hlen, -, hfirst⟩ := List.findIdx?_eq_some_iff_getElem.mp (h.short hne).2
    simpa [hsame] using hfirst j hj
  · obtain ⟨hlen, -, hfirst⟩ := List.findIdx?_eq_some_iff_getElem.mp (h.long hne).2
    simpa [hsame] using hfirst j hj

/-- An option is found where it stands if none in front of it has a name of it. -/
theorem foundAt_of_apart {command : Command V} {front own : List (ClapOption V)} {i : Nat}
    {o : ClapOption V} (hoptions : command.options = front ++ own) (ho : own[i]? = some o)
    (hfront : ∀ o' ∈ front, ¬ SharesName o o')
    (hbefore : ∀ j < i, ∀ o', own[j]? = some o' → ¬ SharesName o o') :
    FoundAt command (front.length + i) o := by
  refine .of_at ?_ ?_ ?_
  · rw [hoptions, List.getElem?_append_right (by omega), Nat.add_sub_cancel_left, ho]
  · intro hne
    have hother : ∀ o', ¬ SharesName o o' → (o'.shortName == o.shortName) = false :=
      fun o' hnot => by simpa using fun hsame => hnot (.inl ⟨hne, hsame⟩)
    rw [Command.shortAt, hoptions]
    exact findIdx?_append_of_apart ho (by simp) (fun o' ho' => hother o' (hfront o' ho'))
      fun j hj o' ho' => hother o' (hbefore j hj o' ho')
  · intro hne
    have hother : ∀ o', ¬ SharesName o o' → (o'.longName == o.longName) = false :=
      fun o' hnot => by simpa using fun hsame => hnot (.inr ⟨hne, hsame⟩)
    rw [Command.longAt, hoptions]
    exact findIdx?_append_of_apart ho (by simp) (fun o' ho' => hother o' (hfront o' ho'))
      fun j hj o' ho' => hother o' (hbefore j hj o' ho')

/-! ## What is built -/

section

variable {calls : List (CliBuilder.Call V)} {cli : Cli V} {user command : Command (Any V)}

/-- No call drops a command. -/
theorem mem_commands_foldl (h : .withCommand user ∈ calls) :
    user ∈ (calls.foldl call {}).commands := by
  induction calls using List.reverseRecOn with
  | nil => cases h
  | append_singleton calls next ih =>
      rw [List.foldl_append, List.foldl_cons, List.foldl_nil]
      obtain h | h := List.mem_append.mp h
      · have hmem := ih h
        cases next with
        | withCommand command => exact Cli.mem_withCommand.mpr (.inr hmem)
        | withVersionCommand | withHelpCommand => exact List.mem_append_left _ hmem
        | _ => exact hmem
      · obtain rfl := List.mem_singleton.mp h
        exact Cli.mem_withCommand.mpr (.inl rfl)

/-- What `Build` makes of a command. -/
theorem becomes_iff (hbuild : build calls = .ok cli) :
    Becomes calls cli user command ↔
      user ∈ (calls.foldl call {}).commands ∧ command = release (calls.foldl call {}) user := by
  obtain ⟨-, rfl⟩ := (build_eq_ok_iff rfl).mp hbuild
  rw [Becomes]
  induction (calls.foldl call {}).commands with
  | nil => simp
  | cons c commands ih =>
      rw [List.map_cons, List.zip_cons_cons, List.mem_cons, List.mem_cons, ih, or_and_right]
      refine or_congr_left ?_
      rw [Prod.mk.injEq]
      exact and_congr_right fun h => by rw [h]

end

/-! ## When options are found -/

section

variable {calls : List (CliBuilder.Call V)} {cli base : Cli V}

/-- The options that `Build` puts in front of the user's have other names than these. -/
theorem not_sharesName_inserted (hbase : calls.foldl call {} = base)
    (hbuild : build calls = .ok cli) (h : FindsOptions calls cli) {user : Command (Any V)}
    {userCalls : List (CommandBuilder.Call (Any V))} (hgives : Gives calls user userCalls)
    {o : ClapOption (Any V)} (ho : o ∈ userCalls.flatMap added) :
    ∀ o' ∈ inserted base user, ¬ SharesName o o' := by
  intro o' ho'
  have hbecomes := (becomes_iff hbuild).mpr ⟨mem_commands_foldl hgives.1, rfl⟩
  rw [hbase] at hbecomes
  obtain ⟨front, hoptions, hfound⟩ := h.finds user userCalls _ hgives hbecomes
  rw [options_release] at hoptions
  obtain rfl := List.append_cancel_right hoptions
  obtain ⟨i, hi⟩ := List.getElem?_of_mem
    ((CommandBuilder.perm_options_of_builds hgives.2).mem_iff.mpr ho)
  obtain ⟨j, hj, rfl⟩ := List.getElem_of_mem ho'
  refine (hfound i o hi).not_sharesName (j := j) (by omega) ?_
  rw [options_release, List.getElem?_append_left hj, List.getElem?_eq_getElem hj]

theorem namesApart_of_findsOptions (hbase : calls.foldl call {} = base)
    (hbuild : build calls = .ok cli) (h : FindsOptions calls cli) : NamesApart calls base := by
  have harranged := hbase ▸ arranged_foldl calls
  constructor
  · intro user userCalls hgives
    exact pairwise_iff_forall_before.mpr (h.rejects user userCalls hgives)
  · intro hhelp user userCalls hgives o ho
    exact not_sharesName_inserted hbase hbuild h hgives ho _
      (mem_inserted.mpr (.inr ⟨harranged.hasHelpCommand.mpr hhelp, rfl⟩))
  · intro hversion user userCalls hgives hdefault o ho
    exact not_sharesName_inserted hbase hbuild h hgives ho _
      (mem_inserted.mpr (.inl ⟨hdefault, harranged.hasVersionCommand.mpr hversion, rfl⟩))

theorem findsOptions_of_namesApart (hbase : calls.foldl call {} = base)
    (hbuild : build calls = .ok cli) (h : NamesApart calls base) : FindsOptions calls cli := by
  have harranged := hbase ▸ arranged_foldl calls
  constructor
  · intro user userCalls command hgives hbecomes
    obtain ⟨-, rfl⟩ := (becomes_iff hbuild).mp hbecomes
    rw [hbase]
    have hperm := CommandBuilder.perm_options_of_builds hgives.2
    have hapart : user.options.Pairwise fun o o' => ¬ SharesName o o' :=
      (hperm.pairwise_iff fun hnot hshares => hnot hshares.symm).mpr (h.own user userCalls hgives)
    refine ⟨inserted base user, options_release, fun i o ho => ?_⟩
    have hadded : o ∈ userCalls.flatMap added := hperm.mem_iff.mp (List.mem_of_getElem? ho)
    refine foundAt_of_apart options_release ho (fun o' ho' => ?_) fun j hj o' ho' hshares => ?_
    · obtain ⟨hdefault, hversion, rfl⟩ | ⟨hhelp, rfl⟩ := mem_inserted.mp ho'
      · exact h.version (harranged.hasVersionCommand.mp hversion) user userCalls hgives hdefault o
          hadded
      · exact h.help (harranged.hasHelpCommand.mp hhelp) user userCalls hgives o hadded
    · obtain ⟨hi, rfl⟩ := List.getElem?_eq_some_iff.mp ho
      obtain ⟨hj', rfl⟩ := List.getElem?_eq_some_iff.mp ho'
      exact List.pairwise_iff_getElem.mp hapart j i hj' hi hj hshares.symm
  · intro user userCalls hgives
    exact pairwise_iff_forall_before.mp (h.own user userCalls hgives)

/-- **Options are found by their names**, and duplicate names rejected, exactly when the options
of each command have no names in common, neither with each other nor with the options that `Build`
adds. -/
theorem findsOptions_iff {calls : List (CliBuilder.Call V)} {cli : Cli V}
    (hbuild : build calls = .ok cli) : FindsOptions calls cli ↔ NamesApart calls cli := by
  have hnames : NamesApart calls (calls.foldl call {}) ↔ NamesApart calls cli := by
    obtain ⟨-, rfl⟩ := (build_eq_ok_iff rfl).mp hbuild
    exact ⟨fun h => ⟨h.own, h.help, h.version⟩, fun h => ⟨h.own, h.help, h.version⟩⟩
  rw [← hnames]
  exact ⟨namesApart_of_findsOptions rfl hbuild, findsOptions_of_namesApart rfl hbuild⟩

end

/-- The option `--host`, with this short name. -/
def host (shortName : String) : ClapOption (Any Nat) :=
  OptionBuilder.build "host" [.short shortName, .long "host", .withValue .string]

/-- A default command with these options. -/
def connect (options : List (ClapOption (Any Nat))) : Command (Any Nat) :=
  (options.map CommandBuilder.Call.withOption).foldl CommandBuilder.call Command.plainDefault

/-- It is given to a CLI with the command `help`. -/
def connectCalls (options : List (ClapOption (Any Nat))) : List (CliBuilder.Call Nat) :=
  [.withCommand (connect options), .withHelpCommand]

def connectCli (options : List (ClapOption (Any Nat))) : Cli Nat :=
  let cli := (connectCalls options).foldl call {}
  { cli with commands := cli.commands.map (release cli) }

theorem build_connectCalls (options : List (ClapOption (Any Nat)))
    (hdefault : (connect options).isDefault = true) :
    build (connectCalls options) = .ok (connectCli options) := by
  refine (build_eq_ok_iff rfl).mpr ⟨fun _ => ?_, rfl⟩
  simp [connectCalls, CliBuilder.call, Cli.withCommand, hdefault, Cli.enableHelpCommand]

theorem gives_connect (options : List (ClapOption (Any Nat))) :
    Gives (connectCalls options) (connect options) (options.map .withOption) :=
  ⟨by simp [connectCalls], "", [], rfl⟩

/-- Nothing is in the way of `-H` and `--host`. -/
theorem findsOptions_connect : FindsOptions (connectCalls [host "H"]) (connectCli [host "H"]) := by
  refine (findsOptions_iff (build_connectCalls _ rfl)).mpr ?_
  have hadded : ∀ user userCalls, Gives (connectCalls [host "H"]) user userCalls →
      userCalls.flatMap added = [host "H"] := by
    intro user userCalls hgives
    obtain rfl : user = connect [host "H"] := by simpa [connectCalls] using hgives.1
    exact List.perm_singleton.mp (CommandBuilder.perm_options_of_builds hgives.2).symm
  constructor
  · intro user userCalls hgives
    rw [hadded user userCalls hgives]
    exact List.pairwise_singleton ..
  · intro _ user userCalls hgives
    rw [hadded user userCalls hgives, List.forall_mem_singleton]
    rintro (⟨-, h⟩ | ⟨-, h⟩)
    · exact absurd h (by decide)
    · exact absurd h (by decide)
  · simp [connectCalls]

/-- The option `--help` takes `-h` over from `--host`; and an option is added twice, although its
names are taken the second time. -/
theorem not_findsOptions_connect :
    build (connectCalls [host "h"]) = .ok (connectCli [host "h"]) ∧
      ((connectCli [host "h"]).commands.map fun c => (c.findShortOption "h").map ClapOption.key) =
        [some "help", some "help"] ∧
      ¬ FindsOptions (connectCalls [host "h"]) (connectCli [host "h"]) ∧
      build (connectCalls [host "H", host "H"]) = .ok (connectCli [host "H", host "H"]) ∧
      ¬ FindsOptions (connectCalls [host "H", host "H"]) (connectCli [host "H", host "H"]) := by
  refine ⟨build_connectCalls _ rfl, by decide, fun h => ?_, build_connectCalls _ rfl, fun h => ?_⟩
  · have hhost : host "h" ∈ ([host "h"].map CommandBuilder.Call.withOption).flatMap added := by
      simp [added]
    have hinserted : helpOption "" ∈ inserted ((connectCalls [host "h"]).foldl call {})
        (connect [host "h"]) := by
      exact mem_inserted.mpr (.inr ⟨rfl, rfl⟩)
    exact not_sharesName_inserted rfl (build_connectCalls _ rfl) h (gives_connect _) hhost _
      hinserted (.inl ⟨by decide, rfl⟩)
  · exact h.rejects _ _ (gives_connect _) [host "H"] (host "H") [] rfl (host "H")
      List.mem_cons_self (.inl ⟨by decide, rfl⟩)

end AsapClap
