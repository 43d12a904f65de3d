import AsapClap.Cli.Session
import AsapClap.Parser.Typing

/-!
# AsapClap.Cli.Typing

What a program finds in the values of a parse: with options of a type each, `GetAs` never throws
for the type of the option, neither for the program nor for the CLI when it answers `help`, and not
after any number of lines.
-/

namespace AsapClap

open AsapClap.Parser

namespace Cli

variable {Tag : Type} {types : UserTypes Tag}

/-- A parse of this CLI leaves values that can be read with the types of their options. -/
structure ReadsTyped [DecidableEq Tag] (b : Build) (wrap : Wrapping)
    (cli : Cli (Σ ty : ValueType Tag, ty.Carrier types)) (arguments : Arguments) : Prop where
  /-- under a key whose options have one type, each value is of the type, and its original token
  parses to it where the texts of the defaults do -/
  values : ∀ context, cli.Parses b wrap arguments (.returned context) →
    ∃ c, context.activeCommand = some c ∧ ∀ k ty, (∀ o, WithKey c k o → o.HasType ty) →
      ∀ v ∈ context.ovm.values k, ∃ x, Reads ty v x ∧
        ((∀ o, WithKey c k o → o.Legible) → ty.parseValue types v.originalToken = some x)
  /-- the answer to `help` throws for no value where the path to display help for is of strings -/
  answers : ∀ result, Parser.Parses b (cli.named arguments).context cli.commands
      (cli.unifyFirst arguments.args) (.returned true result) →
    (∀ c, result.activeCommand = some c → c.pathAsString = "help" →
      ∀ o, WithKey c ClapOption.keyRest o → o.HasType .string) →
    (cli.named arguments).respond wrap result.toCommandLineContext ≠ .error .badAnyCast

section

variable {b : Build} {wrap : Wrapping} {cli : Cli (Σ ty : ValueType Tag, ty.Carrier types)}
  {arguments : Arguments} {context : CommandLineContext (AnyOf types)}

theorem exists_mapM_text? {V : Type} {vs : List (OptionValue (Any V))}
    (h : ∀ v ∈ vs, ∃ text : String, v.value = .text text) :
    ∃ texts, (vs.mapM fun v => v.value.text?) = some texts := by
  induction vs with
  | nil => exact ⟨[], rfl⟩
  | cons v vs ih =>
      obtain ⟨⟨text, hv⟩, hvs⟩ := List.forall_mem_cons.mp h
      obtain ⟨texts, htexts⟩ := ih hvs
      refine ⟨text :: texts, ?_⟩
      rw [List.mapM_cons, htexts, hv]
      rfl

/-- To print a command casts nothing. -/
theorem print_ne_badAnyCast {c : Command (AnyOf types)} {parent : ParentCli} {width : Nat}
    {f : String → CommandLineContext (AnyOf types)} :
    ((c.print wrap parent width) >>= fun text => .ok (f text)) ≠ .error .badAnyCast := by
  intro h
  obtain h | ⟨text, -, h⟩ := bind_eq_error.mp h
  · cases Command.print_eq_error h
  · cases h

/-- Nor does printing the default command. -/
theorem printDefaultCommand_ne_badAnyCast {width : Nat}
    {f : String → CommandLineContext (AnyOf types)} :
    ((cli.printDefaultCommand wrap width) >>= fun text => .ok (f text)) ≠ .error .badAnyCast := by
  intro h
  obtain h | ⟨text, -, h⟩ := bind_eq_error.mp h
  · rw [printDefaultCommand] at h
    split at h
    · cases Command.print_eq_error h
    · cases h
  · cases h

/-- The path to display help for is read as strings. -/
theorem handleHelpCommand_ne_badAnyCast
    (hrest : ∀ c, context.activeCommand = some c → c.pathAsString = "help" →
      ∀ v ∈ context.ovm.values ClapOption.keyRest, ∃ text : String, v.value = .text text) :
    cli.handleHelpCommand wrap context ≠ .error .badAnyCast := by
  rw [handleHelpCommand]
  cases hactive : context.activeCommand with
  | none => simp
  | some c =>
      rw [deref_some, ok_bind]
      split
      · exact print_ne_badAnyCast
      · split
        · next hpath =>
          have htexts := hrest c hactive hpath
          rw [OptionValuesMap.valuesOf?]
          by_cases hcontains : context.ovm.contains ClapOption.keyRest = true
          · obtain ⟨texts, hmapM⟩ := exists_mapM_text? htexts
            simp only [hcontains, if_true, hmapM]
            split
            · exact print_ne_badAnyCast
            · simp
          · simp only [hcontains]
            exact printDefaultCommand_ne_badAnyCast
        · simp

/-- The answer casts the positional values of `help` only, which are texts. -/
theorem respond_ne_badAnyCast
    (hrest : ∀ c, context.activeCommand = some c → c.pathAsString = "help" →
      ∀ v ∈ context.ovm.values ClapOption.keyRest, ∃ text : String, v.value = .text text) :
    cli.respond wrap context ≠ .error .badAnyCast := by
  rw [respond]
  cases hactive : context.activeCommand with
  | none => simp
  | some c =>
      rw [deref_some, ok_bind]
      split
      · exact handleHelpCommand_ne_badAnyCast hrest
      · split <;> simp

/-- **Types are kept**: on a CLI that has not parsed before, `GetAs` with the type of the options
with a key never throws for a value under the key. -/
theorem parsed_values_typed [DecidableEq Tag] (b : Build) (wrap : Wrapping)
    (cli : Cli (Σ ty : ValueType Tag, ty.Carrier types)) (arguments : Arguments)
    (hfresh : cli.ovm = ∅) : ReadsTyped b wrap cli arguments where
  values := by
    intro context hparses
    obtain ⟨result, hparses, hactive, hovm⟩ := parses_returned hparses
    obtain ⟨c, hresult, hsupplied⟩ := supplied_of_parses hfresh hparses
    refine ⟨c, hactive.trans hresult, fun k ty htypes v hv => ?_⟩
    obtain ⟨o, ho, hsupplies⟩ := hsupplied k v (hovm ▸ hv)
    obtain ⟨x, hreads, hparse⟩ := exists_reads_of_supplies (htypes o ho) hsupplies
    exact ⟨x, hreads, fun hlegible => hparse (hlegible o ho)⟩
  answers := by
    intro result hparses htypes
    obtain ⟨c, hresult, hsupplied⟩ := supplied_of_parses hfresh hparses
    refine respond_ne_badAnyCast fun c' hactive hpath v hv => ?_
    obtain rfl : c = c' := Option.some.inj (hresult.symm.trans hactive)
    obtain ⟨o, ho, hsupplies⟩ := hsupplied _ v hv
    exact (htypes c hactive hpath o ho).supplies hsupplies

end

/-! ## Sessions -/

section

variable {b : Build} {wrap : Wrapping} {lines : List Arguments}
  {calls : List (CliBuilder.Call (Σ ty : ValueType Tag, ty.Carrier types))}
  {cli later : Cli (Σ ty : ValueType Tag, ty.Carrier types)}

/-- After any number of lines, what a CLI has stored is what options of its commands supplied. -/
theorem Session.supplied {V : Type} {calls : List (CliBuilder.Call V)} {cli later : Cli V}
    (hbuild : CliBuilder.build calls = .ok cli) (h : Session b wrap cli lines later) {k : String}
    {v : OptionValue (Any V)} (hv : v ∈ later.ovm.values k) :
    ∃ c ∈ cli.commands, ∃ o, WithKey c k o ∧ o.Supplies v := by
  obtain ⟨hactive, hovm⟩ := fresh_of_build hbuild
  obtain ⟨es, hes, hstored⟩ := h.grows.stored
  rw [hstored] at hv
  obtain hold | ⟨o, ⟨c, hknown, ho⟩, hkey, hsupplies⟩ := exists_supplies_of_mem hes hv
  · rw [hovm, Multimap.values_empty] at hold
    cases hold
  · obtain hc | hc := hknown
    · exact ⟨c, hc, o, ⟨ho, hkey⟩, hsupplies⟩
    · have hnone : (none : Option (Command (Any V))) = some c := hactive.symm.trans hc
      cases hnone

/-- **Types over sessions**: under a key whose options are all built with `WithValue<T>`, whatever
any number of lines has stored is read back by `GetAs<T>`, and is what its original token parses
to. -/
theorem session_values_typed [DecidableEq Tag] {k : String} {ty : ValueType Tag}
    (hbuild : CliBuilder.build calls = .ok cli) (hsession : Session b wrap cli lines later)
    (htypes : ∀ c ∈ cli.commands, ∀ o, WithKey c k o → o.BuiltWith types ty) :
    ∀ v ∈ later.ovm.values k, ∃ x, Reads ty v x ∧
      ty.parseValue types v.originalToken = some x := by
  intro v hv
  obtain ⟨c, hc, o, ho, hsupplies⟩ := hsession.supplied hbuild hv
  obtain ⟨d, hd, hlegible⟩ := (htypes c hc o ho).exists_descriptor
  obtain ⟨x, hreads, hparse⟩ := exists_reads_of_supplies ⟨d, hd⟩ hsupplies
  exact ⟨x, hreads, hparse (legible_of_descriptor hlegible hd)⟩

end

/-- A server that listens on a port, which has a default. -/
def port : ClapOption (AnyOf noTypes) :=
  let descriptor : TypedDescriptor noTypes (.unsigned .w16) :=
    (TypedDescriptor.withValue noTypes (.unsigned .w16)).call (.defaultValue (8080 : BitVec 16))
  { key := "port", longName := "port", valueSemantic := some descriptor.toSemantics }

def server : Cli (Σ ty : ValueType Empty, ty.Carrier noTypes) :=
  { commands := [Command.plainDefault.withOption port] }

theorem parsed_values_typed_server :
    ReadsTyped .debug oneLine server
      { programName := "server", args := ["--port=80"], programName_ne := by decide } :=
  parsed_values_typed .debug oneLine server _ rfl

/-- A default for the port. -/
def onPort8080 : TypedDescriptor.Method noTypes (.unsigned .w16) := .defaultValue (8080 : BitVec 16)

theorem builtWith_port : port.BuiltWith noTypes (.unsigned .w16) := by
  refine .mk "port" [.long "port"] [.value onPort8080] ?_ ?_
  · intro next hnext
    obtain rfl := List.mem_singleton.mp hnext
    trivial
  · intro next _ _ x
    exact (parseValue_print_iff (by simp) x).mpr (by simp [ValueType.IsByte])

/-- The server as it is built, and the line it is started with. -/
def startedServer : Cli (Σ ty : ValueType Empty, ty.Carrier noTypes) :=
  { commands := [{ Command.plainDefault.withOption port with hasParentCli := true }] }

def onPort80 : Arguments := ⟨"server", ["--port=80"], by decide⟩

theorem session_values_typed_server : ∃ later, Session .debug oneLine startedServer [onPort80] later ∧
    ∀ v ∈ later.ovm.values "port", ∃ x, Reads (.unsigned .w16) v x ∧
      (ValueType.unsigned .w16).parseValue noTypes v.originalToken = some x := by
  have hbuild : CliBuilder.build [.withCommand (Command.plainDefault.withOption port)] =
      .ok startedServer := rfl
  have hparsed : startedServer.ParsedTo .debug oneLine onPort80 _ := .returned ⟨_, ⟨9, rfl⟩, rfl⟩
  have hsession := Session.line hparsed (.done _)
  refine ⟨_, hsession, session_values_typed hbuild hsession ?_⟩
  intro c hc o ho
  obtain rfl := List.mem_singleton.mp hc
  obtain rfl := List.mem_singleton.mp ho.1
  exact builtWith_port

end Cli

end AsapClap
