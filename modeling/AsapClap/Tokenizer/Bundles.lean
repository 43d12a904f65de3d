import AsapClap.Tokenizer.Image
import AsapClap.Tokenizer.Stream

/-!
# AsapClap.Tokenizer.Bundles

What the tokens of a whole line tell of the line.  Tokens do not say where an argument ends, so
a bundle of short options and the same options one by one are the same to whoever reads them,
and nothing behind an empty argument is read.  That is all: up to these two, the line comes back
from its tokens.
-/

namespace AsapClap

namespace Tokenizer

/-! ## The line without bundles -/

/-- The pieces of a bundle, the first of which is being read.  A dash in a bundle stays behind
what is in front of it, for it cannot be typed alone. -/
def pieces (piece : List Char) : List Char → List (List Char)
  | [] => [piece]
  | c :: cs => if c = '-' then pieces (piece ++ ['-']) cs else piece :: pieces [c] cs

/-- An argument, or the short options of a bundle one by one. -/
def unbundle (arg : String) : List String :=
  match arg.toList with
  | d :: c :: cs =>
      if d = '-' ∧ c ≠ '-' then (pieces [c] cs).map fun piece => String.ofList ('-' :: piece)
      else [arg]
  | _ => [arg]

/-- The line as far as it is read, without bundles. -/
def unbundled (args : List String) : List String := (args.takeWhile (· ≠ "")).flatMap unbundle

example : unbundled ["-xzf", "in-put", "-a-b", "--a-b", "", "-xz"] =
    ["-x", "-z", "-f", "in-put", "-a-", "-b", "--a-b"] := by decide

/-- The tokens of a bundle. -/
def bundleTokens (cs : List Char) : List Token :=
  cs.map fun c => (.shortOption, String.singleton c)

/-- Pieces of a bundle have its tokens. -/
theorem flatMap_bundleTokens (ps : List (List Char)) :
    ps.flatMap bundleTokens = bundleTokens ps.flatten := by
  rw [bundleTokens, List.map_flatten, List.flatMap_def]
  rfl

/-- A piece of a bundle does not begin with a dash. -/
def IsPiece (piece : List Char) : Prop := ∃ c cs, piece = c :: cs ∧ c ≠ '-'

theorem isPiece_singleton {c : Char} (h : c ≠ '-') : IsPiece [c] := ⟨c, [], rfl, h⟩

theorem IsPiece.append {piece : List Char} (h : IsPiece piece) (cs : List Char) :
    IsPiece (piece ++ cs) := by
  obtain ⟨c, cs', rfl, hc⟩ := h
  exact ⟨c, cs' ++ cs, rfl, hc⟩

/-- A piece is a bundle itself. -/
theorem tokenize_piece {piece : List Char} (h : IsPiece piece) :
    tokenize (String.ofList ('-' :: piece)) = bundleTokens piece := by
  obtain ⟨c, cs, rfl, hc⟩ := h
  rw [emitted_ofList]
  simp [argumentTokens, dashTokens, hc, bundleTokens]

/-- All the pieces can be typed. -/
theorem isPiece_of_mem_pieces {piece cs piece' : List Char} (h : IsPiece piece)
    (hmem : piece' ∈ pieces piece cs) : IsPiece piece' := by
  induction cs generalizing piece with
  | nil =>
      rw [pieces, List.mem_singleton] at hmem
      exact hmem ▸ h
  | cons c cs ih =>
      rw [pieces] at hmem
      split at hmem
      · exact ih (h.append _) hmem
      · next hc =>
        obtain rfl | hmem := List.mem_cons.mp hmem
        · exact h
        · exact ih (isPiece_singleton hc) hmem

/-- The pieces are all of the bundle. -/
theorem flatten_pieces (piece cs : List Char) : (pieces piece cs).flatten = piece ++ cs := by
  induction cs generalizing piece with
  | nil => simp [pieces]
  | cons c cs ih =>
      rw [pieces]
      split
      · next hc =>
        rw [ih, hc, List.append_assoc]
        rfl
      · rw [List.flatten_cons, ih]
        rfl

/-- A bundle is unbundled into its pieces. -/
theorem unbundle_bundle {c : Char} (hc : c ≠ '-') (cs : List Char) :
    unbundle (String.ofList ('-' :: c :: cs)) =
      (pieces [c] cs).map fun piece => String.ofList ('-' :: piece) := by
  simp [unbundle, hc]

/-- A long option stays as it is. -/
theorem unbundle_longOption (cs : List Char) :
    unbundle (String.ofList ('-' :: '-' :: cs)) = [String.ofList ('-' :: '-' :: cs)] := by
  simp [unbundle]

/-- A value stays as it is. -/
theorem unbundle_value {v : String} (head : v.toList.head? ≠ some '-') : unbundle v = [v] := by
  rw [unbundle]
  split
  · next d c cs hcs =>
    rw [hcs] at head
    have hd : d ≠ '-' := by simpa using head
    rw [if_neg (fun h => hd h.1)]
  · rfl

/-- Taken apart or not, an argument has the same tokens. -/
theorem flatMap_tokenize_unbundle (arg : String) :
    (unbundle arg).flatMap tokenize = tokenize arg := by
  rw [unbundle]
  split
  · next d c cs hcs =>
    split
    · next hbundle =>
      obtain ⟨rfl, hc⟩ := hbundle
      have hpieces : ∀ piece ∈ pieces [c] cs,
          tokenize (String.ofList ('-' :: piece)) = bundleTokens piece :=
        fun piece hpiece => tokenize_piece (isPiece_of_mem_pieces (isPiece_singleton hc) hpiece)
      have harg : tokenize arg = bundleTokens (c :: cs) := by
        rw [← tokenize_piece ⟨c, cs, rfl, hc⟩, ← hcs, String.ofList_toList]
      rw [List.flatMap_map, List.flatMap_congr hpieces, flatMap_bundleTokens, flatten_pieces, harg]
      rfl
    · simp
  · simp

/-- Unbundling makes no empty argument. -/
theorem nonempty_of_mem_unbundle {arg piece : String} (h : piece ∈ unbundle arg) (harg : arg ≠ "") :
    piece ≠ "" := by
  rw [unbundle] at h
  split at h
  · split at h
    · obtain ⟨cs, -, rfl⟩ := List.mem_map.mp h
      simp [String.ofList_eq_empty_iff]
    · rwa [List.mem_singleton.mp h]
  · rwa [List.mem_singleton.mp h]

/-- Unbundling a line, which ends at an empty argument, makes none either. -/
theorem nonempty_of_mem_unbundled {args : List String} {piece : String}
    (h : piece ∈ unbundled args) : piece ≠ "" := by
  obtain ⟨arg, harg, hpiece⟩ := List.mem_flatMap.mp h
  exact nonempty_of_mem_unbundle hpiece (by simpa using List.mem_takeWhile_imp harg)

/-- Without its bundles, a line has the same tokens. -/
theorem delivered_unbundled (args : List String) : delivered (unbundled args) = delivered args := by
  rw [delivered_eq_flatMap fun h => nonempty_of_mem_unbundled h rfl, unbundled, List.flatMap_assoc,
    delivered]
  exact List.flatMap_congr fun arg _ => flatMap_tokenize_unbundle arg

/-! ## Reading the line off its tokens -/

/-- An argument of which not all tokens may have been read. -/
inductive Unfinished
  | bundle (text : String)
  | name (text : String)
  /-- an `=` was read last -/
  | value (text : String)
  deriving DecidableEq, Repr

/-- The argument, if that was all. -/
def finish : Option Unfinished → List String
  | none => []
  | some (.bundle text) | some (.name text) | some (.value text) => [text]

/-- Read one more token: the arguments that are complete then, and the one that is not. -/
def read : Option Unfinished → Token → List String × Option Unfinished
  | some (.bundle text), (.shortOption, option) =>
      if option = "-" then ([], some (.bundle (text ++ "-")))
      else ([text], some (.bundle ("-" ++ option)))
  | some (.name text), (.equalSign, equal) => ([], some (.value (text ++ equal)))
  -- the name that is repeated where a further `=` follows, or nothing
  | some (.value text), (.longOption, _) => ([], some (.name text))
  | some (.value text), (.value, value) => ([text ++ value], none)
  | unfinished, (.shortOption, option) => (finish unfinished, some (.bundle ("-" ++ option)))
  | unfinished, (.longOption, name) => (finish unfinished, some (.name ("--" ++ name)))
  | unfinished, (_, text) => (finish unfinished ++ [text], none)

/-- The arguments with these tokens. -/
def retype : Option Unfinished → List Token → List String
  | unfinished, [] => finish unfinished
  | unfinished, token :: tokens =>
      (read unfinished token).1 ++ retype (read unfinished token).2 tokens

/-- Nothing here belongs to an argument in front. -/
def Fresh (tokens : List Token) : Prop :=
  ∀ t ∈ tokens.head?, t.1 ≠ .equalSign ∧ t ≠ (.shortOption, "-")

/-- Tokens that begin an argument may follow any others. -/
theorem fresh_append {tokens rest : List Token} (htokens : Fresh tokens) (hrest : Fresh rest) :
    Fresh (tokens ++ rest) := by
  cases tokens with
  | nil => exact hrest
  | cons token tokens => exact htokens

/-- The tokens of an argument do not continue another one. -/
theorem OfArgument.fresh {tokens : List Token} (h : OfArgument tokens) : Fresh tokens := by
  intro t ht
  cases h with
  | empty => cases ht
  | shortOptions cs head =>
      obtain rfl := Option.some.inj ht
      refine ⟨by simp, fun heq => head ?_⟩
      have htext := congrArg (String.toList ∘ Prod.snd) heq
      simpa using htext
  | loneDash | dashDash | value | longOption | longOptionEqual =>
      obtain rfl := Option.some.inj ht
      simp

/-- What is delivered begins an argument. -/
theorem fresh_delivered (args : List String) : Fresh (delivered args) := by
  induction args with
  | nil => simp [Fresh]
  | cons arg args ih =>
      by_cases harg : arg = ""
      · subst harg
        simp [Fresh]
      · rw [delivered_cons harg]
        exact fresh_append (ofArgument_tokenize arg).fresh ih

section

variable {rest : List Token}

/-- A bundle ends where a new argument begins. -/
theorem retype_bundle (h : Fresh rest) (text : String) :
    retype (some (.bundle text)) rest = text :: retype none rest := by
  cases rest with
  | nil => rfl
  | cons token rest =>
      obtain ⟨tokenType, option⟩ := token
      obtain ⟨hequal, hdash⟩ := h _ rfl
      cases tokenType with
      | shortOption =>
          have hoption : option ≠ "-" := by simpa using hdash
          simp [retype, read, hoption, finish]
      | _ => simp [retype, read, finish]

/-- A long option ends there as well. -/
theorem retype_name (h : Fresh rest) (text : String) :
    retype (some (.name text)) rest = text :: retype none rest := by
  cases rest with
  | nil => rfl
  | cons token rest =>
      obtain ⟨tokenType, option⟩ := token
      obtain ⟨hequal, -⟩ := h _ rfl
      cases tokenType with
      | equalSign => exact absurd rfl hequal
      | _ => simp [retype, read, finish]

/-- A bundle is read piece by piece. -/
theorem retype_pieces (h : Fresh rest) (piece cs : List Char) :
    retype (some (.bundle (String.ofList ('-' :: piece)))) (bundleTokens cs ++ rest) =
      (pieces piece cs).map (fun piece => String.ofList ('-' :: piece)) ++ retype none rest := by
  induction cs generalizing piece with
  | nil => exact retype_bundle h _
  | cons c cs ih =>
      rw [pieces]
      split
      · next hc =>
        subst hc
        rw [← ih (piece ++ ['-'])]
        have htext : String.ofList ('-' :: (piece ++ ['-'])) =
            String.ofList ('-' :: piece) ++ "-" := by
          simp [← String.toList_inj]
        rw [htext]
        rfl
      · next hc =>
        have hoption : String.singleton c ≠ "-" := by
          simpa [← String.toList_inj] using hc
        have htext : String.ofList ['-', c] = "-" ++ String.singleton c := by
          simp
        rw [List.map_cons, List.cons_append, ← ih, htext]
        simp [bundleTokens, retype, read, hoption]

/-- What is behind an `=` is read up to the end of the argument. -/
theorem retype_behindEqual {name : String} {tokens : List Token} (h : Fresh rest)
    (hbehind : BehindEqual name tokens) (text : String) :
    retype (some (.value text)) (tokens ++ rest) =
      (text ++ String.join (tokens.map spellBehind)) :: retype none rest := by
  induction hbehind generalizing text with
  | value => simp [retype, read, spellBehind]
  | ends =>
      change retype (some (.name text)) rest = _
      rw [retype_name h]
      simp [spellBehind]
  | again _ ih =>
      change retype (some (.value (text ++ "="))) (_ ++ rest) = _
      rw [ih]
      simp [spellBehind, String.append_assoc]

/-- The arguments are read off the tokens one by one. -/
theorem OfArgument.retype_append {tokens : List Token} (h : OfArgument tokens)
    (hne : tokens ≠ []) (hrest : Fresh rest) :
    retype none (tokens ++ rest) = unbundle (spell tokens) ++ retype none rest := by
  cases h with
  | empty => exact absurd rfl hne
  | loneDash | dashDash => rfl
  | @value v nonempty head =>
      have hspell : spell [(.value, v)] = v := by simp [spell, leadingDashes]
      rw [hspell, unbundle_value head]
      rfl
  | @shortOptions c cs head =>
      have htext : "-" ++ String.singleton c = String.ofList ('-' :: [c]) := by
        simp
      have hspell : "-" ++ String.singleton c ++ String.ofList cs =
          String.ofList ('-' :: c :: cs) := by
        simp [← String.toList_inj]
      rw [List.map_cons, spell, join_spellBehind_shortOptions, leadingDashes, hspell,
        unbundle_bundle head, ← retype_pieces hrest, ← htext]
      rfl
  | @longOption c cs name =>
      have hspell : spell [(.longOption, String.ofList (c :: cs))] =
          String.ofList ('-' :: '-' :: c :: cs) := by
        simp [spell, leadingDashes, ← String.toList_inj]
      have htext : "--" ++ String.ofList (c :: cs) = String.ofList ('-' :: '-' :: c :: cs) := by
        simp [← String.toList_inj]
      rw [hspell, unbundle_longOption, ← htext]
      exact retype_name hrest _
  | @longOptionEqual c cs tokens name behind =>
      have hspell : spell ((.longOption, String.ofList (c :: cs)) :: (.equalSign, "=") :: tokens) =
          "--" ++ String.ofList (c :: cs) ++ "=" ++ String.join (tokens.map spellBehind) := by
        simp [spell, leadingDashes, spellBehind, String.append_assoc]
      have htext : "--" ++ String.ofList (c :: cs) ++ "=" ++
            String.join (tokens.map spellBehind) =
          String.ofList ('-' :: '-' :: c :: (cs ++ '=' ::
            (String.join (tokens.map spellBehind)).toList)) := by
        simp [← String.toList_inj]
      rw [hspell, htext, unbundle_longOption, ← htext]
      exact retype_behindEqual hrest behind _

end

/-- Up to its bundles, a line comes back from its tokens. -/
theorem retype_delivered (args : List String) : retype none (delivered args) = unbundled args := by
  induction args with
  | nil => rfl
  | cons arg args ih =>
      by_cases harg : arg = ""
      · subst harg
        simp [unbundled, retype, finish]
      · have htokens : tokenize arg ≠ [] := mt (tokenize_eq_nil_iff arg).mp harg
        rw [delivered_cons harg, (ofArgument_tokenize arg).retype_append htokens
          (fresh_delivered args), spell_tokenize, ih]
        simp [unbundled, harg]

/-- **Tokens of a line**: two lines have the same tokens if they are the same without their
bundles, as far as they are read. -/
theorem delivered_eq_iff (args args' : List String) :
    delivered args = delivered args' ↔ unbundled args = unbundled args' := by
  constructor
  · intro h
    rw [← retype_delivered, h, retype_delivered]
  · intro h
    rw [← delivered_unbundled, h, delivered_unbundled]

end Tokenizer

end AsapClap
