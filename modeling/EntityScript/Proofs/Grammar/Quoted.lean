import EntityScript.Proofs.Grammar.Framed
import EntityScript.Proofs.Token.Quoted
import Mathlib.Data.List.Basic

/-!
# Reading texts back

What a string token stands for is read off the text between its quotes from left to right
(`Decodes`): an escape stands for one character, and every other character for itself. The compiler
reads it in just this way, so a text that was quoted is read back as it was.

A text has a meaning exactly if all its escapes are known. A source whose declarations are legal has
no string token without one (`FileSpelling.escaped`).
-/

namespace EntityScript.Grammar

open Compile Token

/-- The characters that stand behind a backslash in an escape, with what the escape stands for. -/
def escapeTable : List (Char × Char) :=
  [('n', '\n'), ('t', '\t'), ('r', '\r'), ('\\', '\\'), ('"', '"')]

/-- What a text between quotes stands for, read from left to right. -/
inductive Decodes : List Char → List Char → Prop where
  | nil : Decodes [] []
  | plain {c : Char} {cs ds : List Char} (free : c ≠ '\\') (rest : Decodes cs ds) :
      Decodes (c :: cs) (c :: ds)
  | escape {c d : Char} {cs ds : List Char} (known : (c, d) ∈ escapeTable) (rest : Decodes cs ds) :
      Decodes ('\\' :: c :: cs) (d :: ds)

/-- The table of escapes has exactly those that are known. -/
theorem mem_escapeTable {c d : Char} : (c, d) ∈ escapeTable ↔ escaped? c = some d := by
  unfold escaped?
  split <;> simp_all [escapeTable, eq_comm]

/-- What two texts stand for is what both together stand for. -/
theorem Decodes.append {cs ds cs' ds' : List Char} (h : Decodes cs ds) (h' : Decodes cs' ds') :
    Decodes (cs ++ cs') (ds ++ ds') := by
  induction h with
  | nil => exact h'
  | plain free _ ih => exact .plain free ih
  | escape known _ ih => exact .escape known ih

/-- A text stands for one text at most. -/
theorem Decodes.unique {cs ds ds' : List Char} (h : Decodes cs ds) (h' : Decodes cs ds') :
    ds = ds' := by
  induction h generalizing ds' with
  | nil =>
    cases h'
    rfl
  | plain free _ ih =>
    cases h' with
    | plain _ rest => rw [ih rest]
    | escape _ _ => exact absurd rfl free
  | escape known _ ih =>
    cases h' with
    | plain free _ => exact absurd rfl free
    | escape known' rest =>
      have hsame := (mem_escapeTable.1 known).symm.trans (mem_escapeTable.1 known')
      rw [ih rest, Option.some.inj hsame]

/-- What a text stands for is what unescaping adds to the output. -/
theorem Decodes.unescapeOnto {cs ds : List Char} (h : Decodes cs ds) (out : String) :
    unescapeOnto out cs = .ok (out ++ String.ofList ds) := by
  induction h generalizing out with
  | nil => rw [Compile.unescapeOnto, String.ofList_nil, String.append_empty]
  | @plain c cs ds free _ ih =>
    have hpush : out.push c ++ String.ofList ds = out ++ String.ofList (c :: ds) :=
      String.toList_inj.1 (by simp)
    rw [Compile.unescapeOnto, ih, hpush]
    · exact fun heq _ => free heq
    · exact fun _ _ heq _ => free heq
  | @escape c d cs ds known _ ih =>
    have hpush : out.push d ++ String.ofList ds = out ++ String.ofList (d :: ds) :=
      String.toList_inj.1 (by simp)
    rw [Compile.unescapeOnto, mem_escapeTable.1 known]
    dsimp only
    rw [ih, hpush]

/-- A text whose escapes are all known stands for something. -/
theorem Escaped.exists_decodes {cs : List Char} (h : Escaped cs) : ∃ ds, Decodes cs ds := by
  induction h with
  | nil => exact ⟨[], .nil⟩
  | plain free _ ih =>
    obtain ⟨ds, hds⟩ := ih
    exact ⟨_, .plain free hds⟩
  | escape known _ ih =>
    obtain ⟨ds, hds⟩ := ih
    obtain ⟨d, hd⟩ := Option.isSome_iff_exists.1 ((isSome_escaped?_iff _).2 known)
    exact ⟨_, .escape (mem_escapeTable.2 hd) hds⟩

/-- The compiler reads texts from left to right. -/
theorem readText_eq_ok_iff (lexeme s : String) :
    readText lexeme = .ok s ↔ Decodes (unquoted lexeme) s.toList := by
  constructor
  · intro h
    obtain ⟨ds, hds⟩ := ((readText_ok_iff lexeme).1 ⟨s, h⟩).exists_decodes
    have hread := hds.unescapeOnto ""
    rw [String.empty_append] at hread
    rw [← Except.ok.inj (hread.symm.trans h), String.toList_ofList]
    exact hds
  · intro h
    have hread := h.unescapeOnto ""
    rwa [String.empty_append, String.ofList_toList] at hread

/-- What stands between quotes is what was put there. -/
theorem unquoted_between (inner : List Char) : unquoted (between inner) = inner := by
  rw [unquoted, toList_between, List.tail_cons, List.dropLast_concat]

/-- A character is written between quotes as a text that stands for it. -/
theorem decodes_escape (c : Char) : Decodes (Token.escape c) [c] := by
  obtain hescaped | ⟨hplain, hfree⟩ := escape_cases c
  · simp only [List.mem_cons, Prod.mk.injEq, List.not_mem_nil, or_false] at hescaped
    obtain ⟨rfl, h⟩ | ⟨rfl, h⟩ | ⟨rfl, h⟩ | ⟨rfl, h⟩ | ⟨rfl, h⟩ := hescaped <;>
      exact h ▸ .escape (by decide) .nil
  · rw [hplain]
    exact .plain (fun heq => hfree (by simp [heq])) .nil

/-- A text is written between quotes character by character, and that stands for the text. -/
theorem decodes_flatMap_escape (cs : List Char) : Decodes (cs.flatMap Token.escape) cs := by
  induction cs with
  | nil => exact .nil
  | cons c cs ih => exact (decodes_escape c).append ih

/-- A text that was quoted is read back as it was. -/
theorem readText_quote (s : String) : readText (quote s) = .ok s := by
  rw [readText_eq_ok_iff, quote, unquoted_between]
  exact decodes_flatMap_escape s.toList

/-- The characters behind the backslashes of a text, a backslash taking the next character with
it. -/
def escapes : List Char → List Char
  | '\\' :: c :: cs => c :: escapes cs
  | _ :: cs => escapes cs
  | [] => []

/-- A character that is no backslash is not escaped, and neither does it escape. -/
theorem escapes_of_plain {c : Char} (h : c ≠ '\\') (cs : List Char) :
    escapes (c :: cs) = escapes cs := by
  rw [escapes]
  exact fun _ _ heq _ => h heq

/-- What stands between quotes has a meaning exactly if all its escapes are known. -/
theorem escaped_iff_of_enclosed {inner : List Char} (h : Enclosed inner) :
    Escaped inner ↔ ∀ c ∈ escapes inner, c ∈ ['n', 't', 'r', '\\', '"'] := by
  induction h with
  | nil => exact ⟨fun _ => List.forall_mem_nil _, fun _ => .nil⟩
  | @plain c cs free _ ih =>
    have hbackslash : c ≠ '\\' := fun heq => free (by simp [heq])
    rw [escapes_of_plain hbackslash, ← ih]
    constructor
    · intro hc
      cases hc with
      | plain _ rest => exact rest
      | escape _ _ => exact absurd rfl hbackslash
    · exact .plain hbackslash
  | @pair c cs _ _ ih =>
    rw [escapes, List.forall_mem_cons, ← ih]
    constructor
    · intro hc
      cases hc with
      | plain free _ => exact absurd rfl free
      | escape known rest => exact ⟨known, rest⟩
    · exact fun ⟨known, rest⟩ => .escape known rest

/-- Every string token among the tokens has a meaning. -/
def AllEscaped (ts : List Token) : Prop :=
  ∀ t ∈ ts, t.kind = .string → Escaped (unquoted t.lexeme)

/-- There is no string without a meaning among no tokens. -/
@[simp] theorem allEscaped_nil : AllEscaped [] := List.forall_mem_nil _

/-- All strings have a meaning if the first token and the rest are such. -/
@[simp] theorem allEscaped_cons (t : Token) (ts : List Token) : AllEscaped (t :: ts) ↔
    (t.kind = .string → Escaped (unquoted t.lexeme)) ∧ AllEscaped ts := List.forall_mem_cons

/-- All strings have a meaning if those of both parts do. -/
@[simp] theorem allEscaped_append (ts us : List Token) :
    AllEscaped (ts ++ us) ↔ AllEscaped ts ∧ AllEscaped us := List.forall_mem_append

/-- There are no strings in a name. -/
theorem Name.escaped {name : String} {ts : List Token} (h : Name name ts) : AllEscaped ts := by
  cases h <;> simp [*]

/-- No operator is written as a string. -/
theorem operatorKind_ne_string (op : Operator) : operatorKind op ≠ .string := by
  cases op <;> decide

/-- The strings of a legal expression have a meaning. -/
theorem Phrase.escaped {level : Level} {e : Expression} {ts : List Token} (h : Phrase level e ts)
    (hlegal : e.Legal) : AllEscaped ts := by
  induction h with
  | var spelled => exact spelled.escaped
  | text _ => exact (allEscaped_cons _ _).2 ⟨fun _ => hlegal, allEscaped_nil⟩
  | assign target sign _ ih => simp [target.escaped, sign, ih hlegal]
  | binary _ _ sign _ ihl ihr =>
    simp [sign, operatorKind_ne_string, ihl hlegal.1, ihr hlegal.2]
  | and _ _ sign _ ihl ihr | or _ _ sign _ ihl ihr => simp [sign, ihl hlegal.1, ihr hlegal.2]
  | component _ dot kind ih => simp [dot, kind, ih hlegal.1]
  | group opening _ closing ih => simp [opening, closing, ih hlegal]
  | negate _ sign _ _ ih | not _ sign _ ih => simp [sign, ih hlegal]
  | number | vector | negatedVector | yes | no => simp [*]

/-- The string of a legal target has a meaning. -/
theorem TargetSpelling.escaped {target : Option Target} {ts : List Token}
    (h : TargetSpelling target ts) (hlegal : ∀ t, target = some t → t.Legal) : AllEscaped ts := by
  cases h with
  | none => simp
  | named comma kind => simp [comma, kind]
  | quoted comma kind =>
    have hquoted : Escaped (unquoted _) := hlegal _ rfl
    simp [comma, hquoted]

/-- The strings of legal arguments have a meaning. -/
theorem ArgumentSpelling.escaped {args : List (String × Expression)} {ts : List Token}
    (h : ArgumentSpelling args ts) (hlegal : ∀ a ∈ args, a.2.Legal) : AllEscaped ts := by
  induction h with
  | nil => simp
  | cons comma name sign value _ ih =>
    obtain ⟨hfirst, hrest⟩ := List.forall_mem_cons.1 hlegal
    simp [comma, name, sign, value.escaped hfirst, ih hrest]

/-- There are no strings in an annotation. -/
theorem AnnotationSpelling.escaped {type : Option String} {ts : List Token}
    (h : AnnotationSpelling type ts) : AllEscaped ts := by
  cases h <;> simp [*]

/-- The strings of what a variable begins with have a meaning if that is legal. -/
theorem InitialSpelling.escaped {init : Option Expression} {ts : List Token}
    (h : InitialSpelling init ts) (hlegal : ∀ e, init = Option.some e → e.Legal) :
    AllEscaped ts := by
  cases h with
  | none => simp
  | some sign value => simp [sign, value.escaped (hlegal _ rfl)]

/-- The strings of a legal statement have a meaning. -/
theorem Clause.escaped {site : Site} {s : Statement} {ts : List Token} (h : Clause site s ts)
    (hlegal : s.Legal) : AllEscaped ts := by
  induction h with
  | next _ _ ihf ihr => simp [ihf hlegal.1, ihr hlegal.2]
  | declare word name typed initial semicolon =>
    simp [word, name, semicolon, typed.escaped, initial.escaped hlegal.2.2]
  | branch word test opening _ closing _ iht ihf =>
    simp [word, opening, closing, test.escaped hlegal.1, iht hlegal.2.1, ihf hlegal.2.2]
  | conditional _ ih => exact ih hlegal
  | elseIf word _ ih => simp [word, ih hlegal]
  | elseBlock word opening _ closing ih => simp [word, opening, closing, ih hlegal]
  | fireWith word opening name goal arguments closing semicolon =>
    simp [word, opening, name, closing, semicolon, goal.escaped hlegal.1,
      arguments.escaped hlegal.2]
  | block opening _ closing ih => simp [opening, closing, ih hlegal]
  | evaluate value semicolon => simp [semicolon, value.escaped hlegal]
  | done | nothing | fire | change | changeTo => simp [*]

/-- That strings have a meaning accrues from single tokens. -/
theorem accrues_escaped : Accrues fun ts _ => AllEscaped ts where
  nil := allEscaped_nil
  cons _ hfree h := (allEscaped_cons _ _).2 ⟨fun hkind => absurd hkind hfree, h⟩
  append h₁ h₂ := (allEscaped_append _ _).2 ⟨h₁, h₂⟩

/-- Every string token of a source with legal handlers has a meaning. -/
theorem FileSpelling.escaped {f : File} {ts : List Token} (h : FileSpelling f ts)
    (hlegal : ∀ x ∈ f.handlers, x.2.body.Legal) : AllEscaped ts :=
  accrues_escaped.file (fun hblock => hblock.1.1.escaped hblock.2) (h.framed.with_bodies hlegal)

end EntityScript.Grammar
