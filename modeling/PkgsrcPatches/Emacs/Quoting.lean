import PkgsrcPatches.Emacs.Etags
import PkgsrcPatches.Lib.Shell

/-! What the shell makes of the three commands `etags` composes: the names stay single
words, whatever is in them. -/
namespace PkgsrcPatches.Emacs
open Lib Lib.Shell

def decompressCommand (command qname : CString) : CString := command ++ .lit " " ++ qname

theorem quoteLoop_eq (s q : List UInt8) : quoteLoop s q = q ++ s.flatMap quoteByte := by
  induction s generalizing q with
  | nil => rw [quoteLoop, List.flatMap_nil, List.append_nil]
  | cons c s ih =>
    rw [quoteLoop, ih, List.flatMap_cons, List.append_assoc]
    rfl

theorem shellQuote_bytes (s : CString) : (shellQuote s).bytes = enclose s.bytes := by
  have hloop : (shellQuote s).bytes = quoteLoop s.bytes [quoteChar] ++ [quoteChar] := rfl
  rw [hloop, quoteLoop_eq, enclose]
  rfl

theorem lex_shellQuote {pre : List UInt8} {st : LexState} {ts us : List Token}
    (hpre : lexFrom .between pre = some (ts, st)) (hst : st.AtWord us) (s : CString)
    {post : List UInt8} (hpost : EndsWord post) :
    lex (pre ++ ((shellQuote s).bytes ++ post)) =
      (lex post).map fun qs => ts ++ us ++ .word (quoted s.bytes) :: qs := by
  rw [shellQuote_bytes]
  exact lex_enclose hpre hst s.bytes hpost

section Commands
variable (tagfile what command name : CString)

theorem lex_fgrepCommand (pattern : CString) :
    lex (fgrepCommand (shellQuote tagfile) (shellQuote pattern)).bytes =
      some [.word (literal "mv"), .word (quoted tagfile.bytes), .word (literal "OTAGS"), .op [59],
        .word (literal "fgrep"), .word (literal "-v"), .word (quoted pattern.bytes),
        .word (literal "OTAGS"), .op [62], .word (quoted tagfile.bytes), .op [59],
        .word (literal "rm"), .word (literal "OTAGS")] := by
  have hmv : lexFrom .between (CString.lit "mv ").bytes =
      some ([.word (literal "mv")], .between) := by decide
  have hfgrep : lexFrom .between (CString.lit " OTAGS;fgrep -v ").bytes =
      some ([.word (literal "OTAGS"), .op [59], .word (literal "fgrep"), .word (literal "-v")],
        .between) := by decide
  have hto : lexFrom .between (CString.lit " OTAGS >").bytes =
      some ([.word (literal "OTAGS")], .op 62) := by decide
  have hrm : lex (CString.lit ";rm OTAGS").bytes =
      some [.op [59], .word (literal "rm"), .word (literal "OTAGS")] := by decide
  simp only [fgrepCommand, CString.bytes_append, List.append_assoc]
  rw [lex_shellQuote hmv rfl tagfile (endsWord_append (c := 32) (by decide) (by decide) _),
    lex_shellQuote hfgrep rfl pattern (endsWord_append (c := 32) (by decide) (by decide) _),
    lex_shellQuote hto rfl tagfile (endsWord_of_head (c := 59) (by decide) (by decide)), hrm]
  rfl

theorem lex_sortCommand :
    lex (sortCommand (shellQuote tagfile)).bytes =
      some [.word (literal "sort"), .word (quoted tagfile.bytes), .word (literal "-o"),
        .word (quoted tagfile.bytes)] := by
  have hsort : lexFrom .between (CString.lit "sort ").bytes =
      some ([.word (literal "sort")], .between) := by decide
  have hto : lexFrom .between (CString.lit " -o ").bytes =
      some ([.word (literal "-o")], .between) := by decide
  have hend : lex [] = some [] := rfl
  have hnil : EndsWord [] := fun c hc => by cases hc
  have hlast := lex_shellQuote hto rfl tagfile hnil
  rw [List.append_nil, hend] at hlast
  simp only [sortCommand, CString.bytes_append, List.append_assoc]
  rw [lex_shellQuote hsort rfl tagfile (endsWord_append (c := 32) (by decide) (by decide) _), hlast]
  rfl

theorem lex_decompressCommand {ts : List Token} (h : lex command.bytes = some ts) :
    lex (decompressCommand command (shellQuote name)).bytes =
      some (ts ++ [.word (quoted name.bytes)]) := by
  have hend : lex [] = some [] := rfl
  have hnil : EndsWord [] := fun c hc => by cases hc
  have hlast := lex_shellQuote (lexFrom_blank h) rfl name hnil
  rw [List.append_nil, hend] at hlast
  simp only [decompressCommand, CString.bytes_append]
  rw [show (CString.lit " ").bytes = [32] from rfl, hlast]
  simp

theorem parse_fgrepCommand (pattern : CString) :
    parse (fgrepCommand (shellQuote tagfile) (shellQuote pattern)).bytes =
      some [⟨[literal "mv", quoted tagfile.bytes, literal "OTAGS"], []⟩,
        ⟨[literal "fgrep", literal "-v", quoted pattern.bytes, literal "OTAGS"],
          [([62], quoted tagfile.bytes)]⟩,
        ⟨[literal "rm", literal "OTAGS"], []⟩] := by
  rw [parse, lex_fgrepCommand]
  rfl

theorem parse_sortCommand :
    parse (sortCommand (shellQuote tagfile)).bytes =
      some [⟨[literal "sort", quoted tagfile.bytes, literal "-o", quoted tagfile.bytes], []⟩] := by
  rw [parse, lex_sortCommand]
  rfl

/-- A decompressor of the table: words, the first of which names a command. -/
structure IsCommand (command : CString) (w : Shell.Word) (ws : List Shell.Word) : Prop where
  words : lex command.bytes = some ((w :: ws).map .word)
  named : isCommandName w = true

theorem parse_decompressCommand {w : Shell.Word} {ws : List Shell.Word} (h : IsCommand command w ws) :
    parse (decompressCommand command (shellQuote name)).bytes =
      some [⟨w :: ws ++ [quoted name.bytes], []⟩] := by
  have hadd : addWord .empty w = some ⟨[w], []⟩ := if_pos (Or.inr h.named)
  have hfold := foldlM_words (ws ++ [quoted name.bytes]) [] ⟨[w], []⟩ (List.cons_ne_nil _ _)
  rw [parse, lex_decompressCommand command name h.words, Option.bind_some]
  have hts : (w :: ws).map Token.word ++ [.word (quoted name.bytes)] =
      .word w :: (ws ++ [quoted name.bytes]).map .word := by simp
  rw [hts, List.foldlM_cons, parseStep, ParseState.start]
  simp only [hadd, Option.map_some, Option.bind_eq_bind, Option.bind_some, hfold]
  simp [parseEnd, SimpleCommand.empty]

end Commands

/-- A quoted text is one word whose value it is, wherever a word may stand, and the three
commands have one structure whatever the names are. -/
theorem shell_quote_one_word (s tagfile what command name : CString) (w : Shell.Word)
    (ws : List Shell.Word) (hcommand : IsCommand command w ws) :
    (∀ (pre post : List UInt8) (st : LexState) (ts us : List Token),
      lexFrom .between pre = some (ts, st) → st.AtWord us → EndsWord post →
      lex (pre ++ ((shellQuote s).bytes ++ post)) =
        (lex post).map fun qs => ts ++ us ++ .word (quoted s.bytes) :: qs) ∧
    Shell.Word.field? (quoted s.bytes) = some s.bytes ∧
    parse (fgrepCommand (shellQuote tagfile) (shellQuote (patternOf what))).bytes =
      some [⟨[literal "mv", quoted tagfile.bytes, literal "OTAGS"], []⟩,
        ⟨[literal "fgrep", literal "-v", quoted (patternOf what).bytes, literal "OTAGS"],
          [([62], quoted tagfile.bytes)]⟩,
        ⟨[literal "rm", literal "OTAGS"], []⟩] ∧
    parse (sortCommand (shellQuote tagfile)).bytes =
      some [⟨[literal "sort", quoted tagfile.bytes, literal "-o", quoted tagfile.bytes], []⟩] ∧
    parse (decompressCommand command (shellQuote name)).bytes =
      some [⟨w :: ws ++ [quoted name.bytes], []⟩] :=
  ⟨fun _ _ _ _ _ hpre hst hpost => lex_shellQuote hpre hst s hpost, field?_quoted s.bytes,
    parse_fgrepCommand tagfile (patternOf what), parse_sortCommand tagfile,
    parse_decompressCommand command name hcommand⟩

theorem shell_quote_one_word_evil :
    let evil : CString := .lit "a'; $(rm) \\ > `b`\n"
    (∀ (pre post : List UInt8) (st : LexState) (ts us : List Token),
      lexFrom .between pre = some (ts, st) → st.AtWord us → EndsWord post →
      lex (pre ++ ((shellQuote evil).bytes ++ post)) =
        (lex post).map fun qs => ts ++ us ++ .word (quoted evil.bytes) :: qs) ∧
    Shell.Word.field? (quoted evil.bytes) = some evil.bytes ∧
    parse (fgrepCommand (shellQuote evil) (shellQuote (patternOf evil))).bytes =
      some [⟨[literal "mv", quoted evil.bytes, literal "OTAGS"], []⟩,
        ⟨[literal "fgrep", literal "-v", quoted (patternOf evil).bytes, literal "OTAGS"],
          [([62], quoted evil.bytes)]⟩,
        ⟨[literal "rm", literal "OTAGS"], []⟩] ∧
    parse (sortCommand (shellQuote evil)).bytes =
      some [⟨[literal "sort", quoted evil.bytes, literal "-o", quoted evil.bytes], []⟩] ∧
    parse (decompressCommand (.lit "gzip -d -c") (shellQuote evil)).bytes =
      some [⟨literal "gzip" :: [literal "-d", literal "-c"] ++ [quoted evil.bytes], []⟩] := by
  intro evil
  exact shell_quote_one_word evil evil evil (.lit "gzip -d -c") evil (literal "gzip")
    [literal "-d", literal "-c"] ⟨by decide, by decide⟩

end PkgsrcPatches.Emacs
