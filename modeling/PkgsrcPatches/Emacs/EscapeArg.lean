import PkgsrcPatches.Emacs.Quoting

/-! `escape_shell_arg_string` of the later `etags`, store by store, and the commands that
`process_file_name` makes of what it returns. -/
namespace PkgsrcPatches.Emacs
open Lib Lib.Shell

/-- A buffer fresh from `xnew`: what has not been stored yet is `none`. -/
abbrev Buffer := List (Option UInt8)

def Buffer.store (b : Buffer) (i : Nat) (c : UInt8) : Option Buffer :=
  if i < b.length then some (b.set i (some c)) else none

def Buffer.string : Buffer → Option (List UInt8)
  | [] => none
  | none :: _ => none
  | some c :: b => if c = 0 then some [] else (Buffer.string b).map (c :: ·)

def escapeLoop : List UInt8 → Buffer → Nat → Option (Buffer × Nat)
  | [], b, i => some (b, i)
  | c :: s, b, i => do
    let b ← b.store i c
    if c = quoteChar then
      let b ← b.store (i + 1) backslash
      let b ← b.store (i + 2) quoteChar
      let b ← b.store (i + 3) quoteChar
      escapeLoop s b (i + 4)
    else escapeLoop s b (i + 1)

/-- `escape_shell_arg_string`; there is no result where an `int` overflows or a store misses
the buffer. -/
def escapeShellArgString (str : CString) : Option Buffer := do
  let needSpace ← quotedSize str.bytes 2
  let size ← addInt needSpace 1
  let b : Buffer := List.replicate size none
  let b ← b.store 0 quoteChar
  let b ← b.store (needSpace - 1) quoteChar
  let (b, _) ← escapeLoop str.bytes b 1
  b.store needSpace 0

def snprintf (size : Nat) (text : List UInt8) : List UInt8 := text.take (size - 1)

/-- The command of `process_file_name` where a decompressor writes a temporary file. -/
def decompressToCommand (command realName tmpName : CString) : Option (List UInt8) := do
  let newRealName ← (← escapeShellArgString realName).string
  let newTmpName ← (← escapeShellArgString tmpName).string
  let bufLen ← addInt (command.strlen + 4 + newRealName.length + newTmpName.length) 1
  some (snprintf bufLen (command.bytes ++ [32] ++ newRealName ++ [32, 62, 32] ++ newTmpName))

/-- The command that the older releases give to `popen`. -/
def decompressFromCommand (command realName : CString) : Option (List UInt8) := do
  let quotedName ← (← escapeShellArgString realName).string
  some (command.bytes ++ [32] ++ quotedName)

/-! ### The buffer -/

theorem store_at (A B : Buffer) (x : Option UInt8) {i : Nat} (hi : i = A.length) (c : UInt8) :
    Buffer.store (A ++ x :: B) i c = some ((A ++ [some c]) ++ B) := by
  subst hi
  have hlt : A.length < (A ++ x :: B).length := by simp
  rw [Buffer.store, if_pos hlt, List.set_append_right _ _ (Nat.le_refl _), Nat.sub_self]
  simp

theorem quoteByte_length (c : UInt8) : (quoteByte c).length = if c = quoteChar then 4 else 1 := by
  rw [quoteByte, show squote = quoteChar from rfl]
  split
  · rfl
  · rfl

theorem escapeLoop_fills (s : List UInt8) (A C : Buffer) :
    escapeLoop s (A ++ (List.replicate (s.flatMap quoteByte).length none ++ C)) A.length =
      some (A ++ ((s.flatMap quoteByte).map some ++ C), A.length + (s.flatMap quoteByte).length) := by
  induction s generalizing A with
  | nil => rfl
  | cons c s ih =>
    rw [List.flatMap_cons, List.length_append, quoteByte_length, List.map_append, escapeLoop]
    by_cases hc : c = quoteChar
    · have hlen : 4 + (s.flatMap quoteByte).length = (s.flatMap quoteByte).length + 1 + 1 + 1 + 1 := by
        omega
      have hquote : (quoteByte c).map some = [some c, some backslash, some quoteChar, some quoteChar] := by
        rw [quoteByte, show squote = quoteChar from rfl, if_pos hc, hc]
        rfl
      have hih := ih (A ++ [some c] ++ [some backslash] ++ [some quoteChar] ++ [some quoteChar])
      simp only [List.length_append, List.length_singleton] at hih
      simp only [if_pos hc, hlen, List.replicate_succ, List.cons_append]
      rw [store_at A _ none rfl]
      simp only [Option.bind_eq_bind, Option.bind_some]
      rw [store_at _ _ none (by simp), Option.bind_some, store_at _ _ none (by simp),
        Option.bind_some, store_at _ _ none (by simp), Option.bind_some, hih, hquote]
      simp
      omega
    · have hquote : (quoteByte c).map some = [some c] := by
        rw [quoteByte, show squote = quoteChar from rfl, if_neg hc]
        rfl
      have hih := ih (A ++ [some c])
      simp only [List.length_append, List.length_singleton] at hih
      simp only [if_neg hc, Nat.add_comm 1, List.replicate_succ, List.cons_append]
      rw [store_at A _ none rfl]
      simp only [Option.bind_eq_bind, Option.bind_some]
      rw [hih, hquote]
      simp
      omega

theorem enclose_length (s : CString) : (enclose s.bytes).length = quotedLen s + 2 := by
  rw [← shellQuote_bytes]
  exact shellQuote_strlen s

/-- Where no `int` overflows, every byte of the buffer is stored, and it holds the text in single
quotes with its terminator. -/
theorem escapeShellArgString_eq (str : CString) :
    escapeShellArgString str =
      if (enclose str.bytes).length < intMax then some ((enclose str.bytes).map some ++ [some 0])
      else none := by
  have hlen : (str.bytes.flatMap quoteByte).length = quotedLen str := by
    have h := enclose_length str
    simp only [enclose, List.length_cons, List.length_append, List.length_nil] at h
    omega
  have hsize (r : Nat) := quotedSize_eq str.bytes 2 r (by decide)
  have hcount : quotedLen str = str.bytes.length + 3 * str.bytes.count quoteChar := rfl
  rw [enclose_length, escapeShellArgString]
  by_cases hfit : quotedLen str + 2 < intMax
  · have hneed : quotedSize str.bytes 2 = some (quotedLen str + 2) := (hsize _).mpr (by omega)
    have hadd : addInt (quotedLen str + 2) 1 = some (quotedLen str + 3) :=
      (addInt_eq_some _ _ _).mpr (by omega)
    -- the two quotes go first, then what is between them, then the terminator
    have hopen : Buffer.store (List.replicate (quotedLen str + 3) none) 0 quoteChar =
        some (some quoteChar :: (List.replicate (quotedLen str) none ++ [none, none])) := by
      rw [List.replicate_succ, List.replicate_succ', List.replicate_succ', List.append_assoc]
      exact store_at [] _ none rfl quoteChar
    have hclose : Buffer.store
        (some quoteChar :: (List.replicate (quotedLen str) none ++ [none, none]))
          (quotedLen str + 2 - 1) quoteChar =
        some (some quoteChar :: (List.replicate (quotedLen str) none ++ [some quoteChar, none])) := by
      rw [← List.cons_append, store_at _ [none] none (by simp)]
      simp
    have hfill := escapeLoop_fills str.bytes [some quoteChar] [some quoteChar, none]
    rw [hlen, List.length_singleton, List.singleton_append, List.singleton_append] at hfill
    have hend : Buffer.store
        (some quoteChar :: ((str.bytes.flatMap quoteByte).map some ++ [some quoteChar, none]))
          (quotedLen str + 2) 0 = some ((enclose str.bytes).map some ++ [some 0]) := by
      have hsplit : some quoteChar :: ((str.bytes.flatMap quoteByte).map some ++ [some quoteChar, none]) =
          (enclose str.bytes).map some ++ none :: [] := by
        simp [enclose, squote, quoteChar]
      rw [hsplit, store_at _ [] none (by rw [List.length_map, enclose_length])]
      simp
    rw [if_pos hfit, hneed]
    simp only [Option.bind_eq_bind, Option.bind_some, hadd, hopen, hclose, hfill, hend]
  · rw [if_neg hfit]
    cases hneed : quotedSize str.bytes 2 with
    | none => rfl
    | some n =>
      have hn := (hsize n).mp hneed
      have hadd : addInt n 1 = none := if_neg (by omega)
      simp only [Option.bind_eq_bind, Option.bind_some, hadd, Option.bind_none]

theorem string_terminated (s : CString) : Buffer.string (s.bytes.map some ++ [some 0]) = some s.bytes := by
  obtain ⟨bytes, hnul⟩ := s
  induction bytes with
  | nil => rfl
  | cons c s ih =>
    rw [List.mem_cons, not_or] at hnul
    rw [List.map_cons, List.cons_append, Buffer.string, if_neg (fun hc => hnul.1 hc.symm), ih hnul.2]
    rfl

theorem string_enclose (s : CString) :
    Buffer.string ((enclose s.bytes).map some ++ [some 0]) = some (enclose s.bytes) := by
  rw [← shellQuote_bytes]
  exact string_terminated (shellQuote s)

/-! ### The commands -/

section Commands
variable (command realName tmpName : CString)

theorem decompressToCommand_eq :
    decompressToCommand command realName tmpName =
      if command.strlen + (enclose realName.bytes).length + (enclose tmpName.bytes).length + 4 < intMax
      then some (command.bytes ++ [32] ++ (enclose realName.bytes ++ ([32, 62, 32] ++ enclose tmpName.bytes)))
      else none := by
  rw [decompressToCommand, escapeShellArgString_eq, escapeShellArgString_eq]
  by_cases hreal : (enclose realName.bytes).length < intMax
  · by_cases htmp : (enclose tmpName.bytes).length < intMax
    · rw [if_pos hreal, if_pos htmp]
      simp only [Option.bind_eq_bind, Option.bind_some, string_enclose, addInt]
      by_cases hfit : command.strlen + (enclose realName.bytes).length +
          (enclose tmpName.bytes).length + 4 < intMax
      · have hint : command.strlen + 4 + (enclose realName.bytes).length +
            (enclose tmpName.bytes).length + 1 ≤ intMax := by omega
        rw [if_pos hfit, if_pos hint, Option.bind_some, snprintf, List.take_of_length_le]
        · simp
        · simp [CString.strlen]
          omega
      · rw [if_neg hfit, if_neg (by omega), Option.bind_none]
    · rw [if_pos hreal, if_neg htmp, if_neg (by omega)]
      simp only [Option.bind_eq_bind, Option.bind_some, string_enclose, Option.bind_none]
  · have hfit : ¬ command.strlen + (enclose realName.bytes).length +
        (enclose tmpName.bytes).length + 4 < intMax := by omega
    rw [if_neg hreal, if_neg hfit]
    rfl

theorem decompressFromCommand_eq :
    decompressFromCommand command realName =
      if (enclose realName.bytes).length < intMax
      then some (decompressCommand command (shellQuote realName)).bytes else none := by
  rw [decompressFromCommand, escapeShellArgString_eq]
  by_cases hreal : (enclose realName.bytes).length < intMax
  · rw [if_pos hreal, if_pos hreal]
    simp only [Option.bind_eq_bind, Option.bind_some, string_enclose, decompressCommand,
      CString.bytes_append, shellQuote_bytes]
    rfl
  · rw [if_neg hreal, if_neg hreal]
    rfl

theorem lex_decompressTo {ts : List Token} (h : lex command.bytes = some ts) :
    lex (command.bytes ++ [32] ++
        (enclose realName.bytes ++ ([32, 62, 32] ++ enclose tmpName.bytes))) =
      some (ts ++ [.word (quoted realName.bytes), .op [62], .word (quoted tmpName.bytes)]) := by
  have hto : lexFrom .between [32, 62, 32] = some ([.op [62]], .between) := by decide
  have hnil : EndsWord [] := fun c hc => by cases hc
  have hlast := lex_enclose hto rfl tmpName.bytes hnil
  rw [List.append_nil, show lex [] = some [] from rfl] at hlast
  rw [lex_enclose (lexFrom_blank h) rfl realName.bytes
    (endsWord_append (c := 32) rfl (by decide) (enclose tmpName.bytes)), hlast]
  simp

theorem parse_decompressTo {w : Shell.Word} {ws : List Shell.Word} (h : IsCommand command w ws) :
    parse (command.bytes ++ [32] ++
        (enclose realName.bytes ++ ([32, 62, 32] ++ enclose tmpName.bytes))) =
      some [⟨w :: ws ++ [quoted realName.bytes], [([62], quoted tmpName.bytes)]⟩] := by
  have hadd : addWord .empty w = some ⟨[w], []⟩ := if_pos (Or.inr h.named)
  have hfold := foldlM_words (ws ++ [quoted realName.bytes]) [] ⟨[w], []⟩ (List.cons_ne_nil _ _)
  rw [parse, lex_decompressTo command realName tmpName h.words, Option.bind_some]
  have hts : (w :: ws).map Token.word ++
      [.word (quoted realName.bytes), .op [62], .word (quoted tmpName.bytes)] =
        (.word w :: (ws ++ [quoted realName.bytes]).map .word) ++
          [.op [62], .word (quoted tmpName.bytes)] := by simp
  rw [hts, List.foldlM_append, List.foldlM_cons, parseStep, ParseState.start]
  simp only [hadd, Option.map_some, Option.bind_eq_bind, Option.bind_some, hfold]
  rfl

end Commands

/-- The later releases: no store misses the buffer and none of it is left out; the two commands
are run, unless a length is no `int`, with the names as one argument and as the target of the
one redirection, whatever is in them. -/
theorem escape_shell_arg_one_word {command : CString} {w : Shell.Word} {ws : List Shell.Word}
    (h : IsCommand command w ws) (realName tmpName : CString) :
    (∀ b, escapeShellArgString realName = some b → none ∉ b ∧
      Buffer.string b = some (enclose realName.bytes)) ∧
    ((escapeShellArgString realName).isSome ↔ (enclose realName.bytes).length < intMax) ∧
    (∀ cmd, decompressToCommand command realName tmpName = some cmd →
      parse cmd = some [⟨w :: ws ++ [quoted realName.bytes], [([62], quoted tmpName.bytes)]⟩]) ∧
    ((decompressToCommand command realName tmpName).isSome ↔ command.strlen +
      (enclose realName.bytes).length + (enclose tmpName.bytes).length + 4 < intMax) ∧
    (∀ cmd, decompressFromCommand command realName = some cmd →
      parse cmd = some [⟨w :: ws ++ [quoted realName.bytes], []⟩]) ∧
    Shell.Word.field? (quoted realName.bytes) = some realName.bytes := by
  refine ⟨?_, ?_, ?_, ?_, ?_, field?_quoted _⟩
  · intro b hb
    rw [escapeShellArgString_eq, Option.ite_none_right_eq_some] at hb
    obtain ⟨-, hb⟩ := hb
    cases hb
    exact ⟨by simp, string_enclose realName⟩
  · rw [escapeShellArgString_eq]
    split <;> simp_all
  · intro cmd hcmd
    rw [decompressToCommand_eq, Option.ite_none_right_eq_some] at hcmd
    obtain ⟨-, hcmd⟩ := hcmd
    cases hcmd
    exact parse_decompressTo command realName tmpName h
  · rw [decompressToCommand_eq]
    split <;> simp_all
  · intro cmd hcmd
    rw [decompressFromCommand_eq, Option.ite_none_right_eq_some] at hcmd
    obtain ⟨-, hcmd⟩ := hcmd
    cases hcmd
    exact parse_decompressCommand command realName h

theorem escape_shell_arg_one_word_evil :
    let evil : CString := .lit "a'; $(rm) > `b`"
    (∀ b, escapeShellArgString evil = some b → none ∉ b ∧
      Buffer.string b = some (enclose evil.bytes)) ∧
    ((escapeShellArgString evil).isSome ↔ (enclose evil.bytes).length < intMax) ∧
    (∀ cmd, decompressToCommand (.lit "gzip -d -c") evil evil = some cmd →
      parse cmd = some [⟨literal "gzip" :: [literal "-d", literal "-c"] ++ [quoted evil.bytes],
        [([62], quoted evil.bytes)]⟩]) ∧
    ((decompressToCommand (.lit "gzip -d -c") evil evil).isSome ↔ (CString.lit "gzip -d -c").strlen +
      (enclose evil.bytes).length + (enclose evil.bytes).length + 4 < intMax) ∧
    (∀ cmd, decompressFromCommand (.lit "gzip -d -c") evil = some cmd →
      parse cmd = some [⟨literal "gzip" :: [literal "-d", literal "-c"] ++ [quoted evil.bytes], []⟩]) ∧
    Shell.Word.field? (quoted evil.bytes) = some evil.bytes := by
  intro evil
  exact escape_shell_arg_one_word ⟨by decide, by decide⟩ evil evil

/-- The example of the source. -/
example : escapeShellArgString (.lit "'test.txt") = some ((CString.lit "''\\''test.txt'").bytes.map some ++ [some 0]) := by
  decide

end PkgsrcPatches.Emacs
