import PkgsrcPatches.Flim.LexerTurns

/-! `std11-lexical-analyze` where the CCL program is usable and its output finds room. -/
namespace PkgsrcPatches.Flim
open Lib Lib.Ccl

/-- `std11-lexical-analyze` without an analyzer or a start of the caller's; `n` turns and nested
calls at most. Where the program fails, the analysis in Lisp takes its place. -/
def lexicalAnalyze (lisp : List Char → Sexp) (n : Nat) (string : List Char) : Option Sexp := do
  let text ← cclLexicalAnalyzer.run n string
  let ret ← Sexp.read n text
  return if ret.1.cdr = .nil then lisp string else ret.1.car

variable {string : List Char} {ts : List Token} {k : Kind} {s : State}

/-! ### The program -/

theorem ends_eofBlock (hs : At ts [] s) : Ends cclLexicalAnalyzer.eof s fun f s' =>
    f = .next ∧ s'.output = '(' :: '(' :: (shown ts ++ [')', ' ', '.', ' ', 't', ')']) := by
  have hout := hs.output
  refine ends_seq (ends_branch (k := 1) hs.any rfl ?_)
  by_cases hm : modeOf ts = 0
  · refine ends_branch (k := 0) (hs.mode.trans (by rw [hm])) rfl ?_
    refine ends_writeText (then_next (ends_skip ⟨rfl, ?_⟩))
    rw [pending, if_pos hm, List.append_nil] at hout
    rw [State.put, hout]
    rfl
  · have hle := modeOf_le ts
    rw [pending, if_neg hm] at hout
    have hblock : Ends (.writeText (closing ++ [')', ' ', '.', ' ', 't', ')'])) s
        (Then .skip fun f s' => f = .next ∧
          s'.output = '(' :: '(' :: (shown ts ++ [')', ' ', '.', ' ', 't', ')'])) := by
      refine ends_writeText (then_next (ends_skip ⟨rfl, ?_⟩))
      rw [State.put, ← List.append_assoc, hout]
      rfl
    obtain hone | htwo : modeOf ts = 1 ∨ modeOf ts = 2 := by omega
    · exact ends_branch (k := 1) (hs.mode.trans (by rw [hone])) rfl hblock
    · exact ends_branch (k := 2) (hs.mode.trans (by rw [htwo])) rfl hblock

theorem ends_eofBlock_within {b : List Char} (hs : Within ts k b s) :
    Ends cclLexicalAnalyzer.eof s fun f s' =>
      f = .next ∧ s'.output = '(' :: '(' :: (shown (ts ++ [⟨k, b⟩]) ++ [')', ')']) := by
  have hblock : Ends (.writeText (closing ++ [')', ')'])) s (Then .skip fun f s' => f = .next ∧
      s'.output = '(' :: '(' :: (shown (ts ++ [⟨k, b⟩]) ++ [')', ')'])) := by
    refine ends_writeText (then_next (ends_skip ⟨rfl, ?_⟩))
    rw [State.put, hs.output, shown_concat, Token.shown]
    simp
  refine ends_seq (ends_branch (k := 1) hs.any rfl ?_)
  cases hs.mode with
  | inl h => exact ends_branch (k := 3) h rfl hblock
  | inr h => exact ends_branch (k := 4) h rfl hblock

/-- What the program writes, by what there is in the string. -/
inductive Written (string : List Char) : List Char → Prop where
  | nil (h : string = []) : Written string ['(', 'n', 'i', 'l', ' ', '.', ' ', 't', ')']
  | tokens {ts : List Token} (hts : Tokens ts) (hsource : source ts = string) :
    Written string ('(' :: '(' :: (shown ts ++ [')', ' ', '.', ' ', 't', ')']))
  | cut {ts : List Token} {k : Kind} {b : List Char} (h : Cut string ts k b) :
    Written string ('(' :: '(' :: (shown (ts ++ [⟨k, b⟩]) ++ [')', ')']))

theorem run_written (string : List Char) : ∃ text, Written string text ∧
    ∃ N, ∀ n, N ≤ n → cclLexicalAnalyzer.run n string = some text := by
  cases string with
  | nil =>
    refine ⟨_, .nil rfl, run_eof (ends_set_seq (ends_seq (ends_read_nil rfl ⟨rfl, ?_⟩)))⟩
    exact ends_seq (ends_branch (k := 0) rfl rfl (ends_writeText (then_next (ends_skip ⟨rfl, rfl⟩))))
  | cons c w =>
    have hmain : Ends cclLexicalAnalyzer.main ⟨fun _ => 0, c :: w, []⟩ fun f s => f = .eof ∧
        Ended (c :: w) s := by
      refine ends_set_seq (ends_seq (ends_read_cons rfl (then_next ?_)))
      refine ends_set_seq (ends_writeText_seq ?_)
      have hsource : source [] ++ c :: w = c :: w := rfl
      refine ends_seq ((ends_lexLoop tokens_nil hsource ⟨rfl, rfl, rfl, rfl⟩ rfl).mono ?_)
      intro f s h
      obtain ⟨rfl, h⟩ := h
      exact ⟨rfl, h⟩
    obtain ⟨n, f, s, -, ⟨rfl, hended⟩, hrun⟩ := hmain.enough
    have hfrom : ∀ {text}, Ends cclLexicalAnalyzer.eof s (fun f s => f = .next ∧ s.output = text) →
        ∃ N, ∀ n, N ≤ n → cclLexicalAnalyzer.run n (c :: w) = some text := by
      intro text heof
      exact run_eof (ends_of_exec (hrun n (Nat.le_refl n)) (by simp) ⟨rfl, heof⟩)
    obtain ⟨ts, hts, hsource, hat⟩ | ⟨ts, k, b, hcut, hwithin⟩ := hended
    · exact ⟨_, .tokens hts hsource, hfrom (ends_eofBlock hat)⟩
    · exact ⟨_, .cut hcut, hfrom (ends_eofBlock_within hwithin)⟩

/-! ### What is read of it -/

theorem readsTail_t :
    Sexp.ReadsTail [' ', '.', ' ', 't', ')'] (.symbol ['t']) [] := by
  have hdelimits : ∀ c ∈ ['t'], Sexp.delimits c = false := List.forall_mem_singleton.mpr rfl
  have ht : Sexp.Reads (['t'] ++ [')']) (.symbol ['t']) [')'] :=
    Sexp.reads_symbol (by simp) hdelimits rfl
  exact Sexp.readsTail_blank (c := ' ') rfl (Sexp.readsTail_dot ht)

theorem reads_tokens (ts : List Token) :
    Sexp.Reads ('(' :: '(' :: (shown ts ++ [')', ' ', '.', ' ', 't', ')']))
      (.cons (Sexp.ofList (ts.map Token.sexp)) (.symbol ['t'])) [] :=
  Sexp.reads_list (Sexp.readsTail_cons rfl (by decide) (by decide)
    (Sexp.reads_list (shown_reads ts [' ', '.', ' ', 't', ')'])) readsTail_t)

theorem reads_cut (ts : List Token) : Sexp.Reads ('(' :: '(' :: (shown ts ++ [')', ')']))
    (.cons (Sexp.ofList (ts.map Token.sexp)) .nil) [] :=
  Sexp.reads_list (Sexp.readsTail_cons rfl (by decide) (by decide)
    (Sexp.reads_list (shown_reads ts [')'])) (Sexp.readsTail_nil []))

theorem reads_nil : Sexp.Reads ['(', 'n', 'i', 'l', ' ', '.', ' ', 't', ')']
    (.cons .nil (.symbol ['t'])) [] := by
  have hdelimits : ∀ c ∈ ['n', 'i', 'l'], Sexp.delimits c = false := by
    simp only [List.forall_mem_cons]
    exact ⟨rfl, rfl, rfl, List.forall_mem_nil _⟩
  have hnil : Sexp.Reads (['n', 'i', 'l'] ++ [' ', '.', ' ', 't', ')']) .nil
      [' ', '.', ' ', 't', ')'] :=
    Sexp.reads_symbol (by simp) hdelimits rfl
  exact Sexp.reads_list (Sexp.readsTail_cons rfl (by decide) (by decide) hnil readsTail_t)

theorem lexicalAnalyze_of (lisp : List Char → Sexp) {text : List Char} {v : Sexp}
    (hrun : ∃ N, ∀ n, N ≤ n → cclLexicalAnalyzer.run n string = some text)
    (hread : Sexp.Reads text v []) : ∃ N, ∀ n, N ≤ n →
      lexicalAnalyze lisp n string = some (if v.cdr = .nil then lisp string else v.car) := by
  obtain ⟨N, hrun⟩ := hrun
  obtain ⟨N', hread⟩ := hread
  refine ⟨max N N', ?_⟩
  intro n hn
  rw [lexicalAnalyze, hrun n (by omega)]
  simp only [Option.bind_eq_bind, Option.bind_some, hread n (by omega)]
  rfl

theorem Cut.rest {b : List Char} (h : Cut string ts k b) :
    ∃ x, x ≠ [] ∧ Rest x ∧ source ts ++ x = string := by
  obtain ⟨-, o, c, hmarks, hsource, hopen⟩ := h
  exact ⟨o :: b, by simp, Or.inr ⟨k, o, c, b, hmarks, hopen, rfl⟩, hsource⟩

/-- Where all that is opened is closed, the tokens are what the program finds, and Lisp is not
asked; where it is not, only Lisp is. -/
theorem lexicalAnalyze_tokens (lisp : List Char → Sexp) (string : List Char) :
    ∃ N, ∀ n, N ≤ n → ∃ v, lexicalAnalyze lisp n string = some v ∧
      (∀ ts, Tokens ts → source ts = string → v = Sexp.ofList (ts.map Token.sexp)) ∧
      ((∀ ts, Tokens ts → source ts ≠ string) →
        v = lisp string ∧ ∃ ts k b, Cut string ts k b) := by
  obtain ⟨text, hwritten, hrun⟩ := run_written string
  cases hwritten with
  | nil h =>
    obtain ⟨N, hanalyze⟩ := lexicalAnalyze_of lisp hrun reads_nil
    refine ⟨N, fun n hn => ⟨_, hanalyze n hn, ?_, ?_⟩⟩
    · intro ts hts hsource
      obtain ⟨rfl, -⟩ := tokens_unique hts tokens_nil (Or.inl rfl) (hsource.trans h)
      rfl
    · intro hnone
      exact absurd h.symm (hnone [] tokens_nil)
  | tokens hts hsource =>
    obtain ⟨N, hanalyze⟩ := lexicalAnalyze_of lisp hrun (reads_tokens _)
    refine ⟨N, fun n hn => ⟨_, hanalyze n hn, ?_, ?_⟩⟩
    · intro ts' hts' hsource'
      have heq := hsource'.trans (hsource.symm.trans (List.append_nil _).symm)
      obtain ⟨rfl, -⟩ := tokens_unique hts' hts (Or.inl rfl) heq
      rfl
    · intro hnone
      exact absurd hsource (hnone _ hts)
  | cut h =>
    obtain ⟨N, hanalyze⟩ := lexicalAnalyze_of lisp hrun (reads_cut _)
    refine ⟨N, fun n hn => ⟨_, hanalyze n hn, ?_, fun _ => ⟨rfl, _, _, _, h⟩⟩⟩
    intro ts' hts' hsource'
    obtain ⟨x, hne, hx, hcut⟩ := h.rest
    obtain ⟨-, hnil⟩ := tokens_unique hts' h.1 hx (hsource'.trans hcut.symm)
    exact absurd hnil hne

end PkgsrcPatches.Flim
