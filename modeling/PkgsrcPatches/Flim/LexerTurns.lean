import PkgsrcPatches.Flim.LexerRuns
import PkgsrcPatches.Flim.Unique

/-! The turns of the program's loop, and what there is between them: the tokens that have been
read and what is written for them. -/
namespace PkgsrcPatches.Flim
open Lib Lib.Ccl

/-! ### The tokens so far -/

def Kind.mode : Kind → Nat
  | atom => 1
  | spaces => 2
  | _ => 0

def modeOf (ts : List Token) : Nat := (ts.getLast?.map fun t => t.kind.mode).getD 0

/-- What is still to be written of the last token. -/
def pending (m : Nat) : List Char := if m = 0 then [] else closing

variable {ts : List Token} {t : Token} {k : Kind} {cur : List Char}

theorem modeOf_concat : modeOf (ts ++ [t]) = t.kind.mode := by simp [modeOf]

theorem Kind.mode_inj {k k' : Kind} (hk : k.mode ≠ 0) (h : k'.mode = k.mode) : k' = k := by
  cases k <;> cases k' <;> simp_all [Kind.mode]

theorem Kind.mode_le (k : Kind) : k.mode ≤ 2 := by cases k <;> decide

theorem modeOf_le (ts : List Token) : modeOf ts ≤ 2 := by
  obtain rfl | ⟨l, t, rfl⟩ := List.eq_nil_or_concat' ts
  · decide
  · rw [modeOf_concat]
    exact t.kind.mode_le

theorem eq_concat_of_modeOf (hk : k.mode ≠ 0) (h : modeOf ts = k.mode) :
    ∃ l cur, ts = l ++ [⟨k, cur⟩] := by
  obtain rfl | ⟨l, t, rfl⟩ := List.eq_nil_or_concat' ts
  · exact absurd h.symm hk
  · obtain ⟨k', cur⟩ := t
    rw [modeOf_concat] at h
    obtain rfl := Kind.mode_inj hk h
    exact ⟨l, cur, rfl⟩

theorem Tokens.concat (h : Tokens ts) (hwf : t.Wf)
    (hmode : t.kind.mode = 0 ∨ modeOf ts ≠ t.kind.mode) : Tokens (ts ++ [t]) where
  wf t' ht' := by
    cases List.mem_append.mp ht' with
    | inl ht' => exact h.wf t' ht'
    | inr ht' => exact List.mem_singleton.mp ht' ▸ hwf
  apart := by
    refine List.isChain_append.mpr ⟨h.apart, List.isChain_singleton t, ?_⟩
    intro l hl t' ht' hkind
    obtain rfl : t = t' := by simpa using ht'
    have hlast : modeOf ts = t.kind.mode := by
      rw [modeOf, Option.mem_def.mp hl, ← hkind]
      rfl
    have hzero : l.kind.mode = 0 := by
      rw [hkind]
      exact hmode.resolve_right fun hne => hne hlast
    constructor <;> intro he <;> rw [he] at hzero <;> exact absurd hzero (by decide)

theorem Tokens.more (h : Tokens (ts ++ [⟨k, cur⟩])) {cur' : List Char} (hwf : Token.Wf ⟨k, cur'⟩) :
    Tokens (ts ++ [⟨k, cur'⟩]) where
  wf t ht := by
    cases List.mem_append.mp ht with
    | inl ht => exact h.wf t (List.mem_append_left _ ht)
    | inr ht => exact List.mem_singleton.mp ht ▸ hwf
  apart := by
    obtain ⟨hts, -, hlast⟩ := List.isChain_append.mp h.apart
    refine List.isChain_append.mpr ⟨hts, List.isChain_singleton _, ?_⟩
    intro l hl t ht
    obtain rfl : (⟨k, cur'⟩ : Token) = t := by simpa using ht
    exact hlast l hl ⟨k, cur⟩ rfl

/-! ### One turn of the loop -/

/-- Where the tokens have been read and `w` is ahead: all of them are written, save that a token
that may go on is not closed. -/
structure At (ts : List Token) (w : List Char) (s : State) : Prop where
  any : s.reg 1 = 1
  mode : s.reg 2 = modeOf ts
  input : s.input = w
  output : s.output ++ pending (modeOf ts) = '(' :: '(' :: shown ts

/-- The same with all tokens closed, whatever `r2` says. -/
structure Between (ts : List Token) (w : List Char) (s : State) : Prop where
  any : s.reg 1 = 1
  input : s.input = w
  output : s.output = '(' :: '(' :: shown ts

structure Within (ts : List Token) (k : Kind) (b : List Char) (s : State) : Prop where
  any : s.reg 1 = 1
  mode : s.reg 2 = 3 ∨ s.reg 2 = 4
  output : s.output = '(' :: '(' :: (shown ts ++ (k.opening ++ Sexp.escape b))

def Cut (string : List Char) (ts : List Token) (k : Kind) (b : List Char) : Prop :=
  Tokens ts ∧ ∃ o c, k.marks = some (o, c) ∧ source ts ++ o :: b = string ∧ k.Unclosed b

def Ended (string : List Char) (s : State) : Prop :=
  (∃ ts, Tokens ts ∧ source ts = string ∧ At ts [] s) ∨ ∃ ts k b, Cut string ts k b ∧ Within ts k b s

/-- A character has been read and nothing done with it. -/
structure Current (c : Char) (s : State) : Prop where
  reg : s.reg 0 = c.toNat

/-- Where a turn leads that leaves less than `n` ahead. -/
def Next (string : List Char) (n : Nat) : Flow → State → Prop
  | .rep, s => ∃ ts c w, Tokens ts ∧ source ts ++ c :: w = string ∧ w.length < n ∧ At ts w s ∧
      Current c s
  | .eof, s => Ended string s
  | _, _ => False

variable {string w : List Char} {n : Nat} {s : State} {c : Char} {q : Stmt}

theorem next_then {f : Flow} (h : Next string n f s) : Then q (Next string n) f s := by
  cases f with
  | next => exact h.elim
  | brk | rep | eof | spin => exact h

theorem ends_next (hts : Tokens ts) (hsource : source ts ++ w = string) (hat : At ts w s)
    (hn : w.length ≤ n) (hq : ∀ s Q, Q Flow.rep s → Ends q s Q) :
    Ends (.seq (.read 0) q) s (Next string n) := by
  cases w with
  | nil =>
    rw [List.append_nil] at hsource
    exact ends_seq (ends_read_nil hat.input (Or.inl ⟨ts, hts, hsource, hat⟩))
  | cons c w =>
    refine ends_seq (ends_read_cons hat.input (hq _ _ ?_))
    exact ⟨ts, c, w, hts, hsource, hn, ⟨hat.any, hat.mode, rfl, hat.output⟩, ⟨rfl⟩⟩

theorem ends_fresh (hk : k.mode ≠ 0) (hc : s.reg 0 = c.toNat) (hplain : Sexp.escapeChar c = [c])
    (hts : Tokens (ts ++ [⟨k, [c]⟩])) (hsource : source (ts ++ [⟨k, [c]⟩]) ++ w = string)
    (hs : Between ts w s) (hn : w.length ≤ n) :
    Ends (block [.set 2 (.int k.mode), .writeText k.opening, writeReadRepeat 0]) s (Next string n) := by
  refine ends_set_seq (ends_writeText_seq (ends_seq ?_))
  refine ends_seq (ends_write (c := c) hc ?_)
  refine (ends_next hts hsource ?_ hn fun s Q h => ends_rep h).mono fun f s h => next_then h
  refine ⟨hs.any, ?_, hs.input, ?_⟩
  · rw [modeOf_concat]
    rfl
  · have hesc : Sexp.escape [c] = [c] := by simp [Sexp.escape, hplain]
    rw [modeOf_concat, pending, if_neg hk, shown_concat, Token.shown, hesc]
    simp [State.put, State.set, hs.output]

theorem ends_more (hk : k.mode ≠ 0) (hc : s.reg 0 = c.toNat) (hplain : Sexp.escapeChar c = [c])
    (hts : Tokens (ts ++ [⟨k, cur ++ [c]⟩])) (hsource : source (ts ++ [⟨k, cur ++ [c]⟩]) ++ w = string)
    (hs : At (ts ++ [⟨k, cur⟩]) w s) (hn : w.length ≤ n) :
    Ends (writeReadRepeat 0) s (Next string n) := by
  have hout := hs.output
  rw [modeOf_concat, pending, if_neg hk, shown_concat, Token.shown, ← List.append_assoc,
    ← List.append_assoc, ← List.cons_append, ← List.cons_append] at hout
  have hcut := List.append_cancel_right hout
  refine ends_seq (ends_write (c := c) hc ?_)
  refine ends_next hts hsource ⟨hs.any, ?_, hs.input, ?_⟩ hn fun s Q h => ends_rep h
  · have hmode := hs.mode
    rw [modeOf_concat] at hmode ⊢
    exact hmode
  · have hesc : Sexp.escape (cur ++ [c]) = Sexp.escape cur ++ [c] := by
      rw [escape_append, escape_cons, hplain]
      rfl
    rw [modeOf_concat, pending, if_neg hk, shown_concat, Token.shown, hesc]
    simp [State.put, hcut]

theorem At.between (h : At ts w s) (hm : modeOf ts = 0) : Between ts w s := by
  refine ⟨h.any, h.input, ?_⟩
  have hout := h.output
  rw [pending, if_pos hm, List.append_nil] at hout
  exact hout

theorem At.closed (h : At ts w s) (hm : modeOf ts ≠ 0) : Between ts w (s.put closing) := by
  refine ⟨h.any, h.input, ?_⟩
  have hout := h.output
  rw [pending, if_neg hm] at hout
  exact hout

theorem ends_running {blocks : List Stmt} (hk : k.mode ≠ 0)
    (hnew : blocks[0]? =
      some (block [.set 2 (.int k.mode), .writeText k.opening, writeReadRepeat 0]))
    (hmore : blocks[k.mode]? = some (writeReadRepeat 0))
    (hother : ∀ m, m ≠ 0 → m ≤ 2 → m ≠ k.mode → blocks[m]? = some (block [.writeText closing,
      .set 2 (.int k.mode), .writeText k.opening, writeReadRepeat 0]))
    (hwf : ∀ cur, cur = [] ∨ Token.Wf ⟨k, cur⟩ → Token.Wf ⟨k, cur ++ [c]⟩)
    (hmarks : k.marks = none) (hplain : Sexp.escapeChar c = [c]) (hts : Tokens ts)
    (hsource : source ts ++ c :: w = string) (hs : At ts w s) (hc : s.reg 0 = c.toNat)
    (hn : w.length ≤ n) : Ends (branchOf (.reg 2) blocks) s (Next string n) := by
  have hnewWf : Token.Wf ⟨k, [c]⟩ := hwf [] (Or.inl rfl)
  have hnewSource : source (ts ++ [⟨k, [c]⟩]) ++ w = string := by
    rw [← hsource, source_concat, Token.source, hmarks, List.append_assoc]
    rfl
  by_cases hm : modeOf ts = k.mode
  · obtain ⟨l, cur, rfl⟩ := eq_concat_of_modeOf hk hm
    have hcurWf : Token.Wf ⟨k, cur⟩ := hts.wf _ (by simp)
    refine ends_branch (k := k.mode) (hs.mode.trans (by rw [hm])) hmore ?_
    refine ends_more hk hc hplain (hts.more (hwf cur (Or.inr hcurWf))) ?_ hs hn
    rw [← hsource, source_concat, source_concat, Token.source, Token.source, hmarks]
    simp
  · have hnewTokens : Tokens (ts ++ [⟨k, [c]⟩]) := hts.concat hnewWf (Or.inr hm)
    by_cases hzero : modeOf ts = 0
    · refine ends_branch (k := 0) (hs.mode.trans (by rw [hzero])) hnew ?_
      exact ends_fresh hk hc hplain hnewTokens hnewSource (hs.between hzero) hn
    · refine ends_branch (k := modeOf ts) hs.mode (hother _ hzero (modeOf_le ts) hm) ?_
      exact ends_writeText_seq (ends_fresh hk hc hplain hnewTokens hnewSource (hs.closed hzero) hn)

theorem ends_close {p : Stmt} {Q : Flow → State → Prop} (hs : At ts w s)
    (hp : modeOf ts ≠ 0 → Ends p s Q) (hskip : modeOf ts = 0 → Q .next s) :
    Ends (.ite (.reg 2) p .skip) s Q := by
  have hval : (Expr.reg 2).eval s.reg = modeOf ts := hs.mode
  by_cases hm : modeOf ts = 0
  · exact ends_ite_false (by rw [hval, hm]; rfl) (ends_skip (hskip hm))
  · exact ends_ite_true (by rw [hval]; exact Int.natCast_ne_zero.mpr hm) (hp hm)

theorem ends_spc (hwf : Token.Wf ⟨.specials, [c]⟩) (hts : Tokens ts)
    (hsource : source ts ++ c :: w = string) (hs : At ts w s) (hc : s.reg 0 = c.toNat)
    (hn : w.length ≤ n) : Ends spc s (Next string n) := by
  have hnew : Tokens (ts ++ [⟨.specials, [c]⟩]) := hts.concat hwf (Or.inl rfl)
  have hrest : ∀ s', Between ts w s' → s'.reg 0 = c.toNat → s'.reg 2 = 0 →
      Ends (block [.writeText Kind.specials.opening, wrt, .writeText closing, .read 0, .rep]) s'
        (Next string n) := by
    intro s' hs' hc' hmode
    refine ends_writeText_seq (ends_seq (ends_wrt hc' (ends_writeText_seq ?_)))
    refine ends_next hnew ?_ ⟨hs'.any, ?_, hs'.input, ?_⟩ hn fun s Q h => ends_seq (ends_rep h)
    · rw [← hsource, source_concat, List.append_assoc]
      rfl
    · rw [modeOf_concat]
      exact hmode
    · rw [modeOf_concat, shown_concat, Token.shown]
      simp [State.put, hs'.output, pending, Kind.mode, Sexp.escape]
  refine ends_seq (ends_close hs (fun hm => ?_) fun hm => ?_)
  · refine ends_writeText_seq (ends_set_seq (ends_skip ?_))
    have hbetween := hs.closed hm
    exact hrest _ ⟨hbetween.any, hbetween.input, hbetween.output⟩ hc rfl
  · exact hrest s (hs.between hm) hc (by rw [hs.mode, hm]; rfl)

theorem ends_closing {b : List Char} (hk : k.mode = 0) (hwf : Token.Wf ⟨k, b⟩) (hts : Tokens ts)
    (hsource : source ts ++ (Token.source ⟨k, b⟩ ++ w) = string) (hs : Within ts k b s)
    (hinput : s.input = w) (hn : w.length ≤ n) :
    Ends (block [.writeText closing, .set 2 (.int 0), .read 0, .rep]) s (Next string n) := by
  refine ends_writeText_seq (ends_set_seq ?_)
  refine ends_next (hts.concat hwf (Or.inl hk)) ?_ ⟨hs.any, ?_, hinput, ?_⟩ hn
    fun s Q h => ends_seq (ends_rep h)
  · rw [← hsource, source_concat, List.append_assoc]
  · rw [modeOf_concat, hk]
    rfl
  · rw [modeOf_concat, hk, shown_concat, Token.shown]
    simp [State.put, State.set, hs.output, pending]

theorem ends_enc {tag o : Char} (hk : k.marks = some (o, tag)) (hmode : k.mode = 0)
    (hwf : ∀ b, Token.Wf ⟨k, b⟩ ↔ Body tag b)
    (hcut : ∀ b e, Body tag b → (e = [] ∨ e = ['\\']) → k.Unclosed (b ++ e)) (hts : Tokens ts)
    (hsource : source ts ++ o :: w = string) (hs : At ts w s) (hn : w.length ≤ n) :
    Ends (enc k tag) s (Next string n) := by
  have hrest : ∀ s', Between ts w s' →
      Ends (block [.writeText k.opening, .set 2 (.int 3), .loop (encBody tag), .writeText closing,
        .set 2 (.int 0), .read 0, .rep]) s' (Next string n) := by
    intro s' hs'
    refine ends_writeText_seq (ends_set_seq (ends_seq (ends_encLoop hs'.input ?_ ?_)))
    · intro b rest s'' hw hb hwent hinput
      refine ends_closing hmode ((hwf b).mpr hb) hts ?_ ⟨hwent.any.trans hs'.any, ?_, ?_⟩ hinput ?_
      · rw [← hsource, hw, Token.source, hk]
        simp
      · exact Or.inl hwent.mode
      · rw [hwent.output]
        simp [State.put, State.set, hs'.output]
      · have hlen := congrArg List.length hw
        rw [List.length_append, List.length_cons] at hlen
        omega
    · intro b e s'' hw hb he hwent
      refine Or.inr ⟨ts, k, w, ⟨hts, o, tag, hk, hsource, ?_⟩, hwent.any.trans hs'.any,
        Or.inl hwent.mode, ?_⟩
      · rw [hw]
        exact hcut b e hb he
      · rw [hwent.output]
        simp [State.put, State.set, hs'.output]
  refine ends_seq (ends_close hs (fun hm => ends_writeText ?_) fun hm => ?_)
  · exact hrest _ (hs.closed hm)
  · exact hrest s (hs.between hm)

theorem ends_cm (hts : Tokens ts) (hsource : source ts ++ '(' :: w = string) (hs : At ts w s)
    (hn : w.length ≤ n) : Ends cm s (Next string n) := by
  have hrest : ∀ s', Between ts w s' →
      Ends (block [.writeText Kind.comment.opening, .set 2 (.int 4), .set 3 (.int 1), .loop cmBody,
        .writeText closing, .set 2 (.int 0), .read 0, .rep]) s' (Next string n) := by
    intro s' hs'
    refine ends_writeText_seq (ends_set_seq (ends_set_seq (ends_seq
      (ends_cmLoop (d := 0) hs'.input rfl ?_ ?_))))
    · intro b rest s'' hw hb hwent hinput
      refine ends_closing (k := .comment) rfl hb hts ?_ ⟨hwent.any.trans hs'.any, ?_, ?_⟩ hinput ?_
      · rw [← hsource, hw, Token.source]
        simp [Kind.marks]
      · exact Or.inr hwent.mode
      · rw [hwent.output]
        simp [State.put, State.set, hs'.output]
      · have hlen := congrArg List.length hw
        rw [List.length_append, List.length_cons] at hlen
        omega
    · intro b e d s'' hw hb he hwent
      refine Or.inr ⟨ts, .comment, w, ⟨hts, '(', ')', rfl, hsource, b, e, hw, he, d, hb⟩,
        hwent.any.trans hs'.any, Or.inr hwent.mode, ?_⟩
      rw [hwent.output]
      simp [State.put, State.set, hs'.output]
  refine ends_seq (ends_close hs (fun hm => ends_writeText ?_) fun hm => ?_)
  · exact hrest _ (hs.closed hm)
  · exact hrest s (hs.between hm)

/-! ### The table -/

theorem elts_at (hc : c.toNat < elts.length) : elts[c.toNat]? = some (eltOf c) := by
  have htable : ∀ i : Fin 94, elts[i.val]? = some (eltOf (Char.ofNat i.val)) := by decide
  have h := htable ⟨c.toNat, hc⟩
  rw [Char.ofNat_toNat] at h
  exact h

theorem eltOf_out (hc : elts.length ≤ c.toNat) : eltOf c = .atm := by
  have hlow : ∀ d ∈ spaceCharList ++ specialCharList, d.toNat < elts.length := by
    have hlen : elts.length = 94 := rfl
    simp [spaceCharList, specialCharList, hlen]
  have hout : ∀ d ∈ spaceCharList ++ specialCharList, c ≠ d := by
    intro d hd h
    have hlt := hlow d hd
    rw [← h] at hlt
    omega
  exact eltOf_atom (fun h => hout c (List.mem_append_left _ h) rfl)
    fun h => hout c (List.mem_append_right _ h) rfl

theorem chars_concat {P : Char → Prop} (hcur : cur = [] ∨ cur ≠ [] ∧ ∀ d ∈ cur, P d) (hc : P c) :
    cur ++ [c] ≠ [] ∧ ∀ d ∈ cur ++ [c], P d := by
  refine ⟨by simp, ?_⟩
  intro d hd
  cases List.mem_append.mp hd with
  | inl hd =>
    cases hcur with
    | inl h => exact absurd hd (h ▸ List.not_mem_nil)
    | inr h => exact h.2 d hd
  | inr hd => exact List.mem_singleton.mp hd ▸ hc

theorem ends_atm (hspace : c ∉ spaceCharList) (hspecial : c ∉ specialCharList) (hts : Tokens ts)
    (hsource : source ts ++ c :: w = string) (hs : At ts w s) (hc : s.reg 0 = c.toNat)
    (hn : w.length ≤ n) : Ends atm s (Next string n) := by
  have hq : c ≠ '"' := fun h => hspecial (h ▸ by decide)
  have hb : c ≠ '\\' := fun h => hspecial (h ▸ by decide)
  refine ends_running (k := .atom) (by decide) rfl rfl ?_ ?_ rfl (escape_plain hq hb) hts hsource
    hs hc hn
  · intro m hzero hle hm
    obtain rfl : m = 2 := by
      have hone : m ≠ 1 := hm
      omega
    rfl
  · intro cur hcur
    exact chars_concat hcur ⟨hspace, hspecial⟩

theorem ends_sp (hspace : c ∈ spaceCharList) (hts : Tokens ts)
    (hsource : source ts ++ c :: w = string) (hs : At ts w s) (hc : s.reg 0 = c.toNat)
    (hn : w.length ≤ n) : Ends sp s (Next string n) := by
  have hq : c ≠ '"' := by
    rintro rfl
    exact absurd hspace (by decide)
  have hb : c ≠ '\\' := by
    rintro rfl
    exact absurd hspace (by decide)
  refine ends_running (k := .spaces) (by decide) rfl rfl ?_ ?_ rfl (escape_plain hq hb) hts hsource
    hs hc hn
  · intro m hzero hle hm
    obtain rfl : m = 1 := by
      have htwo : m ≠ 2 := hm
      omega
    rfl
  · intro cur hcur
    exact chars_concat hcur hspace

theorem ends_elt (hts : Tokens ts) (hsource : source ts ++ c :: w = string) (hs : At ts w s)
    (hc : s.reg 0 = c.toNat) (hn : w.length ≤ n) : Ends (eltOf c).eval s (Next string n) := by
  by_cases hspace : c ∈ spaceCharList
  · rw [eltOf, if_pos hspace]
    exact ends_sp hspace hts hsource hs hc hn
  rw [eltOf, if_neg hspace]
  by_cases hq : c = '"'
  · rw [if_pos hq]
    rw [hq] at hsource
    exact ends_enc (k := .quotedString) rfl rfl (fun b => Iff.rfl)
      (fun b e hb he => ⟨b, e, rfl, he, hb⟩) hts hsource hs hn
  rw [if_neg hq]
  by_cases hp : c = '('
  · rw [if_pos hp]
    rw [hp] at hsource
    exact ends_cm hts hsource hs hn
  rw [if_neg hp]
  by_cases hd : c = '['
  · rw [if_pos hd]
    rw [hd] at hsource
    exact ends_enc (k := .domainLiteral) rfl rfl (fun b => Iff.rfl)
      (fun b e hb he => ⟨b, e, rfl, he, hb⟩) hts hsource hs hn
  rw [if_neg hd]
  by_cases hspecial : c ∈ specialCharList
  · rw [if_pos hspecial]
    exact ends_spc ⟨c, hspecial, hq, hd, hp, rfl⟩ hts hsource hs hc hn
  · rw [if_neg hspecial]
    exact ends_atm hspace hspecial hts hsource hs hc hn

theorem ends_lexBody (hts : Tokens ts) (hsource : source ts ++ c :: w = string) (hs : At ts w s)
    (hc : s.reg 0 = c.toNat) (hn : w.length ≤ n) : Ends lexBody s (Next string n) := by
  have helt := ends_elt hts hsource hs hc hn
  by_cases hin : c.toNat < elts.length
  · have hblock : (elts.map Elt.eval)[c.toNat]? = some (eltOf c).eval := by
      rw [List.getElem?_map, elts_at hin]
      rfl
    exact ends_seq (ends_branch hc hblock (helt.mono fun f s h => next_then h))
  · have hout := Nat.le_of_not_lt hin
    rw [eltOf_out hout] at helt
    refine ends_seq (ends_branch_out hc (by rw [List.length_map]; exact hout) ?_)
    exact ends_seq (helt.mono fun f s h => next_then h)

theorem ends_lexLoop (hts : Tokens ts) (hsource : source ts ++ c :: w = string) (hs : At ts w s)
    (hc : s.reg 0 = c.toNat) :
    Ends (.loop lexBody) s fun f s' => f = .eof ∧ Ended string s' := by
  induction hn : w.length using Nat.strong_induction_on generalizing ts c w s with
  | _ n ih =>
    refine ends_loop ((ends_lexBody hts hsource hs hc (Nat.le_of_eq hn)).mono ?_)
    intro f s' h
    cases f with
    | rep =>
      obtain ⟨ts', c', w', hts', hsource', hlt, hs', hc'⟩ := h
      exact ih _ hlt hts' hsource' hs' hc'.reg rfl
    | eof => exact ⟨rfl, h⟩
    | next | brk | spin => exact h.elim

end PkgsrcPatches.Flim
