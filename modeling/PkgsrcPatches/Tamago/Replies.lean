import PkgsrcPatches.Tamago.Anthyipc

/-! What the comments of `anthyipc.el` say the agent writes, and what the readers make of it. -/
namespace PkgsrcPatches.Tamago
open Lib.Pieces
variable {α β : Type}

structure Word where
  chars : List Char
  ne : chars ≠ []
  plain : ∀ c ∈ chars, c ≠ ' ' ∧ c ≠ '\n'

/-- `"<num-candidates> <converted> <yomi>"` -/
structure SegmentLine where
  numCandidates : Nat
  converted : Word
  yomi : Word

def SegmentLine.text (l : SegmentLine) : List Char :=
  decimal l.numCandidates ++ [' '] ++ l.converted.chars ++ [' '] ++ l.yomi.chars ++ ['\n']

structure Complaint where
  line : List Char
  oneLine : '\n' ∉ line
  plus : line.head? ≠ some '+'

inductive Reply where
  | ok
  | number (n : Nat)
  | segments (segNo numRemoved numInserted : Nat) (lines : List SegmentLine)
  | candidates (offset numCandidates : Nat) (words : List Word)
  | complaint (c : Complaint)

def Reply.text : Reply → List Char
  | ok => ['+', 'O', 'K', '\n']
  | number n => ['+', 'O', 'K', ' '] ++ decimal n ++ ['\n']
  | segments segNo numRemoved numInserted lines =>
    ['+', 'D', 'A', 'T', 'A', ' '] ++ decimal segNo ++ [' '] ++ decimal numRemoved ++ [' '] ++
      decimal numInserted ++ ['\n'] ++ lines.flatMap SegmentLine.text ++ ['\n']
  | candidates offset numCandidates words =>
    ['+', 'D', 'A', 'T', 'A', ' '] ++ decimal offset ++ [' '] ++ decimal numCandidates ++ ['\n'] ++
      words.flatMap (fun w => w.chars ++ ['\n']) ++ ['\n']
  | complaint c => c.line ++ ['\n']

def Reply.turns : Reply → Nat
  | segments _ _ _ lines => lines.length
  | candidates _ _ words => words.length
  | _ => 0

/-- The segments of an answer, the first of them with the number `i`. -/
def bunsetsuFrom (env : Nat) : Nat → List SegmentLine → List Bunsetsu
  | _, [] => []
  | i, l :: lines =>
    makeBunsetsu env l.yomi.chars l.converted.chars i :: bunsetsuFrom env (i + 1) lines

/-! ### Reading -/

theorem ipc_bind {x : Ipc α} {w w' : Incoming Char} {a : α} (h : x w = .ok a w') (f : α → Ipc β) :
    (x >>= f) w = f a w' := by
  change EStateM.bind x f w = _
  rw [EStateM.bind, h]

theorem waitLine_line {w : Incoming Char} {line rest : List Char}
    (h : w.all = line ++ '\n' :: rest) (hn : '\n' ∉ line) :
    ∃ t cs, waitLine w = .ok () ⟨line ++ '\n' :: t, cs⟩ ∧ t ++ cs.flatten = rest := by
  have hall : decide ('\n' ∈ w.text ++ w.arriving.flatten) = true := by
    change decide ('\n' ∈ w.all) = true
    simp [h]
  obtain ⟨w', hw'⟩ := await_comes (p := fun text => decide ('\n' ∈ text)) hall
  obtain ⟨hp, hall', -⟩ := await_some hw'
  have hmem : '\n' ∈ w'.text := by simpa using hp
  have hcut : w'.text ++ w'.arriving.flatten = line ++ '\n' :: rest := hall'.trans h
  have hwait : waitLine w = .ok () w' := by
    rw [waitLine, hw']
  obtain ⟨as, hline, -⟩ | ⟨bs, htext, hrest⟩ := List.append_eq_append_iff.mp hcut
  · exact absurd (hline ▸ List.mem_append_left as hmem) hn
  · cases bs with
    | nil =>
      rw [List.append_nil] at htext
      exact absurd (htext ▸ hmem) hn
    | cons c t =>
      rw [List.cons_append, List.cons.injEq] at hrest
      obtain ⟨rfl, rfl⟩ := hrest
      refine ⟨t, w'.arriving, ?_, rfl⟩
      rw [hwait, ← htext]

theorem forwardChar_le {n : Nat} {t : List Char} {cs : List (List Char)} (h : n ≤ t.length) :
    forwardChar n ⟨t, cs⟩ = .ok () ⟨t.drop n, cs⟩ := if_pos h

theorem forwardChar_next (c : Char) (t : List Char) (cs : List (List Char)) :
    forwardChar 1 ⟨c :: t, cs⟩ = .ok () ⟨t, cs⟩ := forwardChar_le (by simp)

theorem charAfter_pos {w : Incoming Char} {c : Char} {f g : Ipc α} (h : w.text.head? = some c) :
    (do if (← charAfter) = some c then f else g) w = f w := by
  have hchar : charAfter w = .ok (some c) w := by rw [charAfter, h]
  rw [ipc_bind hchar, if_pos rfl]

theorem charAfter_neg {w : Incoming Char} {c : Char} {f g : Ipc α} (h : w.text.head? ≠ some c) :
    (do if (← charAfter) = some c then f else g) w = g w := by
  have hchar : charAfter w = .ok w.text.head? w := rfl
  rw [ipc_bind hchar, if_neg h]

theorem decimal_all {n : Nat} {c : Char} (hc : c ∈ decimal n) :
    delimits c = false ∧ 32 < c.toNat ∧ c.isDigit = true := by
  have hdigit : c.isDigit = true := Nat.isDigit_of_mem_toDigits (by decide) (by decide) hc
  have hrange := Char.isDigit_iff_toNat.mp hdigit
  have h0 : '0'.toNat = 48 := rfl
  have h9 : '9'.toNat = 57 := rfl
  have hother : ("\"';()[]`,".toList.all fun e => e.toNat < 48 || 57 < e.toNat) = true := rfl
  refine ⟨?_, by omega, hdigit⟩
  simp only [delimits, Bool.or_eq_false_iff, decide_eq_false_iff_not, Nat.not_le,
    List.contains_eq_mem]
  refine ⟨by omega, ?_⟩
  intro hmem
  have hc' := List.all_eq_true.mp hother c hmem
  rw [Bool.or_eq_true, decide_eq_true_iff, decide_eq_true_iff] at hc'
  omega

theorem readNumber_blanks (blanks : List Char) (hb : ∀ c ∈ blanks, c.toNat ≤ 32) (n : Nat)
    {d : Char} (hd : d.toNat ≤ 32) (t : List Char) (cs : List (List Char)) :
    readNumber ⟨blanks ++ (decimal n ++ d :: t), cs⟩ = .ok n ⟨d :: t, cs⟩ := by
  have hne : decimal n ≠ [] := Nat.toDigits_ne_nil
  have htext : (blanks ++ (decimal n ++ d :: t)).dropWhile (fun c => decide (c.toNat ≤ 32)) =
      decimal n ++ d :: t := by
    rw [List.dropWhile_append_of_pos (by simpa using hb)]
    cases hx : decimal n with
    | nil => exact absurd hx hne
    | cons c l =>
      have hc := (decimal_all (n := n) (c := c) (by simp [hx])).2.1
      rw [List.cons_append, List.dropWhile_cons_of_neg (by simpa using hc)]
  have hstop : (!delimits d) = false := by simp [delimits, hd]
  have hgo : ∀ c ∈ decimal n, (!delimits c) = true := by
    intro c hc
    simp [(decimal_all hc).1]
  have htoken : (decimal n ++ d :: t).takeWhile (fun c => !delimits c) = decimal n := by
    rw [List.takeWhile_append_of_pos hgo, List.takeWhile_cons_of_neg (by simp [hstop]),
      List.append_nil]
  have hrest : (decimal n ++ d :: t).dropWhile (fun c => !delimits c) = d :: t := by
    rw [List.dropWhile_append_of_pos hgo, List.dropWhile_cons_of_neg (by simp [hstop])]
  have hall : (decimal n).all Char.isDigit = true := by
    rw [List.all_eq_true]
    exact fun c hc => (decimal_all hc).2.2
  simp only [readNumber, htext, htoken, hrest]
  rw [if_pos ⟨hne, hall⟩, decimal, Nat.ofDigitChars_toDigits (by decide) (by decide)]

theorem readNumber_decimal (n : Nat) {d : Char} (hd : d.toNat ≤ 32) (t : List Char)
    (cs : List (List Char)) : readNumber ⟨decimal n ++ d :: t, cs⟩ = .ok n ⟨d :: t, cs⟩ :=
  readNumber_blanks [] (by simp) n hd t cs

theorem readNumber_space (n : Nat) {d : Char} (hd : d.toNat ≤ 32) (t : List Char)
    (cs : List (List Char)) : readNumber ⟨' ' :: (decimal n ++ d :: t), cs⟩ = .ok n ⟨d :: t, cs⟩ :=
  readNumber_blanks [' '] (by simp) n hd t cs

theorem readWord_word (w : Word) {d : Char} (hd : d = ' ' ∨ d = '\n') (t : List Char)
    (cs : List (List Char)) :
    readWord ⟨w.chars ++ d :: t, cs⟩ = .ok w.chars ⟨d :: t, cs⟩ := by
  have hgo : ∀ c ∈ w.chars, (decide (c ≠ ' ') && decide (c ≠ '\n')) = true := by
    intro c hc
    simpa using w.plain c hc
  have hstop : ¬ (decide (d ≠ ' ') && decide (d ≠ '\n')) = true := by
    cases hd with
    | inl h => simp [h]
    | inr h => simp [h]
  have htake : (w.chars ++ d :: t).takeWhile (fun c => c ≠ ' ' && c ≠ '\n') = w.chars := by
    rw [List.takeWhile_append_of_pos hgo, List.takeWhile_cons_of_neg (by simpa using hstop),
      List.append_nil]
  have hdrop : (w.chars ++ d :: t).dropWhile (fun c => c ≠ ' ' && c ≠ '\n') = d :: t := by
    rw [List.dropWhile_append_of_pos hgo, List.dropWhile_cons_of_neg (by simpa using hstop)]
  simp only [readWord, htake, hdrop]

theorem readString_space (w : Word) {d : Char} (hd : d = ' ' ∨ d = '\n') (t : List Char)
    (cs : List (List Char)) :
    readString ⟨' ' :: (w.chars ++ d :: t), cs⟩ = .ok w.chars ⟨d :: t, cs⟩ :=
  readWord_word w hd t cs

theorem readString_word (w : Word) {d : Char} (hd : d = ' ' ∨ d = '\n') (t : List Char)
    (cs : List (List Char)) :
    readString ⟨w.chars ++ d :: t, cs⟩ = .ok w.chars ⟨d :: t, cs⟩ := by
  obtain ⟨c, l, hw⟩ := List.exists_cons_of_ne_nil w.ne
  have hc : c ≠ ' ' := (w.plain c (by simp [hw])).1
  have hchar : charAfter ⟨w.chars ++ d :: t, cs⟩ = .ok (some c) ⟨w.chars ++ d :: t, cs⟩ := by
    simp [charAfter, hw]
  rw [readString, ipc_bind hchar]
  rw [if_neg (by simpa using hc)]
  exact readWord_word w hd t cs

/-! ### One answer -/

theorem answer_plus {w w' : Incoming Char} {f g : Ipc α} (hwait : waitLine w = .ok () w')
    (hplus : w'.text.head? = some '+') :
    (do waitLine; if (← charAfter) = some '+' then f else g) w = f w' := by
  rw [ipc_bind hwait, charAfter_pos hplus]

theorem answer_complaint {w : Incoming Char} {c : Complaint}
    (h : w.all = (Reply.complaint c).text) :
    ∃ w', w'.arriving.flatten = [] ∧ ∀ f : Ipc α,
      (do waitLine; if (← charAfter) = some '+' then f else eggError) w =
        .error (.protocolError (c.line ++ ['\n'])) w' := by
  have hall : w.all = c.line ++ ['\n'] := h
  obtain ⟨t, cs, hwait, hrest⟩ := waitLine_line hall c.oneLine
  obtain ⟨rfl, hcs⟩ := List.append_eq_nil_iff.mp hrest
  refine ⟨⟨c.line ++ ['\n'], cs⟩, hcs, ?_⟩
  have hplus : (c.line ++ ['\n']).head? ≠ some '+' := by
    cases hl : c.line with
    | nil => simp
    | cons x l =>
      have := c.plus
      rw [hl] at this
      simpa using this
  intro f
  rw [ipc_bind hwait, charAfter_neg hplus]
  rfl

theorem acceptOk_ok {w : Incoming Char} (h : w.all = Reply.ok.text) :
    ∃ w', w'.arriving.flatten = [] ∧ acceptOk w = .ok () w' := by
  have hall : w.all = ['+', 'O', 'K'] ++ ['\n'] := h
  obtain ⟨t, cs, hwait, hrest⟩ := waitLine_line hall (by decide)
  refine ⟨⟨[], cs⟩, (List.append_eq_nil_iff.mp hrest).2, ?_⟩
  rw [acceptOk, answer_plus hwait rfl]
  rfl

theorem word_line (w : Word) : '\n' ∉ w.chars := fun h => (w.plain _ h).2 rfl

theorem decimal_line (n : Nat) : '\n' ∉ decimal n :=
  fun h => absurd (decimal_all h).2.1 (by decide)

theorem acceptNumber_number {w : Incoming Char} {n : Nat} (h : w.all = (Reply.number n).text) :
    ∃ w', w'.arriving.flatten = [] ∧ acceptNumber w = .ok n w' := by
  have hline : '\n' ∉ ['+', 'O', 'K', ' '] ++ decimal n := by simp [decimal_line]
  have hall : w.all = ['+', 'O', 'K', ' '] ++ decimal n ++ ['\n'] := h
  obtain ⟨t, cs, hwait, hrest⟩ := waitLine_line hall hline
  refine ⟨⟨[], cs⟩, (List.append_eq_nil_iff.mp hrest).2, ?_⟩
  have hskip : forwardChar 4 ⟨['+', 'O', 'K', ' '] ++ decimal n ++ '\n' :: t, cs⟩ =
      .ok () ⟨decimal n ++ '\n' :: t, cs⟩ := forwardChar_le (by simp)
  have hread := readNumber_decimal n (d := '\n') (by decide) t cs
  rw [acceptNumber, answer_plus hwait rfl, ipc_bind hskip, ipc_bind hread]
  rfl

theorem decimal_head (n : Nat) (t : List Char) : (decimal n ++ t).head? ≠ some '\n' := by
  obtain ⟨c, l, hn⟩ := List.exists_cons_of_ne_nil (Nat.toDigits_ne_nil (n := n) (b := 10))
  have hc := (decimal_all (n := n) (c := c) (by simp [decimal, hn])).2.1
  rw [decimal, hn, List.cons_append, List.head?_cons]
  intro h
  rw [Option.some.injEq] at h
  exact absurd (h ▸ hc) (by decide)

theorem segmentsLoop_lines (env : Nat) (lines : List SegmentLine) (i : Nat) (acc : List Bunsetsu)
    {t : List Char} {cs : List (List Char)}
    (h : t ++ cs.flatten = lines.flatMap SegmentLine.text ++ ['\n']) :
    ∃ t' cs', t' ++ cs'.flatten = [] ∧ ∀ n, lines.length < n →
      segmentsLoop env n i acc ⟨'\n' :: t, cs⟩ =
        .ok ((bunsetsuFrom env i lines).reverse ++ acc) ⟨'\n' :: t', cs'⟩ := by
  induction lines generalizing i acc t cs with
  | nil =>
    have hall : (Incoming.mk t cs).all = [] ++ ['\n'] := h
    obtain ⟨t', cs', hwait, hrest⟩ := waitLine_line hall List.not_mem_nil
    refine ⟨t', cs', hrest, ?_⟩
    intro n hn
    cases n with
    | zero => omega
    | succ n =>
      rw [segmentsLoop, ipc_bind (forwardChar_next _ _ _), ipc_bind hwait]
      rfl
  | cons l lines ih =>
    have hline : '\n' ∉ decimal l.numCandidates ++ [' '] ++ l.converted.chars ++ [' '] ++
        l.yomi.chars := by simp [decimal_line, word_line]
    have hall : (Incoming.mk t cs).all = decimal l.numCandidates ++ [' '] ++ l.converted.chars ++
        [' '] ++ l.yomi.chars ++ '\n' :: (lines.flatMap SegmentLine.text ++ ['\n']) := by
      simpa [Incoming.all, SegmentLine.text] using h
    obtain ⟨t', cs', hwait, hrest⟩ := waitLine_line hall hline
    have hnumber := readNumber_decimal l.numCandidates (d := ' ') (by decide)
      (l.converted.chars ++ ' ' :: (l.yomi.chars ++ '\n' :: t')) cs'
    have hconverted := readString_space l.converted (d := ' ') (Or.inl rfl)
      (l.yomi.chars ++ '\n' :: t') cs'
    have hsource := readString_space l.yomi (d := '\n') (Or.inr rfl) t' cs'
    obtain ⟨t'', cs'', hend, hloop⟩ := ih (i + 1)
      (makeBunsetsu env l.yomi.chars l.converted.chars i :: acc) hrest
    refine ⟨t'', cs'', hend, ?_⟩
    intro n hn
    cases n with
    | zero => omega
    | succ n =>
      simp only [List.append_assoc, List.cons_append, List.nil_append] at hwait
      rw [segmentsLoop, ipc_bind (forwardChar_next _ _ _), ipc_bind hwait,
        charAfter_neg (decimal_head _ _), ipc_bind hnumber, ipc_bind hconverted, ipc_bind hsource,
        hloop n (Nat.lt_of_succ_lt_succ hn)]
      simp [bunsetsuFrom]

theorem acceptSegments_segments {w : Incoming Char} {segNo numRemoved numInserted : Nat}
    {lines : List SegmentLine} (h : w.all = (Reply.segments segNo numRemoved numInserted lines).text)
    (env : Nat) : ∃ w', w'.arriving.flatten = [] ∧ ∀ n, lines.length < n →
      acceptSegments n env w =
        .ok (some ⟨segNo, numRemoved, bunsetsuFrom env segNo lines⟩) w' := by
  have hline : '\n' ∉ ['+', 'D', 'A', 'T', 'A', ' '] ++ decimal segNo ++ [' '] ++ decimal numRemoved ++
      [' '] ++ decimal numInserted := by simp [decimal_line]
  have hall : w.all = ['+', 'D', 'A', 'T', 'A', ' '] ++ decimal segNo ++ [' '] ++ decimal numRemoved ++
      [' '] ++ decimal numInserted ++ '\n' :: (lines.flatMap SegmentLine.text ++ ['\n']) := by
    simp [h, Reply.text]
  obtain ⟨t, cs, hwait, hrest⟩ := waitLine_line hall hline
  simp only [List.append_assoc, List.cons_append, List.nil_append] at hwait
  have hskip (t : List Char) : forwardChar 5 ⟨'D' :: 'A' :: 'T' :: 'A' :: ' ' :: t, cs⟩ =
      .ok () ⟨t, cs⟩ := forwardChar_le (by simp)
  have hsegNo := readNumber_decimal segNo (d := ' ') (by decide)
    (decimal numRemoved ++ ' ' :: (decimal numInserted ++ '\n' :: t)) cs
  have hremoved := readNumber_space numRemoved (d := ' ') (by decide)
    (decimal numInserted ++ '\n' :: t) cs
  have hinserted := readNumber_space numInserted (d := '\n') (by decide) t cs
  obtain ⟨t', cs', hend, hloop⟩ := segmentsLoop_lines env lines segNo [] hrest
  refine ⟨⟨t', cs'⟩, (List.append_eq_nil_iff.mp hend).2, ?_⟩
  intro n hn
  rw [acceptSegments, answer_plus hwait rfl, ipc_bind (forwardChar_next _ _ _),
    charAfter_neg (by simp), ipc_bind (hskip _), ipc_bind hsegNo, ipc_bind hremoved,
    ipc_bind hinserted, ipc_bind (hloop n hn), ipc_bind (forwardChar_next _ _ _), List.append_nil,
    List.reverse_reverse]
  rfl

theorem acceptSegments_ok {w : Incoming Char} (h : w.all = Reply.ok.text) (env : Nat) :
    ∃ w', w'.arriving.flatten = [] ∧ ∀ n, acceptSegments n env w = .ok none w' := by
  have hall : w.all = ['+', 'O', 'K'] ++ ['\n'] := h
  obtain ⟨t, cs, hwait, hrest⟩ := waitLine_line hall (by decide)
  refine ⟨⟨[], cs⟩, (List.append_eq_nil_iff.mp hrest).2, ?_⟩
  intro n
  rw [acceptSegments, answer_plus hwait rfl]
  simp only [List.cons_append, List.nil_append]
  rw [ipc_bind (forwardChar_next _ _ _), charAfter_pos rfl]
  rfl

theorem candidatesLoop_words (words : List Word) (acc : List (List Char)) {t : List Char}
    {cs : List (List Char)}
    (h : t ++ cs.flatten = words.flatMap (fun w => w.chars ++ ['\n']) ++ ['\n']) :
    ∃ t' cs', t' ++ cs'.flatten = [] ∧ ∀ n, words.length < n →
      candidatesLoop n acc ⟨'\n' :: t, cs⟩ =
        .ok ((words.map Word.chars).reverse ++ acc) ⟨'\n' :: t', cs'⟩ := by
  induction words generalizing acc t cs with
  | nil =>
    have hall : (Incoming.mk t cs).all = [] ++ ['\n'] := h
    obtain ⟨t', cs', hwait, hrest⟩ := waitLine_line hall List.not_mem_nil
    refine ⟨t', cs', hrest, ?_⟩
    intro n hn
    cases n with
    | zero => omega
    | succ n =>
      rw [candidatesLoop, ipc_bind (forwardChar_next _ _ _), ipc_bind hwait]
      rfl
  | cons x words ih =>
    have hall : (Incoming.mk t cs).all =
        x.chars ++ '\n' :: (words.flatMap (fun w => w.chars ++ ['\n']) ++ ['\n']) := by
      simpa [Incoming.all] using h
    obtain ⟨t', cs', hwait, hrest⟩ := waitLine_line hall (word_line x)
    have hread := readString_word x (d := '\n') (Or.inr rfl) t' cs'
    have hhead : (x.chars ++ '\n' :: t').head? ≠ some '\n' := by
      obtain ⟨c, l, hx⟩ := List.exists_cons_of_ne_nil x.ne
      have hc := (x.plain c (by simp [hx])).2
      simpa [hx] using hc
    obtain ⟨t'', cs'', hend, hloop⟩ := ih (x.chars :: acc) hrest
    refine ⟨t'', cs'', hend, ?_⟩
    intro n hn
    cases n with
    | zero => omega
    | succ n =>
      rw [candidatesLoop, ipc_bind (forwardChar_next _ _ _), ipc_bind hwait, charAfter_neg hhead,
        ipc_bind hread, hloop n (Nat.lt_of_succ_lt_succ hn)]
      simp

theorem acceptCandidates_candidates {w : Incoming Char} {offset numCandidates : Nat}
    {words : List Word} (h : w.all = (Reply.candidates offset numCandidates words).text) :
    ∃ w', w'.arriving.flatten = [] ∧ ∀ n, words.length < n →
      acceptCandidates n w = .ok (offset, words.map Word.chars) w' := by
  have hline : '\n' ∉ ['+', 'D', 'A', 'T', 'A', ' '] ++ decimal offset ++ [' '] ++
      decimal numCandidates := by simp [decimal_line]
  have hall : w.all = ['+', 'D', 'A', 'T', 'A', ' '] ++ decimal offset ++ [' '] ++
      decimal numCandidates ++ '\n' :: (words.flatMap (fun w => w.chars ++ ['\n']) ++ ['\n']) := by
    simp [h, Reply.text]
  obtain ⟨t, cs, hwait, hrest⟩ := waitLine_line hall hline
  simp only [List.append_assoc, List.cons_append, List.nil_append] at hwait
  have hskip (t : List Char) : forwardChar 6 ⟨'+' :: 'D' :: 'A' :: 'T' :: 'A' :: ' ' :: t, cs⟩ =
      .ok () ⟨t, cs⟩ := forwardChar_le (by simp)
  have hoffset := readNumber_decimal offset (d := ' ') (by decide) (decimal numCandidates ++ '\n' :: t) cs
  have hnumber := readNumber_space numCandidates (d := '\n') (by decide) t cs
  obtain ⟨t', cs', hend, hloop⟩ := candidatesLoop_words words [] hrest
  refine ⟨⟨t', cs'⟩, (List.append_eq_nil_iff.mp hend).2, ?_⟩
  intro n hn
  rw [acceptCandidates, answer_plus hwait rfl, ipc_bind (hskip _), ipc_bind hoffset,
    ipc_bind hnumber, ipc_bind (hloop n hn), ipc_bind (forwardChar_next _ _ _), List.append_nil,
    List.reverse_reverse]
  rfl

namespace Request

def fits : Request → Reply → Prop
  | _, .complaint _ => True
  | newContext, .number _ => True
  | releaseContext _, .ok | commit _ _, .ok | selectCandidate _ _ _, .ok => True
  | convert _ _, .segments _ _ _ _ | selectCandidate _ _ _, .segments _ _ _ _
  | resizeSegment _ _ _, .segments _ _ _ _ => True
  | getCandidates _ _, .candidates _ _ _ => True
  | _, _ => False

def answer : (q : Request) → Reply → Except Stop q.Value
  | _, .complaint c => .error (.protocolError (c.line ++ ['\n']))
  | newContext, .number n => .ok n
  | releaseContext _, _ | commit _ _, _ => .ok ()
  | convert cont _, .segments segNo _ _ lines | resizeSegment cont _ _, .segments segNo _ _ lines =>
    .ok (bunsetsuFrom cont segNo lines)
  | selectCandidate cont _ _, .segments segNo numRemoved _ lines =>
    .ok (some ⟨segNo, numRemoved, bunsetsuFrom cont segNo lines⟩)
  | selectCandidate _ _ _, .ok => .ok none
  | getCandidates _ _, .candidates _ _ words => .ok (words.map Word.chars)
  | _, _ => .error .misread

end Request

def ending {ε σ : Type} (x : Except ε α) (s : σ) : EStateM.Result ε σ α :=
  match x with
  | .ok a => .ok a s
  | .error e => .error e s

theorem ipc_bind_error {x : Ipc α} {w w' : Incoming Char} {e : Stop} (h : x w = .error e w')
    (f : α → Ipc β) : (x >>= f) w = .error e w' := by
  change EStateM.bind x f w = _
  rw [EStateM.bind, h]

theorem receive_answer (q : Request) {r : Reply} (hfit : q.fits r) {w : Incoming Char}
    (h : w.all = r.text) :
    ∃ w', w'.arriving.flatten = [] ∧ ∀ n, r.turns < n →
      q.receive n w = ending (q.answer r) w' := by
  cases r with
  | complaint c =>
    cases q with
    | newContext | releaseContext | commit =>
      obtain ⟨w', hend, hw'⟩ := answer_complaint h
      exact ⟨w', hend, fun n _ => hw' _⟩
    | convert | resizeSegment | getCandidates =>
      obtain ⟨w', hend, hw'⟩ := answer_complaint h
      exact ⟨w', hend, fun n _ => ipc_bind_error (hw' _) _⟩
    | selectCandidate =>
      obtain ⟨w', hend, hw'⟩ := answer_complaint h
      exact ⟨w', hend, fun n _ => hw' _⟩
  | ok =>
    cases q with
    | releaseContext | commit =>
      obtain ⟨w', hend, hw'⟩ := acceptOk_ok h
      exact ⟨w', hend, fun n _ => hw'⟩
    | selectCandidate cont =>
      obtain ⟨w', hend, hw'⟩ := acceptSegments_ok h cont
      exact ⟨w', hend, fun n _ => hw' n⟩
    | newContext | convert | getCandidates | resizeSegment => exact hfit.elim
  | number k =>
    cases q with
    | newContext =>
      obtain ⟨w', hend, hw'⟩ := acceptNumber_number h
      exact ⟨w', hend, fun n _ => hw'⟩
    | releaseContext | convert | commit | getCandidates | selectCandidate | resizeSegment =>
      exact hfit.elim
  | segments segNo numRemoved numInserted lines =>
    cases q with
    | convert cont | resizeSegment cont =>
      obtain ⟨w', hend, hw'⟩ := acceptSegments_segments h cont
      exact ⟨w', hend, fun n hn => ipc_bind (hw' n hn) _⟩
    | selectCandidate cont => exact acceptSegments_segments h cont
    | newContext | releaseContext | commit | getCandidates => exact hfit.elim
  | candidates offset numCandidates words =>
    cases q with
    | getCandidates =>
      obtain ⟨w', hend, hw'⟩ := acceptCandidates_candidates h
      exact ⟨w', hend, fun n hn => ipc_bind (hw' n hn) _⟩
    | newContext | releaseContext | convert | commit | selectCandidate | resizeSegment =>
      exact hfit.elim

end PkgsrcPatches.Tamago
