import Mathlib.Data.List.Basic

/-! The POSIX shell's token recognition and the shape of a list of simple commands. What
an expansion or a here-document would do is not followed: such a text has no reading. -/
namespace PkgsrcPatches.Lib.Shell

/-- A byte of a word, and whether a quote hides it from every later step. -/
structure WordChar where
  byte : UInt8
  quoted : Bool
deriving DecidableEq

abbrev Word := List WordChar

inductive Token where
  | word (w : Word)
  | op (o : List UInt8)
deriving DecidableEq

inductive LexState where
  | between
  | word (w : Word)
  | single (w : Word)
  | double (w : Word)
  /-- Behind a backslash, in the word begun before it if there was one. -/
  | escape (w : Option Word)
  | doubleEscape (w : Word)
  /-- Behind a first character of an operator. -/
  | op (c : UInt8)
deriving DecidableEq

/-! ### Characters -/

def backslash : UInt8 := 92
def squote : UInt8 := 39
def dquote : UInt8 := 34
def newline : UInt8 := 10

def isBlank (c : UInt8) : Bool := c = 32 || c = 9

def isOpChar (c : UInt8) : Bool := c ∈ ([38, 40, 41, 59, 60, 62, 124, 10] : List UInt8)

def startsExpansion (c : UInt8) : Bool := c = 36 || c = 96

def isLongOp (c d : UInt8) : Bool :=
  (c, d) ∈ ([(38, 38), (124, 124), (59, 59), (62, 62), (60, 38), (62, 38), (60, 62), (62, 124)] :
    List (UInt8 × UInt8))

def isHereDoc (c d : UInt8) : Bool := c = 60 && d = 60

/-- Digits and nothing else, unquoted: before a redirection they are no word. -/
def isIoNumber (w : Word) : Bool :=
  w ≠ [] && w.all fun c => !c.quoted && 48 ≤ c.byte && c.byte ≤ 57

/-! ### Token recognition -/

def startWord (c : UInt8) : Option LexState :=
  if isBlank c then some .between
  else if c = squote then some (.single [])
  else if c = dquote then some (.double [])
  else if c = backslash then some (.escape none)
  else if startsExpansion c || c = 35 then none
  else if isOpChar c then some (.op c)
  else some (.word [⟨c, false⟩])

def inWord (w : Word) (c : UInt8) : Option (List Token × LexState) :=
  if isBlank c then some ([.word w], .between)
  else if c = squote then some ([], .single w)
  else if c = dquote then some ([], .double w)
  else if c = backslash then some ([], .escape (some w))
  else if startsExpansion c then none
  else if isOpChar c then
    if isIoNumber w && (c = 60 || c = 62) then none else some ([.word w], .op c)
  else some ([], .word (w ++ [⟨c, false⟩]))

def lexStep : LexState → UInt8 → Option (List Token × LexState)
  | .between, c => (startWord c).map fun st => ([], st)
  | .word w, c => inWord w c
  | .single w, c =>
    if c = squote then some ([], .word w) else some ([], .single (w ++ [⟨c, true⟩]))
  | .double w, c =>
    if c = dquote then some ([], .word w)
    else if c = backslash then some ([], .doubleEscape w)
    else if startsExpansion c then none
    else some ([], .double (w ++ [⟨c, true⟩]))
  | .escape w, c =>
    if c = newline then some ([], w.elim .between .word)
    else some ([], .word (w.getD [] ++ [⟨c, true⟩]))
  | .doubleEscape w, c =>
    if c = newline then some ([], .double w)
    else if startsExpansion c || c = dquote || c = backslash then
      some ([], .double (w ++ [⟨c, true⟩]))
    else some ([], .double (w ++ [⟨backslash, true⟩, ⟨c, true⟩]))
  | .op o, c =>
    if isHereDoc o c then none
    else if isLongOp o c then some ([.op [o, c]], .between)
    else (startWord c).map fun st => ([.op [o]], st)

/-- The tokens a text completes, and where it leaves the lexer. -/
def lexFrom : LexState → List UInt8 → Option (List Token × LexState)
  | st, [] => some ([], st)
  | st, c :: s => (lexStep st c).bind fun r => (lexFrom r.2 s).map fun q => (r.1 ++ q.1, q.2)

/-- The token in progress at the end; a quote left open has none. -/
def finish : LexState → Option (List Token)
  | .between => some []
  | .word w => some [.word w]
  | .op c => some [.op [c]]
  | _ => none

def lex (s : List UInt8) : Option (List Token) :=
  (lexFrom .between s).bind fun r => (finish r.2).map fun ts => r.1 ++ ts

/-! ### Commands -/

structure SimpleCommand where
  words : List Word
  /-- Each redirection by its operator and its target. -/
  redirs : List (List UInt8 × Word)
deriving DecidableEq

def SimpleCommand.empty : SimpleCommand := ⟨[], []⟩

def literal (s : String) : Word := s.toList.map fun c => ⟨UInt8.ofNat c.toNat, false⟩

def reservedWords : List Word :=
  ["!", "\x7b", "\x7d", "case", "do", "done", "elif", "else", "esac", "fi", "for", "if", "in", "then",
    "until", "while"].map literal

/-- A command name that is one: not reserved, and no assignment. -/
def isCommandName (w : Word) : Bool := w ∉ reservedWords && ⟨61, false⟩ ∉ w

def addWord (c : SimpleCommand) (w : Word) : Option SimpleCommand :=
  if c.words ≠ [] ∨ isCommandName w = true then some { c with words := c.words ++ [w] } else none

def isRedirection (o : List UInt8) : Bool := o = [60] || o = [62] || o = [62, 62] || o = [60, 62] || o = [62, 124]

/-- The commands that are complete, the one in progress, and a redirection that still wants
its target. -/
structure ParseState where
  complete : List SimpleCommand
  current : SimpleCommand
  pending : Option (List UInt8)

def ParseState.start : ParseState := ⟨[], .empty, none⟩

/-- Simple commands separated by semicolons; any other structure has no reading. -/
def parseStep (st : ParseState) : Token → Option ParseState
  | .word w => match st.pending with
    | some o => some ⟨st.complete, ⟨st.current.words, st.current.redirs ++ [(o, w)]⟩, none⟩
    | none => (addWord st.current w).map fun c => ⟨st.complete, c, none⟩
  | .op o => match st.pending with
    | some _ => none
    | none =>
      if isRedirection o then some ⟨st.complete, st.current, some o⟩
      else if o = [59] ∧ st.current ≠ .empty then some ⟨st.complete ++ [st.current], .empty, none⟩
      else none

def parseEnd (st : ParseState) : Option (List SimpleCommand) :=
  if st.pending = none then
    some (if st.current = .empty then st.complete else st.complete ++ [st.current])
  else none

def parse (s : List UInt8) : Option (List SimpleCommand) :=
  (lex s).bind fun ts => (ts.foldlM parseStep .start).bind parseEnd

/-- The field a word stands for when no expansion can touch it: none of its unquoted characters
is one that pathname or tilde expansion looks at. -/
def Word.field? (w : Word) : Option (List UInt8) :=
  if w.all fun c => c.quoted || c.byte ∉ ([42, 63, 91, 126] : List UInt8) then some (w.map (·.byte))
  else none

/-! ### Running the lexer on -/

theorem lexFrom_append (st : LexState) (a b : List UInt8) :
    lexFrom st (a ++ b) =
      (lexFrom st a).bind fun r => (lexFrom r.2 b).map fun q => (r.1 ++ q.1, q.2) := by
  induction a generalizing st with
  | nil => simp [lexFrom]
  | cons c a ih =>
    rw [List.cons_append, lexFrom, lexFrom]
    cases lexStep st c with
    | none => rfl
    | some r =>
      simp only [Option.bind_some, ih]
      cases lexFrom r.2 a with
      | none => rfl
      | some q => simp [Function.comp_def]

theorem lexFrom_append_of {st st' : LexState} {a : List UInt8} {ts : List Token}
    (h : lexFrom st a = some (ts, st')) (b : List UInt8) :
    lexFrom st (a ++ b) = (lexFrom st' b).map fun q => (ts ++ q.1, q.2) := by
  rw [lexFrom_append, h, Option.bind_some]

/-! ### Single quotes -/

def quoted (s : List UInt8) : Word := s.map fun c => ⟨c, true⟩

/-- A byte between single quotes: a quote is closed, escaped and reopened. -/
def quoteByte (c : UInt8) : List UInt8 := if c = squote then [squote, backslash, squote, squote] else [c]

def enclose (s : List UInt8) : List UInt8 := squote :: (s.flatMap quoteByte ++ [squote])

theorem lexFrom_quoteByte (w : Word) (c : UInt8) :
    lexFrom (.single w) (quoteByte c) = some ([], .single (w ++ [⟨c, true⟩])) := by
  rw [quoteByte]
  by_cases hc : c = squote
  · rw [if_pos hc, hc]
    rfl
  · rw [if_neg hc]
    simp [lexFrom, lexStep, hc]

theorem lexFrom_quoteBytes (s : List UInt8) (w : Word) :
    lexFrom (.single w) (s.flatMap quoteByte) = some ([], .single (w ++ quoted s)) := by
  induction s generalizing w with
  | nil => simp [lexFrom, quoted]
  | cons c s ih =>
    rw [List.flatMap_cons, lexFrom_append_of (lexFrom_quoteByte w c), ih]
    simp [quoted]

/-- Where a word may begin: nothing is pending but an operator that a quote completes. -/
def LexState.AtWord : LexState → List Token → Prop
  | .between, ts => ts = []
  | .op o, ts => ts = [.op [o]]
  | _, _ => False

theorem lexStep_squote {st : LexState} {ts : List Token} (h : st.AtWord ts) :
    lexStep st squote = some (ts, .single []) := by
  cases st with
  | between => cases h; rfl
  | op o =>
    cases h
    have h1 : isHereDoc o squote = false := by simp [isHereDoc, squote]
    have h2 : isLongOp o squote = false := by simp [isLongOp, squote]
    simp only [lexStep, h1, h2]
    rfl
  | word w => cases h
  | single w => cases h
  | double w => cases h
  | escape w => cases h
  | doubleEscape w => cases h

theorem lexFrom_enclose {st : LexState} {ts : List Token} (h : st.AtWord ts) (s : List UInt8) :
    lexFrom st (enclose s) = some (ts, .word (quoted s)) := by
  rw [enclose, lexFrom, lexStep_squote h, Option.bind_some,
    lexFrom_append_of (lexFrom_quoteBytes s [])]
  simp [lexFrom, lexStep]

theorem field?_quoted (s : List UInt8) : Word.field? (quoted s) = some s := by
  have hall : (quoted s).all (fun c => c.quoted || c.byte ∉ ([42, 63, 91, 126] : List UInt8)) =
      true := by simp [quoted]
  rw [Word.field?, if_pos hall, quoted, List.map_map]
  exact congrArg some (List.map_id s)

theorem isIoNumber_quoted (s : List UInt8) : isIoNumber (quoted s) = false := by
  cases s with
  | nil => rfl
  | cons c s => simp [isIoNumber, quoted]

/-! ### A word among others -/

/-- What ends a word wherever it stands: a blank or an operator. -/
def endsWord (c : UInt8) : Bool := isBlank c || isOpChar c

theorem startWord_blank {c : UInt8} (h : isBlank c = true) : startWord c = some .between := if_pos h

theorem startWord_op {c : UInt8} (h : isOpChar c = true) : startWord c = some (.op c) := by
  have hall : ([38, 40, 41, 59, 60, 62, 124, 10] : List UInt8).all
      (fun c => startWord c = some (.op c)) = true := by decide
  exact of_decide_eq_true (List.all_eq_true.mp hall c (of_decide_eq_true h))

theorem inWord_op {c : UInt8} (h : isOpChar c = true) {w : Word} (hw : isIoNumber w = false) :
    inWord w c = some ([.word w], .op c) := by
  have hall : ([38, 40, 41, 59, 60, 62, 124, 10] : List UInt8).all (fun c =>
      (isBlank c || c = squote || c = dquote || c = backslash || startsExpansion c) = false) =
        true := by decide
  have hc := of_decide_eq_true (List.all_eq_true.mp hall c (of_decide_eq_true h))
  simp only [Bool.or_eq_false_iff, decide_eq_false_iff_not] at hc
  obtain ⟨⟨⟨⟨h1, h2⟩, h3⟩, h4⟩, h5⟩ := hc
  simp [inWord, h1, h2, h3, h4, h5, h, hw]

theorem lexFrom_word {w : Word} (hw : isIoNumber w = false) {c : UInt8} (hc : endsWord c = true)
    (s : List UInt8) :
    lexFrom (.word w) (c :: s) =
      (lexFrom .between (c :: s)).map fun q => (.word w :: q.1, q.2) := by
  rw [lexFrom, lexFrom]
  cases hb : isBlank c with
  | true =>
    simp only [lexStep, startWord_blank hb, inWord, hb, if_true, Option.map_some, Option.bind_some,
      Option.map_map, Function.comp_def, List.nil_append, List.singleton_append]
  | false =>
    have ho : isOpChar c = true := by simpa [endsWord, hb] using hc
    simp only [lexStep, startWord_op ho, inWord_op ho hw, Option.map_some, Option.bind_some,
      Option.map_map, Function.comp_def, List.nil_append, List.singleton_append]

/-- A text that is empty or ends the word before it. -/
def EndsWord (s : List UInt8) : Prop := ∀ c ∈ s.head?, endsWord c = true

theorem endsWord_of_head {s : List UInt8} {c : UInt8} (h : s.head? = some c)
    (hc : endsWord c = true) : EndsWord s := by
  intro d hd
  rw [h] at hd
  cases hd
  exact hc

theorem endsWord_append {s : List UInt8} {c : UInt8} (h : s.head? = some c) (hc : endsWord c = true)
    (t : List UInt8) : EndsWord (s ++ t) :=
  endsWord_of_head (by rw [List.head?_append, h]; rfl) hc

theorem lex_enclose {pre : List UInt8} {st : LexState} {ts us : List Token}
    (hpre : lexFrom .between pre = some (ts, st)) (hst : st.AtWord us) (s : List UInt8)
    {post : List UInt8} (hpost : EndsWord post) :
    lex (pre ++ (enclose s ++ post)) =
      (lex post).map fun qs => ts ++ us ++ .word (quoted s) :: qs := by
  have hrun : lexFrom .between (pre ++ (enclose s ++ post)) =
      (lexFrom (.word (quoted s)) post).map fun q => (ts ++ (us ++ q.1), q.2) := by
    rw [lexFrom_append_of hpre, lexFrom_append_of (lexFrom_enclose hst s), Option.map_map]
    rfl
  rw [lex, hrun]
  cases post with
  | nil => simp [lexFrom, lex, finish]
  | cons c post =>
    rw [lexFrom_word (isIoNumber_quoted s) (hpost c (by simp)), lex]
    cases lexFrom .between (c :: post) with
    | none => rfl
    | some q =>
      simp only [Option.map_some, Option.bind_some, Option.map_map]
      refine congrArg (Option.map · (finish q.2)) ?_
      funext rest
      simp

theorem lexFrom_blank {s : List UInt8} {ts : List Token} (h : lex s = some ts) :
    lexFrom .between (s ++ [32]) = some (ts, .between) := by
  rw [lex] at h
  obtain ⟨⟨as, st⟩, hs, hf⟩ := Option.bind_eq_some_iff.mp h
  obtain ⟨us, hu, rfl⟩ := Option.map_eq_some_iff.mp hf
  rw [lexFrom_append_of hs]
  cases st with
  | between => cases hu; rfl
  | word w => cases hu; rfl
  | op o =>
    cases hu
    have h1 : isHereDoc o 32 = false := by simp [isHereDoc]
    have h2 : isLongOp o 32 = false := by simp [isLongOp]
    simp only [lexFrom, lexStep, h1, h2]
    rfl
  | single w => cases hu
  | double w => cases hu
  | escape w => cases hu
  | doubleEscape w => cases hu

/-! ### Words of one command -/

theorem foldlM_words (ws : List Word) (complete : List SimpleCommand) (c : SimpleCommand)
    (hc : c.words ≠ []) :
    (ws.map Token.word).foldlM parseStep ⟨complete, c, none⟩ =
      some ⟨complete, ⟨c.words ++ ws, c.redirs⟩, none⟩ := by
  induction ws generalizing c with
  | nil => simp
  | cons w ws ih =>
    have hadd : addWord c w = some ⟨c.words ++ [w], c.redirs⟩ := if_pos (Or.inl hc)
    rw [List.map_cons, List.foldlM_cons, parseStep]
    simp only [hadd, Option.map_some, Option.bind_eq_bind, Option.bind_some]
    rw [ih _ (by simp)]
    simp

end PkgsrcPatches.Lib.Shell
