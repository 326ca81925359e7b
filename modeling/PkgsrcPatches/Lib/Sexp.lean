import Mathlib.Data.List.Basic

/-! Lisp objects made of symbols, strings and conses, and the reader for them. -/
namespace PkgsrcPatches.Lib

inductive Sexp where
  | nil
  | symbol (name : List Char)
  | string (text : List Char)
  | cons (a b : Sexp)
deriving DecidableEq

namespace Sexp

def car : Sexp → Sexp
  | cons a _ => a
  | _ => nil

def cdr : Sexp → Sexp
  | cons _ b => b
  | _ => nil

def ofList : List Sexp → Sexp
  | [] => nil
  | a :: l => cons a (ofList l)

def blank (c : Char) : Bool := c.toNat ≤ 32

def delimits (c : Char) : Bool := blank c || "\"';()[]`,".toList.contains c

def skip (text : List Char) : List Char := text.dropWhile blank

/-- The rest of a string after its opening quote; of the escapes, those of a quote and of a
backslash. -/
def readString : List Char → Option (List Char × List Char)
  | [] => none
  | '"' :: text => some ([], text)
  | '\\' :: '"' :: text => (readString text).map fun r => ('"' :: r.1, r.2)
  | '\\' :: '\\' :: text => (readString text).map fun r => ('\\' :: r.1, r.2)
  | '\\' :: _ => none
  | c :: text => (readString text).map fun r => (c :: r.1, r.2)

def ofName (name : List Char) : Sexp := if name = ['n', 'i', 'l'] then nil else symbol name

/-- After the last element of a list with a dot. -/
def closed (v : Sexp) : List Char → Option (Sexp × List Char)
  | [] => none
  | c :: text => if c = ')' then some (v, text) else none

mutual

/-- `read`, with `n` nested calls at most: the object and the text after it. -/
def read : Nat → List Char → Option (Sexp × List Char)
  | 0, _ => none
  | n + 1, text =>
    match skip text with
    | [] => none
    | c :: text =>
      if c = '(' then readTail n text
      else if c = '"' then (readString text).map fun r => (string r.1, r.2)
      else if delimits c then none
      else some (ofName ((c :: text).takeWhile fun c => !delimits c),
        (c :: text).dropWhile fun c => !delimits c)

def readTail : Nat → List Char → Option (Sexp × List Char)
  | 0, _ => none
  | n + 1, text =>
    match skip text with
    | [] => none
    | c :: text =>
      if c = ')' then some (nil, text)
      else if c = '.' ∧ text.head?.all delimits then (read n text).bind fun r => closed r.1 (skip r.2)
      else (read n (c :: text)).bind fun r => (readTail n r.2).map fun l => (cons r.1 l.1, l.2)

end

def escapeChar (c : Char) : List Char :=
  if c = '"' then ['\\', '"'] else if c = '\\' then ['\\', '\\'] else [c]

def escape (text : List Char) : List Char := text.flatMap escapeChar

/-! ### What is read -/

theorem readString_escape (w rest : List Char) :
    readString (escape w ++ '"' :: rest) = some (w, rest) := by
  induction w with
  | nil => rfl
  | cons c w ih =>
    have hsplit : escape (c :: w) ++ '"' :: rest = escapeChar c ++ (escape w ++ '"' :: rest) := by
      simp [escape]
    rw [hsplit, escapeChar]
    by_cases hq : c = '"'
    · rw [if_pos hq, List.cons_append, List.singleton_append, readString, ih, hq]
      rfl
    · by_cases hb : c = '\\'
      · rw [if_neg hq, if_pos hb, List.cons_append, List.singleton_append, readString, ih, hb]
        rfl
      · rw [if_neg hq, if_neg hb, List.singleton_append, readString, ih]
        · rfl
        · exact hq
        · intro text h
          exact absurd h hb
        · intro text h
          exact absurd h hb
        · exact hb

theorem skip_cons {c : Char} (hc : blank c = false) (text : List Char) :
    skip (c :: text) = c :: text := by
  rw [skip, List.dropWhile_cons_of_neg (by simp [hc])]

/-- With enough nested calls the object is read. -/
def Reads (text : List Char) (v : Sexp) (rest : List Char) : Prop :=
  ∃ N, ∀ n, N ≤ n → read n text = some (v, rest)

def ReadsTail (text : List Char) (v : Sexp) (rest : List Char) : Prop :=
  ∃ N, ∀ n, N ≤ n → readTail n text = some (v, rest)

variable {text rest rest' : List Char} {v l : Sexp} {c : Char}

theorem reads_string (w rest : List Char) :
    Reads ('"' :: (escape w ++ '"' :: rest)) (string w) rest := by
  refine ⟨1, ?_⟩
  intro n hn
  obtain ⟨n, rfl⟩ : ∃ k, n = k + 1 := ⟨n - 1, by omega⟩
  rw [read, skip_cons rfl]
  dsimp only
  rw [if_neg (by simp), if_pos rfl, readString_escape]
  rfl

theorem reads_symbol {name : List Char} (hne : name ≠ []) (hname : ∀ c ∈ name, delimits c = false)
    (hrest : rest.head?.all delimits = true) : Reads (name ++ rest) (ofName name) rest := by
  refine ⟨1, ?_⟩
  intro n hn
  obtain ⟨n, rfl⟩ : ∃ k, n = k + 1 := ⟨n - 1, by omega⟩
  obtain ⟨c, w, rfl⟩ := List.exists_cons_of_ne_nil hne
  have hc : delimits c = false := hname c List.mem_cons_self
  have hblank : blank c = false := (Bool.or_eq_false_iff.mp hc).1
  have hgo : ∀ d ∈ c :: w, (!delimits d) = true := by
    intro d hd
    rw [hname d hd]
    rfl
  have hstop : rest.takeWhile (fun d => !delimits d) = [] ∧
      rest.dropWhile (fun d => !delimits d) = rest := by
    cases rest with
    | nil => exact ⟨rfl, rfl⟩
    | cons d rest =>
      have hd : ¬ (!delimits d) = true := by simpa using hrest
      exact ⟨List.takeWhile_cons_of_neg hd, List.dropWhile_cons_of_neg hd⟩
  have hopen : c ≠ '(' ∧ c ≠ '"' := by
    refine ⟨?_, ?_⟩ <;> rintro rfl <;> exact absurd hc (by decide)
  rw [read, List.cons_append, skip_cons hblank]
  dsimp only
  rw [if_neg hopen.1, if_neg hopen.2, if_neg (by simp [hc]), ← List.cons_append,
    List.takeWhile_append_of_pos hgo, List.dropWhile_append_of_pos hgo, hstop.1, hstop.2,
    List.append_nil]

theorem reads_list (h : ReadsTail text v rest) : Reads ('(' :: text) v rest := by
  obtain ⟨N, h⟩ := h
  refine ⟨N + 1, ?_⟩
  intro n hn
  obtain ⟨n, rfl⟩ : ∃ k, n = k + 1 := ⟨n - 1, by omega⟩
  rw [read, skip_cons rfl]
  exact h n (by omega)

theorem readsTail_nil (rest : List Char) : ReadsTail (')' :: rest) nil rest := by
  refine ⟨1, ?_⟩
  intro n hn
  obtain ⟨n, rfl⟩ : ∃ k, n = k + 1 := ⟨n - 1, by omega⟩
  rw [readTail, skip_cons rfl]
  rfl

theorem skip_blank (hc : blank c = true) (text : List Char) : skip (c :: text) = skip text := by
  rw [skip, List.dropWhile_cons_of_pos hc, skip]

theorem reads_blank (hc : blank c = true) (h : Reads text v rest) : Reads (c :: text) v rest := by
  obtain ⟨N, h⟩ := h
  refine ⟨N + 1, ?_⟩
  intro n hn
  obtain ⟨n, rfl⟩ : ∃ k, n = k + 1 := ⟨n - 1, by omega⟩
  have hread := h (n + 1) (by omega)
  rw [read] at hread
  rw [read, skip_blank hc]
  exact hread

theorem readsTail_blank (hc : blank c = true) (h : ReadsTail text v rest) :
    ReadsTail (c :: text) v rest := by
  obtain ⟨N, h⟩ := h
  refine ⟨N + 1, ?_⟩
  intro n hn
  obtain ⟨n, rfl⟩ : ∃ k, n = k + 1 := ⟨n - 1, by omega⟩
  have hread := h (n + 1) (by omega)
  rw [readTail] at hread
  rw [readTail, skip_blank hc]
  exact hread

theorem readsTail_dot (h : Reads text v (')' :: rest)) : ReadsTail ('.' :: ' ' :: text) v rest := by
  obtain ⟨N, h⟩ := reads_blank (c := ' ') rfl h
  refine ⟨N + 1, ?_⟩
  intro n hn
  obtain ⟨n, rfl⟩ : ∃ k, n = k + 1 := ⟨n - 1, by omega⟩
  rw [readTail, skip_cons rfl]
  dsimp only
  rw [if_neg (by simp), if_pos ⟨rfl, rfl⟩, h n (by omega), Option.bind_some, skip_cons rfl]
  rfl

theorem readsTail_cons (hc : blank c = false) (hclose : c ≠ ')') (hdot : c ≠ '.')
    (h : Reads (c :: text) v rest) (h' : ReadsTail rest l rest') :
    ReadsTail (c :: text) (cons v l) rest' := by
  obtain ⟨N, h⟩ := h
  obtain ⟨N', h'⟩ := h'
  refine ⟨max N N' + 1, ?_⟩
  intro n hn
  obtain ⟨n, rfl⟩ : ∃ k, n = k + 1 := ⟨n - 1, by omega⟩
  rw [readTail, skip_cons hc]
  dsimp only
  rw [if_neg hclose, if_neg (fun h => hdot h.1), h n (by omega), Option.bind_some, h' n (by omega)]
  rfl

end Sexp

end PkgsrcPatches.Lib
