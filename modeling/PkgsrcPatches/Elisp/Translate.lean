import Mathlib.Data.List.Basic
import Mathlib.Logic.Relation
import PkgsrcPatches.Elisp.Reader
import PkgsrcPatches.Elisp.ClassBracket

/-! `e20-translate`: one pass over the regexp, with a stack of the places where
the atoms start in the output. -/
namespace PkgsrcPatches.Elisp

/-- An entry of `atoms`: a number, or the cons of `group` and the entry that was on top at
the closing parenthesis. -/
inductive Start where
  | missing
  | number (n : Nat)
  | group (s : Start)
deriving DecidableEq

/-- The variables of the loop; `out` and `groups` are in reverse. -/
structure Translation where
  out : List (List Char)
  groups : List (Option Nat)
  orig : Nat
  atoms : List Start
deriving DecidableEq

namespace Translation

def emitted (t : Translation) : List Char := t.out.reverse.flatten

def atom (t : Translation) (s : List Char) : Translation :=
  { t with out := s :: t.out, atoms := .number t.emitted.length :: t.atoms }

/-- The parenthesis of a group; its entry counts the pieces of `out`, not the characters. -/
def openGroup (t : Translation) : Translation :=
  { t with out := ['\\', '('] :: t.out, atoms := .number t.out.length :: t.atoms }

def capture (t : Translation) : Translation :=
  { t.openGroup with orig := t.orig + 1, groups := some (t.orig + 1) :: t.groups }

def shy (t : Translation) : Translation :=
  { t.openGroup with groups := none :: t.groups }

def closeGroup (t : Translation) : Translation :=
  { t with
    out := ['\\', ')'] :: t.out
    atoms := .group (t.atoms.headD .missing) :: t.atoms.tail }

end Translation

def throughInterval : List Char → Option (List Char × List Char)
  | a :: b :: t =>
    if a = '\\' ∧ b = '}' then some ([], t)
    else (throughInterval (b :: t)).map (Prod.map (a :: ·) id)
  | _ => none

def stringToInt (s : List Char) : Nat := digitsValue (readDigits s).1

def e20Bounds (spec : List Char) : Nat × Option Nat :=
  if ',' ∈ spec then
    let before := spec.takeWhile (· ≠ ',')
    let after := spec.drop (before.length + 1)
    (stringToInt before, if after = [] then none else some (stringToInt after))
  else (stringToInt spec, some (stringToInt spec))

/-- The copies that take the place of the atom. -/
def e20Rep (lo : Nat) (hi : Option Nat) (atom : List Char) : List Char :=
  (List.replicate lo atom).flatten ++ match hi with
    | none => atom ++ ['*']
    | some h => (List.replicate (h - lo) (atom ++ ['?'])).flatten

/-- Where the code takes the atom to start; no number makes `substring` fail. -/
def Start.offset : Start → Option Nat
  | .number n => some n
  | .group (.number n) => some n
  | _ => none

def Translation.interval (t : Translation) (spec : List Char) : Option Translation :=
  match (t.atoms.headD .missing).offset with
  | none => none
  | some a =>
    if a ≤ t.emitted.length then
      let (lo, hi) := e20Bounds spec
      some { t with
        out := [t.emitted.take a ++ e20Rep lo hi (t.emitted.drop a)]
        atoms := t.atoms.tail }
    else none

/-- `[a-z]` of the test for a class; `fold` is `case-fold-search`. -/
def classLetter (fold : Bool) (c : Char) : Bool :=
  ('a'.toNat ≤ c.toNat && c.toNat ≤ 'z'.toNat) ||
    (fold && 'A'.toNat ≤ c.toNat && c.toNat ≤ 'Z'.toNat)

def namesClass (fold : Bool) : List Char → Bool
  | [] => false
  | c :: t =>
    (c = '[' && t.head? = some ':' && t.tail.takeWhile (classLetter fold) ≠ [] &&
      (t.tail.dropWhile (classLetter fold)).take 2 = [':', ']']) || namesClass fold t

/-- The test for a bracket expression that holds a class: up to the first `]` after the
second character. -/
def classPath (fold : Bool) : List Char → Option Bool
  | a :: b :: t =>
    some (if ']' ∈ t then namesClass fold (a :: b :: (t.takeWhile (· ≠ ']') ++ [']'])) else false)
  | _ => none

def copyBracket (t : List Char) : List Char × List Char :=
  let neg := if t.head? = some '^' then ['^'] else []
  let t := t.drop neg.length
  let close := if t.head? = some ']' then [']'] else []
  let t := t.drop close.length
  let body := t.takeWhile (· ≠ ']')
  ('[' :: (neg ++ close ++ body ++ [']']), (t.drop body.length).tail)

/-- A backslash and `d`, before the text `re`. -/
def e20Escape (t : Translation) (d : Char) (re : List Char) : Option (Translation × List Char) :=
  if d = '(' then
    if re.take 2 = ['?', ':'] then some (t.shy, re.drop 2) else some (t.capture, re)
  else if d = ')' then some (t.closeGroup, re)
  else if d = '_' ∧ (re.head? = some '<' ∨ re.head? = some '>') then
    some (t.atom ('\\' :: re.take 1), re.tail)
  else if d = '{' then
    match throughInterval re with
    | none => none
    | some (spec, re) => (t.interval spec).map (Prod.mk · re)
  else some (t.atom ['\\', d], re)

def e20OpenBracket (fold : Bool) (t : Translation) (re : List Char) :
    Option (Translation × List Char) :=
  match classPath fold ('[' :: re) with
  | none => none
  | some true => match e20Bracket ('[' :: re) with
    | none => none
    | some ((text, isGroup), re) =>
      some (if isGroup then { t.atom text with groups := none :: t.groups } else t.atom text, re)
  | some false => some (t.atom (copyBracket re).1, (copyBracket re).2)

/-- One pass of the loop: the state and the text still to come. -/
def e20Step (fold : Bool) (t : Translation) : List Char → Option (Translation × List Char)
  | [] => none
  | c :: re =>
    if c = '\\' then
      match re with
      | [] => some (t.atom [c], [])
      | d :: re => e20Escape t d re
    else if c = '[' then e20OpenBracket fold t re
    else some (t.atom [c], re)

def e20Loop (fold : Bool) : Nat → Translation → List Char → Option Translation
  | _, t, [] => some t
  | 0, _, _ :: _ => none
  | n+1, t, c :: re => match e20Step fold t (c :: re) with
    | none => none
    | some (t', re') => e20Loop fold n t' re'

def Translation.start : Translation := ⟨[], [], 0, []⟩

/-- The translated regexp and, for each of its groups, the caller's number or `none`; `none`
where an error is signalled. -/
def e20Translate (fold : Bool) (re : List Char) : Option (List Char × List (Option Nat)) :=
  (e20Loop fold re.length .start re).map fun t => (t.emitted, t.groups.reverse)

/-! ### Every pass consumes part of the regexp -/

theorem throughClass_length {t key rest : List Char} (h : throughClass t = some (key, rest)) :
    rest.length < t.length := by
  induction t generalizing key with
  | nil => exact nomatch h
  | cons a t ih =>
    cases t with
    | nil => exact nomatch h
    | cons b t =>
      unfold throughClass at h
      split at h
      · obtain ⟨rfl, rfl⟩ := Prod.mk.inj (Option.some.inj h)
        simp only [List.length_cons]
        omega
      · obtain ⟨⟨key', rest'⟩, h', hp⟩ := Option.map_eq_some_iff.mp h
        obtain ⟨_, rfl⟩ := Prod.mk.inj hp
        have hlt := ih h'
        simp only [id, List.length_cons] at hlt ⊢
        omega

theorem throughInterval_length {t spec rest : List Char}
    (h : throughInterval t = some (spec, rest)) : rest.length < t.length := by
  induction t generalizing spec with
  | nil => exact nomatch h
  | cons a t ih =>
    cases t with
    | nil => exact nomatch h
    | cons b t =>
      unfold throughInterval at h
      split at h
      · obtain ⟨rfl, rfl⟩ := Prod.mk.inj (Option.some.inj h)
        simp only [List.length_cons]
        omega
      · obtain ⟨⟨spec', rest'⟩, h', hp⟩ := Option.map_eq_some_iff.mp h
        obtain ⟨_, rfl⟩ := Prod.mk.inj hp
        have hlt := ih h'
        simp only [id, List.length_cons] at hlt ⊢
        omega

theorem rangeEnd_length {t rest : List Char} {b : Char} (h : rangeEnd t = some (b, rest)) :
    rest.length < t.length := by
  unfold rangeEnd at h
  split at h
  · split at h
    · obtain ⟨rfl, rfl⟩ := Prod.mk.inj (Option.some.inj h)
      simp only [List.length_cons]
      omega
    · exact nomatch h
  · exact nomatch h

theorem e20BracketLoop_length {n : Nat} {first : Bool} {m m' : Marks} {t rest : List Char}
    (h : e20BracketLoop n first m t = some (m', rest)) : rest.length ≤ t.length := by
  induction n generalizing first m t with
  | zero => exact nomatch h
  | succ n ih =>
    cases t with
    | nil =>
      obtain ⟨_, rfl⟩ := Prod.mk.inj (Option.some.inj h)
      exact Nat.le_refl _
    | cons c t =>
      unfold e20BracketLoop at h
      split at h
      · obtain ⟨_, rfl⟩ := Prod.mk.inj (Option.some.inj h)
        exact Nat.le_refl _
      · split at h
        · split at h
          · exact nomatch h
          · have hkey := throughClass_length ‹throughClass _ = _›
            split at h
            · exact nomatch h
            · exact Nat.le_trans (ih h) (Nat.le_of_lt hkey)
        · split at h
          · have hend := rangeEnd_length ‹rangeEnd _ = _›
            have hle := ih h
            simp only [List.length_cons]
            omega
          · have hle := ih h
            simp only [List.length_cons]
            omega

theorem e20Bracket_length {re text rest : List Char} {g : Bool}
    (h : e20Bracket re = some ((text, g), rest)) : rest.length ≤ re.length - 1 := by
  simp only [e20Bracket] at h
  split at h
  · exact nomatch h
  · have hle := e20BracketLoop_length ‹e20BracketLoop _ _ _ _ = _›
    have hskip : (if re.tail.head? = some '^' then re.tail.tail else re.tail).length ≤
        re.length - 1 := by
      split
      · simp only [List.length_tail]
        omega
      · simp only [List.length_tail]
        omega
    obtain ⟨_, rfl⟩ := Prod.mk.inj (Option.some.inj h)
    simp only [List.length_tail]
    omega

theorem copyBracket_length (t : List Char) : (copyBracket t).2.length ≤ t.length := by
  simp only [copyBracket, List.length_tail, List.length_drop]
  omega

theorem e20Escape_length {t t' : Translation} {d : Char} {re re' : List Char}
    (h : e20Escape t d re = some (t', re')) : re'.length ≤ re.length := by
  unfold e20Escape at h
  split at h
  · split at h
    · obtain ⟨_, rfl⟩ := Prod.mk.inj (Option.some.inj h)
      simp only [List.length_drop]
      omega
    · obtain ⟨_, rfl⟩ := Prod.mk.inj (Option.some.inj h)
      exact Nat.le_refl _
  · split at h
    · obtain ⟨_, rfl⟩ := Prod.mk.inj (Option.some.inj h)
      exact Nat.le_refl _
    · split at h
      · obtain ⟨_, rfl⟩ := Prod.mk.inj (Option.some.inj h)
        simp only [List.length_tail]
        omega
      · split at h
        · split at h
          · exact nomatch h
          · have hlt := throughInterval_length ‹throughInterval _ = _›
            obtain ⟨t'', _, hp⟩ := Option.map_eq_some_iff.mp h
            obtain ⟨_, rfl⟩ := Prod.mk.inj hp
            exact Nat.le_of_lt hlt
        · obtain ⟨_, rfl⟩ := Prod.mk.inj (Option.some.inj h)
          exact Nat.le_refl _

theorem e20OpenBracket_length {fold : Bool} {t t' : Translation} {re re' : List Char}
    (h : e20OpenBracket fold t re = some (t', re')) : re'.length ≤ re.length := by
  unfold e20OpenBracket at h
  split at h
  · exact nomatch h
  · split at h
    · exact nomatch h
    · have hle := e20Bracket_length ‹e20Bracket _ = _›
      obtain ⟨_, rfl⟩ := Prod.mk.inj (Option.some.inj h)
      simpa using hle
  · have hle := copyBracket_length re
    obtain ⟨_, rfl⟩ := Prod.mk.inj (Option.some.inj h)
    exact hle

theorem e20Step_length {fold : Bool} {t t' : Translation} {re re' : List Char}
    (h : e20Step fold t re = some (t', re')) : re'.length < re.length := by
  cases re with
  | nil => exact nomatch h
  | cons c re =>
    simp only [e20Step] at h
    split at h
    · cases re with
      | nil =>
        obtain ⟨_, rfl⟩ := Prod.mk.inj (Option.some.inj h)
        simp
      | cons d re =>
        have hle := e20Escape_length h
        simp only [List.length_cons]
        omega
    · split at h
      · have hle := e20OpenBracket_length h
        simp only [List.length_cons]
        omega
      · obtain ⟨_, rfl⟩ := Prod.mk.inj (Option.some.inj h)
        simp

def Runs (fold : Bool) : Translation × List Char → Translation × List Char → Prop :=
  Relation.ReflTransGen fun a b => e20Step fold a.1 a.2 = some b

theorem Runs.loop {fold : Bool} {t t' : Translation} {re : List Char}
    (h : Runs fold (t, re) (t', [])) {n : Nat} (hn : re.length ≤ n) :
    e20Loop fold n t re = some t' := by
  suffices ∀ a : Translation × List Char, Runs fold a (t', []) → ∀ n, a.2.length ≤ n →
      e20Loop fold n a.1 a.2 = some t' from this _ h n hn
  intro a ha
  induction ha using Relation.ReflTransGen.head_induction_on with
  | refl =>
    intro n _
    unfold e20Loop
    rfl
  | head hstep hrest ih =>
    rename_i a b
    obtain ⟨t₁, re₁⟩ := a
    obtain ⟨t₂, re₂⟩ := b
    intro n hn
    have hlt := e20Step_length hstep
    cases re₁ with
    | nil => exact nomatch hstep
    | cons c re₁ =>
      cases n with
      | zero => exact (Nat.not_succ_le_zero _ hn).elim
      | succ n =>
        simp only [e20Loop, hstep]
        exact ih n (by simp only [List.length_cons] at hlt hn ⊢; omega)

theorem e20Translate_of_runs {fold : Bool} {re : List Char} {t : Translation}
    (h : Runs fold (.start, re) (t, [])) :
    e20Translate fold re = some (t.emitted, t.groups.reverse) := by
  rw [e20Translate, h.loop (Nat.le_refl _)]
  rfl

end PkgsrcPatches.Elisp
