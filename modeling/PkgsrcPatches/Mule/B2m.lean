import PkgsrcPatches.Lib.CString
import PkgsrcPatches.Lib.Lines
import Mathlib.Data.List.TakeWhile

/-! `b2m_gets`, which reads a line into `data[256]`, against the `gets` it replaces. -/
namespace PkgsrcPatches.Mule
open Lib Lib.Lines

def newline : UInt8 := 10

def dataSize : Nat := 256

/-- Memory from `data` on, what was read of the input and what is still to come. -/
structure B2m where
  mem : List UInt8
  read : List UInt8
  stdin : List UInt8

/-- What `fgets` takes: up to a newline, and at most `room` characters. -/
def fgetsTakes : Nat → List UInt8 → List UInt8
  | 0, _ => []
  | _ + 1, [] => []
  | room + 1, c :: s => if c = newline then [c] else c :: fgetsTakes room s

/-- `fgets (data, size, stdin)`; `none` is `NULL`. -/
def fgets (size : Nat) (s : B2m) : Option B2m :=
  if s.stdin = [] then none else
  let line := fgetsTakes (size - 1) s.stdin
  some ⟨line ++ 0 :: s.mem.drop (line.length + 1), s.read ++ line, s.stdin.drop line.length⟩

def B2m.string (s : B2m) : List UInt8 := s.mem.takeWhile (· ≠ 0)

def B2m.dropNewline (s : B2m) : B2m :=
  let len := s.string.length
  if 0 < len ∧ s.mem[len - 1]? = some newline then { s with mem := s.mem.set (len - 1) 0 } else s

def b2mGets (s : B2m) : Option B2m := (fgets dataSize s).map (·.dropNewline)

def gets (stdin : List UInt8) : Option (List UInt8 × List UInt8) :=
  if stdin = [] then none else
  some (stdin.takeWhile (· ≠ newline), (stdin.dropWhile (· ≠ newline)).tail)

/-- After `n` calls; one that returns `NULL` changes nothing. -/
def B2m.after (s : B2m) : Nat → B2m
  | 0 => s
  | n + 1 => ((b2mGets s).getD s).after n

def B2m.returned (s : B2m) : Option (List UInt8) := (b2mGets s).map (·.string)

/-! ### One call -/

section Takes
variable {room left : Nat} {s : List UInt8}

theorem fgetsTakes_append (left : Nat) (s : List UInt8) :
    fgetsTakes left s ++ s.drop (fgetsTakes left s).length = s := by
  induction s generalizing left with
  | nil => cases left <;> rfl
  | cons c s ih =>
    cases left with
    | zero => rfl
    | succ left =>
      rw [fgetsTakes]
      split
      · rfl
      · rw [List.length_cons, List.drop_succ_cons, List.cons_append, ih]

theorem length_fgetsTakes_le (left : Nat) (s : List UInt8) : (fgetsTakes left s).length ≤ left := by
  induction s generalizing left with
  | nil => cases left <;> exact Nat.zero_le _
  | cons c s ih =>
    cases left with
    | zero => exact Nat.le_refl _
    | succ left =>
      rw [fgetsTakes]
      split
      · exact Nat.succ_le_succ (Nat.zero_le _)
      · exact Nat.succ_le_succ (ih left)

theorem fgetsTakes_chomp (left : Nat) (s : List UInt8) :
    fgetsTakes left s = chomp newline (fgetsTakes left s) ∨
      fgetsTakes left s = chomp newline (fgetsTakes left s) ++ [newline] := by
  induction s generalizing left with
  | nil => cases left <;> exact Or.inl rfl
  | cons c s ih =>
    cases left with
    | zero => exact Or.inl rfl
    | succ left =>
      rw [fgetsTakes]
      by_cases hc : c = newline
      · rw [if_pos hc, hc]
        exact Or.inr rfl
      · rw [if_neg hc]
        have hcons : chomp newline (c :: fgetsTakes left s) = c :: chomp newline (fgetsTakes left s) :=
          List.takeWhile_cons_of_pos (by simpa using hc)
        rw [hcons]
        obtain h | h := ih left
        · exact Or.inl (congrArg (c :: ·) h)
        · exact Or.inr (congrArg (c :: ·) h)

theorem pieces_fgetsTakes (hl : 0 < left) (hs : s ≠ []) : pieces newline room left s =
    fgetsTakes left s :: pieces newline room room (s.drop (fgetsTakes left s).length) := by
  induction s generalizing left with
  | nil => exact (hs rfl).elim
  | cons c s ih =>
    obtain ⟨left, rfl⟩ : ∃ n, left = n + 1 := ⟨left - 1, by omega⟩
    rw [pieces, fgetsTakes]
    by_cases hc : c = newline
    · rw [if_pos (Or.inl hc), if_pos hc, hc]
      rfl
    rw [if_neg hc]
    by_cases hone : left + 1 ≤ 1
    · obtain rfl : left = 0 := by omega
      rw [if_pos (Or.inr hone)]
      rfl
    rw [if_neg (not_or.mpr ⟨hc, hone⟩), Nat.add_sub_cancel]
    cases s with
    | nil => cases left <;> rfl
    | cons d s =>
      rw [ih (by omega) (List.cons_ne_nil _ _)]
      rfl

end Takes

def SameBeyond (s t : B2m) : Prop :=
  t.mem.length = s.mem.length ∧ t.mem.drop dataSize = s.mem.drop dataSize

theorem takeWhile_nul {line : List UInt8} (h0 : (0 : UInt8) ∉ line) (rest : List UInt8) :
    (line ++ 0 :: rest).takeWhile (· ≠ 0) = line := by
  rw [List.takeWhile_append_of_pos fun c hc => ?_]
  · simp
  · have hne : c ≠ 0 := fun h => h0 (h ▸ hc)
    simpa using hne

theorem drop_store {line mem : List UInt8} {size : Nat} (h : line.length ≤ size)
    (hm : size ≤ mem.length) :
    (line ++ mem.drop line.length).length = mem.length ∧
      (line ++ mem.drop line.length).drop size = mem.drop size := by
  constructor
  · rw [List.length_append, List.length_drop]; omega
  · rw [List.drop_append, List.drop_eq_nil_of_le h, List.nil_append, List.drop_drop]
    congr 1
    omega

theorem dropNewline_mem {s : B2m} {line rest : List UInt8} (hmem : s.mem = line ++ 0 :: rest)
    (h0 : (0 : UInt8) ∉ line)
    (hshape : line = chomp newline line ∨ line = chomp newline line ++ [newline]) :
    ∃ behind, s.dropNewline = { s with mem := chomp newline line ++ 0 :: behind } ∧
      (chomp newline line ++ 0 :: behind).length = s.mem.length ∧
      (line.length ≤ 255 → (chomp newline line ++ 0 :: behind).drop 256 = s.mem.drop 256) := by
  have hstring : s.string = line := by rw [B2m.string, hmem, takeWhile_nul h0]
  rw [B2m.dropNewline, hstring]
  obtain hq | hq := hshape
  · refine ⟨rest, ?_, by rw [← hq, ← hmem], fun _ => by rw [← hq, ← hmem]⟩
    have hno : ¬(0 < line.length ∧ s.mem[line.length - 1]? = some newline) := by
      rintro ⟨hpos, hlast⟩
      rw [hmem, List.getElem?_append_left (by omega)] at hlast
      have hin : newline ∈ chomp newline line := hq ▸ List.mem_of_getElem? hlast
      have hne := List.mem_takeWhile_imp hin
      simp at hne
    rw [← hq, ← hmem, if_neg hno]
  · generalize chomp newline line = q at *
    have hyes : 0 < line.length ∧ s.mem[line.length - 1]? = some newline := by
      rw [hmem, hq]
      simp
    refine ⟨0 :: rest, ?_, ?_, fun hlen => ?_⟩
    · rw [if_pos hyes, hmem, hq]
      simp
    · rw [hmem, hq]
      simp
    · have hbehind (a b : UInt8) : (q ++ a :: b :: rest).drop 256 = rest.drop (256 - (q.length + 2)) := by
        rw [hq, List.length_append, List.length_singleton] at hlen
        have happend : q ++ a :: b :: rest = (q ++ [a, b]) ++ rest := by simp
        have hshort : (q ++ [a, b]).length = q.length + 2 := by simp
        rw [happend, List.drop_append, List.drop_eq_nil_of_le (by omega), hshort, List.nil_append]
      rw [hmem, hq, List.append_assoc, List.singleton_append, hbehind, hbehind]

theorem b2mGets_some {s : B2m} (hs : s.stdin ≠ []) (h0 : (0 : UInt8) ∉ s.stdin) :
    ∃ t, b2mGets s = some t ∧ t.string = chomp newline (fgetsTakes 255 s.stdin) ∧
      t.read = s.read ++ fgetsTakes 255 s.stdin ∧
      t.stdin = s.stdin.drop (fgetsTakes 255 s.stdin).length ∧
      (dataSize ≤ s.mem.length → SameBeyond s t) := by
  have hlen := length_fgetsTakes_le 255 s.stdin
  have hsplit := fgetsTakes_append 255 s.stdin
  have hshape := fgetsTakes_chomp 255 s.stdin
  have hnul : (0 : UInt8) ∉ fgetsTakes 255 s.stdin := fun h => h0 (hsplit ▸ List.mem_append_left _ h)
  have hsub : dataSize - 1 = 255 := rfl
  rw [b2mGets, fgets, if_neg hs, hsub]
  generalize fgetsTakes 255 s.stdin = line at *
  obtain ⟨behind, hdrop, hlength, hbeyond⟩ := dropNewline_mem
    (s := ⟨line ++ 0 :: s.mem.drop (line.length + 1), s.read ++ line, s.stdin.drop line.length⟩)
    rfl hnul hshape
  have hchomp : (0 : UInt8) ∉ chomp newline line :=
    fun h => hnul (List.takeWhile_subset _ h)
  refine ⟨_, congrArg some hdrop, takeWhile_nul hchomp behind, rfl, rfl, fun hm => ?_⟩
  have hshort : (line ++ [0]).length ≤ 256 := by
    rw [List.length_append, List.length_singleton]; omega
  have hfront : line ++ 0 :: s.mem.drop (line.length + 1) =
      (line ++ [0]) ++ s.mem.drop (line ++ [0]).length := by simp
  have hstore := drop_store hshort hm
  rw [← hfront] at hstore
  exact ⟨hlength.trans hstore.1, (hbeyond hlen).trans hstore.2⟩

/-! ### Calls in sequence -/

def cut (input : List UInt8) : List (List UInt8) := pieces newline 255 255 input

theorem cut_stdin {s : B2m} (hs : s.stdin ≠ []) : cut s.stdin =
    fgetsTakes 255 s.stdin :: cut (s.stdin.drop (fgetsTakes 255 s.stdin).length) :=
  pieces_fgetsTakes (by decide) hs

theorem b2mGets_end {s : B2m} (hs : s.stdin = []) : b2mGets s = none := by
  rw [b2mGets, fgets, if_pos hs]
  rfl

theorem after_spec {s : B2m} (h0 : (0 : UInt8) ∉ s.stdin) (n : Nat) :
    (0 : UInt8) ∉ (s.after n).stdin ∧ cut (s.after n).stdin = (cut s.stdin).drop n ∧
      (s.after n).read = s.read ++ ((cut s.stdin).take n).flatten ∧
      (dataSize ≤ s.mem.length → SameBeyond s (s.after n)) := by
  induction n generalizing s with
  | zero => exact ⟨h0, rfl, (List.append_nil _).symm, fun _ => ⟨rfl, rfl⟩⟩
  | succ n ih =>
    rw [B2m.after]
    by_cases hs : s.stdin = []
    · rw [b2mGets_end hs, Option.getD_none]
      obtain ⟨h0', hcut, hread, hbeyond⟩ := ih h0
      have hnil : cut s.stdin = [] := by rw [hs]; rfl
      rw [hnil] at hcut hread ⊢
      rw [List.drop_nil] at hcut ⊢
      rw [List.take_nil] at hread ⊢
      exact ⟨h0', hcut, hread, hbeyond⟩
    · obtain ⟨t, hget, -, hread, hstdin, hsame⟩ := b2mGets_some hs h0
      have h0t : (0 : UInt8) ∉ t.stdin := fun h => h0 (List.drop_subset _ _ (hstdin ▸ h))
      obtain ⟨h0', hcut, hread', hbeyond⟩ := ih h0t
      rw [hget, Option.getD_some, cut_stdin hs, ← hstdin]
      refine ⟨h0', hcut, ?_, fun hm => ?_⟩
      · rw [hread', hread, List.take_succ_cons, List.flatten_cons, List.append_assoc]
      · have hsame := hsame hm
        have hrest := hbeyond (hsame.1 ▸ hm)
        exact ⟨hrest.1.trans hsame.1, hrest.2.trans hsame.2⟩

theorem returned_after {s : B2m} (h0 : (0 : UInt8) ∉ s.stdin) (n : Nat) :
    (s.after n).returned = ((cut s.stdin)[n]?).map (chomp newline) := by
  obtain ⟨h0', hcut, -, -⟩ := after_spec h0 n
  rw [← List.head?_drop, ← hcut, B2m.returned]
  by_cases hs : (s.after n).stdin = []
  · rw [b2mGets_end hs, hs]
    rfl
  · obtain ⟨t, hget, hstring, -⟩ := b2mGets_some hs h0'
    rw [hget, cut_stdin hs, List.head?_cons, Option.map_some, Option.map_some, hstring]

/-! ### Lines -/

/-- The input behind `n` lines that `gets` read. -/
def behindGets : Nat → List UInt8 → List UInt8
  | 0, input => input
  | n + 1, input => behindGets n ((gets input).elim input Prod.snd)

theorem lines_gets {c : UInt8} {s : List UInt8} : ∃ l, lines newline (c :: s) =
    l :: lines newline ((c :: s).dropWhile (· ≠ newline)).tail ∧
      chomp newline l = (c :: s).takeWhile (· ≠ newline) := by
  induction s generalizing c with
  | nil =>
    by_cases hc : c = newline
    · exact ⟨[c], by simp [lines, hc], rfl⟩
    · exact ⟨[c], by simp [lines, hc, consHead], rfl⟩
  | cons d s ih =>
    rw [lines]
    by_cases hc : c = newline
    · exact ⟨[c], by simp [hc], by simp [chomp, hc]⟩
    · obtain ⟨l, hl, hchomp⟩ := ih (c := d)
      have hdrop : (c :: d :: s).dropWhile (· ≠ newline) = (d :: s).dropWhile (· ≠ newline) :=
        List.dropWhile_cons_of_pos (by simpa using hc)
      refine ⟨c :: l, by rw [if_neg hc, hl, hdrop]; rfl, ?_⟩
      rw [List.takeWhile_cons_of_pos (by simpa using hc), ← hchomp]
      exact List.takeWhile_cons_of_pos (by simpa using hc)

theorem gets_lines (n : Nat) (input : List UInt8) : (gets (behindGets n input)).map Prod.fst =
    ((lines newline input)[n]?).map (chomp newline) := by
  induction n generalizing input with
  | zero =>
    cases input with
    | nil => rfl
    | cons c s =>
      obtain ⟨l, hl, hchomp⟩ := lines_gets (c := c) (s := s)
      rw [hl, List.getElem?_cons_zero, Option.map_some, hchomp]
      rfl
  | succ n ih =>
    rw [behindGets, ih]
    cases input with
    | nil => rfl
    | cons c s =>
      obtain ⟨l, hl, -⟩ := lines_gets (c := c) (s := s)
      rw [hl, List.getElem?_cons_succ]
      rfl

def eooh : List UInt8 := [42, 42, 42, 32, 69, 79, 79, 72, 32, 42, 42, 42]

def separator : List UInt8 := [31, 12]

/-- What was read from `s` to `t` is one of the lines of the input, at its place. -/
def WholeLine (input : List UInt8) (s t : B2m) : Prop :=
  ∃ pre l post, lines newline input = pre ++ l :: post ∧ s.read = pre.flatten ∧ t.read = s.read ++ l

/-- The calls on an input return what `gets` did, and what is compared equal to a marker is a
whole line. -/
structure ReadsLines (mem input : List UInt8) : Prop where
  returned : ∀ n, ((⟨mem, [], input⟩ : B2m).after n).returned =
    ((lines newline input)[n]?).map (chomp newline)
  markers : ∀ n t, b2mGets ((⟨mem, [], input⟩ : B2m).after n) = some t →
    t.string = eooh ∨ t.string = separator → WholeLine input ((⟨mem, [], input⟩ : B2m).after n) t

theorem cut_eq_lines {input : List UInt8} (h : ∀ l ∈ lines newline input, l.length ≤ 255) :
    cut input = lines newline input :=
  pieces_eq_lines (by decide) (by decide) (fit_self.mpr h)

theorem wholeLine_of_cut {mem input : List UInt8} (h0 : (0 : UInt8) ∉ input)
    (hcut : cut input = lines newline input) {n : Nat} {t : B2m}
    (ht : b2mGets ((⟨mem, [], input⟩ : B2m).after n) = some t) :
    WholeLine input ((⟨mem, [], input⟩ : B2m).after n) t := by
  obtain ⟨h0', hdrop, hread, -⟩ := after_spec (s := ⟨mem, [], input⟩) h0 n
  generalize (⟨mem, [], input⟩ : B2m).after n = s at *
  have hs : s.stdin ≠ [] := by
    intro hs
    rw [b2mGets_end hs] at ht
    cases ht
  obtain ⟨t', ht', -, hread', -⟩ := b2mGets_some hs h0'
  obtain rfl := Option.some.inj (ht.symm.trans ht')
  rw [cut_stdin hs, hcut] at hdrop
  rw [hcut] at hread
  exact ⟨(lines newline input).take n, _, _,
    (congrArg ((lines newline input).take n ++ ·) hdrop).trans (List.take_append_drop n _) |>.symm,
    hread, hread'⟩

/-- `b2m_gets` never writes behind `data`, and it reads as `gets` did if and only if every line
fits, with its newline, in what `fgets` takes. -/
theorem b2m_readsLines_iff {mem input : List UInt8} (h0 : (0 : UInt8) ∉ input)
    (hm : dataSize ≤ mem.length) :
    (∀ n, SameBeyond ⟨mem, [], input⟩ ((⟨mem, [], input⟩ : B2m).after n)) ∧
      (ReadsLines mem input ↔ ∀ l ∈ lines newline input, l.length ≤ 255) := by
  refine ⟨fun n => (after_spec (s := ⟨mem, [], input⟩) h0 n).2.2.2 hm, ?_, ?_⟩
  · intro h
    by_contra hlong
    have hlt : (lines newline input).length < (cut input).length :=
      length_lines_lt (by decide) (by decide) fun hf => hlong (fit_self.mp hf)
    have hnth := (returned_after (s := ⟨mem, [], input⟩) h0 _).symm.trans
      (h.returned (lines newline input).length)
    rw [List.getElem?_eq_none (Nat.le_refl _), Option.map_none, Option.map_eq_none_iff] at hnth
    exact (Nat.not_lt.mpr (List.getElem?_eq_none_iff.mp hnth)) hlt
  · intro h
    have hcut := cut_eq_lines h
    refine ⟨fun n => ?_, fun n t ht _ => wholeLine_of_cut h0 hcut ht⟩
    rw [← hcut]
    exact returned_after (s := ⟨mem, [], input⟩) h0 n

def shortMail : List UInt8 := [72, 105, newline] ++ eooh ++ [newline]

theorem b2m_readsLines_short :
    (∀ n, SameBeyond ⟨List.replicate 256 0, [], shortMail⟩
      ((⟨List.replicate 256 0, [], shortMail⟩ : B2m).after n)) ∧
    (ReadsLines (List.replicate 256 0) shortMail ↔
      ∀ l ∈ lines newline shortMail, l.length ≤ 255) :=
  b2m_readsLines_iff (by decide) (by rw [List.length_replicate]; decide)

def longMail : List UInt8 := List.replicate 255 120 ++ eooh ++ [newline]

/-- The end of the line is returned as a string of its own, the marker, though it is no line. -/
theorem b2m_marker_in_line :
    ((⟨List.replicate 256 0, [], longMail⟩ : B2m).after 1).returned = some eooh ∧
      (lines newline longMail).length = 1 ∧ ¬ReadsLines (List.replicate 256 0) longMail := by
  have hone : (lines newline longMail).length = 1 := by decide +kernel
  have hreturned : ((⟨List.replicate 256 0, [], longMail⟩ : B2m).after 1).returned = some eooh := by
    decide +kernel
  refine ⟨hreturned, hone, fun h => ?_⟩
  have hnone := h.returned 1
  rw [hreturned, List.getElem?_eq_none (by omega)] at hnone
  cases hnone

end PkgsrcPatches.Mule
