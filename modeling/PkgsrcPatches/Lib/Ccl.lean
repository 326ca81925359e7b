import Mathlib.Data.Fin.Basic
import Mathlib.Logic.Function.Basic

/-! CCL, the code conversion language of Emacs: statements, what they do, and the rules that say so.
There is always room for the output. -/
namespace PkgsrcPatches.Lib.Ccl

abbrev Reg := Fin 8

inductive Expr where
  | int (n : Int)
  | reg (r : Reg)
  | add (a b : Expr)
  | sub (a b : Expr)
  | eq (a b : Expr)
  | lt (a b : Expr)

inductive Stmt where
  | skip
  | seq (p q : Stmt)
  | set (r : Reg) (e : Expr)
  | ite (e : Expr) (p q : Stmt)
  | branch (e : Expr) (n : Nat) (blocks : Fin n → Stmt)
  | loop (p : Stmt)
  | brk
  | rep
  | read (r : Reg)
  | writeText (text : List Char)
  | write (r : Reg)

def block : List Stmt → Stmt := List.foldr .seq .skip

def branchOf (e : Expr) (blocks : List Stmt) : Stmt := .branch e blocks.length blocks.get

def readBranch (r : Reg) (blocks : List Stmt) : Stmt := .seq (.read r) (branchOf (.reg r) blocks)

def writeRepeat (r : Reg) : Stmt := .seq (.write r) .rep

def writeReadRepeat (r : Reg) : Stmt := .seq (.write r) (.seq (.read r) .rep)

structure State where
  reg : Reg → Int
  input : List Char
  output : List Char

inductive Flow where
  | next
  | brk
  | rep
  | eof
  | spin
deriving DecidableEq

def Expr.eval (reg : Reg → Int) : Expr → Int
  | int n => n
  | .reg r => reg r
  | add a b => a.eval reg + b.eval reg
  | sub a b => a.eval reg - b.eval reg
  | eq a b => if a.eval reg = b.eval reg then 1 else 0
  | lt a b => if a.eval reg < b.eval reg then 1 else 0

def State.set (s : State) (r : Reg) (v : Int) : State := { s with reg := Function.update s.reg r v }

def State.put (s : State) (text : List Char) : State := { s with output := s.output ++ text }

/-- A loop ends where its body does not go back to its head; `n` turns at most. -/
def turns : Nat → (State → Flow × State) → State → Flow × State
  | 0, _, s => (.spin, s)
  | n + 1, f, s =>
    match f s with
    | (.rep, s) => turns n f s
    | (.brk, s) | (.next, s) => (.next, s)
    | r => r

def exec (n : Nat) : Stmt → State → Flow × State
  | .skip, s => (.next, s)
  | .seq p q, s =>
    match exec n p s with
    | (.next, s) => exec n q s
    | r => r
  | .set r e, s => (.next, s.set r (e.eval s.reg))
  | .ite e p q, s => if e.eval s.reg ≠ 0 then exec n p s else exec n q s
  -- out of range, control falls through
  | .branch e k blocks, s =>
    if h : 0 ≤ e.eval s.reg ∧ (e.eval s.reg).toNat < k then
      exec n (blocks ⟨(e.eval s.reg).toNat, h.2⟩) s
    else (.next, s)
  | .loop p, s => turns n (exec n p) s
  | .brk, s => (.brk, s)
  | .rep, s => (.rep, s)
  | .read r, s =>
    match s.input with
    | [] => (.eof, s)
    | c :: input => (.next, { s.set r c.toNat with input := input })
  | .writeText text, s => (.next, s.put text)
  | .write r, s => (.next, s.put [Char.ofNat (s.reg r).toNat])

/-- `(BUFFER-MAGNIFICATION MAIN-BLOCK EOF-BLOCK)` -/
structure Program where
  main : Stmt
  eof : Stmt

/-- `ccl-execute-on-string` with all registers 0. -/
def Program.run (p : Program) (n : Nat) (input : List Char) : Option (List Char) :=
  match exec n p.main ⟨fun _ => 0, input, []⟩ with
  | (.next, s) => some s.output
  | (.eof, s) =>
    match exec n p.eof s with
    | (.next, s) => some s.output
    | _ => none
  | _ => none

/-! ### One statement -/

theorem turns_succ (n : Nat) (f : State → Flow × State) (s : State) :
    turns (n + 1) f s =
      match f s with
      | (.rep, s) => turns n f s
      | (.brk, s) | (.next, s) => (.next, s)
      | r => r := rfl

section
variable (n : Nat) (s : State)

theorem exec_seq (p q : Stmt) : exec n (.seq p q) s =
    match exec n p s with
    | (.next, s) => exec n q s
    | r => r := rfl

theorem exec_ite (e : Expr) (p q : Stmt) :
    exec n (.ite e p q) s = if e.eval s.reg ≠ 0 then exec n p s else exec n q s := rfl

theorem exec_branch (e : Expr) (k : Nat) (blocks : Fin k → Stmt) : exec n (.branch e k blocks) s =
    if h : 0 ≤ e.eval s.reg ∧ (e.eval s.reg).toNat < k then
      exec n (blocks ⟨(e.eval s.reg).toNat, h.2⟩) s
    else (.next, s) := rfl

theorem exec_loop (p : Stmt) : exec n (.loop p) s = turns n (exec n p) s := rfl

theorem exec_read (r : Reg) : exec n (.read r) s =
    match s.input with
    | [] => (.eof, s)
    | c :: input => (.next, { s.set r c.toNat with input := input }) := rfl

theorem exec_write (r : Reg) : exec n (.write r) s =
    (.next, s.put [Char.ofNat (s.reg r).toNat]) := rfl

end

/-! ### More turns -/

theorem turns_mono {f g : State → Flow × State}
    (hfg : ∀ s, (f s).1 ≠ .spin → g s = f s) {n m : Nat} {s : State} (hnm : n ≤ m)
    (h : (turns n f s).1 ≠ .spin) : turns m g s = turns n f s := by
  induction n generalizing m s with
  | zero => exact absurd rfl h
  | succ n ih =>
    obtain ⟨m, rfl⟩ : ∃ k, m = k + 1 := ⟨m - 1, by omega⟩
    rw [turns_succ] at h
    rw [turns_succ, turns_succ]
    have hne : (f s).1 ≠ .spin := by
      intro hs
      obtain ⟨s', hs'⟩ : ∃ s', f s = (.spin, s') := ⟨(f s).2, Prod.ext hs rfl⟩
      rw [hs'] at h
      exact h rfl
    rw [hfg s hne]
    cases hs : f s with
    | mk x s' =>
      cases x with
      | rep =>
        rw [hs] at h
        exact ih (Nat.le_of_succ_le_succ hnm) h
      | next | brk | eof | spin => rfl

theorem exec_mono {p : Stmt} {n m : Nat} (hnm : n ≤ m) {s : State} (h : (exec n p s).1 ≠ .spin) :
    exec m p s = exec n p s := by
  induction p generalizing s with
  | skip | set | brk | rep | read | writeText | write => rfl
  | seq p q ihp ihq =>
    have hp : (exec n p s).1 ≠ .spin := by
      intro hs
      obtain ⟨s', hs'⟩ : ∃ s', exec n p s = (.spin, s') := ⟨(exec n p s).2, Prod.ext hs rfl⟩
      rw [exec_seq, hs'] at h
      exact h rfl
    rw [exec_seq] at h
    rw [exec_seq, exec_seq, ihp hp]
    cases hs : exec n p s with
    | mk x s' =>
      cases x with
      | next =>
        rw [hs] at h
        exact ihq h
      | brk | rep | eof | spin => rfl
  | ite e p q ihp ihq =>
    rw [exec_ite] at h
    rw [exec_ite, exec_ite]
    split
    · rw [if_pos ‹_›] at h
      exact ihp h
    · rw [if_neg ‹_›] at h
      exact ihq h
  | branch e k blocks ih =>
    rw [exec_branch] at h
    rw [exec_branch, exec_branch]
    split
    · rw [dif_pos ‹_›] at h
      exact ih _ h
    · rfl
  | loop p ih => exact turns_mono (fun _ => ih) hnm h

/-! ### Rules -/

/-- With enough turns the statement ends as said. -/
def Ends (p : Stmt) (s : State) (Q : Flow → State → Prop) : Prop :=
  ∃ n, (exec n p s).1 ≠ .spin ∧ Q (exec n p s).1 (exec n p s).2

variable {p q : Stmt} {s : State} {Q R : Flow → State → Prop}

theorem Ends.mono (h : Ends p s Q) (hQ : ∀ f s', Q f s' → R f s') : Ends p s R := by
  obtain ⟨n, hn, h⟩ := h
  exact ⟨n, hn, hQ _ _ h⟩

theorem Ends.enough (h : Ends p s Q) :
    ∃ N f s', f ≠ .spin ∧ Q f s' ∧ ∀ n, N ≤ n → exec n p s = (f, s') := by
  obtain ⟨n, hn, h⟩ := h
  exact ⟨n, _, _, hn, h, fun m hm => exec_mono hm hn⟩

theorem ends_of_exec {n : Nat} {f : Flow} {s' : State} (h : exec n p s = (f, s')) (hf : f ≠ .spin)
    (hQ : Q f s') : Ends p s Q := by
  refine ⟨n, ?_⟩
  rw [h]
  exact ⟨hf, hQ⟩

theorem ends_skip (h : Q .next s) : Ends .skip s Q := ends_of_exec (n := 0) rfl (by simp) h

theorem ends_brk (h : Q .brk s) : Ends .brk s Q := ends_of_exec (n := 0) rfl (by simp) h

theorem ends_rep (h : Q .rep s) : Ends .rep s Q := ends_of_exec (n := 0) rfl (by simp) h

theorem ends_set {r : Reg} {e : Expr} (h : Q .next (s.set r (e.eval s.reg))) :
    Ends (.set r e) s Q := ends_of_exec (n := 0) rfl (by simp) h

theorem ends_writeText {text : List Char} (h : Q .next (s.put text)) :
    Ends (.writeText text) s Q := ends_of_exec (n := 0) rfl (by simp) h

theorem ends_write {r : Reg} {c : Char} (hc : s.reg r = c.toNat) (h : Q .next (s.put [c])) :
    Ends (.write r) s Q := by
  refine ends_of_exec (n := 0) ?_ (by simp) h
  rw [exec_write, hc, Int.toNat_natCast, Char.ofNat_toNat]

theorem ends_read_nil {r : Reg} (hs : s.input = []) (h : Q .eof s) : Ends (.read r) s Q := by
  refine ends_of_exec (n := 0) ?_ (by simp) h
  rw [exec_read, hs]

theorem ends_read_cons {r : Reg} {c : Char} {input : List Char} (hs : s.input = c :: input)
    (h : Q .next { s.set r c.toNat with input := input }) : Ends (.read r) s Q := by
  refine ends_of_exec (n := 0) ?_ (by simp) h
  rw [exec_read, hs]

/-- What is left of a sequence when its first statement has gone to `f`. -/
def Then (q : Stmt) (Q : Flow → State → Prop) : Flow → State → Prop
  | .next, s => Ends q s Q
  | f, s => Q f s

theorem then_next (h : Ends q s Q) : Then q Q .next s := h

theorem ends_seq (h : Ends p s (Then q Q)) : Ends (.seq p q) s Q := by
  obtain ⟨n, f, s', hf, h, hp⟩ := h.enough
  cases f with
  | next =>
    obtain ⟨m, x, s'', hx, hQ, hq⟩ := Ends.enough h
    refine ends_of_exec (n := max n m) ?_ hx hQ
    rw [exec_seq, hp _ (by omega)]
    exact hq _ (by omega)
  | brk | rep | eof =>
    refine ends_of_exec (n := n) ?_ hf h
    rw [exec_seq, hp n (Nat.le_refl n)]
  | spin => exact absurd rfl hf

theorem ends_writeText_seq {text : List Char} (h : Ends q (s.put text) Q) :
    Ends (.seq (.writeText text) q) s Q := ends_seq (ends_writeText h)

theorem ends_set_seq {r : Reg} {e : Expr} (h : Ends q (s.set r (e.eval s.reg)) Q) :
    Ends (.seq (.set r e) q) s Q := ends_seq (ends_set h)

theorem ends_ite_true {e : Expr} (he : e.eval s.reg ≠ 0) (h : Ends p s Q) : Ends (.ite e p q) s Q := by
  obtain ⟨n, hn, h⟩ := h
  refine ends_of_exec (n := n) ?_ hn h
  rw [exec_ite, if_pos he]

theorem ends_ite_false {e : Expr} (he : e.eval s.reg = 0) (h : Ends q s Q) :
    Ends (.ite e p q) s Q := by
  obtain ⟨n, hn, h⟩ := h
  refine ends_of_exec (n := n) ?_ hn h
  rw [exec_ite, if_neg (by simpa using he)]

theorem ends_branch {e : Expr} {blocks : List Stmt} {k : Nat} {b : Stmt}
    (he : e.eval s.reg = k) (hb : blocks[k]? = some b) (h : Ends b s Q) :
    Ends (branchOf e blocks) s Q := by
  obtain ⟨hk, rfl⟩ := List.getElem?_eq_some_iff.mp hb
  obtain ⟨n, hn, h⟩ := h
  refine ends_of_exec (n := n) ?_ hn h
  have hin : 0 ≤ e.eval s.reg ∧ (e.eval s.reg).toNat < blocks.length := by omega
  have hget : blocks.get ⟨(e.eval s.reg).toNat, hin.2⟩ = blocks[k] := by simp [he]
  rw [branchOf, exec_branch, dif_pos hin, hget]

theorem ends_branch_out {e : Expr} {blocks : List Stmt} {k : Nat} (he : e.eval s.reg = k)
    (hk : blocks.length ≤ k) (h : Q .next s) : Ends (branchOf e blocks) s Q := by
  refine ends_of_exec (n := 0) ?_ (by simp) h
  have hout : ¬ (0 ≤ e.eval s.reg ∧ (e.eval s.reg).toNat < blocks.length) := by omega
  rw [branchOf, exec_branch, dif_neg hout]

/-- What is left of a loop when its body has gone to `f`. -/
def Again (p : Stmt) (Q : Flow → State → Prop) : Flow → State → Prop
  | .rep, s => Ends (.loop p) s Q
  | .brk, s | .next, s => Q .next s
  | f, s => Q f s

theorem ends_loop (h : Ends p s (Again p Q)) : Ends (.loop p) s Q := by
  obtain ⟨n, f, s', hf, h, hp⟩ := h.enough
  cases f with
  | rep =>
    obtain ⟨m, x, s'', hx, hQ, hq⟩ := Ends.enough h
    refine ends_of_exec (n := max n m + 1) ?_ hx hQ
    have hmore : turns (max n m) (exec (max n m + 1) p) s' = (x, s'') := by
      have hloop : turns (max n m) (exec (max n m) p) s' = (x, s'') := hq _ (by omega)
      rw [← hloop]
      exact turns_mono (fun s hs => exec_mono (Nat.le_succ _) hs) (Nat.le_refl _)
        (by rw [hloop]; exact hx)
    rw [exec_loop, turns_succ, hp _ (by omega)]
    exact hmore
  | brk | next =>
    refine ends_of_exec (n := n + 1) ?_ (by simp) h
    rw [exec_loop, turns_succ, hp _ (by omega)]
  | eof =>
    refine ends_of_exec (n := n + 1) ?_ hf h
    rw [exec_loop, turns_succ, hp _ (by omega)]
  | spin => exact absurd rfl hf

/-! ### Compound statements -/

def State.took (s : State) (r : Reg) (c : Char) (input : List Char) : State :=
  { s.set r c.toNat with input := input }

theorem ends_writeRepeat {r : Reg} {c : Char} (hc : s.reg r = c.toNat) (h : Q .rep (s.put [c])) :
    Ends (writeRepeat r) s Q := ends_seq (ends_write hc (ends_rep h))

variable {r : Reg} {blocks : List Stmt} {c : Char} {input : List Char}

theorem ends_readBranch_nil (hs : s.input = []) (h : Q .eof s) :
    Ends (.seq (readBranch r blocks) q) s Q :=
  ends_seq (ends_seq (ends_read_nil hs h))

theorem ends_readBranch_in {b : Stmt} (hs : s.input = c :: input) (hb : blocks[c.toNat]? = some b)
    (h : Ends b (s.took r c input) fun f s' => f ≠ .next ∧ Q f s') :
    Ends (.seq (readBranch r blocks) q) s Q := by
  refine ends_seq (ends_seq (ends_read_cons hs (ends_branch (k := c.toNat) ?_ hb (h.mono ?_))))
  · exact Function.update_self r _ _
  · intro f s' hQ
    cases f with
    | next => exact absurd rfl hQ.1
    | brk | rep | eof | spin => exact hQ.2

theorem ends_readBranch_out (hs : s.input = c :: input) (hc : blocks.length ≤ c.toNat)
    (h : Ends q (s.took r c input) Q) : Ends (.seq (readBranch r blocks) q) s Q := by
  refine ends_seq (ends_seq (ends_read_cons hs (ends_branch_out (k := c.toNat) ?_ hc h)))
  exact Function.update_self r _ _

theorem run_eof {prog : Program} {input text : List Char}
    (h : Ends prog.main ⟨fun _ => 0, input, []⟩ fun f s => f = .eof ∧
      Ends prog.eof s fun f s => f = .next ∧ s.output = text) :
    ∃ N, ∀ n, N ≤ n → prog.run n input = some text := by
  obtain ⟨n, f, s, -, ⟨rfl, heof⟩, hmain⟩ := h.enough
  obtain ⟨m, f, s', -, ⟨rfl, htext⟩, heof⟩ := heof.enough
  refine ⟨max n m, ?_⟩
  intro k hk
  rw [Program.run, hmain k (by omega)]
  dsimp only
  rw [heof k (by omega)]
  exact congrArg some htext

end PkgsrcPatches.Lib.Ccl
