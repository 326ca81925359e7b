import PkgsrcPatches.Lib.Bytes

/-! The classic BPF machine: a 32-bit accumulator `A`, an index register `X`,
forward jumps counted in instructions, and a load outside the packet that
rejects it. -/
namespace PkgsrcPatches.Lib.ClassicBpf
open Bytes

/-- What a filter is run on. The machine holds the length in a 32-bit word. -/
structure Packet where
  bytes : List UInt8
  length_lt : bytes.length < 2^32

def Packet.drop (p : Packet) (n : Nat) : Packet :=
  ⟨p.bytes.drop n, by have := p.length_lt; rw [List.length_drop]; omega⟩

inductive Size where
  | b | h | w

def Size.bytes : Size → Nat
  | .b => 1
  | .h => 2
  | .w => 4

inductive Mode where
  | abs (k : Nat)
  | ind (k : Nat)
  | len
  | imm (k : Nat)

inductive Alu where
  | add | sub | and

inductive Src where
  | k (v : Nat)
  | x

inductive Jmp where
  | jeq | jge

inductive Insn where
  | ld (s : Size) (m : Mode)
  | ldxMsh (k : Nat)
  | alu (op : Alu) (src : Src)
  | jmp (op : Jmp) (k jt jf : Nat)
  | ret (k : Nat)
  | tax

structure Regs where
  A : Nat
  X : Nat

def word (v : Nat) : Nat := v % 2^32

def Mode.load (p : Packet) (s : Size) (r : Regs) : Mode → Option Nat
  | .abs k => be? p.bytes k s.bytes
  | .ind k => be? p.bytes (r.X + k) s.bytes
  | .len => some (word p.bytes.length)
  | .imm k => some k

def Src.val (r : Regs) : Src → Nat
  | .k v => v
  | .x => r.X

/-- Arithmetic is modulo the word: a subtraction below zero wraps around. -/
def Alu.eval (a v : Nat) : Alu → Nat
  | .add => word (a + v)
  | .sub => word (a + 2^32 - v)
  | .and => Nat.land a v

def Jmp.test (a k : Nat) : Jmp → Bool
  | .jeq => a == k
  | .jge => decide (k ≤ a)

/-- Run a program, `skip` instructions still to be jumped over. Zero rejects. -/
def run (p : Packet) : List Insn → (skip : Nat) → Regs → Nat
  | [], _, _ => 0
  | _ :: prog, n+1, r => run p prog n r
  | .ld s m :: prog, 0, r => match m.load p s r with
    | none => 0
    | some v => run p prog 0 { r with A := v }
  | .ldxMsh k :: prog, 0, r => match be? p.bytes k 1 with
    | none => 0
    | some v => run p prog 0 { r with X := 4 * (v % 16) }
  | .alu op src :: prog, 0, r => run p prog 0 { r with A := op.eval r.A (src.val r) }
  | .jmp op k jt jf :: prog, 0, r => run p prog (if op.test r.A k then jt else jf) r
  | .ret k :: _, 0, _ => k
  | .tax :: prog, 0, r => run p prog 0 { r with X := r.A }

def filter (prog : List Insn) (p : Packet) : Nat := run p prog 0 ⟨0, 0⟩

def accepts (prog : List Insn) (p : Packet) : Prop := filter prog p ≠ 0

instance (prog : List Insn) (p : Packet) : Decidable (accepts prog p) :=
  inferInstanceAs (Decidable (_ ≠ _))

theorem run_ret (p : Packet) {k : Nat} (prog : List Insn) (skip : Nat) (r : Regs)
    (h : ∀ v, Insn.ret v ∈ prog → v = 0 ∨ v = k) :
    run p prog skip r = 0 ∨ run p prog skip r = k := by
  fun_induction run p prog skip r with
  | case1 => exact Or.inl rfl
  | case3 => exact Or.inl rfl
  | case5 => exact Or.inl rfl
  | case9 v => exact h v (by simp)
  | case2 i prog n r ih => exact ih fun v hv => h v (by simp [hv])
  | case4 s m prog r v _ ih => exact ih fun v hv => h v (by simp [hv])
  | case6 k' prog r v _ ih => exact ih fun v hv => h v (by simp [hv])
  | case7 op src prog r ih => exact ih fun v hv => h v (by simp [hv])
  | case8 op k' jt jf prog r ih => exact ih fun v hv => h v (by simp [hv])
  | case10 prog r ih => exact ih fun v hv => h v (by simp [hv])

theorem filter_eq {k : Nat} {prog : List Insn} {p : Packet}
    (h : ∀ v, Insn.ret v ∈ prog → v = 0 ∨ v = k) (ha : accepts prog p) : filter prog p = k :=
  (run_ret p prog 0 ⟨0, 0⟩ h).resolve_left ha

/-! ### Weakest preconditions of acceptance, one instruction at a time -/

def wp (p : Packet) (prog : List Insn) (r : Regs) : Prop := run p prog 0 r ≠ 0

theorem accepts_iff_wp (prog : List Insn) (p : Packet) : accepts prog p ↔ wp p prog ⟨0, 0⟩ := Iff.rfl

theorem run_skip (p : Packet) (prog : List Insn) (n : Nat) (r : Regs) :
    run p prog n r = run p (prog.drop n) 0 r := by
  induction n generalizing prog with
  | zero => rfl
  | succ n ih => cases prog with
    | nil => rfl
    | cons i prog => exact ih prog

variable {p : Packet} {prog : List Insn} {r : Regs}

theorem run_ld (s : Size) (m : Mode) :
    run p (.ld s m :: prog) 0 r =
      (match m.load p s r with
      | none => 0
      | some v => run p prog 0 { r with A := v }) := rfl

theorem run_ldxMsh (k : Nat) :
    run p (.ldxMsh k :: prog) 0 r =
      (match be? p.bytes k 1 with
      | none => 0
      | some v => run p prog 0 { r with X := 4 * (v % 16) }) := rfl

theorem run_jmp (op : Jmp) (k jt jf : Nat) :
    run p (.jmp op k jt jf :: prog) 0 r =
      run p prog (if op.test r.A k then jt else jf) r := rfl

theorem wp_load (s : Size) (m : Mode) :
    wp p (.ld s m :: prog) r ↔ ∃ v, m.load p s r = some v ∧ wp p prog { r with A := v } := by
  cases h : m.load p s r <;> simp [wp, run_ld, h]

@[simp] theorem wp_ld_abs (s : Size) (k : Nat) :
    wp p (.ld s (.abs k) :: prog) r ↔
      k + s.bytes ≤ p.bytes.length ∧ wp p prog { r with A := beAt p.bytes k s.bytes } := by
  simp [wp_load, Mode.load, be?_eq_some, and_assoc]

@[simp] theorem wp_ld_ind (s : Size) (k : Nat) :
    wp p (.ld s (.ind k) :: prog) r ↔
      r.X + k + s.bytes ≤ p.bytes.length ∧
        wp p prog { r with A := beAt p.bytes (r.X + k) s.bytes } := by
  simp [wp_load, Mode.load, be?_eq_some, and_assoc]

@[simp] theorem wp_ld_len (s : Size) :
    wp p (.ld s .len :: prog) r ↔ wp p prog { r with A := p.bytes.length } := by
  have hw : word p.bytes.length = p.bytes.length := Nat.mod_eq_of_lt p.length_lt
  simp only [wp_load, Mode.load, hw, Option.some.injEq, exists_eq_left']

@[simp] theorem wp_ld_imm (s : Size) (k : Nat) :
    wp p (.ld s (.imm k) :: prog) r ↔ wp p prog { r with A := k } := by
  simp [wp_load, Mode.load]

@[simp] theorem wp_ldxMsh (k : Nat) :
    wp p (.ldxMsh k :: prog) r ↔
      k + 1 ≤ p.bytes.length ∧ wp p prog { r with X := 4 * (beAt p.bytes k 1 % 16) } := by
  by_cases h : k + 1 ≤ p.bytes.length
  · simp [wp, run_ldxMsh, be?_of_le h, h]
  · simp [wp, run_ldxMsh, be?_of_lt (Nat.lt_of_not_le h), h]

@[simp] theorem wp_alu (op : Alu) (src : Src) :
    wp p (.alu op src :: prog) r ↔ wp p prog { r with A := op.eval r.A (src.val r) } :=
  Iff.rfl

@[simp] theorem wp_jmp (op : Jmp) (k jt jf : Nat) :
    wp p (.jmp op k jt jf :: prog) r ↔
      if op.test r.A k then wp p (prog.drop jt) r else wp p (prog.drop jf) r := by
  simp only [wp, run_jmp]
  split <;> rw [run_skip]

@[simp] theorem wp_ret (k : Nat) : wp p (.ret k :: prog) r ↔ k ≠ 0 := Iff.rfl

@[simp] theorem wp_tax : wp p (.tax :: prog) r ↔ wp p prog { r with X := r.A } :=
  Iff.rfl

end PkgsrcPatches.Lib.ClassicBpf
