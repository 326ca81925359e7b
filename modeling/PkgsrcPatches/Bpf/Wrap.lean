import PkgsrcPatches.Bpf.Safety
import PkgsrcPatches.Lib.Transition

/-! The walk where `size_t` has 32 bits, as many as `bh_caplen`. The sum the guard compares
may come round there, and the guard does its work exactly where it does not. -/
namespace PkgsrcPatches.Bpf
open Lib Lib.Bytes Lib.Loop
variable {abi : Abi} {σ ρ : Type}

variable (abi) in
/-- What the guard is for, at one record it lets through. -/
structure Kept (buf : List UInt8) (off : Nat) (bh : BpfHdr) : Prop where
  inside : off + bh.bhHdrlen + bh.bhCaplen ≤ buf.length
  forward : 0 < abi.bpfWordalign (uInt (bh.bhHdrlen + bh.bhCaplen))

variable (abi) in
/-- The sum of the guard comes round, to one that it lets through. -/
structure Wraps (buf : List UInt8) (off : Nat) (bh : BpfHdr) : Prop where
  header : off + abi.sizeofBpfHdr ≤ buf.length
  whole : abi.sizeofBpfHdr ≤ bh.bhHdrlen
  beyond : 2^32 ≤ off + bh.bhHdrlen + bh.bhCaplen
  passes : (off + bh.bhHdrlen + bh.bhCaplen) % 2^32 ≤ buf.length

variable (abi) in
/-- A buffer that leaves room for a header and padding in the address space, which no program
could be without. -/
def Addressable (buf : List UInt8) : Prop :=
  buf.length + abi.sizeofBpfHdr + abi.bpfAlignment ≤ 2^32

theorem le_of_bpfHdr? {buf : List UInt8} {off : Nat} {bh : BpfHdr}
    (h : abi.bpfHdr? buf off = some bh) : off ≤ buf.length := by
  by_contra hc
  have hout : ¬ off + abi.offsetofCaplen + 4 ≤ buf.length := by omega
  have hnone : abi.host? buf (off + abi.offsetofCaplen) 4 = none := by
    simp [Abi.host?, be?, le?, slice?, hout]
  rw [Abi.bpfHdr?, hnone] at h
  cases h

theorem bpfHdr?_of_head? {buf : List UInt8} {off : Nat} {bh : BpfHdr}
    (h : abi.head? buf off = some (.record bh)) : abi.bpfHdr? buf off = some bh := by
  rw [Abi.head?] at h
  split at h
  · cases hb : abi.bpfHdr? buf off with
    | none => rw [hb] at h; cases h
    | some b =>
      simp only [hb, Option.bind_eq_bind, Option.bind_some] at h
      split at h
      · cases h
      · cases h; rfl
  · cases h

theorem size_narrow (h32 : abi.sizeBits = 32) (v : Nat) : abi.size v = v % 2^32 := by
  rw [Abi.size, h32]

section Record
variable {buf : List UInt8} {off : Nat} {bh : BpfHdr} (h32 : abi.sizeBits = 32)
  (hroom : Addressable abi buf)
include h32 hroom

theorem head?_narrow (hbh : abi.bpfHdr? buf off = some bh)
    (hin : off + abi.sizeofBpfHdr ≤ buf.length) :
    abi.head? buf off = some (if bh.bhHdrlen < abi.sizeofBpfHdr ∨
      buf.length < (off + bh.bhHdrlen + bh.bhCaplen) % 2^32 then .stop else .record bh) := by
  rw [Addressable] at hroom
  have hsum : abi.size (abi.size (off + bh.bhHdrlen) + bh.bhCaplen) =
      (off + bh.bhHdrlen + bh.bhCaplen) % 2^32 := by
    rw [size_narrow h32, size_narrow h32, Nat.mod_add_mod]
  have hoff : abi.size (off + abi.sizeofBpfHdr) = off + abi.sizeofBpfHdr := by
    rw [size_narrow h32, Nat.mod_eq_of_lt]
    have := abi.align_pos
    omega
  rw [Abi.head?, hoff, if_pos hin, hbh]
  simp only [Option.bind_eq_bind, Option.bind_some, hsum]
  split <;> rfl

theorem head?_outside (hout : buf.length < off + abi.sizeofBpfHdr)
    (ho : off < buf.length + abi.bpfAlignment) : abi.head? buf off = some .stop := by
  rw [Addressable] at hroom
  rw [Abi.head?, size_narrow h32, Nat.mod_eq_of_lt (by omega), if_neg (by omega)]
  rfl

theorem head?_record_iff (hbh : abi.bpfHdr? buf off = some bh) :
    abi.head? buf off = some (.record bh) ↔ off + abi.sizeofBpfHdr ≤ buf.length ∧
      abi.sizeofBpfHdr ≤ bh.bhHdrlen ∧
      (off + bh.bhHdrlen + bh.bhCaplen) % 2^32 ≤ buf.length := by
  by_cases hin : off + abi.sizeofBpfHdr ≤ buf.length
  · rw [head?_narrow h32 hroom hbh hin, Option.some.injEq]
    split
    · exact iff_of_false (fun h => by cases h) (by omega)
    · exact iff_of_true rfl (by omega)
  · have ho := le_of_bpfHdr? hbh
    have hp := abi.align_pos
    rw [head?_outside h32 hroom (by omega) (by omega)]
    exact iff_of_false (fun h => by cases h) fun h => hin h.1

theorem guarded_of_not_wraps (hbh : abi.bpfHdr? buf off = some bh) (hno : ¬Wraps abi buf off bh)
    (hrec : abi.head? buf off = some (.record bh)) : Guarded abi buf off bh := by
  obtain ⟨hin, hw, hsum⟩ := (head?_record_iff h32 hroom hbh).mp hrec
  have hover : off + bh.bhHdrlen + bh.bhCaplen < 2^32 := by
    by_contra hc
    exact hno ⟨hin, hw, by omega, hsum⟩
  rw [Nat.mod_eq_of_lt hover] at hsum
  exact ⟨hw, hsum⟩

theorem bpfWordalign_guarded (g : Guarded abi buf off bh) :
    bh.bhHdrlen + bh.bhCaplen ≤ abi.bpfWordalign (uInt (bh.bhHdrlen + bh.bhCaplen)) ∧
      abi.bpfWordalign (uInt (bh.bhHdrlen + bh.bhCaplen)) <
        bh.bhHdrlen + bh.bhCaplen + abi.bpfAlignment := by
  rw [Addressable] at hroom
  have hi := g.inside
  have hp := abi.align_pos
  have hz := sizeofBpfHdr_pos abi
  have hd := Nat.lt_div_mul_add (a := bh.bhHdrlen + bh.bhCaplen + (abi.bpfAlignment - 1)) hp
  have hm := Nat.div_mul_le_self (bh.bhHdrlen + bh.bhCaplen + (abi.bpfAlignment - 1))
    abi.bpfAlignment
  rw [Abi.bpfWordalign, uInt, Nat.mod_eq_of_lt (by omega), size_narrow h32,
    Nat.mod_eq_of_lt (by omega)]
  omega

theorem advance_guarded (g : Guarded abi buf off bh) :
    off < abi.advance off bh ∧ abi.advance off bh < buf.length + abi.bpfAlignment := by
  have hw := bpfWordalign_guarded h32 hroom g
  rw [Addressable] at hroom
  have hi := g.inside
  have hh := g.whole
  have hz := sizeofBpfHdr_pos abi
  rw [Abi.advance, size_narrow h32, Nat.mod_eq_of_lt (by omega)]
  omega

theorem kept_iff (hbh : abi.bpfHdr? buf off = some bh) :
    (abi.head? buf off = some (.record bh) → Kept abi buf off bh) ↔ ¬Wraps abi buf off bh := by
  constructor
  · intro h hw
    have hi := (h ((head?_record_iff h32 hroom hbh).mpr ⟨hw.header, hw.whole, hw.passes⟩)).inside
    have ho := hw.beyond
    have hp := abi.align_pos
    rw [Addressable] at hroom
    omega
  · intro hno hrec
    have g := guarded_of_not_wraps h32 hroom hbh hno hrec
    have hw := (bpfWordalign_guarded h32 hroom g).1
    have hh := g.whole
    have hz := sizeofBpfHdr_pos abi
    exact ⟨g.inside, by omega⟩

end Record

/-- A decoder as its loop condition, what it does with a record, what it returns and where it
starts. -/
structure Walker (σ ρ : Type) where
  live : σ → Bool
  visit : Nat → BpfHdr → σ → Option (Pass σ ρ)
  fin : σ → ρ
  start : σ

section Walk
variable (abi) (buf : List UInt8) (w : Walker σ ρ)

def Walker.pass : Nat × σ → Option (Pass (Nat × σ) ρ) := abi.walkPass buf w.live w.visit w.fin

def Walker.run (passes : Nat) : Exit ρ := Loop.run (w.pass abi buf) passes (0, w.start)

def Walker.AtHead : Nat × σ → Prop :=
  Reaches (· = (0, w.start)) fun x y => w.pass abi buf x = some (.next y)

/-- The loop looks at the header at `off`, with `s` so far. -/
def Walker.Comes (off : Nat) (s : σ) : Prop := w.live s = true ∧ w.AtHead abi buf (off, s)

/-- Every record let through is kept, and the loop comes to an end inside the buffer. -/
structure Walker.Keeps : Prop where
  kept : ∀ off s bh, w.Comes abi buf off s → abi.head? buf off = some (.record bh) →
    Kept abi buf off bh
  inside : ∀ passes, w.run abi buf passes ≠ .stray
  ends : ∃ passes r, w.run abi buf passes = .ret r

/-- At no header that the loop looks at does the sum come round. -/
def Walker.NeverWraps : Prop :=
  ∀ off s bh, w.Comes abi buf off s → abi.bpfHdr? buf off = some bh → ¬Wraps abi buf off bh

variable {abi buf w} (h32 : abi.sizeBits = 32) (hroom : Addressable abi buf)
  (hvisit : ∀ off bh s, Guarded abi buf off bh → w.live s = true → ∃ p, w.visit off bh s = some p)
include h32 hroom

theorem head?_comes (hno : w.NeverWraps abi buf) {off : Nat} {s : σ} (hc : w.Comes abi buf off s)
    (ho : off < buf.length + abi.bpfAlignment) : abi.head? buf off = some .stop ∨
      ∃ bh, abi.head? buf off = some (.record bh) ∧ Guarded abi buf off bh := by
  by_cases hin : off + abi.sizeofBpfHdr ≤ buf.length
  swap
  · exact Or.inl (head?_outside h32 hroom (by omega) ho)
  obtain ⟨bh, hbh, -⟩ := bpfHdr?_of_le hin
  have hn := head?_narrow h32 hroom hbh hin
  split at hn
  · exact Or.inl hn
  · exact Or.inr ⟨bh, hn, guarded_of_not_wraps h32 hroom hbh (hno off s bh hc hbh) hn⟩

include hvisit

theorem pass_neverWraps (hno : w.NeverWraps abi buf) {x : Nat × σ} (hx : w.AtHead abi buf x)
    (ho : x.1 < buf.length + abi.bpfAlignment) :
    ∃ p, w.pass abi buf x = some p ∧
      p.Holds (fun y => (w.AtHead abi buf y ∧ y.1 < buf.length + abi.bpfAlignment) ∧
        buf.length - y.1 < buf.length - x.1) fun _ => True := by
  have hsafe : ∀ off bh s, Guarded abi buf off bh → w.live s = true → True →
      ∃ p, w.visit off bh s = some p ∧ p.Holds (fun _ => True) fun _ => True := by
    intro off bh s g hl _
    obtain ⟨p, hp⟩ := hvisit off bh s g hl
    refine ⟨p, hp, ?_⟩
    cases p <;> trivial
  obtain ⟨off, s⟩ := x
  have hfin : ∀ s, True → (fun _ => True) (w.fin s) := fun _ _ => trivial
  obtain ⟨p, hp, hh⟩ := walkPass_holds hfin hsafe trivial
    fun hl => head?_comes h32 hroom hno ⟨hl, hx⟩ ho
  refine ⟨p, hp, ?_⟩
  cases p with
  | done r => trivial
  | next y =>
    obtain ⟨⟨bh, g, hy⟩, -⟩ := hh
    have hadv := advance_guarded h32 hroom g
    have hi := g.inside
    have hw := g.whole
    have hz := sizeofBpfHdr_pos abi
    rw [← hy] at hadv
    exact ⟨⟨hx.next hp, hadv.2⟩, by omega⟩

theorem keeps_iff : w.Keeps abi buf ↔ w.NeverWraps abi buf := by
  constructor
  · intro h off s bh hc hbh
    exact (kept_iff h32 hroom hbh).mp (h.kept off s bh hc)
  · intro hno
    have hstart : (0, w.start).1 < buf.length + abi.bpfAlignment :=
      Nat.add_pos_right _ abi.align_pos
    have hpass := fun x (hx : w.AtHead abi buf x ∧ _) =>
      pass_neverWraps h32 hroom hvisit hno hx.1 hx.2
    refine ⟨fun off s bh hc hrec => ?_, fun passes => ?_, ?_⟩
    · have hbh := bpfHdr?_of_head? hrec
      exact (kept_iff h32 hroom hbh).mpr (hno off s bh hc hbh) hrec
    · have hrun := run_safe (fun x hx => (hpass x hx).imp fun p hp => ⟨hp.1, hp.2.imp fun _ h => h.1⟩)
        passes (0, w.start) ⟨.start rfl, hstart⟩
      intro hstray
      rw [Walker.run] at hstray
      rw [hstray] at hrun
      obtain h | ⟨r, h, -⟩ := hrun <;> cases h
    · obtain ⟨r, hr, -⟩ := run_total (fun x => buf.length - x.1) hpass (buf.length + 1) (0, w.start)
        ⟨.start rfl, hstart⟩ (by dsimp only; omega)
      exact ⟨_, r, hr⟩

end Walk

end PkgsrcPatches.Bpf
