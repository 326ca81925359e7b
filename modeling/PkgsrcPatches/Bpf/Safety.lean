import PkgsrcPatches.Bpf.Walk

/-! The walk over a buffer of which nothing is known, on an LP64 system. The guard
keeps every record inside the buffer, whatever its header says. -/
namespace PkgsrcPatches.Bpf
open Lib.Bytes Lib.Loop
variable {abi : Abi} {σ ρ : Type}

/-- Subtraction that refuses to go below zero. -/
def sub? (a b : Nat) : Option Nat := if b ≤ a then some (a - b) else none

theorem sub?_of_le {a b : Nat} (h : b ≤ a) : sub? a b = some (a - b) := if_pos h

theorem leNat_slice_lt (b : List UInt8) (i n : Nat) : leNat (slice b i n) < 256 ^ n := by
  refine Nat.lt_of_lt_of_le (leNat_lt _) (Nat.pow_le_pow_right (by omega) ?_)
  rw [length_slice]; omega

theorem host?_of_le (abi : Abi) {b : List UInt8} {i n : Nat} (h : i + n ≤ b.length) :
    ∃ v, abi.host? b i n = some v ∧ v < 256 ^ n := by
  rw [Abi.host?]
  split
  · exact ⟨_, be?_of_le h, beAt_lt b i n⟩
  · exact ⟨_, by rw [le?, slice?_of_le h]; rfl, leNat_slice_lt b i n⟩

theorem bpfHdr?_of_le {buf : List UInt8} {off : Nat} (h : off + abi.sizeofBpfHdr ≤ buf.length) :
    ∃ bh, abi.bpfHdr? buf off = some bh ∧ bh.bhCaplen < 2^32 ∧ bh.bhDatalen < 2^32 ∧
      bh.bhHdrlen < 2^16 := by
  have h1 := abi.caplen_le
  have h2 := abi.datalen_le
  have h3 := abi.hdrlen_le
  obtain ⟨c, hc, hc'⟩ := host?_of_le abi
    (show off + abi.offsetofCaplen + 4 ≤ buf.length by omega)
  obtain ⟨d, hd, hd'⟩ := host?_of_le abi
    (show off + abi.offsetofDatalen + 4 ≤ buf.length by omega)
  obtain ⟨l, hl, hl'⟩ := host?_of_le abi
    (show off + abi.offsetofHdrlen + 2 ≤ buf.length by omega)
  refine ⟨⟨c, d, l⟩, ?_, hc', hd', hl'⟩
  simp only [Abi.bpfHdr?, hc, hd, hl, Option.bind_eq_bind, Option.bind_some]
  rfl

variable (abi) in
structure Guarded (buf : List UInt8) (off : Nat) (bh : BpfHdr) : Prop where
  whole : abi.sizeofBpfHdr ≤ bh.bhHdrlen
  inside : off + bh.bhHdrlen + bh.bhCaplen ≤ buf.length

theorem size_of_lp64 (h64 : abi.sizeBits = 64) {v : Nat} (h : v < 2^64) : abi.size v = v := by
  rw [Abi.size, h64]
  exact Nat.mod_eq_of_lt h

theorem sizeofBpfHdr_pos (abi : Abi) : 0 < abi.sizeofBpfHdr := by
  have := abi.hdrlen_le
  omega

theorem head?_guarded (h64 : abi.sizeBits = 64) {buf : List UInt8} (hs : buf.length < 2^63)
    {off : Nat} (ho : off < 2^63 + 2^15) :
    abi.head? buf off = some .stop ∨
      ∃ bh, abi.head? buf off = some (.record bh) ∧ Guarded abi buf off bh := by
  have hz := abi.sizeof_lt
  rw [Abi.head?, size_of_lp64 h64 (by omega)]
  by_cases hin : off + abi.sizeofBpfHdr ≤ buf.length
  swap
  · rw [if_neg hin]; exact Or.inl rfl
  obtain ⟨bh, hbh, hc, -, hl⟩ := bpfHdr?_of_le hin
  rw [if_pos hin, hbh]
  simp only [Option.bind_eq_bind, Option.bind_some]
  rw [size_of_lp64 h64 (v := off + bh.bhHdrlen) (by omega), size_of_lp64 h64 (by omega)]
  by_cases hg : bh.bhHdrlen < abi.sizeofBpfHdr ∨ buf.length < off + bh.bhHdrlen + bh.bhCaplen
  · rw [if_pos hg]; exact Or.inl rfl
  · rw [if_neg hg]
    exact Or.inr ⟨bh, rfl, by omega, by omega⟩

theorem bpfWordalign_lp64 (h64 : abi.sizeBits = 64) {x : Nat} (h : x < 2^63) :
    x ≤ abi.bpfWordalign x ∧ abi.bpfWordalign x < x + 2^15 := by
  have ha := abi.align_lt
  have hp := abi.align_pos
  have hd := Nat.lt_div_mul_add (a := x + (abi.bpfAlignment - 1)) hp
  have hm := Nat.div_mul_le_self (x + (abi.bpfAlignment - 1)) abi.bpfAlignment
  rw [Abi.bpfWordalign, size_of_lp64 h64 (by omega)]
  omega

section Guarded
variable {buf : List UInt8} {off : Nat} {bh : BpfHdr} (g : Guarded abi buf off bh)
include g

theorem advance_lt (h64 : abi.sizeBits = 64) (hs : buf.length < 2^63) :
    abi.advance off bh < 2^63 + 2^15 := by
  have hi := g.inside
  have hu : uInt (bh.bhHdrlen + bh.bhCaplen) ≤ bh.bhHdrlen + bh.bhCaplen := Nat.mod_le _ _
  have hw := (bpfWordalign_lp64 h64 (x := uInt (bh.bhHdrlen + bh.bhCaplen)) (by omega)).2
  rw [Abi.advance, size_of_lp64 h64 (by omega)]
  omega

/-- In a buffer whose size a `u_int` counts the sum of the two lengths does not
wrap either, and each step goes forward. -/
theorem lt_advance (h64 : abi.sizeBits = 64) (hs : buf.length < 2^32) :
    off < abi.advance off bh := by
  have hi := g.inside
  have hw := g.whole
  have hp := sizeofBpfHdr_pos abi
  have hu : uInt (bh.bhHdrlen + bh.bhCaplen) = bh.bhHdrlen + bh.bhCaplen :=
    Nat.mod_eq_of_lt (by omega)
  have ha := bpfWordalign_lp64 h64 (x := bh.bhHdrlen + bh.bhCaplen) (by omega)
  rw [Abi.advance, hu, size_of_lp64 h64 (by omega)]
  omega

theorem slice?_guarded :
    slice? buf (off + bh.bhHdrlen) bh.bhCaplen = some (slice buf (off + bh.bhHdrlen) bh.bhCaplen) ∧
      (slice buf (off + bh.bhHdrlen) bh.bhCaplen).length = bh.bhCaplen :=
  ⟨slice?_of_le g.inside, slice_length _ _ _ g.inside⟩

end Guarded

section Walk
variable {buf : List UInt8} {live : σ → Bool} {visit : Nat → BpfHdr → σ → Option (Pass σ ρ)}
  {fin : σ → ρ} {P : σ → Prop} {Q : ρ → Prop}

/-- One pass where the guard stops or lets a record through that lies inside: the decoder's
own part need be safe on such records only. -/
theorem walkPass_holds (hfin : ∀ s, P s → Q (fin s))
    (hvisit : ∀ off bh s, Guarded abi buf off bh → live s = true → P s →
      ∃ p, visit off bh s = some p ∧ p.Holds P Q) {off : Nat} {s : σ} (hP : P s)
    (hhead : live s = true → abi.head? buf off = some .stop ∨
      ∃ bh, abi.head? buf off = some (.record bh) ∧ Guarded abi buf off bh) :
    ∃ p, abi.walkPass buf live visit fin (off, s) = some p ∧
      p.Holds (fun x => (∃ bh, Guarded abi buf off bh ∧ x.1 = abi.advance off bh) ∧ P x.2) Q := by
  by_cases hl : live s = true
  swap
  · exact ⟨_, walkPass_dead (by simpa using hl), hfin s hP⟩
  obtain hstop | ⟨bh, hrec, g⟩ := hhead hl
  · exact ⟨_, walkPass_stop hstop, hfin s hP⟩
  obtain ⟨p, hp, hh⟩ := hvisit off bh s g hl hP
  simp only [Abi.walkPass, hl, if_true, hrec, hp, Option.bind_eq_bind, Option.bind_some]
  cases p with
  | done r => exact ⟨.done r, rfl, hh⟩
  | next s' => exact ⟨.next (abi.advance off bh, s'), rfl, ⟨bh, g, rfl⟩, hh⟩

theorem walkPass_guarded (h64 : abi.sizeBits = 64) (hs : buf.length < 2^63)
    (hfin : ∀ s, P s → Q (fin s))
    (hvisit : ∀ off bh s, Guarded abi buf off bh → live s = true → P s →
      ∃ p, visit off bh s = some p ∧ p.Holds P Q) {off : Nat} {s : σ} (ho : off < 2^63 + 2^15)
    (hP : P s) :
    ∃ p, abi.walkPass buf live visit fin (off, s) = some p ∧
      p.Holds (fun x => (x.1 < 2^63 + 2^15 ∧ P x.2) ∧
        (buf.length < 2^32 → buf.length - x.1 < buf.length - off)) Q := by
  obtain ⟨p, hp, hh⟩ := walkPass_holds hfin hvisit hP fun _ => head?_guarded h64 hs ho
  refine ⟨p, hp, hh.imp ?_⟩
  rintro x ⟨⟨bh, g, hx⟩, hP'⟩
  refine ⟨⟨hx ▸ advance_lt g h64 hs, hP'⟩, fun h32 => ?_⟩
  have hadv := lt_advance g h64 h32
  have hi := g.inside
  have hw := g.whole
  have hp := sizeofBpfHdr_pos abi
  omega

theorem walk_safe (h64 : abi.sizeBits = 64) (hs : buf.length < 2^63)
    (hfin : ∀ s, P s → Q (fin s))
    (hvisit : ∀ off bh s, Guarded abi buf off bh → live s = true → P s →
      ∃ p, visit off bh s = some p ∧ p.Holds P Q) (n : Nat) (s : σ) (hP : P s) :
    run (abi.walkPass buf live visit fin) n (0, s) = .spin ∨
      ∃ r, run (abi.walkPass buf live visit fin) n (0, s) = .ret r ∧ Q r := by
  have hbody (x : Nat × σ) (hx : x.1 < 2^63 + 2^15 ∧ P x.2) :
      ∃ p, abi.walkPass buf live visit fin x = some p ∧
        p.Holds (fun x' => x'.1 < 2^63 + 2^15 ∧ P x'.2) Q := by
    obtain ⟨p, hp, hh⟩ := walkPass_guarded h64 hs hfin hvisit hx.1 hx.2
    exact ⟨p, hp, hh.imp fun _ h => h.1⟩
  exact run_safe hbody n (0, s) ⟨by simp, hP⟩

theorem walk_total (h64 : abi.sizeBits = 64) (hs : buf.length < 2^32)
    (hfin : ∀ s, P s → Q (fin s))
    (hvisit : ∀ off bh s, Guarded abi buf off bh → live s = true → P s →
      ∃ p, visit off bh s = some p ∧ p.Holds P Q) (n : Nat) (hn : buf.length < n) (s : σ)
    (hP : P s) :
    ∃ r, run (abi.walkPass buf live visit fin) n (0, s) = .ret r ∧ Q r := by
  have hbody (x : Nat × σ) (hx : x.1 < 2^63 + 2^15 ∧ P x.2) :
      ∃ p, abi.walkPass buf live visit fin x = some p ∧
        p.Holds (fun x' => (x'.1 < 2^63 + 2^15 ∧ P x'.2) ∧
          buf.length - x'.1 < buf.length - x.1) Q := by
    obtain ⟨p, hp, hh⟩ := walkPass_guarded h64 (by omega) hfin hvisit hx.1 hx.2
    exact ⟨p, hp, hh.imp fun _ h => ⟨h.1, h.2 hs⟩⟩
  exact run_total (fun x => buf.length - x.1) hbody n (0, s) ⟨by simp, hP⟩ hn

end Walk

end PkgsrcPatches.Bpf
