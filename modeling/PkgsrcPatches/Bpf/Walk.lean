import PkgsrcPatches.Bpf.Header
import PkgsrcPatches.Lib.Loop
import Mathlib.Data.List.TakeWhile

/-! The loop both decoders run over a read buffer: header, guard, step to the
next `BPF_WORDALIGN` boundary. On a laid buffer it is a scan of the records. -/
namespace PkgsrcPatches.Bpf
open Lib.Bytes Lib.Loop
variable {abi : Abi} {σ ρ : Type}

/-- A record either decoder looks at; anything else ends its loop. -/
inductive Head where
  | stop
  | record (bh : BpfHdr)

variable (abi) in
/-- The loop condition and the guard against a header that points outside the
buffer, in `size_t` arithmetic. -/
def Abi.head? (buf : List UInt8) (off : Nat) : Option Head :=
  if abi.size (off + abi.sizeofBpfHdr) ≤ buf.length then do
    let bh ← abi.bpfHdr? buf off
    if bh.bhHdrlen < abi.sizeofBpfHdr ∨
        buf.length < abi.size (abi.size (off + bh.bhHdrlen) + bh.bhCaplen) then
      pure .stop
    else
      pure (.record bh)
  else
    pure .stop

variable (abi) in
def Abi.advance (off : Nat) (bh : BpfHdr) : Nat :=
  abi.size (off + abi.bpfWordalign (uInt (bh.bhHdrlen + bh.bhCaplen)))

variable (abi) in
/-- One pass: `live` is the decoder's own loop condition, `visit` what it does
with the record at `off`, `fin` what it returns when the loop ends. -/
def Abi.walkPass (buf : List UInt8) (live : σ → Bool)
    (visit : Nat → BpfHdr → σ → Option (Pass σ ρ)) (fin : σ → ρ) :
    Nat × σ → Option (Pass (Nat × σ) ρ)
  | (off, s) => if live s then do
      match ← abi.head? buf off with
      | .stop => pure (.done (fin s))
      | .record bh => match ← visit off bh s with
        | .next s' => pure (.next (abi.advance off bh, s'))
        | .done r => pure (.done r)
    else
      pure (.done (fin s))

/-! ### One record -/

theorem host?_append_right (a b : List UInt8) (i n : Nat) :
    abi.host? (a ++ b) (a.length + i) n = abi.host? b i n := by
  simp only [Abi.host?, be?, le?, slice?_append_right]

theorem host?_append_left (a b : List UInt8) (i n v : Nat) (h : abi.host? a i n = some v) :
    abi.host? (a ++ b) i n = some v := by
  have hle : i + n ≤ a.length := by
    by_contra hc
    simp [Abi.host?, be?, le?, slice?, hc] at h
  simpa only [Abi.host?, be?, le?, slice?_append_left a b i n hle] using h

theorem bpfHdr?_append_right (a b : List UInt8) :
    abi.bpfHdr? (a ++ b) a.length = abi.bpfHdr? b 0 := by
  simp only [Abi.bpfHdr?, host?_append_right, Nat.zero_add]

theorem bpfHdr?_append_left (a b : List UInt8) (i : Nat) {bh : BpfHdr}
    (h : abi.bpfHdr? a i = some bh) : abi.bpfHdr? (a ++ b) i = some bh := by
  simp only [Abi.bpfHdr?, Option.bind_eq_bind, Option.bind_eq_some_iff, Option.pure_def] at h
  obtain ⟨c, hc, d, hd, l, hl, he⟩ := h
  simp only [Abi.bpfHdr?, host?_append_left _ _ _ _ _ hc, host?_append_left _ _ _ _ _ hd,
    host?_append_left _ _ _ _ _ hl]
  exact he

theorem bpfHdr?_record (pre tail : List UInt8) (r : Record abi) :
    abi.bpfHdr? (pre ++ (r.bytes ++ tail)) pre.length =
      some ⟨r.frame.length, r.datalen, r.hdr.length⟩ := by
  rw [bpfHdr?_append_right, Record.bytes, List.append_assoc]
  exact bpfHdr?_append_left _ _ _ r.fields

theorem Record.hdr_pos (r : Record abi) : 0 < r.hdr.length := by
  by_contra hc
  have h0 : r.hdr = [] := List.length_eq_zero_iff.mp (by omega)
  have h := r.fields
  simp [Abi.bpfHdr?, Abi.host?, be?, le?, slice?, h0] at h

theorem Abi.size_of_lt {v : Nat} (h : v < 2 * abi.ssizeMax) : abi.size v = v := by
  have hb := abi.bits_ge
  have h2 : 2 * abi.ssizeMax = 2^abi.sizeBits := by
    rw [Abi.ssizeMax, ← Nat.pow_succ']; congr 1; omega
  exact Nat.mod_eq_of_lt (h2 ▸ h)

theorem Abi.ssizeMax_ge : 2^31 ≤ abi.ssizeMax :=
  Nat.pow_le_pow_right (by omega) (by have := abi.bits_ge; omega)

/-- The decoders look at a record only when its header is a whole `struct bpf_hdr`. -/
def Record.visible (r : Record abi) : Bool := decide (abi.sizeofBpfHdr ≤ r.hdr.length)

theorem Record.visible_iff {r : Record abi} :
    r.visible = true ↔ abi.sizeofBpfHdr ≤ r.hdr.length := by
  simp [Record.visible]

def Record.bpfHdr (r : Record abi) : BpfHdr := ⟨r.frame.length, r.datalen, r.hdr.length⟩

theorem head?_record {pre tail : List UInt8} {r : Record abi}
    (hs : (pre ++ (r.bytes ++ tail)).length < abi.ssizeMax) (hv : r.visible = true) :
    abi.head? (pre ++ (r.bytes ++ tail)) pre.length = some (.record r.bpfHdr) := by
  have hv' := Record.visible_iff.mp hv
  have hm := abi.ssizeMax_ge
  simp only [Record.bytes, List.length_append] at hs
  have h1 : abi.size (pre.length + abi.sizeofBpfHdr) = pre.length + abi.sizeofBpfHdr :=
    Abi.size_of_lt (by omega)
  have h2 : abi.size (pre.length + r.hdr.length) = pre.length + r.hdr.length :=
    Abi.size_of_lt (by omega)
  have h3 : abi.size (pre.length + r.hdr.length + r.frame.length) =
      pre.length + r.hdr.length + r.frame.length := Abi.size_of_lt (by omega)
  rw [Abi.head?, bpfHdr?_record, h1]
  simp only [Option.bind_eq_bind, Option.bind_some, h2, h3, Record.bytes, List.length_append]
  rw [if_pos (by omega), if_neg (by omega)]
  rfl

theorem head?_hidden {pre tail : List UInt8} {r : Record abi} (hv : r.visible = false) :
    abi.head? (pre ++ (r.bytes ++ tail)) pre.length = some .stop := by
  have hv' : r.hdr.length < abi.sizeofBpfHdr := by simpa [Record.visible] using hv
  rw [Abi.head?, bpfHdr?_record]
  split
  · simp [hv']
  · rfl

theorem head?_end {buf : List UInt8} {off : Nat} (hs : buf.length < abi.ssizeMax)
    (ho : buf.length ≤ off) (hlt : off < buf.length + 2^15) : abi.head? buf off = some .stop := by
  have hm := abi.ssizeMax_ge
  have hz := abi.sizeof_lt
  have h0 := abi.hdrlen_le
  rw [Abi.head?, Abi.size_of_lt (by omega), if_neg (by omega)]
  rfl

theorem stride_lt (r : Record abi) (h : r.bytes.length < abi.ssizeMax) :
    r.stride < r.bytes.length + 2^15 := by
  have ha := abi.align_lt
  have hp := abi.align_pos
  have hm := abi.ssizeMax_ge
  rw [Record.stride, Abi.bpfWordalign, Abi.size_of_lt (by omega)]
  have := Nat.div_mul_le_self (r.bytes.length + (abi.bpfAlignment - 1)) abi.bpfAlignment
  omega

theorem advance_record (r : Record abi) (off : Nat)
    (h : off + r.stride < 2 * abi.ssizeMax) : abi.advance off r.bpfHdr = off + r.stride := by
  have hu : uInt (r.hdr.length + r.frame.length) = r.bytes.length := by
    rw [uInt, Nat.mod_eq_of_lt r.fits, Record.bytes, List.length_append]
  rw [Abi.advance, Record.bpfHdr]
  dsimp only
  rw [hu]
  exact Abi.size_of_lt h

/-! ### A whole buffer -/

def scan (live : σ → Bool) (see : Record abi → σ → Pass σ ρ) (fin : σ → ρ) :
    List (Record abi) → σ → ρ
  | [], s => fin s
  | r :: rs, s => if live s && r.visible then
      match see r s with
      | .next s' => scan live see fin rs s'
      | .done x => x
    else fin s

/-- The records a scan gets to: those before the first whose header is shorter
than a `struct bpf_hdr`. -/
def visibleRecs (rs : List (Record abi)) : List (Record abi) := rs.takeWhile (·.visible)

theorem visibleRecs_eq_self {rs : List (Record abi)} (h : ∀ r ∈ rs, r.visible = true) :
    visibleRecs rs = rs := List.takeWhile_eq_self_iff.mpr h

theorem walkPass_dead {buf : List UInt8} {live : σ → Bool}
    {visit : Nat → BpfHdr → σ → Option (Pass σ ρ)} {fin : σ → ρ} {off : Nat} {s : σ}
    (h : live s = false) :
    abi.walkPass buf live visit fin (off, s) = some (.done (fin s)) := by
  simp [Abi.walkPass, h]

theorem walkPass_stop {buf : List UInt8} {live : σ → Bool}
    {visit : Nat → BpfHdr → σ → Option (Pass σ ρ)} {fin : σ → ρ} {off : Nat} {s : σ}
    (h : abi.head? buf off = some .stop) :
    abi.walkPass buf live visit fin (off, s) = some (.done (fin s)) := by
  simp [Abi.walkPass, h]

theorem Laid.length_le {buf : List UInt8} {rs : List (Record abi)} (h : Laid buf rs) :
    rs.length ≤ buf.length := by
  induction h with
  | nil => rfl
  | last r pad _ =>
    have := r.hdr_pos
    simp only [Record.bytes, List.length_append, List.length_singleton]; omega
  | cons r pad rest rs _ _ ih =>
    have := r.hdr_pos
    simp only [Record.bytes, List.length_append, List.length_cons]; omega

variable (abi) in
/-- What a decoder does with a record does not depend on where it lies. -/
def Sees (visit : List UInt8 → Nat → BpfHdr → σ → Option (Pass σ ρ))
    (see : Record abi → σ → Pass σ ρ) : Prop :=
  ∀ (pre tail : List UInt8) (r : Record abi) (s : σ),
    (pre ++ (r.bytes ++ tail)).length < abi.ssizeMax → r.visible = true →
    visit (pre ++ (r.bytes ++ tail)) pre.length r.bpfHdr s = some (see r s)

theorem walkPass_record (live : σ → Bool)
    {visit : List UInt8 → Nat → BpfHdr → σ → Option (Pass σ ρ)}
    {see : Record abi → σ → Pass σ ρ} (fin : σ → ρ) (hsee : Sees abi visit see)
    (pre tail : List UInt8) {r : Record abi} {s : σ}
    (hs : (pre ++ (r.bytes ++ tail)).length < abi.ssizeMax) (hl : live s = true)
    (hv : r.visible = true) :
    abi.walkPass (pre ++ (r.bytes ++ tail)) live (visit (pre ++ (r.bytes ++ tail))) fin
        (pre.length, s) =
      some (match see r s with
        | .next s' => .next (pre.length + r.stride, s')
        | .done x => .done x) := by
  have hb : (pre ++ r.bytes).length < abi.ssizeMax := by
    simp only [List.length_append] at hs ⊢; omega
  have hst := stride_lt r (by simp only [List.length_append] at hb; omega)
  have hadv := advance_record r pre.length (by
    have := abi.ssizeMax_ge
    simp only [List.length_append] at hb; omega)
  have hvis := hsee pre tail r s hs hv
  simp only [Abi.walkPass, hl, if_true, head?_record hs hv, hvis, Option.bind_eq_bind,
    Option.bind_some]
  cases see r s <;> simp [hadv]

theorem run_record {live : σ → Bool}
    {visit : List UInt8 → Nat → BpfHdr → σ → Option (Pass σ ρ)}
    {see : Record abi → σ → Pass σ ρ} {fin : σ → ρ} (hsee : Sees abi visit see)
    {pre tail : List UInt8} {r : Record abi} {rs : List (Record abi)} {n : Nat}
    (hs : (pre ++ (r.bytes ++ tail)).length < abi.ssizeMax)
    (hrest : ∀ s, run (abi.walkPass (pre ++ (r.bytes ++ tail)) live
      (visit (pre ++ (r.bytes ++ tail))) fin) n (pre.length + r.stride, s) =
        .ret (scan live see fin rs s)) (s : σ) :
    run (abi.walkPass (pre ++ (r.bytes ++ tail)) live (visit (pre ++ (r.bytes ++ tail))) fin)
      (n + 1) (pre.length, s) = .ret (scan live see fin (r :: rs) s) := by
  rw [scan]
  by_cases hl : live s = true
  · by_cases hv : r.visible = true
    · have hp := walkPass_record live fin hsee pre tail hs hl hv
      simp only [hl, hv, Bool.and_self, if_true]
      cases h : see r s with
      | next s' => rw [h] at hp; rw [run_next n hp]; exact hrest s'
      | done x => rw [h] at hp; exact run_done n hp
    · have hv' : r.visible = false := by simpa using hv
      simp only [hv', Bool.and_false, Bool.false_eq_true, if_false]
      exact run_done n (walkPass_stop (head?_hidden hv'))
  · have hl' : live s = false := by simpa using hl
    simp only [hl', Bool.false_and, Bool.false_eq_true, if_false]
    exact run_done n (walkPass_dead hl')

theorem run_end {buf : List UInt8} {live : σ → Bool}
    {visit : Nat → BpfHdr → σ → Option (Pass σ ρ)} {fin : σ → ρ} {off n : Nat} {s : σ}
    (hs : buf.length < abi.ssizeMax) (ho : buf.length ≤ off) (hlt : off < buf.length + 2^15) :
    run (abi.walkPass buf live visit fin) (n + 1) (off, s) = .ret (fin s) :=
  run_done n (walkPass_stop (head?_end hs ho hlt))

theorem run_walk (live : σ → Bool) {visit : List UInt8 → Nat → BpfHdr → σ → Option (Pass σ ρ)}
    {see : Record abi → σ → Pass σ ρ} (fin : σ → ρ) (hsee : Sees abi visit see)
    {rest : List UInt8} {rs : List (Record abi)} (h : Laid rest rs) (pre : List UInt8) (s : σ)
    (hs : (pre ++ rest).length < abi.ssizeMax) (n : Nat) :
    run (abi.walkPass (pre ++ rest) live (visit (pre ++ rest)) fin) (rs.length + 1 + n)
        (pre.length, s) = .ret (scan live see fin rs s) := by
  induction h generalizing pre s n with
  | nil =>
    rw [Nat.add_comm, ← Nat.add_assoc]
    exact run_end hs (by simp) (by simp)
  | last r pad hpad =>
    have he : [r].length + 1 + n = n + 1 + 1 := by
      simp only [List.length_singleton]; omega
    have hst := stride_lt r (by simp only [List.length_append] at hs; omega)
    rw [he]
    refine run_record hsee hs (fun s' => run_end hs ?_ ?_) s
    · simp only [List.length_append] at hpad ⊢; omega
    · simp only [List.length_append]; omega
  | cons r pad rest rs hpad t ih =>
    have he : (r :: rs).length + 1 + n = rs.length + 1 + n + 1 := by
      simp only [List.length_cons]; omega
    have hlen : (pre ++ (r.bytes ++ pad)).length = pre.length + r.stride := by
      rw [List.length_append, hpad]
    have hbuf : pre ++ (r.bytes ++ pad) ++ rest = pre ++ (r.bytes ++ (pad ++ rest)) := by
      simp only [List.append_assoc]
    rw [List.append_assoc r.bytes, ← hbuf] at hs ⊢
    rw [he, hbuf]
    refine run_record hsee (hbuf ▸ hs) (fun s' => ?_) s
    have := ih (pre ++ (r.bytes ++ pad)) s' hs n
    rwa [hlen, hbuf] at this

theorem run_buffer {live : σ → Bool} {visit : List UInt8 → Nat → BpfHdr → σ → Option (Pass σ ρ)}
    {see : Record abi → σ → Pass σ ρ} {fin : σ → ρ} (hsee : Sees abi visit see) (b : Buffer abi)
    (s : σ) (n : Nat) (hn : b.bytes.length < n) :
    run (abi.walkPass b.bytes live (visit b.bytes) fin) n (0, s) =
      .ret (scan live see fin b.recs s) := by
  have hlen := b.laid.length_le
  have h := run_walk live fin hsee b.laid [] s (by simpa using b.ssize)
    (n - (b.recs.length + 1))
  rw [show b.recs.length + 1 + (n - (b.recs.length + 1)) = n by omega] at h
  simpa using h

end PkgsrcPatches.Bpf
