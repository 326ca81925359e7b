import PkgsrcPatches.Bpf.Walk

/-! Records and buffers that exist: any list of records has a layout, and on LP64
any header length that leaves room for the fields makes a record. -/
namespace PkgsrcPatches.Bpf
open Lib.Bytes
variable {abi : Abi}

theorem le_bpfWordalign {x : Nat} (h : x < abi.ssizeMax) : x ≤ abi.bpfWordalign x := by
  have ha := abi.align_lt
  have hp := abi.align_pos
  have hm := abi.ssizeMax_ge
  have hd := Nat.lt_div_mul_add (a := x + (abi.bpfAlignment - 1)) hp
  rw [Abi.bpfWordalign, Abi.size_of_lt (by omega)]
  omega

def Record.padded (r : Record abi) : List UInt8 :=
  r.bytes ++ List.replicate (r.stride - r.bytes.length) 0

def pack (rs : List (Record abi)) : List UInt8 := rs.flatMap (·.padded)

theorem laid_pack (rs : List (Record abi)) (h : (pack rs).length < abi.ssizeMax) :
    Laid (pack rs) rs := by
  induction rs with
  | nil => exact .nil
  | cons r rs ih =>
    have hpack : pack (r :: rs) = r.padded ++ pack rs := List.flatMap_cons
    rw [hpack, List.length_append] at h
    have hr : r.bytes.length < abi.ssizeMax := by
      simp only [Record.padded, List.length_append] at h; omega
    have hle : _ ≤ r.stride := le_bpfWordalign hr
    rw [hpack]
    refine .cons r _ _ rs ?_ (ih (by omega))
    rw [List.length_append, List.length_replicate]
    omega

def Buffer.ofRecords (rs : List (Record abi)) (h : (pack rs).length < abi.ssizeMax) : Buffer abi :=
  ⟨pack rs, rs, laid_pack rs h, h⟩

theorem bpfWordalign_le {x y : Nat} (hx : x < abi.ssizeMax) (h : x ≤ y)
    (hd : abi.bpfAlignment ∣ y) : abi.bpfWordalign x ≤ y := by
  have ha := abi.align_lt
  have hm := abi.ssizeMax_ge
  obtain ⟨k, rfl⟩ := hd
  rw [Abi.bpfWordalign, Abi.size_of_lt (by omega), Nat.mul_comm]
  refine Nat.mul_le_mul_left _ (Nat.le_of_lt_succ ((Nat.div_lt_iff_lt_mul abi.align_pos).mpr ?_))
  rw [Nat.succ_mul, Nat.mul_comm]
  have := abi.align_pos
  omega

theorem dvd_stride (r : Record abi) : abi.bpfAlignment ∣ r.stride := Dvd.intro_left _ rfl

theorem Laid.append {a b : List UInt8} {rs qs : List (Record abi)} (h : Laid a rs)
    (ha : abi.bpfAlignment ∣ a.length) (hs : a.length < abi.ssizeMax) (hb : Laid b qs) :
    Laid (a ++ b) (rs ++ qs) := by
  induction h with
  | nil => exact hb
  | last r pad hpad =>
    have hle : r.bytes.length ≤ (r.bytes ++ pad).length := by
      rw [List.length_append]; omega
    have := bpfWordalign_le (Nat.lt_of_le_of_lt hle hs) hle ha
    exact absurd hpad (Nat.not_lt.mpr this)
  | cons r pad rest rs hpad t ih =>
    rw [List.length_append] at ha hs
    have hrest : abi.bpfAlignment ∣ rest.length :=
      (Nat.dvd_add_right (hpad ▸ dvd_stride r)).mp ha
    rw [List.append_assoc, List.cons_append]
    exact .cons r pad _ _ hpad (ih hrest (by omega))

def Buffer.append (a b : Buffer abi) (ha : abi.bpfAlignment ∣ a.bytes.length)
    (hs : (a.bytes ++ b.bytes).length < abi.ssizeMax) : Buffer abi :=
  ⟨a.bytes ++ b.bytes, a.recs ++ b.recs, a.laid.append ha a.ssize b.laid, hs⟩

/-! ### LP64 -/

theorem le?_field (a post : List UInt8) (n v : Nat) (h : v < 256 ^ n) :
    le? (a ++ (leBytes n v ++ post)) a.length n = some v := by
  have hs := slice?_append_right a (leBytes n v ++ post) 0 n
  have hl : (leBytes n v).length = n := leBytes_length n v
  rw [Nat.add_zero] at hs
  rw [le?, hs, slice?_append_left _ _ _ _ (by omega), slice?_of_le (by omega)]
  have hall : slice (leBytes n v) 0 n = leBytes n v := by simpa [hl] using slice_all (leBytes n v)
  rw [hall, Option.map_some, leNat_leBytes n v h]

def lp64Hdr (h len : Nat) : List UInt8 :=
  List.replicate 16 0 ++ (leBytes 4 len ++ (leBytes 4 len ++ (leBytes 2 h ++
    List.replicate (h - 26) 0)))

theorem lp64Hdr_length {h len : Nat} (hh : 26 ≤ h) : (lp64Hdr h len).length = h := by
  simp only [lp64Hdr, List.length_append, List.length_replicate, leBytes_length]
  omega

theorem bpfHdr?_lp64Hdr {h len : Nat} (hh : h < 256 ^ 2) (hl : len < 256 ^ 4) :
    lp64.bpfHdr? (lp64Hdr h len) 0 = some ⟨len, len, h⟩ := by
  have h1 : le? (lp64Hdr h len) 16 4 = some len :=
    le?_field (List.replicate 16 0) _ 4 len hl
  have h2 : le? (lp64Hdr h len) 20 4 = some len := by
    have := le?_field (List.replicate 16 0 ++ leBytes 4 len) (leBytes 2 h ++
      List.replicate (h - 26) 0) 4 len hl
    simpa [lp64Hdr, leBytes_length, List.append_assoc] using this
  have h3 : le? (lp64Hdr h len) 24 2 = some h := by
    have := le?_field (List.replicate 16 0 ++ (leBytes 4 len ++ leBytes 4 len))
      (List.replicate (h - 26) 0) 2 h hh
    simpa [lp64Hdr, leBytes_length, List.append_assoc] using this
  simp [Abi.bpfHdr?, Abi.host?, lp64, h1, h2, h3]

def lp64Record (h : Nat) (frame : List UInt8) (hh : 26 ≤ h ∧ h < 2^15)
    (hf : frame.length < 2^31) : Record lp64 where
  hdr := lp64Hdr h frame.length
  frame := frame
  datalen := frame.length
  fields := by rw [lp64Hdr_length hh.1]; exact bpfHdr?_lp64Hdr (by omega) (by omega)
  fits := by rw [lp64Hdr_length hh.1]; omega

def lp64WholeRecord (frame : List UInt8) (hf : frame.length < 2^31) : Record lp64 :=
  lp64Record 32 frame (by decide) hf

end PkgsrcPatches.Bpf
