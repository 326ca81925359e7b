import PkgsrcPatches.NDhcp4.PacketBsd
import PkgsrcPatches.NDhcp4.PacketLinux
import PkgsrcPatches.Bpf.Layout

/-! The packet device as a queue, on either system, and what is left of it after
`packet_shutdown`: calls that are to end in `EAGAIN`. -/
namespace PkgsrcPatches.NDhcp4
open Lib.Bytes Lib.ClassicBpf Lib.Loop Bpf
variable {abi : Abi}

abbrev Outcome := Except Errno (Option Datagram)

def deviceRead (blen : Nat) (answer : Except Errno (List UInt8)) (len : Nat) :
    Except Errno (List UInt8) :=
  if len = blen then answer else .error .einval

/-- One `packet_recvfrom_udp` on a BPF device, from one queue to the next: a read
takes a nonempty part off the front, as long as the kernel likes. -/
inductive BsdRecv (abi : Abi) (blen nBuf : Nat) :
    List (Record abi) → List (Record abi) → Outcome → List (Record abi) → Prop
  | empty (o : Outcome)
      (h : packetRecvfromUdpBsd abi (.ok blen) true (deviceRead blen (.error .eagain)) nBuf = .ret o) :
      BsdRecv abi blen nBuf [] [] o []
  | read (b : Buffer abi) (rest : List (Record abi)) (o : Outcome) (hne : b.recs ≠ [])
      (h : packetRecvfromUdpBsd abi (.ok blen) true (deviceRead blen (.ok b.bytes)) nBuf = .ret o) :
      BsdRecv abi blen nBuf (b.recs ++ rest) b.recs o rest

def LinuxRecv (nBuf : Nat) (queue : List Skb) (o : Outcome) (rest : List Skb) : Prop :=
  packetRecvfromUdpLinux queue nBuf = some (o, rest)

theorem bsdRecv_cases {blen nBuf : Nat} (hb : 0 < blen) {queue taken rest : List (Record abi)}
    {o : Outcome} (h : BsdRecv abi blen nBuf queue taken o rest) :
    queue = taken ++ rest ∧ (taken = [] → queue = []) ∧
      o = .ok ((visibleRecs taken).findSome? fun r => usable r.frame r.datalen nBuf) := by
  have h0 : blen ≠ 0 := by omega
  cases h with
  | empty o h =>
    simp [packetRecvfromUdpBsd, deviceRead, h0] at h
    exact ⟨rfl, fun _ => rfl, h.symm⟩
  | read b rest o hne h =>
    simp [packetRecvfromUdpBsd, deviceRead, h0, packetBsdParse_buffer] at h
    exact ⟨rfl, fun ht => absurd ht hne, h.symm⟩

theorem linuxRecv_nil {nBuf : Nat} {o : Outcome} {rest : List Skb} :
    LinuxRecv nBuf [] o rest ↔ o = .error .eagain ∧ rest = [] := by
  simp [LinuxRecv, packetRecvfromUdpLinux, eq_comm]

theorem linuxRecv_cons {nBuf : Nat} {k : Skb} {queue rest : List Skb} {o : Outcome} :
    LinuxRecv nBuf (k :: queue) o rest ↔ o = .ok (linuxDeliverable k nBuf) ∧ rest = queue := by
  simp [LinuxRecv, packetRecvfromUdpLinux, packetRecvfromUdpSkb_eq, eq_comm]

theorem packetRecvfromUdpBsd_ne_eagain (blen : Nat) (malloc : Bool)
    (read : Nat → Except Errno (List UInt8)) (nBuf : Nat) :
    packetRecvfromUdpBsd abi (.ok blen) malloc read nBuf ≠ .ret (.error .eagain) := by
  simp only [packetRecvfromUdpBsd]
  by_cases hb : blen = 0
  · simp [hb]
  rw [if_neg hb]
  cases malloc with
  | false => simp
  | true =>
    simp only [Bool.true_eq_false, if_false]
    cases read blen with
    | error e =>
      by_cases he : e = .eagain ∨ e = .eintr
      · simp [he]
      · rw [not_or] at he
        simp [he]
    | ok rbuf =>
      dsimp only
      split <;> simp

theorem bsdRecv_ne_eagain {blen nBuf : Nat} {queue taken rest : List (Record abi)} {o : Outcome}
    (h : BsdRecv abi blen nBuf queue taken o rest) : o ≠ .error .eagain := by
  intro he
  subst he
  cases h with
  | empty _ h => exact packetRecvfromUdpBsd_ne_eagain _ _ _ _ h
  | read _ _ _ _ h => exact packetRecvfromUdpBsd_ne_eagain _ _ _ _ h

theorem bsdRecv_nil (abi : Abi) (blen nBuf : Nat) : ∃ o, BsdRecv abi blen nBuf [] [] o [] := by
  by_cases hb : blen = 0
  · exact ⟨.error .eio, .empty _ (by simp [packetRecvfromUdpBsd, hb])⟩
  · exact ⟨.ok none, .empty _ (by simp [packetRecvfromUdpBsd, deviceRead, hb])⟩

/-! ### After the shutdown -/

/-- The calls that follow `packet_shutdown`: of what was queued `before` some is
left, and its filter decides which packets that arrive later are queued. -/
structure Drain {α : Type} (recv : List α → Outcome → List α → Prop) where
  before : List α
  queue : Nat → List α
  arrived : Nat → List (Packet × α)
  out : Nat → Outcome
  left : (queue 0).Sublist before
  step : ∀ n, recv (queue n ++ ((arrived n).filter fun a =>
    decide (accepts packetShutdownFilter a.1)).map (·.2)) (out n) (queue (n + 1))

theorem shutdown_rejects (p : Packet) : ¬ accepts packetShutdownFilter p := by
  simp [accepts_iff_wp, packetShutdownFilter]

section
variable {α : Type} {recv : List α → Outcome → List α → Prop}

theorem Drain.step_queue (r : Drain recv) (n : Nat) :
    recv (r.queue n) (r.out n) (r.queue (n + 1)) := by
  simpa [shutdown_rejects] using r.step n

/-- What `packet_shutdown` documents: calls deliver only what was queued, and end
in `EAGAIN` for good. `offers` says what a queued packet can be delivered as. -/
def Drain.Ends (r : Drain recv) (offers : α → Datagram → Prop) : Prop :=
  (∃ n, ∀ m, n ≤ m → r.out m = .error .eagain) ∧
    ∀ n d, r.out n = .ok (some d) → ∃ a ∈ r.before, offers a d

variable (recv) in
/-- A call reports `EAGAIN` exactly when nothing was queued. -/
def EagainIffEmpty (queue : List α) : Prop :=
  ∀ o rest, recv queue o rest → (o = .error .eagain ↔ queue = [])

end

theorem linuxDrain_queue {nBuf : Nat} (r : Drain (LinuxRecv nBuf)) (n : Nat) :
    r.queue n = (r.queue 0).drop n := by
  induction n with
  | zero => rfl
  | succ n ih =>
    have hs := r.step_queue n
    rw [← List.drop_drop, ← ih]
    cases hq : r.queue n with
    | nil =>
      rw [hq] at hs
      simpa using (linuxRecv_nil.mp hs).2
    | cons k rest =>
      rw [hq] at hs
      simpa using (linuxRecv_cons.mp hs).2

theorem linuxDrain_ends {nBuf : Nat} (r : Drain (LinuxRecv nBuf)) :
    r.Ends fun k d => packetRecvfromUdpSkb k nBuf = some (some d) := by
  refine ⟨⟨(r.queue 0).length, fun m hm => ?_⟩, fun n d hd => ?_⟩
  · have hs := r.step_queue m
    rw [linuxDrain_queue r m, List.drop_of_length_le hm] at hs
    exact (linuxRecv_nil.mp hs).1
  · have hs := r.step_queue n
    have hsub : r.queue n ⊆ r.before := fun k hk =>
      r.left.subset (List.mem_of_mem_drop (linuxDrain_queue r n ▸ hk))
    cases hq : r.queue n with
    | nil =>
      rw [hq, linuxRecv_nil, hd] at hs
      cases hs.1
    | cons k rest =>
      rw [hq, linuxRecv_cons, hd] at hs
      refine ⟨k, hsub (by simp [hq]), ?_⟩
      show packetRecvfromUdpSkb k nBuf = _
      rw [packetRecvfromUdpSkb_eq, ← Except.ok.inj hs.1]

def BsdCall (abi : Abi) (blen nBuf : Nat) (queue : List (Record abi)) (o : Outcome)
    (rest : List (Record abi)) : Prop :=
  ∃ taken, BsdRecv abi blen nBuf queue taken o rest

/-- `EAGAIN` is Linux's alone. There every drain ends in it and it tells an empty
queue from a packet that was discarded; on a BPF device no drain ends, and the two
are told apart only while something is queued. -/
theorem eagain_is_linux_only (abi : Abi) (blen nBuf : Nat) :
    (∀ r : Drain (LinuxRecv nBuf), r.Ends fun k d => packetRecvfromUdpSkb k nBuf = some (some d)) ∧
    (∀ queue, EagainIffEmpty (LinuxRecv nBuf) queue) ∧
    (∀ r : Drain (BsdCall abi blen nBuf),
      ¬ r.Ends fun a d => usable a.frame a.datalen nBuf = some d) ∧
    ∀ queue, EagainIffEmpty (BsdCall abi blen nBuf) queue ↔ queue ≠ [] := by
  refine ⟨linuxDrain_ends, fun queue o rest h => ?_, fun r ⟨⟨n, hn⟩, _⟩ => ?_, fun queue => ?_⟩
  · cases queue with
    | nil => simp [(linuxRecv_nil.mp h).1]
    | cons k queue => simp [(linuxRecv_cons.mp h).1]
  · obtain ⟨taken, h⟩ := r.step_queue n
    exact bsdRecv_ne_eagain h (hn n (le_refl n))
  · constructor
    · intro h hq
      subst hq
      obtain ⟨o, ho⟩ := bsdRecv_nil abi blen nBuf
      exact bsdRecv_ne_eagain ho ((h o [] ⟨[], ho⟩).mpr rfl)
    · intro hq o rest ⟨taken, h⟩
      exact ⟨fun ho => absurd ho (bsdRecv_ne_eagain h), fun h0 => absurd h0 hq⟩

def idleDrain : Drain (BsdCall lp64 4096 1500) where
  before := []
  queue := fun _ => []
  arrived := fun _ => []
  out := fun _ => .ok none
  left := List.Sublist.refl []
  step := fun _ => ⟨[], .empty _ rfl⟩

theorem idleDrain_never_ends :
    ¬ idleDrain.Ends fun a d => usable a.frame a.datalen 1500 = some d := by
  intro h
  obtain ⟨⟨n, hn⟩, -⟩ := h
  cases hn n (le_refl n)

end PkgsrcPatches.NDhcp4
