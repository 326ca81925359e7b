import PkgsrcPatches.Lib.Transition
import PkgsrcPatches.NAcd.SendArp

/-! An Ethernet segment of stations that run n-acd on either platform, and of others: every
station gets every ARP that reaches it, but for those its kernel has no room for and those that a
BPF read brings too many of or the walk over it stops before. -/
namespace PkgsrcPatches.NAcd
open Lib Lib.Bytes Lib.ClassicBpf Lib.Syscall Bpf

/-- On Linux with the attached program, as to which ARPs it lets through. -/
inductive Platform where
  | bsd (abi : Abi)
  | linux (prog : List UInt8 → Bool)

namespace Platform

/-- What the kernel queues for the descriptor, if it has room: what the filter of the device
accepts, or of the frames of the protocol that the packet socket is bound to those the program
lets through. -/
def Admits : Platform → List UInt8 → Prop
  | bsd _, frame => ∃ h : frame.length < 2^32, accepts nAcdBsdFilter ⟨frame, h⟩
  | linux prog, frame => be? frame 12 2 = some 0x0806 ∧ prog (frame.drop etherHdrLen) = true

instance (p : Platform) (frame : List UInt8) : Decidable (p.Admits frame) :=
  match p with
  | bsd _ => inferInstanceAs (Decidable (∃ _, _))
  | linux _ => inferInstanceAs (Decidable (_ ∧ _))

def wants : Platform → Arp → Bool
  | bsd _, _ => true
  | linux prog, arp => prog arp.bytes

/-- A packet socket of type `SOCK_DGRAM` queues no header. -/
def queued : Platform → List UInt8 → List UInt8
  | bsd _, frame => frame
  | linux _, frame => frame.drop etherHdrLen

def arp : Platform → List UInt8 → EtherArp
  | bsd _, frame => arpOf frame
  | linux _, packet => msgOf packet

def send (p : Platform) (g : Globals) (ifindex : Nat) (mac arp : List UInt8) : Send :=
  match p with
  | bsd _ => nAcdOsSocketSendBsd g (some mac) arp
  | linux _ => nAcdOsSocketSendLinux ifindex arp

theorem arp_queued (p : Platform) (frame : List UInt8) : p.arp (p.queued frame) = arpOf frame := by
  cases p with
  | bsd abi => rfl
  | linux prog => exact (arpOf_eq_msgOf frame).symm

theorem send_puts (p : Platform) (g : Globals) (ifindex : Nat) (mac : List UInt8) (arp : Arp)
    (sent : List (List UInt8)) : (p.send g ifindex mac arp.bytes).Meets (wire mac)
      (Puts sent (arpFrame mac arp.bytes)) sent := by
  cases p with
  | bsd abi => exact nAcdOsSocketSendBsd_puts mac g mac arp.bytes sent
  | linux prog => exact nAcdOsSocketSendLinux_puts ifindex arp.length_eq sent

theorem admits_arpFrame (p : Platform) {mac : List UInt8} (hmac : mac.length = etherAddrLen)
    (arp : Arp) : p.Admits (arpFrame mac arp.bytes) ↔ p.wants arp = true := by
  have hlen := arpFrame_length hmac arp
  cases p with
  | bsd abi => exact iff_of_true ⟨by rw [hlen]; decide, arpFrame_accepted hmac arp _⟩ rfl
  | linux prog =>
    have htype : be? (arpFrame mac arp.bytes) 12 2 = some 0x0806 := by
      rw [be?_of_le (by rw [hlen]; decide)]
      exact congrArg some (arpFrame_type hmac arp)
    have hdrop : (arpFrame mac arp.bytes).drop etherHdrLen = arp.bytes := by
      rw [arpFrame, ← List.append_assoc, ← List.append_assoc]
      exact List.drop_left' (by simp [hmac, beBytes_length, etherHdrLen, etherAddrLen])
    rw [Admits, htype, hdrop, wants]
    exact and_iff_right rfl

end Platform

/-- A station. Whether a kernel shows a descriptor what was sent through it is up to it. -/
structure Station where
  platform : Platform
  mac : List UInt8
  mac_length : mac.length = etherAddrLen
  hearsItself : Bool

/-- The kernel's queue, what the calls of `n_acd_os_socket_recv` returned so far, how many packets
there was no room for in the queue, and whether all reads so far fitted. -/
structure Queue where
  pending : List (List UInt8)
  got : List EtherArp
  dropped : Nat
  fitted : Bool

/-- A read with an entry for every packet and no header that the walk stops before. -/
def Fits {abi : Abi} (b : Buffer abi) (nOut : Nat) : Prop :=
  b.recs.length ≤ nOut ∧ ∀ r ∈ b.recs, abi.sizeofBpfHdr ≤ r.hdr.length

instance {abi : Abi} (b : Buffer abi) (nOut : Nat) : Decidable (Fits b nOut) :=
  inferInstanceAs (Decidable (_ ∧ _))

/-- One call of `n_acd_os_socket_recv`: a BPF read takes any number of packets from the front. -/
inductive Receives : Platform → Queue → Queue → Prop
  | bsd {abi : Abi} {q : Queue} {g : Globals} {c : ReadCall} (hg : readCall g = some c)
      (b : Buffer abi) (rest : List (List UInt8)) (nOut : Nat)
      (hq : q.pending = b.recs.map (·.frame) ++ rest) (hwhole : ∀ r ∈ b.recs, r.whole) :
      Receives (.bsd abi) q ⟨rest,
        q.got ++ outOf (nAcdOsSocketRecv abi g (fun _ => .ok b.bytes) nOut),
        q.dropped, q.fitted && decide (Fits b nOut)⟩
  | linux {prog : List UInt8 → Bool} {q : Queue} {out : List EtherArp} {rest : List (List UInt8)}
      (nOut : Nat) (h : nAcdOsSocketRecvLinux q.pending nOut = (.ok out, rest)) :
      Receives (.linux prog) q ⟨rest, q.got ++ out, q.dropped, q.fitted⟩

variable {ι : Type}

/-- What was put on the segment: by a station, or by somebody else. -/
inductive Traffic (ι : Type) where
  | sent (i : ι) (arp : Arp)
  | foreign (frame : List UInt8)

structure Segment (ι : Type) where
  queue : ι → Queue
  log : List (Traffic ι)

section
variable [DecidableEq ι] (net : ι → Station)

def Segment.init : Segment ι := ⟨fun _ => ⟨[], [], 0, true⟩, []⟩

/-- A frame is shown to every station but the one that sent it, unless that hears itself. -/
def shown (sender : Option ι) (frame : List UInt8) (i : ι) : Bool :=
  (sender ≠ some i || (net i).hearsItself) && decide ((net i).platform.Admits frame)

/-- Packets come to a queue that has room for them, or that is full. -/
def Queue.arrive (q : Queue) (full : Bool) (packets : List (List UInt8)) : Queue :=
  if full then { q with dropped := q.dropped + packets.length }
  else { q with pending := q.pending ++ packets }

def arrivals (sender : Option ι) (frames : List (List UInt8)) (i : ι) : List (List UInt8) :=
  (frames.filter fun frame => shown net sender frame i).map (net i).platform.queued

def logged (i : ι) (arp : Arp) : Except Errno Unit → List (Traffic ι)
  | .ok () => [.sent i arp]
  | .error _ => []

inductive SegmentStep : Segment ι → Segment ι → Prop
  | send {s : Segment ι} {frames : List (List UInt8)} {r : Except Errno Unit} (i : ι) (arp : Arp)
      (g : Globals) (ifindex : Nat) (full : ι → Bool)
      (h : ((net i).platform.send g ifindex (net i).mac arp.bytes).Ends (wire (net i).mac) []
        frames r) :
      SegmentStep s ⟨fun j => (s.queue j).arrive (full j) (arrivals net (some i) frames j),
        s.log ++ logged i arp r⟩
  | foreign {s : Segment ι} (frame : List UInt8) (full : ι → Bool) :
      SegmentStep s ⟨fun j => (s.queue j).arrive (full j) (arrivals net none [frame] j),
        s.log ++ [.foreign frame]⟩
  | recv {s : Segment ι} {q : Queue} (i : ι) (h : Receives (net i).platform (s.queue i) q) :
      SegmentStep s ⟨Function.update s.queue i q, s.log⟩

/-- What a station is to get of what was put on the segment, in terms of ARPs alone. -/
def heard (i : ι) : Traffic ι → Option EtherArp
  | .sent j arp =>
    if (j ≠ i ∨ (net i).hearsItself) ∧ (net i).platform.wants arp then
      some ⟨arp.bytes, sizeofEtherArp⟩
    else none
  | .foreign frame => if (net i).platform.Admits frame then some (arpOf frame) else none

end

/-! ### One queue -/

structure Queue.Inv (p : Platform) (due : List EtherArp) (q : Queue) : Prop where
  pending : ∀ packet ∈ q.pending, ∃ frame, p.Admits frame ∧ p.queued frame = packet
  sub : (q.got ++ q.pending.map p.arp).Sublist due
  all : q.got.length + q.pending.length = due.length ↔ q.dropped = 0 ∧ q.fitted = true
  linux : (∃ prog, p = .linux prog) → q.fitted = true

theorem Queue.Inv.length_le {p : Platform} {due : List EtherArp} {q : Queue} (h : q.Inv p due) :
    q.got.length + q.pending.length ≤ due.length := by
  have hle := h.sub.length_le
  rwa [List.length_append, List.length_map] at hle

theorem Queue.Inv.arrive {p : Platform} {due : List EtherArp} {q : Queue} (h : q.Inv p due)
    (full : Bool) {packets : List (List UInt8)}
    (hp : ∀ packet ∈ packets, ∃ frame, p.Admits frame ∧ p.queued frame = packet) :
    (q.arrive full packets).Inv p (due ++ packets.map p.arp) := by
  have hle := h.length_le
  have hall := h.all
  cases full with
  | true =>
    refine ⟨h.pending, h.sub.trans (List.sublist_append_left _ _), ?_, h.linux⟩
    simp only [Queue.arrive, if_true, List.length_append, List.length_map]
    -- what is not queued is due all the same
    constructor
    · intro he
      obtain ⟨hdropped, hfitted⟩ := hall.mp (by omega)
      exact ⟨by omega, hfitted⟩
    · intro hq
      have he := hall.mpr ⟨by omega, hq.2⟩
      omega
  | false =>
    refine ⟨?_, ?_, ?_, h.linux⟩
    · intro packet hmem
      cases List.mem_append.mp hmem with
      | inl hold => exact h.pending packet hold
      | inr hnew => exact hp packet hnew
    · simp only [Queue.arrive, Bool.false_eq_true, if_false]
      rw [List.map_append, ← List.append_assoc]
      exact h.sub.append (List.Sublist.refl _)
    · simp only [Queue.arrive, Bool.false_eq_true, if_false, List.length_append, List.length_map]
      rw [← hall]
      omega

theorem Queue.Inv.isArp {abi : Abi} {due : List EtherArp} {q : Queue} (h : q.Inv (.bsd abi) due)
    {rs : List (Record abi)} {rest : List (List UInt8)} (hq : q.pending = rs.map (·.frame) ++ rest)
    (hwhole : ∀ r ∈ rs, r.whole) : ∀ r ∈ rs, IsArp r := by
  intro r hr
  have hmem : r.frame ∈ q.pending := by
    rw [hq]
    exact List.mem_append_left _ (List.mem_map_of_mem hr)
  obtain ⟨frame, ⟨hlen, hacc⟩, he⟩ := h.pending r.frame hmem
  have hframe : frame = r.frame := he
  subst hframe
  exact ⟨hwhole r hr, hacc⟩

theorem Queue.Inv.receives {p : Platform} {due : List EtherArp} {q q' : Queue} (h : q.Inv p due)
    (hr : Receives p q q') : q'.Inv p due := by
  have hle := h.length_le
  cases hr with
  | @bsd abi _ g c hg b rest nOut hq hwhole =>
    have hout := outOf_recv hg b nOut (h.isArp hq hwhole)
    obtain ⟨hshort, hfits⟩ := take_visible_length b.recs nOut
    have hmap : q.pending.map (Platform.arp (.bsd abi)) =
        (b.recs.map fun r => arpOf r.frame) ++ rest.map (Platform.arp (.bsd abi)) := by
      rw [hq, List.map_append, List.map_map]
      rfl
    refine ⟨?_, ?_, ?_, fun hp => by obtain ⟨_, hp⟩ := hp; cases hp⟩
    · intro packet hmem
      apply h.pending
      rw [hq]
      exact List.mem_append_right _ hmem
    · have hsub := h.sub
      rw [hmap, ← List.append_assoc] at hsub
      rw [hout]
      refine List.Sublist.trans (List.Sublist.append_right ?_ _) hsub
      refine List.Sublist.append_left ?_ q.got
      exact (List.take_sublist nOut _).trans ((List.takeWhile_sublist _).map _)
    · have hall := h.all
      rw [hq, List.length_append, List.length_map] at hall hle
      simp only [List.length_append, hout, Bool.and_eq_true, decide_eq_true_eq]
      rw [Fits, ← hfits, ← and_assoc, ← hall]
      omega
  | @linux prog _ out rest nOut hcall =>
    rw [nAcdOsSocketRecvLinux_eq, Prod.mk.injEq, Except.ok.injEq] at hcall
    obtain ⟨hout, hrest⟩ := hcall
    subst hout hrest
    refine ⟨?_, ?_, ?_, h.linux⟩
    · intro packet hmem
      exact h.pending packet (List.mem_of_mem_drop hmem)
    · have hsplit : q.got ++ (q.pending.take nOut).map msgOf ++
          (q.pending.drop nOut).map msgOf = q.got ++ q.pending.map msgOf := by
        rw [List.append_assoc, ← List.map_append, List.take_append_drop]
      exact hsplit ▸ h.sub
    · have hall := h.all
      rw [← hall]
      simp only [List.length_append, List.length_map, List.length_take, List.length_drop]
      omega

/-! ### The segment -/
section
variable [DecidableEq ι] {net : ι → Station}

theorem arrivals_admitted (sender : Option ι) (frames : List (List UInt8)) (i : ι) :
    ∀ packet ∈ arrivals net sender frames i, ∃ frame, (net i).platform.Admits frame ∧
      (net i).platform.queued frame = packet := by
  intro packet hmem
  obtain ⟨frame, hf, he⟩ := List.mem_map.mp hmem
  have hshown := (List.mem_filter.mp hf).2
  simp only [shown, Bool.and_eq_true, decide_eq_true_eq] at hshown
  exact ⟨frame, hshown.2, he⟩

theorem arp_arrivals_one (sender : Option ι) (frame : List UInt8) (i : ι) :
    (arrivals net sender [frame] i).map (net i).platform.arp =
      if shown net sender frame i then [arpOf frame] else [] := by
  by_cases hs : shown net sender frame i
  · simp [arrivals, hs, Platform.arp_queued]
  · simp [arrivals, hs]

theorem arp_arrivals_sent (i j : ι) (arp : Arp) :
    (arrivals net (some j) [arpFrame (net j).mac arp.bytes] i).map (net i).platform.arp =
      (heard net i (.sent j arp)).toList := by
  have hshown : shown net (some j) (arpFrame (net j).mac arp.bytes) i = true ↔
      (j ≠ i ∨ (net i).hearsItself) ∧ (net i).platform.wants arp := by
    simp [shown, (net i).platform.admits_arpFrame (net j).mac_length arp]
  rw [arp_arrivals_one, arpOf_arpFrame (net j).mac_length arp, heard]
  by_cases hh : (j ≠ i ∨ (net i).hearsItself) ∧ (net i).platform.wants arp
  · rw [if_pos (hshown.mpr hh), if_pos hh]
    rfl
  · rw [if_neg (fun hs => hh (hshown.mp hs)), if_neg hh]
    rfl

theorem arp_arrivals_foreign (i : ι) (frame : List UInt8) :
    (arrivals net none [frame] i).map (net i).platform.arp =
      (heard net i (.foreign frame)).toList := by
  rw [arp_arrivals_one]
  by_cases ha : (net i).platform.Admits frame
  · simp [shown, ha, heard]
  · simp [shown, ha, heard]

def Segment.Inv (net : ι → Station) (s : Segment ι) : Prop :=
  ∀ i, (s.queue i).Inv (net i).platform (s.log.filterMap (heard net i))

theorem inv_step {s s' : Segment ι} (h : s.Inv net) (hs : SegmentStep net s s') : s'.Inv net := by
  intro i
  cases hs with
  | @send frames r j arp g ifindex full hr =>
    have hputs := ((net j).platform.send_puts g ifindex (net j).mac arp []).ends hr
    have harr := (h i).arrive (full i) (arrivals_admitted (some j) frames i)
    cases r with
    | error e =>
      have hnone : frames = [] := hputs
      subst hnone
      simpa [logged, arrivals] using harr
    | ok u =>
      have hone : frames = [arpFrame (net j).mac arp.bytes] := hputs
      subst hone
      rw [arp_arrivals_sent] at harr
      rw [logged, List.filterMap_append]
      exact harr
  | foreign frame full =>
    have harr := (h i).arrive (full i) (arrivals_admitted none [frame] i)
    rw [arp_arrivals_foreign] at harr
    rw [List.filterMap_append]
    exact harr
  | @recv q j hr =>
    dsimp only
    by_cases he : i = j
    · subst he
      rw [Function.update_self]
      exact (h i).receives hr
    · rw [Function.update_of_ne he]
      exact h i

/-- In every run of the segment, what a station got and what its kernel still holds is, in order
and without repetition, part of what it was to hear, every ARP sent through either half of the
seam as it was sent; and it is all of it exactly when the kernel had room for every packet and
every read fitted, which on Linux each does. -/
theorem segment_delivers {s : Segment ι}
    (h : Reaches (fun s => s = Segment.init) (SegmentStep net) s) (i : ι) :
    ((s.queue i).got ++ (s.queue i).pending.map (net i).platform.arp).Sublist
        (s.log.filterMap (heard net i)) ∧
      ((s.queue i).got ++ (s.queue i).pending.map (net i).platform.arp =
        s.log.filterMap (heard net i) ↔ (s.queue i).dropped = 0 ∧ (s.queue i).fitted = true) ∧
      ((∃ prog, (net i).platform = .linux prog) → (s.queue i).fitted = true) := by
  have hinv : s.Inv net := by
    apply h.invariant
    · intro s hs i
      subst hs
      exact ⟨by simp [Segment.init], List.Sublist.refl [], by simp [Segment.init], fun _ => rfl⟩
    · intro s s' hs hstep
      exact inv_step hs hstep
  refine ⟨(hinv i).sub, ?_, (hinv i).linux⟩
  rw [← (hinv i).all]
  constructor
  · intro he
    have hlen := congrArg List.length he
    rwa [List.length_append, List.length_map] at hlen
  · intro hlen
    apply (hinv i).sub.eq_of_length
    rwa [List.length_append, List.length_map]

end

/-- A BSD station and a Linux one that asks for requests, and what the first sends. -/
def twoStations : Bool → Station
  | false => ⟨.bsd lp64, [2, 0, 0, 0, 0, 1], rfl, true⟩
  | true => ⟨.linux fun arp => arp[7]? = some 1, [2, 0, 0, 0, 0, 2], rfl, false⟩

def oneProbe : Arp := ⟨[0, 1, 8, 0, 6, 4, 0, 1] ++ List.replicate 20 0, rfl, rfl⟩

theorem segment_delivers_probe :
    (arrivals twoStations (some false)
        [arpFrame [2, 0, 0, 0, 0, 1] oneProbe.bytes] true).map msgOf =
      [Traffic.sent false oneProbe].filterMap (heard twoStations true) := by
  have hsend : ((twoStations false).platform.send .init 1 (twoStations false).mac
      oneProbe.bytes).Ends (wire (twoStations false).mac) []
      [arpFrame [2, 0, 0, 0, 0, 1] oneProbe.bytes] (.ok ()) :=
    Prog.Ends.call (Except.ok 42) trivial (Prog.Ends.ret _ _)
  exact (segment_delivers (.next (.start rfl)
    (.send false oneProbe .init 1 (fun _ => false) hsend)) true).2.1.mpr ⟨rfl, rfl⟩

end PkgsrcPatches.NAcd
