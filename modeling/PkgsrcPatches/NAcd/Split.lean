import PkgsrcPatches.NAcd.OsLinux
import PkgsrcPatches.NAcd.Timer

/-! n-acd on Linux before and after its kernel calls moved behind `n-acd-os.h`: the four
functions the patch removes, and those it adds composed with the Linux seam. -/
namespace PkgsrcPatches.NAcd

def enobufs : Errno := .other 105
def enxio : Errno := .other 6

/-- What a function of n-acd returns: zero, a negated errno, `N_ACD_E_DROPPED`, or another
of its codes. -/
inductive Code where
  | success
  | errno (e : Errno)
  | dropped
  | other (n : Nat)
deriving DecidableEq

structure Acd (σ : Type) where
  ifindex : Nat
  preempted : Bool
  rest : σ
deriving DecidableEq

structure SockaddrLl where
  protocol : Nat
  ifindex : Nat
  halen : Nat
  addr : List UInt8
deriving DecidableEq

def broadcastAddress (ifindex : Nat) : SockaddrLl :=
  ⟨0x0806, ifindex, 6, [0xff, 0xff, 0xff, 0xff, 0xff, 0xff]⟩

/-- What the patch leaves as it was: the state machine, the ARP request, the check of a
packet, and what follows the switch of `n_acd_dispatch` in its loop and after it. -/
structure Upstream (σ : Type) where
  raiseDown : Acd σ → Code × Acd σ
  handleTimeout : Acd σ → Code × Acd σ
  packetIsValid : Acd σ → List UInt8 → Nat → Bool
  handlePacket : Acd σ → List UInt8 → Code × Acd σ
  arpRequest : Acd σ → (tpa : UInt32) → (spa : Option UInt32) → List UInt8
  leavesLoop : Code → Bool
  finish : Acd σ → Code → Code

/-- The answer of `sendto` to a packet and its destination: the bytes it took. -/
abbrev Sendto := List UInt8 → SockaddrLl → Except Errno Nat

/-- The answer of `read` on the timerfd: its length and the value read. -/
abbrev TimerfdRead := Except Errno (Nat × Nat)

/-- The answer of `recvmmsg`: the packets, each with its length. -/
abbrev Recvmmsg := Except Errno (List EtherArp)

inductive EventData where
  | timer | socket

structure EpollEvent where
  data : EventData
  inp : Bool
  hup : Bool
  err : Bool

/-- What the kernel answers to one `n_acd_dispatch`; the reads of the `i`-th event are
answered by `timerRead i` and `recv i`. -/
structure Kernel where
  epollWait : Except Errno (List EpollEvent)
  timerRead : Nat → TimerfdRead
  recv : Nat → Recvmmsg

variable {σ : Type} (up : Upstream σ)

/-- The loop over a batch, which is left at the first packet that fails. -/
def handlePackets : List EtherArp → Acd σ → Code × Acd σ
  | [], acd => (.success, acd)
  | p :: ps, acd =>
    if up.packetIsValid acd p.data p.len then
      match up.handlePacket acd p.data with
      | (.success, acd) => handlePackets ps acd
      | (r, acd) => (r, acd)
    else handlePackets ps acd

def dispatchLoop {ε : Type} (dispatch : Nat → ε → Acd σ → Code × Acd σ) :
    Nat → List ε → Code → Acd σ → Code × Acd σ
  | _, [], r, acd => (r, acd)
  | i, e :: es, _, acd =>
    let res := dispatch i e acd
    if up.leavesLoop res.1 then res else dispatchLoop dispatch (i + 1) es res.1 res.2

/-! ### Before the patch -/

def nAcdSendOld (sendto : Sendto) (acd : Acd σ) (tpa : UInt32) (spa : Option UInt32) :
    Code × Acd σ :=
  match sendto (up.arpRequest acd tpa spa) (broadcastAddress acd.ifindex) with
  | .error e =>
    if e = .eagain ∨ e = enobufs then (.dropped, acd)
    else if e = .enetdown ∨ e = enxio then
      match up.raiseDown acd with
      | (.success, acd) => (.dropped, acd)
      | (r, acd) => (r, acd)
    else (.errno e, acd)
  | .ok l => if l ≠ sizeofEtherArp then (.dropped, acd) else (.success, acd)

def timerReadOld (r : TimerfdRead) : Except Errno TimerEvent :=
  match r with
  | .error e => if e = .eagain then .ok .none else .error e
  | .ok v => if v.1 ≠ 8 ∨ v.2 = 0 then .error .eio else .ok .triggered

def nAcdDispatchTimerOld (event : EpollEvent) (r : TimerfdRead) (acd : Acd σ) : Code × Acd σ :=
  if event.hup ∨ event.err then (.errno .eio, acd)
  else if event.inp then
    match timerReadOld r with
    | .error e => (.errno e, acd)
    | .ok .none => (.success, acd)
    | .ok .triggered => up.handleTimeout acd
  else (.success, acd)

def nBatch : Nat := 8

def nAcdDispatchSocketOld (event : EpollEvent) (r : Recvmmsg) (acd : Acd σ) : Code × Acd σ :=
  match r with
  | .error e =>
    if e = .enetdown then up.raiseDown acd
    else if e = .eagain then
      if event.hup ∨ event.err then (.errno .eio, acd) else (.success, acd)
    else (.errno e, acd)
  | .ok msgs =>
    handlePackets up msgs (if nBatch ≤ msgs.length then { acd with preempted := true } else acd)

def dispatchEventOld (k : Kernel) (i : Nat) (event : EpollEvent) (acd : Acd σ) : Code × Acd σ :=
  match event.data with
  | .timer => nAcdDispatchTimerOld up event (k.timerRead i) acd
  | .socket => nAcdDispatchSocketOld up event (k.recv i) acd

def nAcdDispatchOld (k : Kernel) (acd : Acd σ) : Code × Acd σ :=
  match k.epollWait with
  | .error e => (.errno e, acd)
  | .ok events =>
    let res := dispatchLoop up (dispatchEventOld up k) 0 events .success { acd with preempted := false }
    (up.finish res.2 res.1, res.2)

/-! ### After it -/

def nAcdOsSocketSend (sendto : Sendto) (ifindex : Nat) (arp : List UInt8) : Except Errno Unit :=
  match sendto arp (broadcastAddress ifindex) with
  | .error e => .error e
  | .ok l => if l ≠ sizeofEtherArp then .error .eio else .ok ()

def nAcdSend (sendto : Sendto) (acd : Acd σ) (tpa : UInt32) (spa : Option UInt32) :
    Code × Acd σ :=
  match nAcdOsSocketSend sendto acd.ifindex (up.arpRequest acd tpa spa) with
  | .error e =>
    if e = .eagain ∨ e = enobufs then (.dropped, acd)
    else if e = .enetdown ∨ e = enxio then
      match up.raiseDown acd with
      | (.success, acd) => (.dropped, acd)
      | (r, acd) => (r, acd)
    else (.errno e, acd)
  | .ok () => (.success, acd)

def nAcdOsTimerReadLinux (r : TimerfdRead) : Except Errno Nat :=
  match r with
  | .error e => if e = .eagain then .ok 0 else if e = .eintr then .ok 0 else .error e
  | .ok v => if v.1 ≠ 8 ∨ v.2 = 0 then .error .eio else .ok 1

def nAcdDispatchTimer (r : TimerfdRead) (acd : Acd σ) : Code × Acd σ :=
  match timerRead (nAcdOsTimerReadLinux r) with
  | .error e => (.errno e, acd)
  | .ok .none => (.success, acd)
  | .ok .triggered => up.handleTimeout acd

/-- The Linux `n_acd_os_socket_recv` over the answer of its `recvmmsg`. -/
def nAcdOsSocketRecvOf (r : Recvmmsg) : Except Errno (List EtherArp) :=
  match r with
  | .error e => if e = .eagain ∨ e = .eintr then .ok [] else .error e
  | .ok msgs => .ok msgs

def nAcdDispatchSocket (r : Recvmmsg) (acd : Acd σ) : Code × Acd σ :=
  match nAcdOsSocketRecvOf r with
  | .error e => if e = .enetdown then up.raiseDown acd else (.errno e, acd)
  | .ok data =>
    handlePackets up data (if nBatch ≤ data.length then { acd with preempted := true } else acd)

def nAcdOsPollWait (r : Except Errno (List EpollEvent)) : Except Errno (List EventData) :=
  match r with
  | .error e => .error e
  | .ok events => .ok (events.map (·.data))

def dispatchEvent (k : Kernel) (i : Nat) (event : EventData) (acd : Acd σ) : Code × Acd σ :=
  match event with
  | .timer => nAcdDispatchTimer up (k.timerRead i) acd
  | .socket => nAcdDispatchSocket up (k.recv i) acd

def nAcdDispatch (k : Kernel) (acd : Acd σ) : Code × Acd σ :=
  match nAcdOsPollWait k.epollWait with
  | .error e => (.errno e, acd)
  | .ok events =>
    let res := dispatchLoop up (dispatchEvent up k) 0 events .success { acd with preempted := false }
    (up.finish res.2 res.1, res.2)

theorem nAcdOsSocketRecvLinux_of (queue : List (List UInt8)) (nOut : Nat) :
    nAcdOsSocketRecvLinux queue nOut =
      (nAcdOsSocketRecvOf (recvmmsg queue nOut).1, (recvmmsg queue nOut).2) := by
  unfold nAcdOsSocketRecvLinux nAcdOsSocketRecvOf
  cases recvmmsg queue nOut with
  | mk r rest =>
    cases r with
    | error e => rfl
    | ok msgs => rfl

/-! ### What stayed the same -/

/-- An event as the new code takes it: something to read, nothing else said. -/
def EpollEvent.readable (e : EpollEvent) : EpollEvent := ⟨e.data, true, false, false⟩

/-- An interrupted call told as one that found nothing. -/
def uninterrupted {α : Type} (r : Except Errno α) : Except Errno α :=
  match r with
  | .error .eintr => .error .eagain
  | r => r

def Kernel.plain (k : Kernel) : Kernel where
  epollWait := match k.epollWait with
    | .error e => .error e
    | .ok events => .ok (events.map EpollEvent.readable)
  timerRead i := uninterrupted (k.timerRead i)
  recv i := uninterrupted (k.recv i)

theorem nAcdSend_eq (sendto : Sendto) (acd : Acd σ) (tpa : UInt32) (spa : Option UInt32)
    (h : ∀ l, sendto (up.arpRequest acd tpa spa) (broadcastAddress acd.ifindex) = .ok l →
      l = sizeofEtherArp) :
    nAcdSend up sendto acd tpa spa = nAcdSendOld up sendto acd tpa spa := by
  unfold nAcdSend nAcdSendOld nAcdOsSocketSend
  cases hr : sendto (up.arpRequest acd tpa spa) (broadcastAddress acd.ifindex) with
  | error e => rfl
  | ok l =>
    have hl := h _ hr
    simp only [hl, ne_eq, not_true_eq_false, if_false]

theorem nAcdDispatchTimer_eq (e : EpollEvent) (r : TimerfdRead) (acd : Acd σ) :
    nAcdDispatchTimer up r acd = nAcdDispatchTimerOld up e.readable (uninterrupted r) acd := by
  unfold nAcdDispatchTimer nAcdDispatchTimerOld
  cases r with
  | error err =>
    by_cases hagain : err = .eagain
    · subst hagain
      rfl
    · by_cases hintr : err = .eintr
      · subst hintr
        rfl
      · have hplain : uninterrupted (.error err : TimerfdRead) = .error err := by
          cases err <;> first | rfl | exact absurd rfl hintr
        simp only [hplain, nAcdOsTimerReadLinux, timerReadOld, if_neg hagain, if_neg hintr, timerRead,
          EpollEvent.readable]
        rfl
  | ok v =>
    have hplain : uninterrupted (.ok v : TimerfdRead) = .ok v := rfl
    simp only [hplain, nAcdOsTimerReadLinux, timerReadOld, EpollEvent.readable]
    by_cases hv : v.1 ≠ 8 ∨ v.2 = 0
    · simp only [if_pos hv, timerRead]
      rfl
    · simp only [if_neg hv, timerRead]
      rfl

theorem nAcdDispatchSocket_eq (e : EpollEvent) (r : Recvmmsg) (acd : Acd σ) :
    nAcdDispatchSocket up r acd = nAcdDispatchSocketOld up e.readable (uninterrupted r) acd := by
  unfold nAcdDispatchSocket nAcdDispatchSocketOld
  cases r with
  | ok msgs => rfl
  | error err =>
    by_cases hagain : err = .eagain
    · subst hagain
      rfl
    · by_cases hintr : err = .eintr
      · subst hintr
        rfl
      · have hplain : uninterrupted (.error err : Recvmmsg) = .error err := by
          cases err <;> first | rfl | exact absurd rfl hintr
        have hseam : nAcdOsSocketRecvOf (.error err) = .error err :=
          if_neg fun h => h.elim hagain hintr
        simp only [hplain, hseam, if_neg hagain]

theorem dispatchLoop_congr {ε ε₁ ε₂ : Type} (f₁ : ε → ε₁) (f₂ : ε → ε₂)
    {d₁ : Nat → ε₁ → Acd σ → Code × Acd σ} {d₂ : Nat → ε₂ → Acd σ → Code × Acd σ}
    (h : ∀ i e acd, d₁ i (f₁ e) acd = d₂ i (f₂ e) acd) (es : List ε) :
    ∀ (i : Nat) (r : Code) (acd : Acd σ),
      dispatchLoop up d₁ i (es.map f₁) r acd = dispatchLoop up d₂ i (es.map f₂) r acd := by
  induction es with
  | nil =>
    intro i r acd
    rfl
  | cons e es ih =>
    intro i r acd
    simp only [dispatchLoop, List.map_cons, h, ih]

theorem dispatchEvent_eq (k : Kernel) (i : Nat) (e : EpollEvent) (acd : Acd σ) :
    dispatchEvent up k i e.data acd = dispatchEventOld up k.plain i e.readable acd := by
  cases e with
  | mk data inp hup err =>
    cases data with
    | timer => exact nAcdDispatchTimer_eq up ⟨.timer, inp, hup, err⟩ (k.timerRead i) acd
    | socket => exact nAcdDispatchSocket_eq up ⟨.socket, inp, hup, err⟩ (k.recv i) acd

theorem nAcdDispatch_eq (k : Kernel) (acd : Acd σ) :
    nAcdDispatch up k acd = nAcdDispatchOld up k.plain acd := by
  cases hwait : k.epollWait with
  | error e => simp only [nAcdDispatch, nAcdDispatchOld, nAcdOsPollWait, Kernel.plain, hwait]
  | ok events =>
    have hplain : k.plain.epollWait = .ok (events.map EpollEvent.readable) := by
      simp only [Kernel.plain, hwait]
    have hloop := dispatchLoop_congr up (fun e : EpollEvent => e.data) EpollEvent.readable
      (dispatchEvent_eq up k) events 0 .success { acd with preempted := false }
    simp only [nAcdDispatch, nAcdDispatchOld, nAcdOsPollWait, hwait, hplain, hloop]

/-- The four functions do what they did, for the same answers of the kernel without the
flags of an event and with an interrupted call told as an empty one. A short send is left out. -/
theorem split_keeps_linux (acd : Acd σ) :
    (∀ (sendto : Sendto) (tpa : UInt32) (spa : Option UInt32),
      (∀ l, sendto (up.arpRequest acd tpa spa) (broadcastAddress acd.ifindex) = .ok l →
        l = sizeofEtherArp) →
      nAcdSend up sendto acd tpa spa = nAcdSendOld up sendto acd tpa spa) ∧
      (∀ (e : EpollEvent) (r : TimerfdRead),
        nAcdDispatchTimer up r acd = nAcdDispatchTimerOld up e.readable (uninterrupted r) acd) ∧
      (∀ (e : EpollEvent) (r : Recvmmsg),
        nAcdDispatchSocket up r acd = nAcdDispatchSocketOld up e.readable (uninterrupted r) acd) ∧
      ∀ k : Kernel, nAcdDispatch up k acd = nAcdDispatchOld up k.plain acd :=
  ⟨fun sendto tpa spa h => nAcdSend_eq up sendto acd tpa spa h,
    fun e r => nAcdDispatchTimer_eq up e r acd, fun e r => nAcdDispatchSocket_eq up e r acd,
    fun k => nAcdDispatch_eq up k acd⟩

def idleUpstream : Upstream Unit where
  raiseDown acd := (.success, acd)
  handleTimeout acd := (.success, acd)
  packetIsValid _ _ _ := true
  handlePacket acd _ := (.success, acd)
  arpRequest _ _ _ := List.replicate sizeofEtherArp 0
  leavesLoop r := r ≠ .success
  finish acd r := if r = .success ∧ acd.preempted then .other 1 else r

theorem split_keeps_linux_sent :
    nAcdSend idleUpstream (fun _ _ => .ok sizeofEtherArp) ⟨1, false, ()⟩ 0 none =
      nAcdSendOld idleUpstream (fun _ _ => .ok sizeofEtherArp) ⟨1, false, ()⟩ 0 none :=
  (split_keeps_linux idleUpstream ⟨1, false, ()⟩).1 _ 0 none fun _ h => (Except.ok.inj h).symm

/-- With flags and interruptions they differ: a hang-up on the timer or on an empty socket
was an input/output error and an interrupted read one of its own; none of them is now. -/
theorem split_changes_linux :
    nAcdDispatchTimer idleUpstream (.error .eagain) ⟨1, false, ()⟩ ≠
        nAcdDispatchTimerOld idleUpstream ⟨.timer, true, true, false⟩ (.error .eagain) ⟨1, false, ()⟩ ∧
      nAcdDispatchSocket idleUpstream (.error .eagain) ⟨1, false, ()⟩ ≠
        nAcdDispatchSocketOld idleUpstream ⟨.socket, true, true, false⟩ (.error .eagain)
          ⟨1, false, ()⟩ ∧
      nAcdDispatchSocket idleUpstream (.error .eintr) ⟨1, false, ()⟩ ≠
        nAcdDispatchSocketOld idleUpstream ⟨.socket, true, false, false⟩ (.error .eintr)
          ⟨1, false, ()⟩ := by
  decide

end PkgsrcPatches.NAcd
