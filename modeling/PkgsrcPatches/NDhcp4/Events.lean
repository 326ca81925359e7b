import Mathlib.Data.List.Forall2
import Mathlib.Logic.Function.Basic
import PkgsrcPatches.NAcd.Timer
import PkgsrcPatches.Lib.LoopRuns
import PkgsrcPatches.Lib.Runs

/-! The poller and the timer of n-dhcp4: the two halves of the seam over a kernel whose
descriptors become readable, and what the seam promises the rest of n-dhcp4. -/
namespace PkgsrcPatches.NDhcp4.Events
open Lib Lib.Loop NAcd Function

/-- The BSDs' half, by the unit of its timer, and Linux's half. -/
inductive Build where
  | bsd (u : TimerUnit)
  | linux

/-- The clock, what the poller watches (descriptors, and what was said of each), the one-shot
timer and the sockets that can be read. -/
structure World where
  now : Nat
  watched : List (Nat × UInt32)
  timer : Option Knote
  readable : Nat → Bool

def eexist : Errno := .other 17
def enotrecoverable : Errno := .other 131

/-! ### The kernel's answers -/

def keventDeleteTimer (fail : Option Errno) (k : Option Knote) : Except Errno (Option Knote) :=
  match fail, k with
  | some e, _ => .error e
  | none, none => .error .enoent
  | none, some _ => .ok none

/-- `kevent` or `timerfd_settime` that arms the timer; what it had is thrown away, an unread
firing included. -/
def armTimer (fail : Option Errno) (now interval : Nat) : Except Errno (Option Knote) :=
  match fail with
  | some e => .error e
  | none => .ok (some (.armed now interval))

def keventTimer (fail : Option Errno) (k : Option Knote) : Except Errno Nat × Option Knote :=
  match fail, k with
  | some e, k => (.error e, k)
  | none, some .pending => (.ok 1, none)
  | none, k => (.ok 0, k)

def timerfdSettime (fail : Option Errno) (now tvSec tvNsec : Nat) : Except Errno (Option Knote) :=
  match fail with
  | some e => .error e
  | none => if tvSec = 0 ∧ tvNsec = 0 then .ok none else armTimer none now (tvSec * 1000000000 + tvNsec)

def readTimerfd (fail : Option Errno) (k : Option Knote) : Except Errno (Nat × Nat) × Option Knote :=
  match fail, k with
  | some e, k => (.error e, k)
  | none, some .pending => (.ok (8, 1), none)
  | none, k => (.error .eagain, k)

/-! ### The timer -/

def timerData (u : TimerUnit) (nsecs : Nat) : Nat :=
  match u with
  | .nseconds => nsecs
  | .mseconds =>
    let ms := u64 (nsecs + 999999) / 1000000
    if ms = 0 then 1 else ms

def changed (k : Option Knote) (r : Except Errno (Option Knote)) : Except Errno Unit × Option Knote :=
  match r with
  | .ok k' => (.ok (), k')
  | .error e => (.error e, k)

def nDhcp4OsTimerSet (b : Build) (fail : Option Errno) (now nsecs : Nat) (k : Option Knote) :
    Except Errno Unit × Option Knote :=
  match b with
  | .bsd u =>
    if nsecs = 0 then
      match keventDeleteTimer fail k with
      | .ok k' => (.ok (), k')
      | .error e => if e ≠ .enoent then (.error e, k) else (.ok (), k)
    else changed k (armTimer fail now (timerData u nsecs))
  | .linux => changed k (timerfdSettime fail now (nsecs / 1000000000) (nsecs % 1000000000))

/-- A turn of the loop that drains the timer's queue; four events at most come at a time. -/
def timerReadPass (fail : Option Errno) (s : Option Knote × Nat) :
    Option (Pass (Option Knote × Nat) (Except Errno Nat × Option Knote)) :=
  match keventTimer fail s.1 with
  | (.error e, k) => some (.done (if e ≠ .eintr then .error e else .ok s.2, k))
  | (.ok r, k) =>
    let fired := if r > 0 then 1 else s.2
    if r = 4 then some (.next (k, fired)) else some (.done (.ok fired, k))

/-- `n_dhcp4_os_timer_read`, where its loop, if it has one, has `n` turns at most. -/
def nDhcp4OsTimerRead (b : Build) (fail : Option Errno) (n : Nat) (k : Option Knote) :
    Exit (Except Errno Nat × Option Knote) :=
  match b with
  | .bsd _ => run (timerReadPass fail) n (k, 0)
  | .linux => match readTimerfd fail k with
    | (.error e, k) => .ret (if e = .eagain ∨ e = .eintr then .ok 0 else .error e, k)
    | (.ok (l, v), k) => .ret (if l ≠ 8 ∨ v = 0 then .error enotrecoverable else .ok 1, k)

/-! ### The poller -/

def unwatch (w : World) (fd : Nat) : World := { w with watched := w.watched.filter (·.1 ≠ fd) }

/-- The knote or the item of a descriptor. The BSDs' `EV_ADD` of one that is there changes it. -/
def nDhcp4OsPollAdd (b : Build) (fail : Option Errno) (w : World) (fd : Nat) (id : UInt32) :
    Except Errno Unit × World :=
  match b, fail with
  | _, some e => (.error e, w)
  | .bsd _, none => (.ok (), { unwatch w fd with watched := (fd, id) :: (unwatch w fd).watched })
  | .linux, none =>
    if fd ∈ w.watched.map Prod.fst then (.error eexist, w)
    else (.ok (), { w with watched := (fd, id) :: w.watched })

/-- Where there is nothing to remove, nobody hears of it, nor where the kernel removes nothing. -/
def nDhcp4OsPollDel (fail : Option Errno) (w : World) (fd : Nat) : Except Errno Unit × World :=
  match fail with
  | some _ => (.ok (), w)
  | none => (.ok (), unwatch w fd)

/-- `n_dhcp4_os_poll_wait`, from what the kernel says. -/
def nDhcp4OsPollWait (b : Build) (r : Except Errno (List (Nat × UInt32))) : Except Errno (List UInt32) :=
  match b, r with
  | _, .ok events => .ok (events.map Prod.snd)
  | .bsd _, .error e => if e = .eintr then .ok [] else .error e
  | .linux, .error e => .error e

def World.ready (timerFd : Nat) (w : World) (fd : Nat) : Bool :=
  if fd = timerFd then w.timer = some .pending else w.readable fd

/-- What `kevent` and `epoll_wait` may say when there is room for `n` events: as many as fit of
what is watched and can be read, in any order, each once. -/
def Told (timerFd n : Nat) (w : World) (events : List (Nat × UInt32)) : Prop :=
  ∃ rest, (events ++ rest).Perm (w.watched.filter fun i => w.ready timerFd i.1) ∧
    events.length = min n (w.watched.filter fun i => w.ready timerFd i.1).length

/-! ### Runs -/

/-- What is seen of a step: of the world, and of the calls, each with how the kernel failed it, if it
did, and with what it says. -/
inductive Label where
  | tick (now : Nat)
  | arrive (fd : Nat)
  | drain (fd : Nat)
  | fire
  | close (fd : Nat)
  | timerSet (nsecs : Nat) (fail : Option Errno) (r : Except Errno Unit)
  | timerRead (fail : Option Errno) (r : Except Errno Nat)
  | pollAdd (fd : Nat) (id : UInt32) (fail : Option Errno) (r : Except Errno Unit)
  | pollDel (fd : Nat) (fail : Option Errno) (r : Except Errno Unit)
  | pollWait (nIds : Nat) (fail : Option Errno) (r : Except Errno (List UInt32))

def Build.nanos : Build → Nat
  | .bsd u => u.nanos
  | .linux => 1

/-- The kernel has `ENOENT` and `EAGAIN` for timers that are not there and have not fired, and fails
no call with them otherwise. The time asked for is less than 292 years. -/
inductive Step (b : Build) (timerFd : Nat) : World → Label → World → Prop
  | tick (w : World) (now : Nat) (hle : w.now ≤ now) :
      Step b timerFd w (.tick now) { w with now := now }
  | arrive (w : World) (fd : Nat) :
      Step b timerFd w (.arrive fd) { w with readable := update w.readable fd true }
  | drain (w : World) (fd : Nat) :
      Step b timerFd w (.drain fd) { w with readable := update w.readable fd false }
  | fire (w : World) (reading interval : Nat) (hk : w.timer = some (.armed reading interval))
      (ht : reading + interval * b.nanos ≤ w.now) :
      Step b timerFd w .fire { w with timer := some .pending }
  | close (w : World) (fd : Nat) (hfd : fd ≠ timerFd) :
      Step b timerFd w (.close fd) { unwatch w fd with readable := update w.readable fd false }
  | timerSet (w : World) (fail : Option Errno) (nsecs : Nat) (hn : nsecs < 2 ^ 63)
      (hf : fail ≠ some .enoent) :
      Step b timerFd w (.timerSet nsecs fail (nDhcp4OsTimerSet b fail w.now nsecs w.timer).1)
        { w with timer := (nDhcp4OsTimerSet b fail w.now nsecs w.timer).2 }
  | timerRead (w : World) (fail : Option Errno) (hf : fail ≠ some .eagain) {n : Nat}
      {r : Except Errno Nat} {k : Option Knote}
      (hr : nDhcp4OsTimerRead b fail n w.timer = .ret (r, k)) :
      Step b timerFd w (.timerRead fail r) { w with timer := k }
  | pollAdd (w : World) (fail : Option Errno) (fd : Nat) (id : UInt32) :
      Step b timerFd w (.pollAdd fd id fail (nDhcp4OsPollAdd b fail w fd id).1)
        (nDhcp4OsPollAdd b fail w fd id).2
  | pollDel (w : World) (fail : Option Errno) (fd : Nat) :
      Step b timerFd w (.pollDel fd fail (nDhcp4OsPollDel fail w fd).1)
        (nDhcp4OsPollDel fail w fd).2
  | pollWait (w : World) (nIds : Nat) {events : List (Nat × UInt32)}
      (he : Told timerFd (min nIds 8) w events) :
      Step b timerFd w (.pollWait nIds none (nDhcp4OsPollWait b (.ok events))) w
  | pollFail (w : World) (nIds : Nat) (e : Errno) :
      Step b timerFd w (.pollWait nIds (some e) (nDhcp4OsPollWait b (.error e))) w

/-! ### What the seam promises -/

/-- The clock, what is watched, the time that was asked for with whether it has been reached, and
the sockets that can be read. -/
structure Seam where
  now : Nat
  watched : Nat → Option UInt32
  timer : Option (Nat × Bool)
  readable : Nat → Bool

def Seam.Ready (timerFd : Nat) (s : Seam) (fd : Nat) : Prop :=
  if fd = timerFd then ∃ d, s.timer = some (d, true) else s.readable fd = true

inductive Promise (timerFd : Nat) : Seam → Label → Seam → Prop
  | tick (s : Seam) (now : Nat) (hle : s.now ≤ now) :
      Promise timerFd s (.tick now) { s with now := now }
  | arrive (s : Seam) (fd : Nat) :
      Promise timerFd s (.arrive fd) { s with readable := update s.readable fd true }
  | drain (s : Seam) (fd : Nat) :
      Promise timerFd s (.drain fd) { s with readable := update s.readable fd false }
  | fire (s : Seam) (d : Nat) (ht : s.timer = some (d, false)) (hd : d ≤ s.now) :
      Promise timerFd s .fire { s with timer := some (d, true) }
  | close (s : Seam) (fd : Nat) : Promise timerFd s (.close fd)
      { s with watched := update s.watched fd none, readable := update s.readable fd false }
  | disarm (s : Seam) : Promise timerFd s (.timerSet 0 none (.ok ())) { s with timer := none }
  | arm (s : Seam) (nsecs : Nat) (hpos : 0 < nsecs) :
      Promise timerFd s (.timerSet nsecs none (.ok ()))
        { s with timer := some (s.now + nsecs, false) }
  | setFails (s : Seam) (nsecs : Nat) (e : Errno) :
      Promise timerFd s (.timerSet nsecs (some e) (.error e)) s
  | fired (s : Seam) (d : Nat) (ht : s.timer = some (d, true)) :
      Promise timerFd s (.timerRead none (.ok 1)) { s with timer := none }
  | notFired (s : Seam) (ht : ∀ d, s.timer ≠ some (d, true)) :
      Promise timerFd s (.timerRead none (.ok 0)) s
  | interrupted (s : Seam) : Promise timerFd s (.timerRead (some .eintr) (.ok 0)) s
  | readFails (s : Seam) (e : Errno) (he : e ≠ .eintr) :
      Promise timerFd s (.timerRead (some e) (.error e)) s
  | add (s : Seam) (fd : Nat) (id : UInt32) : Promise timerFd s (.pollAdd fd id none (.ok ()))
      { s with watched := update s.watched fd (some id) }
  | addTwice (s : Seam) (fd : Nat) (id : UInt32) (hfd : (s.watched fd).isSome) :
      Promise timerFd s (.pollAdd fd id none (.error eexist)) s
  | addFails (s : Seam) (fd : Nat) (id : UInt32) (e : Errno) :
      Promise timerFd s (.pollAdd fd id (some e) (.error e)) s
  | del (s : Seam) (fd : Nat) : Promise timerFd s (.pollDel fd none (.ok ()))
      { s with watched := update s.watched fd none }
  | delFails (s : Seam) (fd : Nat) (e : Errno) :
      Promise timerFd s (.pollDel fd (some e) (.ok ())) s
  | wait (s : Seam) (nIds : Nat) {ids : List UInt32} {fds : List Nat} (hn : fds.Nodup)
      (hids : List.Forall₂ (fun fd id => s.watched fd = some id ∧ s.Ready timerFd fd) fds ids)
      (hroom : fds.length ≤ min nIds 8)
      (hall : fds.length < min nIds 8 → ∀ fd, (s.watched fd).isSome → s.Ready timerFd fd →
        fd ∈ fds) :
      Promise timerFd s (.pollWait nIds none (.ok ids)) s
  | waitInterrupted (s : Seam) (nIds : Nat) :
      Promise timerFd s (.pollWait nIds (some .eintr) (.ok [])) s
  | waitFails (s : Seam) (nIds : Nat) (e : Errno) :
      Promise timerFd s (.pollWait nIds (some e) (.error e)) s

/-! ### The calls, case by case -/

section
variable {b : Build} {fail : Option Errno} {now nsecs : Nat} {k : Option Knote}

theorem timerData_bounds (u : TimerUnit) (hpos : 0 < nsecs) (hn : nsecs < 2 ^ 63) :
    nsecs ≤ timerData u nsecs * u.nanos ∧ timerData u nsecs * u.nanos < nsecs + u.nanos := by
  cases u with
  | nseconds =>
    simp only [timerData, TimerUnit.nanos]
    omega
  | mseconds =>
    obtain ⟨hlow, hhigh⟩ := roundUp_bounds nsecs 1000000 (by decide)
    have hms : timerData .mseconds nsecs = (nsecs + (1000000 - 1)) / 1000000 := by
      have hu : u64 (nsecs + 999999) = nsecs + 999999 := u64_of_lt (by omega)
      have hne : (nsecs + 999999) / 1000000 ≠ 0 := by omega
      simp only [timerData, hu, if_neg hne, Nat.reduceSub]
    rw [hms]
    exact ⟨hlow, hhigh⟩

theorem nDhcp4OsTimerSet_cases (hn : nsecs < 2 ^ 63) (hf : fail ≠ some .enoent) :
    (∃ e, fail = some e ∧ nDhcp4OsTimerSet b fail now nsecs k = (.error e, k)) ∨
      (fail = none ∧ nsecs = 0 ∧ nDhcp4OsTimerSet b fail now nsecs k = (.ok (), none)) ∨
      (fail = none ∧ 0 < nsecs ∧ ∃ interval,
        nDhcp4OsTimerSet b fail now nsecs k = (.ok (), some (.armed now interval)) ∧
        nsecs ≤ interval * b.nanos ∧ interval * b.nanos < nsecs + b.nanos) := by
  cases fail with
  | some e =>
    left
    cases b with
    | bsd u =>
      have he : e ≠ .enoent := fun he => hf (he ▸ rfl)
      by_cases hz : nsecs = 0
      · exact ⟨e, rfl, by simp only [nDhcp4OsTimerSet, if_pos hz, keventDeleteTimer, if_pos he]⟩
      · exact ⟨e, rfl, by simp only [nDhcp4OsTimerSet, if_neg hz, armTimer, changed]⟩
    | linux => exact ⟨e, rfl, rfl⟩
  | none =>
    right
    cases b with
    | bsd u =>
      by_cases hz : nsecs = 0
      · refine Or.inl ⟨rfl, hz, ?_⟩
        cases k with
        | none =>
          simp only [nDhcp4OsTimerSet, if_pos hz, keventDeleteTimer, ne_eq, not_true, if_false]
        | some k => simp only [nDhcp4OsTimerSet, if_pos hz, keventDeleteTimer]
      · have hpos := Nat.pos_of_ne_zero hz
        refine Or.inr ⟨rfl, hpos, timerData u nsecs, ?_, timerData_bounds u hpos hn⟩
        simp only [nDhcp4OsTimerSet, if_neg hz, armTimer, changed]
    | linux =>
      have hsum : nsecs / 1000000000 * 1000000000 + nsecs % 1000000000 = nsecs :=
        Nat.div_add_mod' _ _
      by_cases hz : nsecs = 0
      · refine Or.inl ⟨rfl, hz, ?_⟩
        subst hz
        rfl
      · have hne : ¬ (nsecs / 1000000000 = 0 ∧ nsecs % 1000000000 = 0) := by omega
        refine Or.inr ⟨rfl, Nat.pos_of_ne_zero hz, nsecs, ?_, ?_⟩
        · simp only [nDhcp4OsTimerSet, timerfdSettime, if_neg hne, armTimer, changed, hsum]
        · simp only [Build.nanos]
          omega

theorem bsd_read {u : TimerUnit} {x : Except Errno Nat × Option Knote} (n : Nat)
    (h : timerReadPass fail (k, 0) = some (.done x)) :
    nDhcp4OsTimerRead (.bsd u) fail (n + 1) k = .ret x := run_done n h

theorem nDhcp4OsTimerRead_cases (b : Build) (hf : fail ≠ some .eagain) (n : Nat)
    (k : Option Knote) :
    (∃ e, fail = some e ∧ e ≠ .eintr ∧ nDhcp4OsTimerRead b fail (n + 1) k = .ret (.error e, k)) ∨
      (fail = some .eintr ∧ nDhcp4OsTimerRead b fail (n + 1) k = .ret (.ok 0, k)) ∨
      (fail = none ∧ k = some .pending ∧ nDhcp4OsTimerRead b fail (n + 1) k = .ret (.ok 1, none)) ∨
      (fail = none ∧ k ≠ some .pending ∧ nDhcp4OsTimerRead b fail (n + 1) k = .ret (.ok 0, k)) := by
  cases fail with
  | some e =>
    by_cases he : e = .eintr
    · subst he
      refine Or.inr (Or.inl ⟨rfl, ?_⟩)
      cases b with
      | bsd u => exact bsd_read n rfl
      | linux => rfl
    · refine Or.inl ⟨e, rfl, he, ?_⟩
      cases b with
      | bsd u =>
        apply bsd_read n
        simp only [timerReadPass, keventTimer, ne_eq, he, not_false_eq_true, if_true]
      | linux =>
        have hagain : e ≠ .eagain := fun h => hf (h ▸ rfl)
        simp only [nDhcp4OsTimerRead, readTimerfd, he, hagain, or_self, if_false]
  | none =>
    by_cases hk : k = some .pending
    · subst hk
      refine Or.inr (Or.inr (Or.inl ⟨rfl, rfl, ?_⟩))
      cases b with
      | bsd u => exact bsd_read n rfl
      | linux => rfl
    · refine Or.inr (Or.inr (Or.inr ⟨rfl, hk, ?_⟩))
      have hnone : k = none ∨ ∃ reading interval, k = some (.armed reading interval) := by
        cases k with
        | none => exact Or.inl rfl
        | some k =>
          cases k with
          | armed reading interval => exact Or.inr ⟨reading, interval, rfl⟩
          | pending => exact absurd rfl hk
      cases b with
      | bsd u =>
        apply bsd_read n
        obtain rfl | ⟨reading, interval, rfl⟩ := hnone <;> rfl
      | linux => obtain rfl | ⟨reading, interval, rfl⟩ := hnone <;> rfl

theorem nDhcp4OsTimerRead_returns (b : Build) (fail : Option Errno) (k : Option Knote) :
    ∃ x, nDhcp4OsTimerRead b fail 1 k = .ret x := by
  cases b with
  | linux =>
    simp only [nDhcp4OsTimerRead]
    split <;> exact ⟨_, rfl⟩
  | bsd u =>
    cases fail with
    | some e => exact ⟨_, bsd_read 0 rfl⟩
    | none =>
      cases k with
      | none => exact ⟨_, bsd_read 0 rfl⟩
      | some k => cases k <;> exact ⟨_, bsd_read 0 rfl⟩

theorem nDhcp4OsTimerRead_mono {n : Nat} {x : Except Errno Nat × Option Knote}
    (h : nDhcp4OsTimerRead b fail n k = .ret x) : nDhcp4OsTimerRead b fail (n + 1) k = .ret x := by
  cases b with
  | bsd u => exact run_mono h (Nat.le_succ n)
  | linux => exact h

end

/-! ### The seam keeps its promise -/

/-- The kernel's timer goes off at the time asked for or less than a unit later. -/
def TimerRel (b : Build) : Option Knote → Option (Nat × Bool) → Prop
  | none, none => True
  | some .pending, some (_, true) => True
  | some (.armed reading interval), some (d, false) =>
    d ≤ reading + interval * b.nanos ∧ reading + interval * b.nanos < d + b.nanos
  | _, _ => False

structure Rel (b : Build) (w : World) (s : Seam) : Prop where
  now : w.now = s.now
  watched : ∀ fd id, s.watched fd = some id ↔ (fd, id) ∈ w.watched
  keys : (w.watched.map Prod.fst).Nodup
  timer : TimerRel b w.timer s.timer
  readable : w.readable = s.readable

section
variable {b : Build} {timerFd : Nat} {w : World} {s : Seam}

theorem Rel.pending_iff (h : Rel b w s) :
    w.timer = some .pending ↔ ∃ d, s.timer = some (d, true) := by
  have ht := h.timer
  cases hw : w.timer with
  | none =>
    rw [hw] at ht
    cases hs : s.timer with
    | none => simp
    | some d =>
      rw [hs] at ht
      exact ht.elim
  | some k =>
    rw [hw] at ht
    cases hs : s.timer with
    | none =>
      rw [hs] at ht
      cases k <;> exact ht.elim
    | some d =>
      rw [hs] at ht
      obtain ⟨d, fired⟩ := d
      cases k <;> cases fired <;> simp_all [TimerRel]

theorem Rel.ready_iff (h : Rel b w s) (fd : Nat) : w.ready timerFd fd ↔ s.Ready timerFd fd := by
  rw [World.ready, Seam.Ready]
  split
  · rw [decide_eq_true_iff]
    exact h.pending_iff
  · rw [h.readable]

theorem Rel.unwatch (h : Rel b w s) (fd : Nat) :
    Rel b (Events.unwatch w fd) { s with watched := update s.watched fd none } := by
  refine ⟨h.now, ?_, ?_, h.timer, h.readable⟩
  · intro fd' id
    rw [Events.unwatch, List.mem_filter, ← h.watched fd' id]
    by_cases he : fd' = fd
    · simp [he]
    · simp [he]
  · exact h.keys.sublist (List.filter_sublist.map Prod.fst)

theorem Rel.watch {fd : Nat} (h : Rel b w s) (id : UInt32) (hfd : fd ∉ w.watched.map Prod.fst) :
    Rel b { w with watched := (fd, id) :: w.watched }
      { s with watched := update s.watched fd (some id) } := by
  refine ⟨h.now, ?_, List.nodup_cons.mpr ⟨hfd, h.keys⟩, h.timer, h.readable⟩
  intro fd' id'
  dsimp only
  rw [List.mem_cons, Prod.mk.injEq, ← h.watched fd' id']
  by_cases he : fd' = fd
  · subst he
    have hnone : s.watched fd' ≠ some id' := by
      intro hs
      exact hfd (List.mem_map_of_mem ((h.watched fd' id').mp hs))
    simp [hnone, eq_comm]
  · simp [he]

theorem Rel.set_timer {k : Option Knote} {t : Option (Nat × Bool)} (h : Rel b w s)
    (ht : TimerRel b k t) : Rel b { w with timer := k } { s with timer := t } :=
  ⟨h.now, h.watched, h.keys, ht, h.readable⟩

theorem Rel.set_readable (h : Rel b w s) (fd : Nat) (r : Bool) :
    Rel b { w with readable := update w.readable fd r }
      { s with readable := update s.readable fd r } :=
  ⟨h.now, h.watched, h.keys, h.timer, by dsimp only; rw [h.readable]⟩

theorem Rel.told {events : List (Nat × UInt32)} {nIds : Nat} (h : Rel b w s)
    (he : Told timerFd (min nIds 8) w events) :
    Promise timerFd s (.pollWait nIds none (.ok (events.map Prod.snd))) s := by
  obtain ⟨rest, hperm, hlen⟩ := he
  have hkeys : ((events ++ rest).map Prod.fst).Nodup :=
    (hperm.map Prod.fst).nodup_iff.mpr (h.keys.sublist (List.filter_sublist.map Prod.fst))
  have hmem : ∀ i, i ∈ events ++ rest ↔ i ∈ w.watched ∧ w.ready timerFd i.1 := by
    intro i
    rw [hperm.mem_iff, List.mem_filter]
  have hnodup : (events.map Prod.fst).Nodup := by
    rw [List.map_append] at hkeys
    exact (List.nodup_append.mp hkeys).1
  have hids : List.Forall₂ (fun fd id => s.watched fd = some id ∧ s.Ready timerFd fd)
      (events.map Prod.fst) (events.map Prod.snd) := by
    rw [List.forall₂_map_left_iff, List.forall₂_map_right_iff, List.forall₂_same]
    intro i hi
    obtain ⟨hw, hr⟩ := (hmem i).mp (List.mem_append_left rest hi)
    exact ⟨(h.watched i.1 i.2).mpr hw, (h.ready_iff i.1).mp hr⟩
  apply Promise.wait s nIds hnodup hids
  · rw [List.length_map, hlen]
    exact Nat.min_le_left _ _
  · intro hlt fd hfd hready
    rw [List.length_map] at hlt
    obtain ⟨id, hid⟩ := Option.isSome_iff_exists.mp hfd
    have hi := (hmem (fd, id)).mpr ⟨(h.watched fd id).mp hid, (h.ready_iff fd).mpr hready⟩
    have hrest : rest = [] := by
      have hl := hperm.length_eq
      rw [List.length_append] at hl
      exact List.length_eq_zero_iff.mp (by omega)
    rw [hrest, List.append_nil] at hi
    exact List.mem_map_of_mem hi

theorem seam_simulates (b : Build) (timerFd : Nat) :
    Simulates (Rel b) (Step b timerFd) (Promise timerFd) := by
  intro w s a w' h hstep
  cases hstep with
  | tick now hle => exact ⟨_, .tick s now (h.now ▸ hle), ⟨rfl, h.watched, h.keys, h.timer, h.readable⟩⟩
  | arrive fd => exact ⟨_, .arrive s fd, h.set_readable fd true⟩
  | drain fd => exact ⟨_, .drain s fd, h.set_readable fd false⟩
  | fire reading interval hk ht =>
    have hrel := h.timer
    rw [hk] at hrel
    cases hs : s.timer with
    | none =>
      rw [hs] at hrel
      exact hrel.elim
    | some d =>
      obtain ⟨d, fired⟩ := d
      rw [hs] at hrel
      cases fired with
      | true => exact hrel.elim
      | false =>
        have hd : d ≤ s.now := h.now ▸ Nat.le_trans hrel.1 ht
        exact ⟨_, .fire s d hs hd, h.set_timer trivial⟩
  | close fd hfd => exact ⟨_, .close s fd, (h.unwatch fd).set_readable fd false⟩
  | timerSet fail nsecs hn hf =>
    obtain ⟨e, rfl, he⟩ | ⟨rfl, rfl, he⟩ | ⟨rfl, hpos, interval, he, hlow, hhigh⟩ :=
      @nDhcp4OsTimerSet_cases b fail w.now nsecs w.timer hn hf
    · rw [he]
      exact ⟨s, .setFails s nsecs e, h⟩
    · rw [he]
      exact ⟨_, .disarm s, h.set_timer trivial⟩
    · rw [he]
      refine ⟨_, .arm s nsecs hpos, h.set_timer ?_⟩
      rw [← h.now, TimerRel]
      omega
  | @timerRead fail hf n r k hr =>
    have hret := nDhcp4OsTimerRead_mono hr
    obtain ⟨e, rfl, hne, he⟩ | ⟨rfl, he⟩ | ⟨rfl, hk, he⟩ | ⟨rfl, hk, he⟩ :=
      nDhcp4OsTimerRead_cases b hf n w.timer
    · rw [he, Exit.ret.injEq, Prod.mk.injEq] at hret
      obtain ⟨rfl, rfl⟩ := hret
      exact ⟨s, .readFails s e hne, h⟩
    · rw [he, Exit.ret.injEq, Prod.mk.injEq] at hret
      obtain ⟨rfl, rfl⟩ := hret
      exact ⟨s, .interrupted s, h⟩
    · rw [he, Exit.ret.injEq, Prod.mk.injEq] at hret
      obtain ⟨rfl, rfl⟩ := hret
      obtain ⟨d, hd⟩ := h.pending_iff.mp hk
      exact ⟨_, .fired s d hd, h.set_timer trivial⟩
    · rw [he, Exit.ret.injEq, Prod.mk.injEq] at hret
      obtain ⟨rfl, rfl⟩ := hret
      exact ⟨s, .notFired s (fun d hd => hk (h.pending_iff.mpr ⟨d, hd⟩)), h⟩
  | pollAdd fail fd id =>
    cases fail with
    | some e =>
      refine ⟨s, ?_, ?_⟩ <;> cases b
      · exact .addFails s fd id e
      · exact .addFails s fd id e
      · exact h
      · exact h
    | none =>
      cases b with
      | bsd u =>
        have hun : fd ∉ (Events.unwatch w fd).watched.map Prod.fst := by simp [Events.unwatch]
        have hrel := (h.unwatch fd).watch id hun
        rw [update_idem] at hrel
        exact ⟨_, .add s fd id, hrel⟩
      | linux =>
        by_cases hfd : fd ∈ w.watched.map Prod.fst
        · have hadd : nDhcp4OsPollAdd .linux none w fd id = (.error eexist, w) := if_pos hfd
          rw [hadd]
          obtain ⟨i, hi, rfl⟩ := List.mem_map.mp hfd
          have hid := (h.watched i.1 i.2).mpr hi
          exact ⟨s, .addTwice s i.1 id (by rw [hid]; rfl), h⟩
        · have hadd : nDhcp4OsPollAdd .linux none w fd id =
              (.ok (), { w with watched := (fd, id) :: w.watched }) := if_neg hfd
          rw [hadd]
          exact ⟨_, .add s fd id, h.watch id hfd⟩
  | pollDel fail fd =>
    cases fail with
    | some e => exact ⟨s, .delFails s fd e, h⟩
    | none => exact ⟨_, .del s fd, h.unwatch fd⟩
  | pollWait nIds he =>
    refine ⟨s, ?_, h⟩
    have htold := h.told he
    cases b with
    | bsd u => exact htold
    | linux => exact htold
  | pollFail nIds e =>
    refine ⟨s, ?_, h⟩
    cases b with
    | bsd u =>
      by_cases he : e = .eintr
      · subst he
        exact .waitInterrupted s nIds
      · have hwait : nDhcp4OsPollWait (.bsd u) (.error e) = .error e := if_neg he
        rw [hwait]
        exact .waitFails s nIds e
    | linux => exact .waitFails s nIds e

theorem Rel.fires (h : Rel b w s) {d : Nat} (hs : s.timer = some (d, false))
    (hd : d + b.nanos ≤ w.now + 1) : ∃ w', Step b timerFd w .fire w' := by
  have ht := h.timer
  rw [hs] at ht
  cases hw : w.timer with
  | none =>
    rw [hw] at ht
    exact ht.elim
  | some k =>
    rw [hw] at ht
    cases k with
    | pending => exact ht.elim
    | armed reading interval =>
      rw [TimerRel] at ht
      exact ⟨_, .fire w reading interval hw (by omega)⟩

end

def World.fresh (now : Nat) : World := ⟨now, [], none, fun _ => false⟩

def Seam.fresh (now : Nat) : Seam := ⟨now, fun _ => none, none, fun _ => false⟩

theorem fresh_rel (b : Build) (now : Nat) : Rel b (.fresh now) (.fresh now) :=
  ⟨rfl, fun fd id => by simp [World.fresh, Seam.fresh], List.nodup_nil, trivial, rfl⟩

/-- On all three builds, however the kernel fails calls and whatever the callers do, what is seen of
a run is something the seam may show; a time that was asked for is waited for with the kernel free
to fire as soon as its unit is over, and reading the timer never takes a second turn. -/
theorem seam_refines (b : Build) (timerFd : Nat) {now : Nat} {l : List Label} {w : World}
    (h : Run (Step b timerFd) (.fresh now) l w) :
    ∃ s, Run (Promise timerFd) (.fresh now) l s ∧
      (∀ d, s.timer = some (d, false) → d + b.nanos ≤ w.now + 1 →
        ∃ w', Step b timerFd w .fire w') ∧
      ∀ fail, ∃ x, nDhcp4OsTimerRead b fail 1 w.timer = .ret x := by
  obtain ⟨s, hrun, hrel⟩ := (seam_simulates b timerFd).run h (fresh_rel b now)
  exact ⟨s, hrun, fun d hd hnow => hrel.fires hd hnow,
    fun fail => nDhcp4OsTimerRead_returns b fail w.timer⟩

theorem seam_refines_arm : ∃ s, Run (Promise 4) (.fresh 0) [.timerSet 5 none (.ok ())] s ∧
    (∀ d, s.timer = some (d, false) → d + 1000000 ≤ 1 → ∃ w',
      Step (.bsd .mseconds) 4 ⟨0, [], some (.armed 0 1), fun _ => false⟩ .fire w') ∧
    ∀ fail, ∃ x, nDhcp4OsTimerRead (.bsd .mseconds) fail 1 (some (.armed 0 1)) = .ret x :=
  seam_refines (.bsd .mseconds) 4
    (Run.start.next (.timerSet (.fresh 0) none 5 (by decide) (by simp)))

end PkgsrcPatches.NDhcp4.Events
