import Mathlib.Algebra.Order.Ring.Nat
import PkgsrcPatches.Os
import PkgsrcPatches.Lib.Transition

/-! The timer of n-acd on a kqueue: the deadline `timer_rearm` keeps, the one-shot
kernel timer behind it, and a clock that moves meanwhile. -/
namespace PkgsrcPatches.NAcd
open Lib

/-- The two builds of `n_acd_os_timer_set`: with `NOTE_NSECONDS` and without. -/
inductive TimerUnit where
  | nseconds | mseconds

def TimerUnit.nanos : TimerUnit → Nat
  | .nseconds => 1
  | .mseconds => 1000000

def u64 (n : Nat) : Nat := n % 2 ^ 64

structure Timespec where
  tvSec : Nat
  tvNsec : Nat

def clockGettime (now : Nat) : Timespec := ⟨now / 1000000000, now % 1000000000⟩

def Timespec.nanos (t : Timespec) : Nat := u64 (u64 (t.tvSec * 1000000000) + t.tvNsec)

/-- The kernel's `EVFILT_TIMER` knote: armed at a clock reading with an interval in its
unit, or fired and not yet read. -/
inductive Knote where
  | armed (reading interval : Nat)
  | pending
deriving DecidableEq

def timerInterval (u : TimerUnit) (now : Timespec) (nsecs : Nat) : Nat :=
  let rel := if nsecs > now.nanos then u64 (2 ^ 64 + nsecs - now.nanos) else 1
  match u with
  | .nseconds => rel
  | .mseconds =>
    let ms := u64 (rel + 999999) / 1000000
    if ms = 0 then 1 else ms

/-- `n_acd_os_timer_set`: zero deletes the knote, where a missing one is no error. Adding
it again throws away what it had, an unread firing included. -/
def nAcdOsTimerSet (u : TimerUnit) (now nsecs : Nat) : Option Knote :=
  if nsecs = 0 then none
  else some (.armed now (timerInterval u (clockGettime now) nsecs))

inductive KeventAnswer where
  | events | interrupted | failed (e : Errno)

/-- `n_acd_os_timer_read`: the queue holds one knote at most, so one poll drains it. -/
def nAcdOsTimerRead (a : KeventAnswer) (k : Option Knote) : Except Errno Nat × Option Knote :=
  match a with
  | .failed e => (.error e, k)
  | .interrupted => (.ok 0, k)
  | .events => match k with
    | some .pending => (.ok 1, none)
    | other => (.ok 0, other)

inductive TimerEvent where
  | none | triggered
deriving DecidableEq

def timerRead (r : Except Errno Nat) : Except Errno TimerEvent :=
  match r with
  | .error e => .error e
  | .ok 0 => .ok .none
  | .ok _ => .ok .triggered

/-- What the caller is at: nothing, or the deadlines due since a read at some clock
reading said the timer fired. -/
inductive CallerPhase where
  | idle
  | handling (readAt : Nat)

/-- The clock, `timer->scheduled_timeout`, the deadline the last `timer_rearm` was
given, the kernel's knote and the caller. -/
structure TimerState where
  now : Nat
  scheduledTimeout : Nat
  deadline : Nat
  knote : Option Knote
  phase : CallerPhase

def TimerState.init (now : Nat) : TimerState := ⟨now, 0, 0, none, .idle⟩

/-- `timer_rearm` when the earliest deadline is `time`, zero standing for none. -/
def timerRearm (u : TimerUnit) (s : TimerState) (time : Nat) : TimerState :=
  if time ≠ s.scheduledTimeout then
    ⟨s.now, time, time, nAcdOsTimerSet u s.now time, .idle⟩
  else { s with deadline := time, phase := .idle }

def timerReadStep (s : TimerState) (a : KeventAnswer) : TimerState :=
  let r := nAcdOsTimerRead a s.knote
  match timerRead r.1 with
  | .ok .triggered => { s with knote := r.2, phase := .handling s.now }
  | _ => { s with knote := r.2 }

/-- What the caller may rearm with: anything at first, and after a read that said the timer
fired only what is left once all that was due at a later clock reading is removed. -/
def TimerState.MayRearm (s : TimerState) (time : Nat) : Prop :=
  match s.phase with
  | .idle => True
  | .handling readAt => ∃ until_, readAt ≤ until_ ∧ until_ ≤ s.now ∧ (time = 0 ∨ until_ < time)

inductive TimerStep (u : TimerUnit) : TimerState → TimerState → Prop
  | tick (s : TimerState) (now : Nat) (hle : s.now ≤ now) (hlt : now < 2 ^ 63) :
      TimerStep u s { s with now := now }
  | fire (s : TimerState) (reading interval : Nat) (hk : s.knote = some (.armed reading interval))
      (ht : reading + interval * u.nanos ≤ s.now) : TimerStep u s { s with knote := some .pending }
  | rearm (s : TimerState) (time : Nat) (hlt : time < 2 ^ 63) (hm : s.MayRearm time) :
      TimerStep u s (timerRearm u s time)
  | read (s : TimerState) (a : KeventAnswer) : TimerStep u s (timerReadStep s a)

def TimerReaches (u : TimerUnit) : TimerState → Prop :=
  Reaches (fun s => ∃ now, now < 2 ^ 63 ∧ s = .init now) (TimerStep u)

/-- Armed at `reading` for the deadline `m`: never early, by less than a unit late, and by
less than two after the reading when `m` had already passed. -/
structure ArmedFor (u : TimerUnit) (m now reading interval : Nat) : Prop where
  positive : 0 < interval
  taken : reading ≤ now
  notEarly : m ≤ reading + interval * u.nanos
  ahead : reading < m → reading + interval * u.nanos < m + u.nanos
  past : m ≤ reading → reading + interval * u.nanos < reading + 2 * u.nanos

/-- The deadline is waited for, or was reached and its firing is unread. -/
def Guarded (u : TimerUnit) (s : TimerState) : Prop :=
  (s.knote = some .pending ∧ s.deadline ≤ s.now) ∨
    ∃ reading interval, s.knote = some (.armed reading interval) ∧
      ArmedFor u s.deadline s.now reading interval

structure TimerInv (u : TimerUnit) (s : TimerState) : Prop where
  cached : s.scheduledTimeout = s.deadline
  nowLt : s.now < 2 ^ 63
  idle : s.phase = .idle → (s.deadline = 0 → s.knote = none) ∧ (s.deadline ≠ 0 → Guarded u s)
  handling : ∀ readAt, s.phase = .handling readAt →
    s.knote = none ∧ s.deadline ≠ 0 ∧ s.deadline ≤ readAt ∧ readAt ≤ s.now

theorem clockGettime_nanos {now : Nat} (h : now < 2 ^ 63) : (clockGettime now).nanos = now := by
  simp only [Timespec.nanos, clockGettime, u64]
  omega

theorem u64_of_lt {n : Nat} (h : n < 2 ^ 64) : u64 n = n := Nat.mod_eq_of_lt h

theorem timerInterval_eq (u : TimerUnit) {now m : Nat} (hn : now < 2 ^ 63) (hm : m < 2 ^ 63) :
    timerInterval u (clockGettime now) m =
      ((if m > now then m - now else 1) + (u.nanos - 1)) / u.nanos := by
  have hsub : m > now → u64 (2 ^ 64 + m - now) = m - now := by
    intro h
    simp only [u64]
    omega
  simp only [timerInterval, clockGettime_nanos hn]
  cases u with
  | nseconds =>
    simp only [TimerUnit.nanos, Nat.div_one, Nat.add_zero, Nat.sub_self]
    split
    · rename_i h
      exact hsub h
    · rfl
  | mseconds =>
    simp only [TimerUnit.nanos, Nat.reduceSub]
    by_cases h : m > now
    · rw [if_pos h, if_pos h, hsub h]
      have hpos : (m - now + 999999) / 1000000 ≠ 0 := by omega
      rw [u64_of_lt (by omega), if_neg hpos]
    · simp only [if_neg h, u64]
      rfl

theorem TimerUnit.nanos_pos (u : TimerUnit) : 0 < u.nanos := by
  cases u with
  | nseconds => exact Nat.one_pos
  | mseconds => exact Nat.succ_pos _

theorem roundUp_bounds (rel k : Nat) (hk : 0 < k) :
    rel ≤ (rel + (k - 1)) / k * k ∧ (rel + (k - 1)) / k * k < rel + k := by
  have hle : (rel + (k - 1)) / k * k ≤ rel + (k - 1) := Nat.div_mul_le_self _ _
  have hlt : rel + (k - 1) < (rel + (k - 1)) / k * k + k := Nat.lt_div_mul_add hk
  omega

theorem timerInterval_armedFor (u : TimerUnit) {now m : Nat} (hn : now < 2 ^ 63) (hm : m < 2 ^ 63) :
    ArmedFor u m now now (timerInterval u (clockGettime now) m) := by
  rw [timerInterval_eq u hn hm]
  have hk := u.nanos_pos
  obtain ⟨hlow, hhigh⟩ := roundUp_bounds (if m > now then m - now else 1) u.nanos hk
  have hrel : 0 < (if m > now then m - now else 1) := by
    split
    · omega
    · exact Nat.one_pos
  have hpos := Nat.pos_of_mul_pos_right (Nat.lt_of_lt_of_le hrel hlow)
  by_cases h : m > now
  · rw [if_pos h] at hlow hhigh hpos ⊢
    exact ⟨hpos, Nat.le_refl _, by omega, fun _ => by omega, fun _ => by omega⟩
  · rw [if_neg h] at hlow hhigh hpos ⊢
    exact ⟨hpos, Nat.le_refl _, by omega, fun _ => by omega, fun _ => by omega⟩

theorem ArmedFor.later {u : TimerUnit} {m now now' reading interval : Nat}
    (h : ArmedFor u m now reading interval) (hle : now ≤ now') : ArmedFor u m now' reading interval :=
  ⟨h.positive, Nat.le_trans h.taken hle, h.notEarly, h.ahead, h.past⟩

theorem init_inv (u : TimerUnit) {now : Nat} (h : now < 2 ^ 63) : TimerInv u (.init now) := by
  refine ⟨rfl, h, ?_, ?_⟩
  · intro _
    exact ⟨fun _ => rfl, fun hne => absurd rfl hne⟩
  · intro readAt hp
    cases hp

theorem tick_inv {u : TimerUnit} {s : TimerState} {now : Nat} (hi : TimerInv u s)
    (hle : s.now ≤ now) (hlt : now < 2 ^ 63) : TimerInv u { s with now := now } := by
  refine ⟨hi.cached, hlt, ?_, ?_⟩
  · intro hp
    refine ⟨(hi.idle hp).1, ?_⟩
    intro hne
    cases (hi.idle hp).2 hne with
    | inl h => exact Or.inl ⟨h.1, Nat.le_trans h.2 hle⟩
    | inr h =>
      obtain ⟨reading, interval, hk, ha⟩ := h
      exact Or.inr ⟨reading, interval, hk, ha.later hle⟩
  · intro readAt hp
    obtain ⟨hk, hne, hm, hr⟩ := hi.handling readAt hp
    exact ⟨hk, hne, hm, Nat.le_trans hr hle⟩

theorem fire_inv {u : TimerUnit} {s : TimerState} {reading interval : Nat} (hi : TimerInv u s)
    (hk : s.knote = some (.armed reading interval)) (ht : reading + interval * u.nanos ≤ s.now) :
    TimerInv u { s with knote := some .pending } := by
  refine ⟨hi.cached, hi.nowLt, ?_, ?_⟩
  · intro hp
    refine ⟨?_, ?_⟩
    · intro hz
      exact absurd ((hi.idle hp).1 hz) (by simp [hk])
    · intro hne
      cases (hi.idle hp).2 hne with
      | inl h => exact absurd h.1 (by simp [hk])
      | inr h =>
        obtain ⟨r, n, hk', ha⟩ := h
        rw [hk, Option.some.injEq, Knote.armed.injEq] at hk'
        obtain ⟨hr, hn⟩ := hk'
        subst hr hn
        exact Or.inl ⟨rfl, Nat.le_trans ha.notEarly ht⟩
  · intro readAt hp
    exact absurd (hi.handling readAt hp).1 (by simp [hk])

/-- After the due deadlines are gone the next one differs from the one that fired, so the
system call is skipped only while the old deadline is still guarded. -/
theorem rearm_same {u : TimerUnit} {s : TimerState} {time : Nat} (hi : TimerInv u s)
    (hm : s.MayRearm time) (he : time = s.scheduledTimeout) : s.phase = .idle := by
  cases hp : s.phase with
  | idle => rfl
  | handling readAt =>
    obtain ⟨-, hne, hdue, -⟩ := hi.handling readAt hp
    have hcached := hi.cached
    simp only [TimerState.MayRearm, hp] at hm
    obtain ⟨until_, h1, h2, h3⟩ := hm
    omega

theorem rearm_inv {u : TimerUnit} {s : TimerState} {time : Nat} (hi : TimerInv u s)
    (hlt : time < 2 ^ 63) (hm : s.MayRearm time) : TimerInv u (timerRearm u s time) := by
  by_cases he : time = s.scheduledTimeout
  · have hp := rearm_same hi hm he
    have hd : time = s.deadline := he.trans hi.cached
    rw [timerRearm, if_neg (fun h => h he), hd, ← hp]
    exact hi
  · rw [timerRearm, if_pos he]
    refine ⟨rfl, hi.nowLt, ?_, ?_⟩
    · intro _
      refine ⟨?_, ?_⟩
      · intro hz
        exact if_pos hz
      · intro hne
        exact Or.inr ⟨s.now, _, if_neg hne, timerInterval_armedFor u hi.nowLt hlt⟩
    · intro readAt hp
      cases hp

theorem timerReadStep_pending {s : TimerState} (hk : s.knote = some .pending) :
    timerRead (nAcdOsTimerRead .events s.knote).1 = .ok .triggered ∧
      timerReadStep s .events = { s with knote := none, phase := .handling s.now } := by
  simp only [timerReadStep, timerRead, nAcdOsTimerRead, hk]
  exact ⟨trivial, trivial⟩

theorem timerReadStep_cases (s : TimerState) (a : KeventAnswer) :
    timerReadStep s a = s ∨
      (s.knote = some .pending ∧ timerReadStep s a = { s with knote := none, phase := .handling s.now }) := by
  cases a with
  | failed e => exact Or.inl rfl
  | interrupted => exact Or.inl rfl
  | events =>
    cases hk : s.knote with
    | none =>
      left
      simp only [timerReadStep, timerRead, nAcdOsTimerRead, hk]
      rw [← hk]
    | some k =>
      cases k with
      | pending =>
        right
        exact ⟨rfl, (timerReadStep_pending hk).2⟩
      | armed reading interval =>
        left
        simp only [timerReadStep, timerRead, nAcdOsTimerRead, hk]
        rw [← hk]

theorem read_inv {u : TimerUnit} {s : TimerState} {a : KeventAnswer} (hi : TimerInv u s) :
    TimerInv u (timerReadStep s a) := by
  cases timerReadStep_cases s a with
  | inl h =>
    rw [h]
    exact hi
  | inr h =>
    obtain ⟨hk, h⟩ := h
    rw [h]
    refine ⟨hi.cached, hi.nowLt, ?_, ?_⟩
    · intro hp
      cases hp
    · intro readAt hp
      cases hp
      cases hp : s.phase with
      | handling r => exact absurd (hi.handling r hp).1 (by simp [hk])
      | idle =>
        have hne : s.deadline ≠ 0 := fun hz => absurd ((hi.idle hp).1 hz) (by simp [hk])
        cases (hi.idle hp).2 hne with
        | inl hg => exact ⟨rfl, hne, hg.2, Nat.le_refl _⟩
        | inr hg =>
          obtain ⟨r, n, hk', -⟩ := hg
          exact absurd hk' (by simp [hk])

theorem timerStep_inv {u : TimerUnit} (s s' : TimerState) (hi : TimerInv u s)
    (h : TimerStep u s s') : TimerInv u s' := by
  cases h with
  | tick now hle hlt => exact tick_inv hi hle hlt
  | fire reading interval hk ht => exact fire_inv hi hk ht
  | rearm time hlt hm => exact rearm_inv hi hlt hm
  | read a => exact read_inv hi

theorem timerReaches_inv {u : TimerUnit} {s : TimerState} (h : TimerReaches u s) : TimerInv u s := by
  refine h.invariant ?_ timerStep_inv
  intro s hs
  obtain ⟨now, hlt, he⟩ := hs
  exact he ▸ init_inv u hlt

/-- In every run: between handlings a deadline is guarded and without one nothing is armed; a
read that says the timer fired comes at or after the deadline; a read of a pending firing says
so and uses it up; and skipping the system call leaves the deadline guarded. -/
theorem timer_guards_deadline (u : TimerUnit) (s : TimerState) (h : TimerReaches u s) :
    (s.deadline = 0 → s.knote = none) ∧
      (s.phase = .idle → s.deadline ≠ 0 → Guarded u s) ∧
      (∀ readAt, s.phase = .handling readAt → s.deadline ≤ readAt) ∧
      (s.knote = some .pending → timerRead (nAcdOsTimerRead .events s.knote).1 = .ok .triggered ∧
        timerReadStep s .events = { s with knote := none, phase := .handling s.now }) ∧
      (∀ time, time < 2 ^ 63 → s.MayRearm time → time = s.scheduledTimeout → time ≠ 0 →
        (timerRearm u s time).knote = s.knote ∧ Guarded u (timerRearm u s time)) := by
  have hi := timerReaches_inv h
  refine ⟨?_, fun hp => (hi.idle hp).2, fun r hp => (hi.handling r hp).2.2.1,
    timerReadStep_pending, ?_⟩
  · intro hz
    cases hp : s.phase with
    | idle => exact (hi.idle hp).1 hz
    | handling r => exact (hi.handling r hp).1
  · intro time hlt hm he hne
    have hskip : (timerRearm u s time).knote = s.knote := by
      rw [timerRearm, if_neg (fun h => h he)]
    have hidle := (rearm_inv hi hlt hm).idle (by unfold timerRearm; split <;> rfl)
    have hd : (timerRearm u s time).deadline = time := by
      unfold timerRearm
      split <;> rfl
    exact ⟨hskip, hidle.2 fun hz => hne (hd.symm.trans hz)⟩

theorem timer_guards_deadline_fired :
    Guarded .mseconds ⟨2000010, 2000000, 2000000, some .pending, .idle⟩ := by
  have h0 : TimerReaches .mseconds (.init 10) := .start ⟨10, by decide, rfl⟩
  have hset : timerInterval .mseconds (clockGettime 10) 2000000 = 2 := by
    rw [timerInterval_eq .mseconds (by decide) (by decide)]
    decide
  have hrearm : timerRearm .mseconds (.init 10) 2000000 =
      ⟨10, 2000000, 2000000, some (.armed 10 2), .idle⟩ := by
    rw [timerRearm, if_pos (by decide), nAcdOsTimerSet, if_neg (by decide), TimerState.init, hset]
  have h1 : TimerReaches .mseconds ⟨10, 2000000, 2000000, some (.armed 10 2), .idle⟩ :=
    hrearm ▸ h0.next (.rearm _ 2000000 (by decide) trivial)
  have h2 : TimerReaches .mseconds ⟨2000010, 2000000, 2000000, some (.armed 10 2), .idle⟩ :=
    h1.next (.tick _ 2000010 (by decide) (by decide))
  have h3 : TimerReaches .mseconds ⟨2000010, 2000000, 2000000, some .pending, .idle⟩ :=
    h2.next (.fire _ 10 2 rfl (by decide))
  exact (timer_guards_deadline .mseconds _ h3).2.1 rfl (by decide)

end PkgsrcPatches.NAcd
