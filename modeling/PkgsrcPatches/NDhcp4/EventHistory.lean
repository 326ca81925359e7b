import PkgsrcPatches.NDhcp4.Events

/-! What a run of the poller and the timer of n-dhcp4 has seen says what the next call tells. -/
namespace PkgsrcPatches.NDhcp4.Events
open Lib Function

def clock (now : Nat) (l : List Label) : Nat :=
  l.foldl (fun now a => match a with
    | .tick now' => now'
    | _ => now) now

/-- The timer is set again, or it has been said that it fired. -/
def Label.resets : Label → Bool
  | .timerSet _ _ (.ok _) => true
  | .timerRead _ (.ok 1) => true
  | _ => false

/-- A descriptor is watched no more, or for another id. -/
def Label.drops (fd : Nat) : Label → Bool
  | .pollAdd fd' _ _ (.ok _) => fd' = fd
  | .pollDel fd' none (.ok _) => fd' = fd
  | .close fd' => fd' = fd
  | _ => false

def Label.empties (fd : Nat) : Label → Bool
  | .drain fd' => fd' = fd
  | .close fd' => fd' = fd
  | _ => false

/-- The time that the timer was last asked for, where it is still to be told. -/
def Asked (now d : Nat) : List Label → Prop :=
  Since (fun pre a => ∃ nsecs, 0 < nsecs ∧ a = .timerSet nsecs none (.ok ()) ∧ d = clock now pre + nsecs)
    fun a => a.resets

def Fired : List Label → Prop := Since (fun _ a => a = .fire) fun a => a.resets

def Added (fd : Nat) (id : UInt32) : List Label → Prop :=
  Since (fun _ a => a = .pollAdd fd id none (.ok ())) fun a => a.drops fd

def CanRead (fd : Nat) : List Label → Prop :=
  Since (fun _ a => a = .arrive fd) fun a => a.empties fd

def WatchedOf (l : List Label) (watched : Nat → Option UInt32) : Prop :=
  ∀ fd id, watched fd = some id ↔ Added fd id l

def ReadableOf (l : List Label) (readable : Nat → Bool) : Prop :=
  ∀ fd, readable fd = true ↔ CanRead fd l

/-- What a history that began at `start` says of the timer, where the clock now stands at `now`. -/
structure TimerOf (start : Nat) (l : List Label) (now : Nat) (timer : Option (Nat × Bool)) : Prop where
  asked : ∀ d fired, timer = some (d, fired) → Asked start d l
  fired : (∃ d, timer = some (d, true)) ↔ Fired l
  due : ∀ d, timer = some (d, true) → d ≤ now

structure Recalls (start : Nat) (l : List Label) (s : Seam) : Prop where
  clock : s.now = clock start l
  watched : WatchedOf l s.watched
  readable : ReadableOf l s.readable
  timer : TimerOf start l s.now s.timer

section
variable {start now now' timerFd fd : Nat} {l : List Label} {a : Label}
  {watched : Nat → Option UInt32} {readable : Nat → Bool} {timer : Option (Nat × Bool)}

theorem clock_concat : clock start (l ++ [a]) = match a with
    | .tick now' => now'
    | _ => clock start l := by
  rw [clock, List.foldl_append]
  rfl

theorem WatchedOf.skip (h : WatchedOf l watched) (hadd : ∀ fd id, a ≠ .pollAdd fd id none (.ok ()))
    (hd : ∀ fd, a.drops fd = false) : WatchedOf (l ++ [a]) watched := by
  intro fd id
  rw [Added, since_skip (hadd fd id) (by simp [hd])]
  exact h fd id

theorem WatchedOf.add (h : WatchedOf l watched) (fd : Nat) (id : UInt32) :
    WatchedOf (l ++ [.pollAdd fd id none (.ok ())]) (update watched fd (some id)) := by
  intro fd' id'
  by_cases he : fd' = fd
  · subst he
    rw [update_self, Added, since_concat]
    simp [Label.drops]
  · have hadd : Label.pollAdd fd id none (.ok ()) ≠ .pollAdd fd' id' none (.ok ()) := by
      simp [Ne.symm he]
    rw [update_of_ne he, Added, since_skip hadd (by simp [Label.drops, Ne.symm he])]
    exact h fd' id'

theorem WatchedOf.drop (h : WatchedOf l watched) (hadd : ∀ fd id, a ≠ .pollAdd fd id none (.ok ()))
    (hd : ∀ fd', a.drops fd' = decide (fd = fd')) :
    WatchedOf (l ++ [a]) (update watched fd none) := by
  intro fd' id'
  by_cases he : fd' = fd
  · subst he
    rw [update_self]
    exact iff_of_false (by simp) (since_end (hadd fd' id') (by simp [hd]))
  · rw [update_of_ne he, Added, since_skip (hadd fd' id') (by simp [hd, Ne.symm he])]
    exact h fd' id'

theorem ReadableOf.skip (h : ReadableOf l readable) (ha : ∀ fd, a ≠ .arrive fd)
    (he : ∀ fd, a.empties fd = false) : ReadableOf (l ++ [a]) readable := by
  intro fd
  rw [CanRead, since_skip (ha fd) (by simp [he])]
  exact h fd

theorem ReadableOf.arrive (h : ReadableOf l readable) (fd : Nat) :
    ReadableOf (l ++ [.arrive fd]) (update readable fd true) := by
  intro fd'
  by_cases he : fd' = fd
  · subst he
    rw [update_self]
    exact iff_of_true rfl (since_start rfl)
  · rw [update_of_ne he, CanRead, since_skip (by simp [Ne.symm he]) (by simp [Label.empties])]
    exact h fd'

theorem ReadableOf.empty (h : ReadableOf l readable) (ha : ∀ fd, a ≠ .arrive fd)
    (hd : ∀ fd', a.empties fd' = decide (fd = fd')) :
    ReadableOf (l ++ [a]) (update readable fd false) := by
  intro fd'
  by_cases he : fd' = fd
  · subst he
    rw [update_self]
    exact iff_of_false (by simp) (since_end (ha fd') (by simp [hd]))
  · rw [update_of_ne he, CanRead, since_skip (ha fd') (by simp [hd, Ne.symm he])]
    exact h fd'

theorem TimerOf.skip (h : TimerOf start l now timer) (hnow : now ≤ now')
    (hset : ∀ nsecs, a ≠ .timerSet nsecs none (.ok ())) (hfire : a ≠ .fire) (hr : a.resets = false) :
    TimerOf start (l ++ [a]) now' timer := by
  refine ⟨?_, ?_, ?_⟩
  · intro d fired ht
    refine (since_skip ?_ (by simp [hr])).mpr (h.asked d fired ht)
    intro hp
    obtain ⟨nsecs, -, he, -⟩ := hp
    exact hset nsecs he
  · rw [Fired, since_skip hfire (by simp [hr])]
    exact h.fired
  · intro d ht
    exact Nat.le_trans (h.due d ht) hnow

theorem TimerOf.fire {d : Nat} (h : TimerOf start l now (some (d, false))) (hd : d ≤ now) :
    TimerOf start (l ++ [.fire]) now (some (d, true)) := by
  refine ⟨?_, iff_of_true ⟨d, rfl⟩ (since_start rfl), ?_⟩
  · intro d' fired ht
    obtain ⟨rfl, -⟩ := Prod.mk.inj (Option.some.inj ht)
    exact (since_skip (by simp) (by simp [Label.resets])).mpr (h.asked d false rfl)
  · intro d' ht
    obtain ⟨rfl, -⟩ := Prod.mk.inj (Option.some.inj ht)
    exact hd

theorem TimerOf.arm {nsecs : Nat} (hc : now = clock start l) (hpos : 0 < nsecs) :
    TimerOf start (l ++ [.timerSet nsecs none (.ok ())]) now (some (now + nsecs, false)) := by
  refine ⟨?_, iff_of_false (by simp) (since_end (by simp) rfl), by simp⟩
  intro d fired ht
  obtain ⟨rfl, -⟩ := Prod.mk.inj (Option.some.inj ht)
  exact since_start ⟨nsecs, hpos, rfl, by rw [hc]⟩

theorem TimerOf.reset (hr : a.resets = true) (hfire : a ≠ .fire) :
    TimerOf start (l ++ [a]) now none :=
  ⟨by simp, iff_of_false (by simp) (since_end hfire hr), by simp⟩

theorem fresh_recalls : Recalls start [] (.fresh start) := by
  refine ⟨rfl, ?_, ?_, ⟨by simp [Seam.fresh], iff_of_false (by simp [Seam.fresh]) not_since_nil,
    by simp [Seam.fresh]⟩⟩
  · intro fd id
    exact iff_of_false (by simp [Seam.fresh]) not_since_nil
  · intro fd
    exact iff_of_false (by simp [Seam.fresh]) not_since_nil

theorem Recalls.skip {s : Seam} (h : Recalls start l s) (htick : ∀ now, a ≠ .tick now)
    (hadd : ∀ fd id, a ≠ .pollAdd fd id none (.ok ())) (hd : ∀ fd, a.drops fd = false)
    (ha : ∀ fd, a ≠ .arrive fd) (he : ∀ fd, a.empties fd = false)
    (hset : ∀ nsecs, a ≠ .timerSet nsecs none (.ok ())) (hfire : a ≠ .fire) (hr : a.resets = false) :
    Recalls start (l ++ [a]) s := by
  refine ⟨?_, h.watched.skip hadd hd, h.readable.skip ha he,
    h.timer.skip (Nat.le_refl _) hset hfire hr⟩
  rw [clock_concat, h.clock]
  cases a with
  | tick now => exact absurd rfl (htick now)
  | _ => rfl

theorem promise_recalls {s s' : Seam} (h : Recalls start l s) (hp : Promise timerFd s a s') :
    Recalls start (l ++ [a]) s' := by
  have hclock := h.clock
  cases hp with
  | tick now hle =>
    exact ⟨by rw [clock_concat], h.watched.skip (by simp) (by simp [Label.drops]),
      h.readable.skip (by simp) (by simp [Label.empties]),
      h.timer.skip hle (by simp) (by simp) rfl⟩
  | arrive fd =>
    exact ⟨by rw [clock_concat, hclock], h.watched.skip (by simp) (by simp [Label.drops]),
      h.readable.arrive fd, h.timer.skip (Nat.le_refl _) (by simp) (by simp) rfl⟩
  | drain fd =>
    exact ⟨by rw [clock_concat, hclock], h.watched.skip (by simp) (by simp [Label.drops]),
      h.readable.empty (by simp) (by simp [Label.empties]),
      h.timer.skip (Nat.le_refl _) (by simp) (by simp) rfl⟩
  | fire d ht hd =>
    exact ⟨by rw [clock_concat, hclock], h.watched.skip (by simp) (by simp [Label.drops]),
      h.readable.skip (by simp) (by simp [Label.empties]), (ht ▸ h.timer).fire hd⟩
  | close fd =>
    exact ⟨by rw [clock_concat, hclock], h.watched.drop (by simp) (by simp [Label.drops]),
      h.readable.empty (by simp) (by simp [Label.empties]),
      h.timer.skip (Nat.le_refl _) (by simp) (by simp) rfl⟩
  | disarm =>
    exact ⟨by rw [clock_concat, hclock], h.watched.skip (by simp) (by simp [Label.drops]),
      h.readable.skip (by simp) (by simp [Label.empties]), TimerOf.reset rfl (by simp)⟩
  | arm nsecs hpos =>
    exact ⟨by rw [clock_concat, hclock], h.watched.skip (by simp) (by simp [Label.drops]),
      h.readable.skip (by simp) (by simp [Label.empties]), TimerOf.arm hclock hpos⟩
  | fired d ht =>
    exact ⟨by rw [clock_concat, hclock], h.watched.skip (by simp) (by simp [Label.drops]),
      h.readable.skip (by simp) (by simp [Label.empties]), TimerOf.reset rfl (by simp)⟩
  | add fd id =>
    exact ⟨by rw [clock_concat, hclock], h.watched.add fd id,
      h.readable.skip (by simp) (by simp [Label.empties]),
      h.timer.skip (Nat.le_refl _) (by simp) (by simp) rfl⟩
  | del fd =>
    exact ⟨by rw [clock_concat, hclock], h.watched.drop (by simp) (by simp [Label.drops]),
      h.readable.skip (by simp) (by simp [Label.empties]),
      h.timer.skip (Nat.le_refl _) (by simp) (by simp) rfl⟩
  | setFails | notFired | interrupted | readFails | addTwice | addFails | delFails | wait
  | waitInterrupted | waitFails =>
    apply h.skip <;> simp [Label.drops, Label.empties, Label.resets]

def ReadyBy (timerFd : Nat) (l : List Label) (fd : Nat) : Prop :=
  if fd = timerFd then Fired l else CanRead fd l

/-- What a history says of the step after it. A call says an error only that the kernel failed it
with, or that the descriptor is watched already. -/
def HistorySays (timerFd start : Nat) (l : List Label) : Label → Prop
  | .fire => ∃ d, Asked start d l ∧ d ≤ clock start l
  | .timerSet _ fail (.ok _) => fail = none
  | .timerSet _ fail (.error e) => fail = some e
  | .timerRead fail (.ok n) =>
    (n = 1 ∧ fail = none ∧ Fired l ∧ ∃ d, Asked start d l ∧ d ≤ clock start l) ∨
      (n = 0 ∧ fail = none ∧ ¬ Fired l) ∨ (n = 0 ∧ fail = some .eintr)
  | .timerRead fail (.error e) => fail = some e ∧ e ≠ .eintr
  | .pollAdd _ _ fail (.ok _) => fail = none
  | .pollAdd fd _ fail (.error e) => fail = some e ∨ (fail = none ∧ e = eexist ∧ ∃ id, Added fd id l)
  | .pollWait nIds fail (.ok ids) =>
    (fail = none ∧ ∃ fds : List Nat, fds.Nodup ∧ fds.length ≤ min nIds 8 ∧
      List.Forall₂ (fun fd id => Added fd id l ∧ ReadyBy timerFd l fd) fds ids ∧
      (fds.length < min nIds 8 → ∀ fd id, Added fd id l → ReadyBy timerFd l fd → fd ∈ fds)) ∨
      (fail = some .eintr ∧ ids = [])
  | .pollWait _ fail (.error e) => fail = some e
  | _ => True

theorem Recalls.ready_iff {s : Seam} (h : Recalls start l s) (fd : Nat) :
    s.Ready timerFd fd ↔ ReadyBy timerFd l fd := by
  rw [Seam.Ready, ReadyBy]
  split
  · exact h.timer.fired
  · exact h.readable fd

theorem promise_says {s s' : Seam} (h : Recalls start l s) (hp : Promise timerFd s a s') :
    HistorySays timerFd start l a := by
  have hclock := h.clock
  cases hp with
  | fire d ht hd => exact ⟨d, h.timer.asked d false ht, hclock ▸ hd⟩
  | fired d ht =>
    exact Or.inl ⟨rfl, rfl, h.timer.fired.mp ⟨d, ht⟩, d, h.timer.asked d true ht,
      hclock ▸ h.timer.due d ht⟩
  | notFired ht =>
    refine Or.inr (Or.inl ⟨rfl, rfl, fun hf => ?_⟩)
    obtain ⟨d, hd⟩ := h.timer.fired.mpr hf
    exact ht d hd
  | interrupted => exact Or.inr (Or.inr ⟨rfl, rfl⟩)
  | addTwice fd id hfd =>
    obtain ⟨id', hid⟩ := Option.isSome_iff_exists.mp hfd
    exact Or.inr ⟨rfl, rfl, id', (h.watched fd id').mp hid⟩
  | addFails => exact Or.inl rfl
  | @wait nIds ids fds hn hids hroom hall =>
    refine Or.inl ⟨rfl, fds, hn, hroom, hids.imp ?_, ?_⟩
    · intro fd id hfd
      exact ⟨(h.watched fd id).mp hfd.1, (h.ready_iff fd).mp hfd.2⟩
    · intro hlt fd id hadd hready
      apply hall hlt fd
      · rw [(h.watched fd id).mpr hadd]
        rfl
      · exact (h.ready_iff fd).mpr hready
  | waitInterrupted nIds => exact Or.inr ⟨rfl, rfl⟩
  | readFails e he => exact ⟨rfl, he⟩
  | disarm | arm | setFails | add | waitFails => rfl
  | tick | arrive | drain | close | del | delFails => trivial

end

/-- In every run, on every build: the timer is said to have fired only at or after the time last
asked for, once, and never after it was disarmed or set anew; an id is told only of a descriptor
that was added with it, is still watched and can be read; a wait that the kernel did not fail
leaves nothing untold if there was room for more; and no call fails but with the kernel's error,
or to add what is watched. -/
theorem calls_tell_history {b : Build} {timerFd start : Nat} {l : List Label} {a : Label}
    {w : World} (h : Run (Step b timerFd) (.fresh start) (l ++ [a]) w) :
    HistorySays timerFd start l a := by
  obtain ⟨s', hrun, -⟩ := (seam_simulates b timerFd).run h (fresh_rel b start)
  obtain ⟨s, hrun, hp⟩ := hrun.last
  have hrecalls : Recalls start l s := by
    apply hrun.invariant fresh_recalls
    intro l s a s' hr hstep
    exact promise_recalls hr hstep
  exact promise_says hrecalls hp

theorem calls_tell_history_timer : HistorySays 4 0
    ([.pollAdd 4 0 none (.ok ()), .timerSet 5 none (.ok ()), .tick 5, .fire])
    (.pollWait 2 none (.ok [0])) := by
  have h1 : Run (Step .linux 4) (.fresh 0) [.pollAdd 4 0 none (.ok ())] _ :=
    Run.start.next (.pollAdd (.fresh 0) none 4 0)
  have h2 := h1.next (.timerSet _ none 5 (by decide) (by simp))
  have h3 := h2.next (.tick _ 5 (by decide))
  have h4 := h3.next (.fire _ 0 5 rfl (by decide))
  have htold : Told 4 2 ⟨5, [(4, 0)], some .pending, fun _ => false⟩ [(4, 0)] :=
    ⟨[], by decide, rfl⟩
  exact calls_tell_history (h4.next (.pollWait _ 2 htold))

end PkgsrcPatches.NDhcp4.Events
