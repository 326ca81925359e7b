import PkgsrcPatches.Lib.Bytes
import PkgsrcPatches.Lib.Loop

/-! `Sense::read`: whole frames from a device that may cut its stream anywhere. -/
namespace PkgsrcPatches.Speakersafetyd
open Lib.Bytes Lib.Loop

/-! ### The device -/

/-- What the device records, and how it answers its `i`-th read of at most `room` bytes: with a
number of bytes, 0 at the end, or with an error by its text. -/
structure Device where
  stream : Nat → UInt8
  answer : Nat → Nat → Except String Nat
  fits : ∀ i room n, answer i room = .ok n → n ≤ room

def Device.bytes (dev : Device) (pos n : Nat) : List UInt8 := (List.range' pos n).map dev.stream

structure File where
  dev : Device
  reads : Nat
  pos : Nat

def File.read (f : File) (room : Nat) : Except String (List UInt8) × File :=
  match f.dev.answer f.reads room with
  | .ok n => (.ok (f.dev.bytes f.pos n), { f with reads := f.reads + 1, pos := f.pos + n })
  | .error e => (.error e, { f with reads := f.reads + 1 })

/-! ### Reading -/

inductive ReadError where
  | retry
  | fatal (text : String)
deriving DecidableEq

structure Sense where
  file : File
  channels : Nat
  bytes : List UInt8

def i16FromLeBytes (lo hi : UInt8) : Int16 := (UInt16.ofNat (leNat [lo, hi])).toInt16

def resize (v : List UInt8) (n : Nat) : List UInt8 := (v ++ List.replicate (n - v.length) 0).take n

structure Reading where
  file : File
  bytes : List UInt8
  got : Nat

/-- One pass of the loop, which returns an error or `got`. A remainder by zero and a range
outside `bytes` panic. -/
def readPass (frame want : Nat) (s : Reading) :
    Option (Pass Reading (Except ReadError Nat × Reading)) :=
  if frame = 0 then none else
  if s.got < frame ∨ s.got % frame ≠ 0 then
    if want < s.got ∨ s.bytes.length < want then none else
    match s.file.read (want - s.got) with
    | (.ok [], file) => some (.done (.error (.fatal "end of file"), { s with file := file }))
    | (.ok data, file) =>
      let s := { s with
        file := file
        bytes := s.bytes.take s.got ++ data ++ s.bytes.drop (s.got + data.length)
        got := s.got + data.length }
      if s.got = want then some (.done (.ok s.got, s)) else some (.next s)
    -- whether interrupted or not
    | (.error e, file) => some (.done (.error (.fatal e), { s with file := file }))
  else
    some (.done (.ok s.got, s))

def sampleAt (bytes : List UInt8) (i : Nat) : Option Int16 := do
  pure (i16FromLeBytes (← bytes[2 * i]?) (← bytes[2 * i + 1]?))

/-- The first `n` entries of `buf`, as far as it goes, are the samples of `bytes`. -/
def store (bytes : List UInt8) (n : Nat) (buf : List Int16) : Option (List Int16) := do
  let samples ← (List.range (min buf.length n)).mapM (sampleAt bytes)
  pure (samples ++ buf.drop samples.length)

/-- A call, with the buffer, the position in the stream and the reads made before and after. -/
structure Call where
  before : List Int16
  pos : Nat
  reads : Nat
  ret : Except ReadError Nat
  after : List Int16
  pos' : Nat
  reads' : Nat

def Sense.read (s : Sense) (buf : List Int16) : Exit (Call × Sense) :=
  let frame := 2 * s.channels
  let want := buf.length * 2
  let call := fun ret after (r : Reading) =>
    (⟨buf, s.file.pos, s.file.reads, ret, after, r.file.pos, r.file.reads⟩,
      { s with file := r.file, bytes := r.bytes })
  match run (readPass frame want) (want + 1) ⟨s.file, resize s.bytes want, 0⟩ with
  | .ret (.error e, r) => .ret (call (.error e) buf r)
  | .ret (.ok got, r) => match store r.bytes (got / 2) buf with
    | some after => .ret (call (.ok (got / frame)) after r)
    | none => .stray
  | .stray => .stray
  | .spin => .spin

def Sense.calls (s : Sense) : List (List Int16) → Exit (List Call × Sense)
  | [] => .ret ([], s)
  | buf :: bufs => match s.read buf with
    | .ret (call, s) => match s.calls bufs with
      | .ret (calls, s) => .ret (call :: calls, s)
      | .stray => .stray
      | .spin => .spin
    | .stray => .stray
    | .spin => .spin

/-! ### What the loop has read -/

theorem Device.length_bytes (dev : Device) (pos n : Nat) : (dev.bytes pos n).length = n := by
  simp [Device.bytes]

theorem Device.bytes_append (dev : Device) (pos m n : Nat) :
    dev.bytes pos m ++ dev.bytes (pos + m) n = dev.bytes pos (m + n) := by
  have h : List.range' pos m 1 ++ List.range' (pos + 1 * m) n 1 = List.range' pos (m + n) 1 :=
    List.range'_append
  rw [Nat.one_mul] at h
  rw [Device.bytes, Device.bytes, ← List.map_append, h]
  rfl

theorem length_resize (v : List UInt8) (n : Nat) : (resize v n).length = n := by
  simp only [resize, List.length_take, List.length_append, List.length_replicate]
  omega

/-- The front of the buffer is what the device gave since `pos`. -/
structure Filled (dev : Device) (reads pos want : Nat) (s : Reading) : Prop where
  dev_eq : s.file.dev = dev
  reads_le : reads ≤ s.file.reads
  pos_eq : s.file.pos = pos + s.got
  room : s.got ≤ want
  length_bytes : s.bytes.length = want
  front : s.bytes.take s.got = dev.bytes pos s.got

/-- The device gave nothing on one of the reads from `reads` up to `reads'`. -/
def Device.Refused (dev : Device) (reads reads' : Nat) : Prop :=
  ∃ i room, reads ≤ i ∧ i < reads' ∧ 0 < room ∧ ∀ n, dev.answer i room = .ok n → n = 0

/-- What the loop returns: whole frames, where it is no error; and no error where the device gave
something each time. -/
structure Whole (dev : Device) (reads pos want frame : Nat) (x : Except ReadError Nat × Reading) :
    Prop where
  dev_eq : x.2.file.dev = dev
  frames : ∀ n, x.1 = .ok n → n = x.2.got ∧ Filled dev reads pos want x.2 ∧ frame ∣ n ∧ frame ≤ n
  refused : ∀ e, x.1 = .error e → dev.Refused reads x.2.file.reads

theorem Filled.more {dev : Device} {reads pos want : Nat} {s : Reading}
    (h : Filled dev reads pos want s) {n : Nat} (hn : s.got + n ≤ want) :
    Filled dev reads pos want ⟨⟨dev, s.file.reads + 1, s.file.pos + n⟩,
      s.bytes.take s.got ++ dev.bytes s.file.pos n ++ s.bytes.drop (s.got + n), s.got + n⟩ where
  dev_eq := rfl
  reads_le := Nat.le_succ_of_le h.reads_le
  pos_eq := by rw [h.pos_eq, Nat.add_assoc]
  room := hn
  length_bytes := by
    have hl := h.length_bytes
    simp only [List.length_append, List.length_take, List.length_drop, Device.length_bytes]
    omega
  front := by
    rw [h.front, h.pos_eq, Device.bytes_append, List.take_left' (Device.length_bytes _ _ _)]

theorem Filled.refused {dev : Device} {reads pos want : Nat} {s : Reading}
    (h : Filled dev reads pos want s) (hroom : s.got < want)
    (hnone : ∀ n, dev.answer s.file.reads (want - s.got) = .ok n → n = 0) :
    dev.Refused reads (s.file.reads + 1) :=
  ⟨s.file.reads, want - s.got, h.reads_le, Nat.lt_succ_self _, by omega, hnone⟩

theorem readPass_holds {dev : Device} {reads pos want frame : Nat} (hf : 0 < frame)
    (hw : frame ∣ want) (hpos : 0 < want) {s : Reading} (h : Filled dev reads pos want s) :
    ∃ p, readPass frame want s = some p ∧
      p.Holds (fun t => Filled dev reads pos want t ∧ want - t.got < want - s.got)
        (Whole dev reads pos want frame) := by
  rw [readPass, if_neg (Nat.ne_of_gt hf)]
  by_cases hloop : s.got < frame ∨ s.got % frame ≠ 0
  swap
  · obtain ⟨hge, hmod⟩ := not_or.mp hloop
    refine ⟨_, if_neg hloop, h.dev_eq, fun n hn => ?_, fun e he => by cases he⟩
    obtain rfl := Except.ok.inj hn
    exact ⟨rfl, h, Nat.dvd_of_mod_eq_zero (not_not.mp hmod), Nat.not_lt.mp hge⟩
  -- a full buffer is whole frames, so there is room for the read
  have hlt : s.got < want := by
    refine Nat.lt_of_le_of_ne h.room fun heq => ?_
    rw [heq] at hloop
    cases hloop with
    | inl hlt => exact absurd (Nat.le_of_dvd hpos hw) (Nat.not_le.mpr hlt)
    | inr hmod => exact hmod (Nat.mod_eq_zero_of_dvd hw)
  rw [if_pos hloop, if_neg (by have := h.length_bytes; omega), File.read, h.dev_eq]
  cases ha : dev.answer s.file.reads (want - s.got) with
  | error e =>
    refine ⟨_, rfl, rfl, fun n hn => (by cases hn), fun e' _ => h.refused hlt ?_⟩
    intro n hn
    rw [ha] at hn
    cases hn
  | ok n =>
    have hfit := dev.fits _ _ _ ha
    have hmore := h.more (show s.got + n ≤ want by omega)
    have hlen := dev.length_bytes s.file.pos n
    dsimp only
    cases hdata : dev.bytes s.file.pos n with
    | nil =>
      refine ⟨_, rfl, rfl, fun n hn => (by cases hn), fun e' _ => h.refused hlt ?_⟩
      intro m hm
      rw [ha] at hm
      rw [← Except.ok.inj hm, ← hlen, hdata]
      rfl
    | cons b data =>
      rw [hdata] at hmore hlen
      have hn : 0 < n := hlen ▸ Nat.succ_pos _
      dsimp only
      rw [hlen]
      by_cases hfull : s.got + n = want
      · refine ⟨_, if_pos hfull, rfl, fun m hm => ?_, fun e he => by cases he⟩
        obtain rfl := Except.ok.inj hm
        exact ⟨rfl, hmore, hfull ▸ hw, hfull ▸ Nat.le_of_dvd hpos hw⟩
      · exact ⟨_, if_neg hfull, hmore, by dsimp only; omega⟩

theorem loop_total {dev : Device} {reads pos want frame : Nat} (hf : 0 < frame) (hw : frame ∣ want)
    (hpos : 0 < want) {s : Reading} (h : Filled dev reads pos want s) :
    ∃ x, run (readPass frame want) (want + 1) s = .ret x ∧ Whole dev reads pos want frame x := by
  have hpass := fun t (ht : Filled dev reads pos want t) => readPass_holds hf hw hpos ht
  exact run_total (fun t => want - t.got) hpass (want + 1) s h (by omega)

/-! ### What a call stores -/

def Device.samples (dev : Device) (pos n : Nat) : List Int16 :=
  (List.range n).map fun j => i16FromLeBytes (dev.stream (pos + 2 * j)) (dev.stream (pos + 2 * j + 1))

theorem Device.length_samples (dev : Device) (pos n : Nat) : (dev.samples pos n).length = n := by
  simp [Device.samples]

theorem Device.samples_append (dev : Device) (pos m n : Nat) :
    dev.samples pos m ++ dev.samples (pos + 2 * m) n = dev.samples pos (m + n) := by
  simp only [Device.samples, List.range_add, List.map_append, List.map_map]
  congr 1
  refine List.map_congr_left fun j _ => ?_
  simp only [Function.comp_apply, Nat.mul_add, Nat.add_assoc]

theorem mapM_eq_map {α β : Type} {f : α → Option β} {g : α → β} {l : List α}
    (h : ∀ a ∈ l, f a = some (g a)) : l.mapM f = some (l.map g) := by
  induction l with
  | nil => rfl
  | cons a l ih =>
    simp [List.mapM_cons, h a List.mem_cons_self, ih fun a ha => h a (List.mem_cons_of_mem _ ha)]

theorem Filled.getElem? {dev : Device} {reads pos want : Nat} {s : Reading}
    (h : Filled dev reads pos want s) {i : Nat} (hi : i < s.got) : s.bytes[i]? = some (dev.stream (pos + i)) := by
  have hfront : (s.bytes.take s.got)[i]? = (dev.bytes pos s.got)[i]? := by rw [h.front]
  rw [List.getElem?_take_of_lt hi] at hfront
  rw [hfront]
  simp [Device.bytes, hi]

theorem Filled.store {dev : Device} {reads pos : Nat} {s : Reading} {buf : List Int16}
    (h : Filled dev reads pos (buf.length * 2) s) :
    store s.bytes (s.got / 2) buf =
      some (dev.samples pos (s.got / 2) ++ buf.drop (s.got / 2)) := by
  have hroom := h.room
  have hmin : min buf.length (s.got / 2) = s.got / 2 := by omega
  have hsample : ∀ i ∈ List.range (s.got / 2), sampleAt s.bytes i =
      some (i16FromLeBytes (dev.stream (pos + 2 * i)) (dev.stream (pos + 2 * i + 1))) := by
    intro i hi
    have hi' := List.mem_range.mp hi
    rw [sampleAt, h.getElem? (by omega), h.getElem? (by omega)]
    rfl
  rw [Speakersafetyd.store, hmin, mapM_eq_map hsample]
  simp only [Option.bind_eq_bind, Option.bind_some, List.length_map, List.length_range]
  rfl

/-- A successful call of a device with `channels`: at least one frame and no more than fit, the
next of the stream, at the front of the buffer. -/
def Call.Delivers (dev : Device) (channels : Nat) (call : Call) : Prop :=
  ∀ k, call.ret = .ok k → 1 ≤ k ∧ k * channels ≤ call.before.length ∧
    call.after = dev.samples call.pos (k * channels) ++ call.before.drop (k * channels) ∧
    call.pos' = call.pos + 2 * (k * channels)

/-- A call fails only where the device gave nothing on one of its reads. -/
def Call.FailsOnly (dev : Device) (call : Call) : Prop :=
  ∀ e, call.ret = .error e → dev.Refused call.reads call.reads'

theorem read_delivers (s : Sense) (hc : 0 < s.channels) {buf : List Int16} (hb : 0 < buf.length)
    (hd : s.channels ∣ buf.length) :
    ∃ (call : Call) (r : Reading), s.read buf = .ret (call, { s with file := r.file, bytes := r.bytes }) ∧
      r.file.dev = s.file.dev ∧ call.before = buf ∧ call.pos = s.file.pos ∧
      call.pos' = r.file.pos ∧ call.Delivers s.file.dev s.channels ∧ call.FailsOnly s.file.dev := by
  have hframe : 0 < 2 * s.channels := by omega
  have hwant : 2 * s.channels ∣ buf.length * 2 := by
    rw [Nat.mul_comm buf.length]
    exact Nat.mul_dvd_mul_left 2 hd
  have hstart : Filled s.file.dev s.file.reads s.file.pos (buf.length * 2)
      ⟨s.file, resize s.bytes (buf.length * 2), 0⟩ :=
    ⟨rfl, Nat.le_refl _, rfl, Nat.zero_le _, length_resize _ _, rfl⟩
  obtain ⟨⟨ret, r⟩, hrun, hdev, hok, hrefused⟩ := loop_total hframe hwant (by omega) hstart
  rw [Sense.read]
  dsimp only at hdev hok hrefused ⊢
  rw [hrun]
  cases ret with
  | error e =>
    refine ⟨_, r, rfl, hdev, rfl, rfl, rfl, fun k hk => ?_, fun e' _ => hrefused e rfl⟩
    cases hk
  | ok got =>
    obtain ⟨rfl, hfilled, ⟨k, hk⟩, hge⟩ := hok got rfl
    have hhalf : r.got / 2 = k * s.channels := by
      rw [hk, Nat.mul_assoc, Nat.mul_div_cancel_left _ (by decide), Nat.mul_comm]
    have hquot : r.got / (2 * s.channels) = k := by rw [hk, Nat.mul_div_cancel_left _ hframe]
    have hstore := hfilled.store
    rw [hhalf] at hstore
    dsimp only
    rw [hhalf, hstore, hquot]
    refine ⟨_, r, rfl, hdev, rfl, rfl, rfl, fun n hn => ?_, fun e he => by cases he⟩
    obtain rfl := Except.ok.inj hn
    have hroom := hfilled.room
    have hbytes : r.got = 2 * (k * s.channels) := by rw [hk, Nat.mul_assoc, Nat.mul_comm k]
    refine ⟨?_, by dsimp only; omega, rfl, by dsimp only; rw [hfilled.pos_eq, hbytes]⟩
    by_contra hzero
    rw [show k = 0 by omega] at hk
    omega

/-! ### Calls in sequence -/

def Call.succeeded (call : Call) : Bool := call.ret.isOk

def Call.delivered (channels : Nat) (call : Call) : List Int16 :=
  match call.ret with
  | .ok k => call.after.take (k * channels)
  | .error _ => []

def delivered (channels : Nat) (calls : List Call) : List Int16 :=
  (calls.takeWhile Call.succeeded).flatMap (Call.delivered channels)

theorem Call.Delivers.delivered {dev : Device} {channels : Nat} {call : Call}
    (h : call.Delivers dev channels) (hok : call.succeeded = true) :
    ∃ n, call.delivered channels = dev.samples call.pos n ∧ call.pos' = call.pos + 2 * n := by
  rw [Call.delivered]
  cases hret : call.ret with
  | error e =>
    rw [succeeded, hret] at hok
    cases hok
  | ok k =>
    obtain ⟨-, -, hafter, hpos⟩ := h k hret
    refine ⟨k * channels, ?_, hpos⟩
    dsimp only
    rw [hafter, List.take_left' (Device.length_samples _ _ _)]

def Device.Gives (dev : Device) : Prop :=
  ∀ i room, 0 < room → ∃ n, 0 < n ∧ dev.answer i room = .ok n

theorem Device.Gives.not_refused {dev : Device} (h : dev.Gives) (reads reads' : Nat) :
    ¬ dev.Refused reads reads' := by
  intro hrefused
  obtain ⟨i, room, -, -, hroom, hnone⟩ := hrefused
  obtain ⟨n, hn, hanswer⟩ := h i room hroom
  exact absurd (hnone n hanswer) (Nat.ne_of_gt hn)

theorem Call.FailsOnly.succeeded {dev : Device} {call : Call} (h : call.FailsOnly dev)
    (hgives : dev.Gives) : call.succeeded = true := by
  cases hret : call.ret with
  | error e => exact absurd (h e hret) (hgives.not_refused _ _)
  | ok k =>
    rw [Call.succeeded, hret]
    rfl

/-- Every successful call delivers the next whole frames of the stream, a call fails only where
the device gives nothing, and up to the first error all that was delivered is the stream from
where the calls began. -/
theorem calls_deliver (s : Sense) (hc : 0 < s.channels) (bufs : List (List Int16))
    (hb : ∀ buf ∈ bufs, 0 < buf.length ∧ s.channels ∣ buf.length) :
    ∃ calls s', s.calls bufs = .ret (calls, s') ∧ calls.map (·.before) = bufs ∧
      (∀ call ∈ calls, call.Delivers s.file.dev s.channels ∧ call.FailsOnly s.file.dev) ∧
      (s.file.dev.Gives → ∀ call ∈ calls, call.succeeded = true) ∧
      delivered s.channels calls =
        s.file.dev.samples s.file.pos (delivered s.channels calls).length := by
  induction bufs generalizing s with
  | nil => exact ⟨[], s, rfl, rfl, by simp, by simp, rfl⟩
  | cons buf bufs ih =>
    obtain ⟨hlen, hdvd⟩ := hb buf List.mem_cons_self
    obtain ⟨call, r, hread, hdev, hbefore, hpos, hpos', hcall, hfails⟩ :=
      read_delivers s hc hlen hdvd
    obtain ⟨calls, s', hcalls, hbufs, hall, -, hrest⟩ :=
      ih { s with file := r.file, bytes := r.bytes } hc fun b hm => hb b (List.mem_cons_of_mem _ hm)
    rw [hdev] at hall hrest
    have hevery : ∀ c ∈ call :: calls, c.Delivers s.file.dev s.channels ∧ c.FailsOnly s.file.dev := by
      intro c hm
      cases List.mem_cons.mp hm with
      | inl hm => exact hm ▸ ⟨hcall, hfails⟩
      | inr hm => exact hall c hm
    refine ⟨call :: calls, s', by rw [Sense.calls, hread]; dsimp only; rw [hcalls], ?_, hevery,
      fun hgives c hm => (hevery c hm).2.succeeded hgives, ?_⟩
    · rw [List.map_cons, hbefore, hbufs]
    · cases hok : call.succeeded with
      | false => simp [delivered, hok, Device.samples]
      | true =>
        obtain ⟨n, hn, hadv⟩ := hcall.delivered hok
        have hcons : delivered s.channels (call :: calls) =
            s.file.dev.samples s.file.pos n ++ delivered s.channels calls := by
          simp only [delivered, List.takeWhile_cons, hok, if_true, List.flatMap_cons, hn, hpos]
        rw [hcons, List.length_append, Device.length_samples, ← Device.samples_append, ← hpos,
          ← hadv, hpos', ← hrest]

def shortReads : Device where
  stream i := [1, 0, 254, 255, 3, 0, 252, 255, 5, 0, 250, 255, 7, 0, 0, 128].getD (i % 16) 0
  answer i room := .ok (min 3 room)
  fits i room n h := by
    obtain rfl := Except.ok.inj h
    exact Nat.min_le_right 3 room

def shortSense : Sense := ⟨⟨shortReads, 0, 0⟩, 4, []⟩

theorem calls_deliver_short :
    ∃ calls s', shortSense.calls [List.replicate 8 0, List.replicate 4 0] = .ret (calls, s') ∧
      calls.map (·.before) = [List.replicate 8 0, List.replicate 4 0] ∧
      (∀ call ∈ calls, call.Delivers shortReads 4 ∧ call.FailsOnly shortReads) ∧
      (shortReads.Gives → ∀ call ∈ calls, call.succeeded = true) ∧
      delivered 4 calls = shortReads.samples 0 (delivered 4 calls).length :=
  calls_deliver shortSense (by decide) [List.replicate 8 0, List.replicate 4 0] (by decide)

end PkgsrcPatches.Speakersafetyd
