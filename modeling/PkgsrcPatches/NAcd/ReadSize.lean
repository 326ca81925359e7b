import PkgsrcPatches.NAcd.OsBsd

/-! One read buffer for every NAcd of the process. It only grows, so a `read` is
the length of the largest device opened so far, whichever device it is on. -/
namespace PkgsrcPatches.NAcd

/-- A process: the file-scope state, the open descriptors with the `BIOCGBLEN`
of each, and every `BIOCGBLEN` there has been. -/
structure Proc where
  globals : Globals
  fds : List (Nat × Nat)
  opened : List Nat

def Proc.init : Proc := ⟨.init, [], []⟩

inductive Event where
  | socketNew (ifname : Except Errno String) (k : OpenAnswers) (realloc : Bool)
      (ifs : Except Errno (List IfAddr))
  | recv (fd : Nat)
  | close (fd : Nat)

def Proc.step (s : Proc) : Event → Proc
  | .socketNew ifname k realloc ifs =>
    match nAcdOsSocketNew s.globals ifname k realloc ifs with
    | (.error _, g) => { s with globals := g }
    | (.ok (fd, blen), g) => ⟨g, (fd, blen) :: s.fds, blen :: s.opened⟩
  | .recv _ => s
  | .close fd => { s with fds := s.fds.filter (·.1 ≠ fd) }

/-- The `read` on a device that asked for `blen`: exactly that long, into a buffer
that holds it. Without a buffer there is no `read`, and no device asked for bytes. -/
def ReadsExactly (g : Globals) (blen : Nat) : Prop :=
  match readCall g with
  | none => blen = 0
  | some c => c.len = blen ∧ blen ≤ c.size

def AtEveryRecv (P : Proc → Nat → Prop) : Proc → List Event → Prop
  | _, [] => True
  | s, ev :: evs =>
    (∀ fd blen, ev = .recv fd → (fd, blen) ∈ s.fds → P s blen) ∧ AtEveryRecv P (s.step ev) evs

def Largest (s : Proc) (blen : Nat) : Prop := ∀ b ∈ s.opened, b ≤ blen

/-! ### The invariant -/

/-- The length is the largest there has been, and the buffer is that long. -/
structure Proc.Inv (s : Proc) : Prop where
  max_le : ∀ b ∈ s.opened, b ≤ s.globals.nAcdBsdBuflen
  max_mem : s.globals.nAcdBsdBuflen = 0 ∨ s.globals.nAcdBsdBuflen ∈ s.opened
  buf : s.globals.nAcdBsdBuf =
    if s.globals.nAcdBsdBuflen = 0 then none else some s.globals.nAcdBsdBuflen
  fds : ∀ p ∈ s.fds, p.2 ∈ s.opened

theorem inv_init : Proc.init.Inv where
  max_le := by simp [Proc.init]
  max_mem := Or.inl rfl
  buf := rfl
  fds := by simp [Proc.init]

theorem nAcdOsSocketNew_cases (g : Globals) (ifname : Except Errno String) (k : OpenAnswers)
    (realloc : Bool) (ifs : Except Errno (List IfAddr)) :
    (∃ e, nAcdOsSocketNew g ifname k realloc ifs = (.error e, g)) ∨
    ∃ fd blen g', nAcdOsSocketNew g ifname k realloc ifs = (.ok (fd, blen), g') ∧
      ((g.nAcdBsdBuflen < blen ∧ g'.nAcdBsdBuflen = blen ∧ g'.nAcdBsdBuf = some blen) ∨
        (blen ≤ g.nAcdBsdBuflen ∧ g'.nAcdBsdBuflen = g.nAcdBsdBuflen ∧
          g'.nAcdBsdBuf = g.nAcdBsdBuf)) := by
  cases ifname with
  | error e => exact Or.inl ⟨e, rfl⟩
  | ok name =>
    simp only [nAcdOsSocketNew]
    cases nAcdBsdOpenBpf k with
    | error e => exact Or.inl ⟨e, rfl⟩
    | ok p =>
      obtain ⟨fd, blen⟩ := p
      simp only [growBuf]
      by_cases hlt : g.nAcdBsdBuflen < blen
      · cases realloc with
        | false => exact Or.inl ⟨.enomem, by simp [hlt]⟩
        | true =>
          simp only [hlt, if_true]
          exact Or.inr ⟨fd, blen, _, rfl, Or.inl ⟨hlt, rfl, rfl⟩⟩
      · simp only [hlt, if_false]
        exact Or.inr ⟨fd, blen, _, rfl, Or.inr ⟨by omega, rfl, rfl⟩⟩

theorem step_inv {s : Proc} (h : s.Inv) (ev : Event) : (s.step ev).Inv := by
  cases ev with
  | recv fd => exact h
  | close fd => exact ⟨h.max_le, h.max_mem, h.buf, fun p hp => h.fds p (List.mem_of_mem_filter hp)⟩
  | socketNew ifname k realloc ifs =>
    obtain ⟨e, he⟩ | ⟨fd, blen, g, he, ⟨hlt, hlen, hbuf⟩ | ⟨hle, hlen, hbuf⟩⟩ :=
      nAcdOsSocketNew_cases s.globals ifname k realloc ifs
    · simpa only [Proc.step, he] using h
    · simp only [Proc.step, he]
      refine ⟨fun b hb => ?_, Or.inr ?_, ?_, fun p hp => ?_⟩
      · cases List.mem_cons.mp hb with
        | inl he => rw [he]; exact le_of_eq hlen.symm
        | inr hb =>
          have := h.max_le b hb
          simp only [hlen]; omega
      · simp [hlen]
      · simp only [hlen, hbuf]
        rw [if_neg (by omega)]
      · cases List.mem_cons.mp hp with
        | inl he => simp [he]
        | inr hp => exact List.mem_cons_of_mem _ (h.fds p hp)
    · simp only [Proc.step, he]
      refine ⟨fun b hb => ?_, ?_, ?_, fun p hp => ?_⟩
      · simp only [hlen]
        cases List.mem_cons.mp hb with
        | inl he => rw [he]; exact hle
        | inr hb => exact h.max_le b hb
      · simp only [hlen]
        exact h.max_mem.imp_right (List.mem_cons_of_mem _)
      · simp only [hlen, hbuf]; exact h.buf
      · cases List.mem_cons.mp hp with
        | inl he => simp [he]
        | inr hp => exact List.mem_cons_of_mem _ (h.fds p hp)

theorem readsExactly_iff {s : Proc} (h : s.Inv) {blen : Nat} (hb : blen ∈ s.opened) :
    ReadsExactly s.globals blen ↔ Largest s blen := by
  have hle := h.max_le blen hb
  have heq : ReadsExactly s.globals blen ↔ s.globals.nAcdBsdBuflen = blen := by
    simp only [ReadsExactly, readCall, h.buf]
    by_cases h0 : s.globals.nAcdBsdBuflen = 0
    · simp only [h0, if_true, Option.map_none]
      omega
    · simp only [h0, if_false, Option.map_some]
      omega
  rw [heq]
  constructor
  · intro he b hb'
    exact he ▸ h.max_le b hb'
  · intro hl
    cases h.max_mem with
    | inl h0 => omega
    | inr hm =>
      have := hl _ hm
      omega

theorem atEveryRecv_congr {P Q : Proc → Nat → Prop}
    (hPQ : ∀ s : Proc, s.Inv → ∀ blen ∈ s.opened, P s blen ↔ Q s blen) (evs : List Event)
    {s : Proc} (h : s.Inv) : AtEveryRecv P s evs ↔ AtEveryRecv Q s evs := by
  induction evs generalizing s with
  | nil => rfl
  | cons ev evs ih =>
    refine and_congr ?_ (ih (step_inv h ev))
    exact forall₄_congr fun fd blen _ hm => hPQ s h blen (h.fds _ hm)

/-- In any run of opens, closes and receives, every `read` has the length its own
device asked for exactly when, at every receive, no device opened so far, on any
interface and even if closed since, has asked for more than this one. -/
theorem reads_exact_iff (evs : List Event) :
    AtEveryRecv (fun s blen => ReadsExactly s.globals blen) .init evs ↔
      AtEveryRecv Largest .init evs :=
  atEveryRecv_congr (fun _ h _ hb => readsExactly_iff h hb) evs inv_init

def grants (fd blen : Nat) : OpenAnswers where
  openBpf := .ok fd
  openBpfN := fun _ => .error .enoent
  biocsetif := .ok ()
  biocimmediate := .ok ()
  biocshdrcmplt := .ok ()
  biocsetf := .ok ()
  biocgblen := .ok blen
  setfl := .ok ()

/-- A second interface with a larger buffer, and reads on the first are too long. -/
theorem larger_device_spoils_reads :
    ¬ AtEveryRecv (fun s blen => ReadsExactly s.globals blen) .init
      [.socketNew (.ok "em0") (grants 3 4096) true (.ok []),
        .socketNew (.ok "em1") (grants 4 32768) true (.ok []), .recv 3] := by
  intro hrun
  obtain ⟨-, -, h, -⟩ := hrun
  exact absurd (h 3 4096 rfl (by decide)).1 (by decide)

end PkgsrcPatches.NAcd
