import PkgsrcPatches.Descriptors.Seam

/-! Whatever the kernel answers, a constructor of a seam that fails leaves the descriptor table
as it found it, and one that returns leaves one descriptor more, set up as its caller needs it. -/
namespace PkgsrcPatches.Descriptors
open Lib.Syscall NAcd NDhcp4
variable {α β : Type} {names : IfNames} {t : Table} {fd : Nat} {d : Desc}

/-- Work on one descriptor: nothing else in the table moves, and what comes of it is known
when the work succeeds. -/
def Works (names : IfNames) (t : Table) (fd : Nat) (R : α → Desc → Prop) (p : Sys α) (d : Desc) :
    Prop :=
  p.Meets (kernel names) (fun t' r => ∃ d', t' = t.opened fd d' ∧ ∀ a, r = .ok a → R a d')
    (t.opened fd d)

theorem Works.bind {R : α → Desc → Prop} {R' : β → Desc → Prop} {p : Sys α} {f : α → Sys β}
    (h : Works names t fd R p d) (hf : ∀ a d', R a d' → Works names t fd R' (f a) d') :
    Works names t fd R' (p >>= f) d := by
  refine Prog.Meets.bind h ?_ ?_
  · intro t' a hq
    obtain ⟨d', ht, hr⟩ := hq
    rw [ht]
    exact hf a d' (hr a rfl)
  · intro t' e hq
    obtain ⟨d', ht, -⟩ := hq
    exact ⟨d', ht, fun a he => by cases he⟩

theorem Works.imp {R R' : α → Desc → Prop} {p : Sys α} (h : Works names t fd R p d)
    (hR : ∀ a d', R a d' → R' a d') : Works names t fd R' p d := by
  refine Prog.Meets.imp h ?_
  intro t' r hq
  obtain ⟨d', ht, hr⟩ := hq
  exact ⟨d', ht, fun a he => hR a d' (hr a he)⟩

theorem Works.pure {R : α → Desc → Prop} {a : α} (h : R a d) : Works names t fd R (pure a) d := by
  refine ⟨d, rfl, ?_⟩
  intro a' he
  cases he
  exact h

theorem Works.control {op : Op} (h : allows (t.opened fd d) (.control fd op)) :
    Works names t fd (fun _ d' => d' = d.did op) (control fd op) d := by
  refine ⟨h, ?_⟩
  intro r _
  cases r with
  | ok u => exact ⟨d.did op, after_control op, fun _ _ => rfl⟩
  | error e => exact ⟨d, rfl, fun a he => by cases he⟩

def Op.isPlain : Op → Bool
  | .watch _ => false
  | .attachBpf _ => false
  | _ => true

theorem Works.plain {op : Op} (hp : op.isPlain = true) :
    Works names t fd (fun _ d' => d' = d.did op) (Descriptors.control fd op) d := by
  apply Works.control
  have hopen : t.opened fd d fd ≠ none := by simp
  cases op <;>
    first
    | exact hopen
    | cases hp

theorem Works.step {R : α → Desc → Prop} {op : Op} {f : Unit → Sys α} (hp : op.isPlain = true)
    (h : Works names t fd R (f ()) (d.did op)) :
    Works names t fd R (Descriptors.control fd op >>= f) d := by
  refine (Works.plain hp).bind ?_
  intro _ d' hd
  rw [hd]
  exact h

theorem opened_ne_none {fd' : Nat} (h : t fd' ≠ none) : t.opened fd d fd' ≠ none := by
  by_cases he : fd' = fd
  · subst he
    simp
  · rw [opened_of_ne he]
    exact h

theorem Works.watch {fds : List (Nat × Nat)} (h : ∀ w ∈ fds, t w.1 ≠ none) :
    Works names t fd (fun _ d' => d' = d.did (.watch fds))
      (Descriptors.control fd (.watch fds)) d := by
  apply Works.control
  refine ⟨by simp, ?_⟩
  intro w hw
  exact opened_ne_none (h w hw)

theorem Works.biocgblen : Works names t fd (fun _ d' => d' = d) (biocgblen fd) d := by
  refine ⟨by simp [kernel, allows], ?_⟩
  intro r _
  cases r with
  | ok n => exact ⟨d, rfl, fun _ _ => rfl⟩
  | error e => exact ⟨d, rfl, fun _ _ => rfl⟩

theorem Works.siocgifname (ifindex : Nat) : Works names t fd
    (fun ifname d' => names ifindex ifname ∧ d' = d) (siocgifname fd ifindex) d := by
  refine ⟨by simp [kernel, allows], ?_⟩
  intro r hr
  cases r with
  | ok ifname => exact ⟨d, rfl, fun _ he => Except.ok.inj he ▸ ⟨hr, rfl⟩⟩
  | error e => exact ⟨d, rfl, fun _ he => by cases he⟩

/-- What a constructor is for: on failure the table as it was, on success one descriptor more. -/
def Opens (t : Table) (R : α → Nat → Desc → Prop) (t' : Table) : Except Errno α → Prop
  | .error _ => t' = t
  | .ok a => ∃ fd d, t fd = none ∧ t' = t.opened fd d ∧ R a fd d

/-- The three idioms of the source (`goto error`, a cleanup attribute, and closing by hand) are
one: work on a new descriptor, which `g` finds in the result and which is closed before an error
is passed on. -/
theorem Works.orClose {g : α → Nat} {P : Desc → Prop} {p : Sys α} (hfree : t fd = none)
    (h : Works names t fd (fun a d => g a = fd ∧ P d) p d) :
    (p.onError (close fd)).Meets (kernel names) (Opens t fun a fd d => g a = fd ∧ P d)
      (t.opened fd d) := by
  refine Prog.Meets.onError h ?_ ?_
  · intro t' a hq
    obtain ⟨d', ht, hr⟩ := hq
    exact ⟨fd, d', hfree, ht, hr a rfl⟩
  · intro t' e hq
    obtain ⟨d', ht, -⟩ := hq
    subst ht
    refine ⟨by simp [kernel, allows], ?_⟩
    intro _ _
    exact closed_opened hfree

theorem opens_create (kind : Kind) :
    (create kind).Meets (kernel names) (Opens t fun a fd d => a = fd ∧ d = ⟨kind, []⟩) t := by
  refine ⟨trivial, ?_⟩
  intro r hr
  cases r with
  | error e => rfl
  | ok fd => exact ⟨fd, _, hr, rfl, rfl, rfl⟩

theorem opens_timerfdCreate (clock : Clock) :
    (timerfdCreate clock).Meets (kernel names) (Opens t fun a fd d => a = fd ∧ d = ⟨.timer, []⟩) t := by
  refine ⟨trivial, ?_⟩
  intro r hr
  cases r with
  | error e => rfl
  | ok fd => exact ⟨fd, _, hr, rfl, rfl, rfl⟩

theorem opens_openDev (path : DevBpf) :
    (openDev path).Meets (kernel names) (Opens t fun a fd d => a = fd ∧ d = ⟨.bpf, []⟩) t := by
  refine ⟨trivial, ?_⟩
  intro r hr
  cases r with
  | error e => rfl
  | ok fd => exact ⟨fd, _, hr, rfl, rfl, rfl⟩

theorem opens_openNumbered (nodes : List Nat) (last : Errno) :
    (openNumbered last nodes).Meets (kernel names)
      (Opens t fun a fd d => a = fd ∧ d = ⟨.bpf, []⟩) t := by
  induction nodes generalizing last with
  | nil => exact (rfl : t = t)
  | cons i rest ih =>
    refine Prog.Meets.andThen (opens_openDev (.numbered i)) ?_
    intro t' r hr
    cases r with
    | ok fd => exact hr
    | error e =>
      have ht : t' = t := hr
      subst ht
      dsimp only
      split
      · exact ih e
      · exact (rfl : t' = t')

theorem opens_openBpf :
    openBpf.Meets (kernel names) (Opens t fun a fd d => a = fd ∧ d = ⟨.bpf, []⟩) t := by
  refine Prog.Meets.andThen (opens_openDev .cloning) ?_
  intro t' r hr
  cases r with
  | ok fd => exact hr
  | error e =>
    have ht : t' = t := hr
    subst ht
    dsimp only
    split
    · exact opens_openNumbered _ e
    · exact (rfl : t' = t')

theorem Opens.bind {R : α → Nat → Desc → Prop} {R' : β → Nat → Desc → Prop} {p : Sys α}
    {f : α → Sys β} (h : p.Meets (kernel names) (Opens t R) t)
    (hf : ∀ a fd d, t fd = none → R a fd d →
      (f a).Meets (kernel names) (Opens t R') (t.opened fd d)) :
    (p >>= f).Meets (kernel names) (Opens t R') t := by
  refine Prog.Meets.bind h ?_ ?_
  · intro t' a hq
    obtain ⟨fd, d, hfree, ht, hr⟩ := hq
    subst ht
    exact hf a fd d hfree hr
  · intro t' e hq
    exact hq

theorem Opens.imp {R R' : α → Nat → Desc → Prop} {t' : Table} {r : Except Errno α}
    (h : Opens t R t' r) (hR : ∀ a fd d, R a fd d → R' a fd d) : Opens t R' t' r := by
  cases r with
  | error e => exact h
  | ok a =>
    obtain ⟨fd, d, hfree, ht, hr⟩ := h
    exact ⟨fd, d, hfree, ht, hR a fd d hr⟩

end PkgsrcPatches.Descriptors
