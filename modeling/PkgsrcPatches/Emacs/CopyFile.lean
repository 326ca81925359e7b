import Mathlib.Data.List.Basic
import PkgsrcPatches.Lib.FileMode

/-! What `copy-file` does to the mode of its destination: `creat`, the loop that
writes, and the `chmod` at the end, with every mode the destination has meanwhile. -/
namespace PkgsrcPatches.Emacs
open Lib

/-- What `copy-file` finds: the mode of the source, the umask, the mode of a destination
that exists, whether `fstat` told the source's mode, whether `chmod` is permitted, and
whether the kernel drops the set-id bits of a file this process writes to. -/
structure Setting where
  srcMode : Mode
  umask : Mode
  old : Option Mode
  statable : Bool
  chmodOk : Bool
  dropsSetIds : Bool

/-- The destination: its mode and the bytes of the source it holds. -/
structure Dest where
  mode : Mode
  written : Nat
deriving DecidableEq

/-- `creat (newname, 0600)`, which leaves the mode of an existing file as it is. -/
def creat (s : Setting) : Dest := ⟨s.old.getD (0o600 &&& ~~~s.umask), 0⟩

def writeChunk (s : Setting) (d : Dest) (n : Nat) : Dest :=
  ⟨if s.dropsSetIds ∧ 0 < n then d.mode &&& ~~~setIds else d.mode, d.written + n⟩

def writeLoop (s : Setting) : Dest → List Nat → List Dest
  | _, [] => []
  | d, n :: ns => writeChunk s d n :: writeLoop s (writeChunk s d n) ns

/-- `chmod (newname, st.st_mode & 01777)`, whose result nobody looks at. -/
def chmodDest (s : Setting) (d : Dest) : Dest :=
  if s.statable ∧ s.chmodOk then { d with mode := s.srcMode &&& 0o1777 } else d

/-- How the loop ends: at the end of the source, or with an error that is signalled. -/
inductive Ending where
  | endOfFile | ioError
deriving DecidableEq

def afterWrites (s : Setting) (writes : List Nat) : Dest := writes.foldl (writeChunk s) (creat s)

def returned (s : Setting) (writes : List Nat) : Ending → Option Dest
  | .endOfFile => some (chmodDest s (afterWrites s writes))
  | .ioError => none

/-- Every destination there is from `creat` on, in order. -/
def copyFile (s : Setting) (writes : List Nat) (e : Ending) : List Dest :=
  creat s :: writeLoop s (creat s) writes ++ (returned s writes e).toList

theorem grants_private (src umask : Mode) : Grants src (0o600 &&& ~~~umask) := by
  have hnone : (0o600 : Mode) &&& ~~~umask &&& groupOther = 0#12 :=
    owner_groupOther (by decide) umask
  rw [Grants, hnone, BitVec.zero_and]

theorem private_setIds (umask : Mode) : (0o600 &&& ~~~umask : Mode) &&& setIds = 0#12 := by
  rw [BitVec.and_assoc, BitVec.and_comm _ setIds, ← BitVec.and_assoc]
  simp [setIds]

theorem chmod_setIds (src : Mode) : src &&& 0o1777 &&& setIds = 0#12 := by
  rw [BitVec.and_assoc]
  simp [setIds]

theorem writeChunk_grants_iff (s : Setting) (d : Dest) (n : Nat) :
    Grants s.srcMode (writeChunk s d n).mode ↔ Grants s.srcMode d.mode := by
  have hkeep : d.mode &&& ~~~setIds &&& groupOther = d.mode &&& groupOther := by
    rw [BitVec.and_assoc]
    rfl
  unfold writeChunk
  split
  · rw [Grants, hkeep, Grants]
  · rfl

theorem writeLoop_grants (s : Setting) (writes : List Nat) : ∀ d : Dest,
    Grants s.srcMode d.mode → ∀ d' ∈ writeLoop s d writes, Grants s.srcMode d'.mode := by
  induction writes with
  | nil =>
    intro d _ d' hd'
    exact absurd hd' List.not_mem_nil
  | cons n ns ih =>
    intro d hd d' hd'
    have hnext := (writeChunk_grants_iff s d n).mpr hd
    cases List.mem_cons.mp hd' with
    | inl h => exact h ▸ hnext
    | inr h => exact ih _ hnext d' h

theorem writeLoop_written_zero (s : Setting) (writes : List Nat) : ∀ d : Dest,
    writes.sum = 0 → ∀ d' ∈ writeLoop s d writes, d'.written = d.written := by
  induction writes with
  | nil =>
    intro d _ d' hd'
    exact absurd hd' List.not_mem_nil
  | cons n ns ih =>
    intro d hsum d' hd'
    rw [List.sum_cons] at hsum
    have hn : (writeChunk s d n).written = d.written := by
      simp only [writeChunk]
      omega
    cases List.mem_cons.mp hd' with
    | inl h => exact h ▸ hn
    | inr h => exact (ih _ (by omega) d' h).trans hn

/-- Once something is stored, some state of the loop shows it with the permissions
for group and others the file had before. -/
theorem writeLoop_shows (s : Setting) (writes : List Nat) : ∀ d : Dest,
    0 < writes.sum → ∃ d' ∈ writeLoop s d writes, 0 < d'.written ∧
      (Grants s.srcMode d'.mode → Grants s.srcMode d.mode) := by
  induction writes with
  | nil =>
    intro d hsum
    exact absurd hsum (Nat.lt_irrefl 0)
  | cons n ns ih =>
    intro d hsum
    by_cases hn : 0 < n
    · refine ⟨writeChunk s d n, List.mem_cons_self, ?_, (writeChunk_grants_iff s d n).mp⟩
      simp only [writeChunk]
      omega
    · rw [List.sum_cons] at hsum
      obtain ⟨d', hmem, hw, hg⟩ := ih (writeChunk s d n) (by omega)
      exact ⟨d', List.mem_cons_of_mem _ hmem, hw, fun h => (writeChunk_grants_iff s d n).mp (hg h)⟩

theorem afterWrites_written (s : Setting) (writes : List Nat) : ∀ d : Dest,
    (writes.foldl (writeChunk s) d).written = d.written + writes.sum := by
  induction writes with
  | nil =>
    intro d
    rfl
  | cons n ns ih =>
    intro d
    rw [List.foldl_cons, ih, List.sum_cons, ← Nat.add_assoc]
    rfl

theorem afterWrites_grants (s : Setting) (writes : List Nat) : ∀ d : Dest,
    Grants s.srcMode (writes.foldl (writeChunk s) d).mode ↔ Grants s.srcMode d.mode := by
  induction writes with
  | nil =>
    intro d
    rfl
  | cons n ns ih =>
    intro d
    rw [List.foldl_cons, ih, writeChunk_grants_iff]

theorem afterWrites_setIds (s : Setting) (writes : List Nat) : ∀ d : Dest,
    (writes.foldl (writeChunk s) d).mode &&& setIds = 0#12 ↔
      d.mode &&& setIds = 0#12 ∨ s.dropsSetIds ∧ 0 < writes.sum := by
  induction writes with
  | nil =>
    intro d
    simp
  | cons n ns ih =>
    intro d
    have hdrop : d.mode &&& ~~~setIds &&& setIds = 0#12 := by
      rw [BitVec.and_assoc, BitVec.and_comm (~~~setIds), BitVec.and_not_self]
      exact BitVec.and_zero
    rw [List.foldl_cons, ih, List.sum_cons]
    unfold writeChunk
    by_cases hn : s.dropsSetIds ∧ 0 < n
    · rw [if_pos hn]
      constructor
      · intro _
        exact Or.inr ⟨hn.1, by omega⟩
      · intro _
        exact Or.inl hdrop
    · rw [if_neg hn]
      constructor
      · intro h
        cases h with
        | inl h => exact Or.inl h
        | inr h => exact Or.inr ⟨h.1, by omega⟩
      · intro h
        cases h with
        | inl h => exact Or.inl h
        | inr h =>
          have hz : ¬ 0 < n := fun hpos => hn ⟨h.1, hpos⟩
          exact Or.inr ⟨h.1, by omega⟩

/-- From the first stored byte on the destination never grants what the source does not. -/
def NeverReadable (s : Setting) (ds : List Dest) : Prop :=
  ∀ d ∈ ds, 0 < d.written → Grants s.srcMode d.mode

theorem creat_grants (s : Setting) {writes : List Nat}
    (h : ∀ m ∈ s.old, writes.sum = 0 ∨ Grants s.srcMode m) :
    writes.sum = 0 ∨ Grants s.srcMode (creat s).mode := by
  unfold creat
  cases hold : s.old with
  | none => exact Or.inr (grants_private s.srcMode s.umask)
  | some m => exact h m hold

theorem written_grants (s : Setting) {writes : List Nat}
    (h : writes.sum = 0 ∨ Grants s.srcMode (creat s).mode) :
    NeverReadable s (creat s :: writeLoop s (creat s) writes) := by
  intro d hd hw
  cases h with
  | inr hg =>
    cases List.mem_cons.mp hd with
    | inl hd => exact hd ▸ hg
    | inr hd => exact writeLoop_grants s writes _ hg d hd
  | inl hsum =>
    cases List.mem_cons.mp hd with
    | inl hd => exact absurd hw (by simp [hd, creat])
    | inr hd => exact absurd hw (by simp [writeLoop_written_zero s writes _ hsum d hd, creat])

theorem returned_grants (s : Setting) {writes : List Nat} (e : Ending)
    (h : writes.sum = 0 ∨ Grants s.srcMode (creat s).mode) :
    NeverReadable s (returned s writes e).toList := by
  intro d hd hw
  have hd' := Option.mem_toList.mp hd
  cases e with
  | ioError => cases hd'
  | endOfFile =>
    have he : d = chmodDest s (afterWrites s writes) := (Option.mem_some_iff.mp hd').symm
    unfold chmodDest at he
    split at he
    · rw [he]
      exact (grants_self s.srcMode).and _
    · rw [he] at hw ⊢
      rw [afterWrites, afterWrites_written] at hw
      rw [afterWrites, afterWrites_grants]
      cases h with
      | inl hsum => exact absurd hw (by simp [hsum, creat])
      | inr hg => exact hg

theorem neverReadable_iff (s : Setting) (writes : List Nat) (e : Ending) :
    NeverReadable s (copyFile s writes e) ↔
      ∀ m ∈ s.old, writes.sum = 0 ∨ Grants s.srcMode m := by
  constructor
  · intro h m hm
    have hcreat : (creat s).mode = m := by
      rw [creat, Option.mem_def.mp hm, Option.getD_some]
    by_cases hsum : writes.sum = 0
    · exact Or.inl hsum
    · obtain ⟨d, hmem, hw, hg⟩ := writeLoop_shows s writes (creat s) (by omega)
      have hd : d ∈ copyFile s writes e :=
        List.mem_append_left _ (List.mem_cons_of_mem _ hmem)
      exact Or.inr (hcreat ▸ hg (h d hd hw))
  · intro h d hd
    have hcreat := creat_grants s h
    cases List.mem_append.mp hd with
    | inl hd => exact written_grants s hcreat d hd
    | inr hd => exact returned_grants s e hcreat d hd

/-- A copy that returns has no set-id bit: the old ones went with the `chmod`, or were not
there, or went when the file was written. -/
theorem returned_setIds_iff (s : Setting) (writes : List Nat) :
    (∀ d ∈ returned s writes .endOfFile, d.mode &&& setIds = 0#12) ↔
      (s.statable ∧ s.chmodOk) ∨
        ∀ m ∈ s.old, m &&& setIds = 0#12 ∨ s.dropsSetIds ∧ 0 < writes.sum := by
  simp only [returned, Option.mem_some_iff, forall_eq', chmodDest]
  by_cases hc : s.statable ∧ s.chmodOk
  · rw [if_pos hc]
    constructor
    · intro _
      exact Or.inl hc
    · intro _
      exact chmod_setIds s.srcMode
  · rw [if_neg hc, afterWrites, afterWrites_setIds]
    unfold creat
    cases hold : s.old with
    | none =>
      rw [Option.getD_none, private_setIds]
      simp
    | some m => simp [hc]

/-- The copy of a private file is never readable by others and never set-id exactly when
the destination is new, or gets no byte, or was not wider than the source; and when the
`chmod` takes place or an old destination has no set-id bit left. -/
theorem copyFile_private_iff (s : Setting) (writes : List Nat) (e : Ending) :
    (NeverReadable s (copyFile s writes e) ∧
      ∀ d ∈ returned s writes e, d.mode &&& setIds = 0#12) ↔
      (∀ m ∈ s.old, writes.sum = 0 ∨ Grants s.srcMode m) ∧
        (e = .endOfFile → (s.statable ∧ s.chmodOk) ∨
          ∀ m ∈ s.old, m &&& setIds = 0#12 ∨ s.dropsSetIds ∧ 0 < writes.sum) := by
  rw [neverReadable_iff]
  cases e with
  | ioError => simp [returned]
  | endOfFile => rw [returned_setIds_iff, imp_iff_right rfl]

theorem copyFile_exposes :
    ¬ NeverReadable ⟨0o600, 0o022, some 0o666, true, true, true⟩
      (copyFile ⟨0o600, 0o022, some 0o666, true, true, true⟩ [1] .endOfFile) := by
  intro h
  have hgrants := h ⟨0o666, 1⟩ (by decide) (by decide)
  exact absurd hgrants (by decide)

end PkgsrcPatches.Emacs
