import Mathlib.Data.List.Count
import PkgsrcPatches.Elisp.MatchData
import PkgsrcPatches.Elisp.Tracking

/-! The numbers of the groups. The translation puts out groups of its own; the
caller's number of a group is its place among those the code recorded, the
engine's its place among those put out. -/
namespace PkgsrcPatches.Elisp

/-- What makes groups in the translation; a class bracket with alternatives makes one for
each of its copies. -/
inductive Opener where
  | capturing
  | shy
  | cls (copies : Nat)
deriving DecidableEq

def Opener.width : Opener → Nat
  | .cls n => n
  | _ => 1

def width (ops : List Opener) : Nat := (ops.map Opener.width).sum

def captured (ops : List Opener) : Nat := ops.count .capturing

def recordedBy : Nat → List Opener → List (Option Nat)
  | _, [] => []
  | orig, .capturing :: ops => some (orig + 1) :: recordedBy (orig + 1) ops
  | orig, .shy :: ops => none :: recordedBy orig ops
  | orig, .cls _ :: ops => none :: recordedBy orig ops

@[simp] theorem captured_nil : captured [] = 0 := rfl

@[simp] theorem captured_cons (o : Opener) (ops : List Opener) :
    captured (o :: ops) = (if o = .capturing then 1 else 0) + captured ops := by
  simp only [captured, List.count_cons, beq_iff_eq]
  exact Nat.add_comm _ _

@[simp] theorem captured_append (a b : List Opener) :
    captured (a ++ b) = captured a + captured b := List.count_append

theorem recordedBy_append (orig : Nat) (a b : List Opener) :
    recordedBy orig (a ++ b) = recordedBy orig a ++ recordedBy (orig + captured a) b := by
  induction a generalizing orig with
  | nil => rfl
  | cons o a ih =>
    cases o with
    | capturing => simp [recordedBy, ih, Nat.add_assoc]
    | shy => simp [recordedBy, ih]
    | cls n => simp [recordedBy, ih]

theorem recordedBy_length (orig : Nat) (ops : List Opener) :
    (recordedBy orig ops).length = ops.length := by
  induction ops generalizing orig with
  | nil => rfl
  | cons o ops ih => cases o <;> simp [recordedBy, ih]

theorem recordedBy_split (pre post : List Opener) :
    (recordedBy 0 (pre ++ .capturing :: post))[pre.length]? = some (some (captured pre + 1)) := by
  rw [recordedBy_append, ← recordedBy_length 0 pre, Nat.zero_add, recordedBy,
    List.getElem?_append_right (Nat.le_refl _), Nat.sub_self]
  rfl

theorem exists_split {ops : List Opener} {k : Nat} (hk : 0 < k) (hle : k ≤ captured ops) :
    ∃ pre post, ops = pre ++ .capturing :: post ∧ captured pre + 1 = k := by
  induction ops generalizing k with
  | nil => simp only [captured_nil] at hle; omega
  | cons o ops ih =>
    by_cases ho : o = .capturing
    · by_cases hone : k = 1
      · exact ⟨[], ops, by rw [ho]; rfl, hone.symm⟩
      · rw [captured_cons, if_pos ho] at hle
        obtain ⟨pre, post, rfl, hpre⟩ := ih (k := k - 1) (by omega) (by omega)
        refine ⟨o :: pre, post, rfl, ?_⟩
        rw [captured_cons, if_pos ho]
        omega
    · rw [captured_cons, if_neg ho, Nat.zero_add] at hle
      obtain ⟨pre, post, rfl, hpre⟩ := ih hk hle
      refine ⟨o :: pre, post, rfl, ?_⟩
      rw [captured_cons, if_neg ho, Nat.zero_add, hpre]

/-! ### The match data put back -/

section Fix
variable {α : Type}

theorem MatchData.nth_set_self {v : MatchData α} {k : Nat} (h : k < v.length) (x : Option α) :
    MatchData.nth (v.set k x) k = x := by
  simp [MatchData.nth, List.getD_eq_getElem?_getD, h]

theorem MatchData.nth_set_ne {v : MatchData α} {k j : Nat} (h : k ≠ j) (x : Option α) :
    MatchData.nth (v.set k x) j = v.nth j := by
  simp [MatchData.nth, List.getD_eq_getElem?_getD, h]

theorem groups_cons {md out : MatchData α} {k : Nat} {x : Option Nat} {l : List (Option Nat)}
    (hx : ∀ g, x = some g → out.group g = md.group k)
    (hl : ∀ i g, l[i]? = some (some g) → out.group g = md.group (k + 1 + i)) :
    ∀ i g, (x :: l)[i]? = some (some g) → out.group g = md.group (k + i) := by
  intro i g h
  cases i with
  | zero => exact hx g (Option.some.inj h)
  | succ i =>
    rw [List.getElem?_cons_succ] at h
    have hgroup := hl i g h
    rwa [Nat.add_right_comm, Nat.add_assoc] at hgroup

theorem e20FixLoop_spec (md : MatchData α) (ops : List Opener) (k orig : Nat) (out : MatchData α)
    (hlen : 2 * (orig + captured ops + 1) ≤ out.length) :
    ∃ out', e20FixLoop md k (recordedBy orig ops) out = some out' ∧
      (∀ j, j < 2 * (orig + 1) → out'.nth j = out.nth j) ∧
      ∀ i g, (recordedBy orig ops)[i]? = some (some g) → out'.group g = md.group (k + i) := by
  induction ops generalizing k orig out with
  | nil => exact ⟨out, rfl, fun _ _ => rfl, fun i g h => nomatch h⟩
  | cons o ops ih =>
    cases o with
    | capturing =>
      simp only [captured_cons, if_true] at hlen
      have hlow : 2 * (orig + 1) < out.length := by omega
      have hhigh : 2 * (orig + 1) + 1 < (out.set (2 * (orig + 1)) (md.nth (2 * k))).length := by
        rw [List.length_set]
        omega
      obtain ⟨out', hrun, hkeep, hput⟩ := ih (k + 1) (orig + 1)
        ((out.set (2 * (orig + 1)) (md.nth (2 * k))).set (2 * (orig + 1) + 1) (md.nth (2 * k + 1)))
        (by rw [List.length_set, List.length_set]; omega)
      refine ⟨out', ?_, ?_, groups_cons ?_ hput⟩
      · simp only [recordedBy, e20FixLoop, MatchData.aset, if_pos hlow, if_pos hhigh,
          Option.bind_eq_bind, Option.bind_some]
        exact hrun
      · intro j hj
        rw [hkeep j (by omega), MatchData.nth_set_ne (by omega), MatchData.nth_set_ne (by omega)]
      · intro g hg
        obtain rfl := Option.some.inj hg
        rw [MatchData.group, hkeep _ (by omega), hkeep _ (by omega),
          MatchData.nth_set_ne (by omega), MatchData.nth_set_self hlow,
          MatchData.nth_set_self hhigh]
        rfl
    | shy =>
      obtain ⟨out', hrun, hkeep, hput⟩ := ih (k + 1) orig out (by simpa using hlen)
      exact ⟨out', hrun, hkeep, groups_cons (fun g hg => by cases hg) hput⟩
    | cls n =>
      obtain ⟨out', hrun, hkeep, hput⟩ := ih (k + 1) orig out (by simpa using hlen)
      exact ⟨out', hrun, hkeep, groups_cons (fun g hg => by cases hg) hput⟩

theorem e20Max_recordedBy (ops : List Opener) : e20Max (recordedBy 0 ops) = captured ops := by
  suffices ∀ orig, (recordedBy orig ops).foldl (fun max g => g.getD max) orig =
      orig + captured ops by
    rw [e20Max, this 0, Nat.zero_add]
  induction ops with
  | nil => exact fun _ => rfl
  | cons o ops ih =>
    intro orig
    cases o with
    | capturing =>
      have hrest := ih (orig + 1)
      simp only [recordedBy, List.foldl_cons, Option.getD_some, captured_cons, if_true, hrest]
      omega
    | shy => simpa [recordedBy] using ih orig
    | cls n => simpa [recordedBy] using ih orig

theorem e20FixMatchData_spec (md : MatchData α) (ops : List Opener) :
    ∃ md', e20FixMatchData (recordedBy 0 ops) md = some md' ∧ md'.group 0 = md.group 0 ∧
      ∀ i g, (recordedBy 0 ops)[i]? = some (some g) → md'.group g = md.group (i + 1) := by
  have hzero : 0 < (List.replicate (2 * (captured ops + 1)) (none : Option α)).length := by simp
  have hone : 1 < ((List.replicate (2 * (captured ops + 1)) (none : Option α)).set 0
      (md.nth 0)).length := by
    simp
    omega
  obtain ⟨md', hrun, hkeep, hput⟩ := e20FixLoop_spec md ops 1 0
    (((List.replicate (2 * (captured ops + 1)) none).set 0 (md.nth 0)).set 1 (md.nth 1)) (by simp)
  refine ⟨md', ?_, ?_, ?_⟩
  · simp only [e20FixMatchData, e20Max_recordedBy, MatchData.aset, if_pos hzero, if_pos hone,
      Option.bind_eq_bind, Option.bind_some]
    exact hrun
  · rw [MatchData.group, hkeep 0 (by omega), hkeep 1 (by omega), MatchData.nth_set_ne (by omega),
      MatchData.nth_set_self hzero, MatchData.nth_set_self hone]
    rfl
  · intro i g hi
    rw [hput i g hi, Nat.add_comm]

end Fix

/-! ### The groups of a regexp -/

def Kind.opener : Kind → Opener
  | .capturing => .capturing
  | .shy => .shy

def Leaf.openers (fold : Bool) (s : Suffix) (l : Leaf) : List Opener :=
  if l.opens fold = [] then [] else [.cls s.copies]

namespace Regexp

def openers (fold : Bool) : Regexp → List Opener
  | nil => []
  | leaf l s rest => l.openers fold s ++ rest.openers fold
  | group k body _ rest => k.opener :: (body.openers fold ++ rest.openers fold)
  | bar rest => rest.openers fold

/-- The references that are not dropped. -/
def refs : Regexp → List Nat
  | nil => []
  | leaf l s rest => (if s.copies = 0 then [] else l.refs) ++ rest.refs
  | group _ body s rest => (if s.copies = 0 then [] else body.refs) ++ rest.refs
  | bar rest => rest.refs

end Regexp

section Tree
variable {fold : Bool}

variable (fold) in
theorem opens_cases (l : Leaf) : l.opens fold = [] ∨ l.opens fold = [none] := by
  cases l with
  | bracket b =>
    simp only [Leaf.opens]
    split
    · exact Or.inr rfl
    · exact Or.inl rfl
  | char c => exact Or.inl rfl
  | escape c => exact Or.inl rfl
  | coded k c => exact Or.inl rfl

theorem captured_leaf (l : Leaf) (s : Suffix) : captured (l.openers fold s) = 0 := by
  unfold Leaf.openers
  split <;> rfl

variable (fold) in
theorem captures_eq (r : Regexp) : captured (r.openers fold) = r.captures := by
  induction r with
  | nil => rfl
  | leaf l s rest ih => rw [Regexp.openers, captured_append, captured_leaf, ih, Nat.zero_add]; rfl
  | group k body s rest ihbody ih =>
    rw [Regexp.openers, captured_cons, captured_append, ihbody, ih, ← Nat.add_assoc]
    cases k <;> rfl
  | bar rest ih => exact ih

theorem recorded_eq (r : Regexp) (orig : Nat) :
    r.recorded fold orig = recordedBy orig (r.openers fold) := by
  induction r generalizing orig with
  | nil => rfl
  | leaf l s rest ih =>
    rw [Regexp.recorded, Regexp.openers, recordedBy_append, captured_leaf, Nat.add_zero, ih]
    obtain h | h := opens_cases fold l
    · simp [Leaf.openers, h, recordedBy]
    · simp [Leaf.openers, h, recordedBy]
  | group k body s rest ihbody ih =>
    rw [Regexp.recorded, Regexp.openers, ihbody, ih, ← captures_eq fold body]
    cases k with
    | capturing => simp [Kind.opener, Kind.recorded, Kind.captures, recordedBy, recordedBy_append]
    | shy => simp [Kind.opener, Kind.recorded, Kind.captures, recordedBy, recordedBy_append]
  | bar rest ih => exact ih orig

end Tree

end PkgsrcPatches.Elisp
