import PkgsrcPatches.Elisp.Translate

/-! `e20-advise` and `e20-fix-match-data`: the search is made with the translated
regexp, and the bounds it reports are put back under the caller's numbers. -/
namespace PkgsrcPatches.Elisp

/-- Beginnings and ends of the groups in turn; `none` is `nil`. -/
abbrev MatchData (α : Type) := List (Option α)

namespace MatchData
variable {α : Type}

def nth (md : MatchData α) (k : Nat) : Option α := md.getD k none

def group (md : MatchData α) (k : Nat) : Option α × Option α := (md.nth (2 * k), md.nth (2 * k + 1))

theorem group_of_length_le {md : MatchData α} {k : Nat} (h : md.length ≤ 2 * k) :
    md.group k = (none, none) := by
  have hnth : ∀ j, 2 * k ≤ j → md.nth j = none := by
    intro j hj
    simp [nth, List.getD_eq_getElem?_getD, List.getElem?_eq_none (Nat.le_trans h hj)]
  rw [group, hnth _ (Nat.le_refl _), hnth _ (Nat.le_succ _)]

def aset (v : MatchData α) (k : Nat) (x : Option α) : Option (MatchData α) :=
  if k < v.length then some (v.set k x) else none

theorem aset_length {v w : MatchData α} {k : Nat} {x : Option α} (h : v.aset k x = some w) :
    w.length = v.length := by
  rw [aset] at h
  split at h
  · rw [← Option.some.inj h, List.length_set]
  · cases h

end MatchData

section Fix
variable {α : Type}

def e20Max (groups : List (Option Nat)) : Nat :=
  groups.foldl (fun max g => g.getD max) 0

def e20FixLoop (md : MatchData α) : Nat → List (Option Nat) → MatchData α → Option (MatchData α)
  | _, [], out => some out
  | k, none :: groups, out => e20FixLoop md (k + 1) groups out
  | k, some g :: groups, out => do
    let out ← out.aset (2 * g) (md.nth (2 * k))
    let out ← out.aset (2 * g + 1) (md.nth (2 * k + 1))
    e20FixLoop md (k + 1) groups out

def e20FixMatchData (groups : List (Option Nat)) (md : MatchData α) : Option (MatchData α) := do
  let out : MatchData α := List.replicate (2 * (e20Max groups + 1)) none
  let out ← out.aset 0 (md.nth 0)
  let out ← out.aset 1 (md.nth 1)
  e20FixLoop md 1 groups out

theorem e20FixLoop_length {md out out' : MatchData α} {k : Nat}
    {groups : List (Option Nat)} (h : e20FixLoop md k groups out = some out') :
    out'.length = out.length := by
  induction groups generalizing k out with
  | nil => rw [Option.some.inj h]
  | cons g groups ih =>
    cases g with
    | none => exact ih h
    | some g =>
      simp only [e20FixLoop, Option.bind_eq_bind, Option.bind_eq_some_iff] at h
      obtain ⟨v, hv, w, hw, h⟩ := h
      rw [ih h, MatchData.aset_length hw, MatchData.aset_length hv]

theorem e20FixMatchData_length {md md' : MatchData α} {groups : List (Option Nat)}
    (h : e20FixMatchData groups md = some md') : md'.length = 2 * (e20Max groups + 1) := by
  simp only [e20FixMatchData, Option.bind_eq_bind, Option.bind_eq_some_iff] at h
  obtain ⟨v, hv, w, hw, h⟩ := h
  rw [e20FixLoop_length h, MatchData.aset_length hw, MatchData.aset_length hv,
    List.length_replicate]

end Fix

/-- A shy group, an interval or a symbol boundary somewhere in the text. -/
def usesNew : List Char → Bool
  | [] => false
  | c :: t =>
    (c = '\\' && (t.take 3 = ['(', '?', ':'] || t.take 1 = ['{'] || t.take 2 = ['_', '<'] ||
      t.take 2 = ['_', '>'])) || usesNew t

def e20NeedsTranslation (fold : Bool) (re : List Char) : Bool := usesNew re || namesClass fold re

/-- The advice around `search`, which gives the match data of a successful search; the outer
`none` is an error. -/
def e20Advise {α : Type} (fold : Bool) (search : List Char → Option (MatchData α))
    (re : List Char) : Option (Option (MatchData α)) :=
  if e20NeedsTranslation fold re then
    match e20Translate fold re with
    | none => none
    | some (out, groups) => match search out with
      | none => some none
      | some md => (e20FixMatchData groups md).map some
  else some (search re)

/-! ### What a part of the regexp uses, the regexp uses -/

theorem usesNew_append_left (v : List Char) {u : List Char} (h : usesNew u = true) :
    usesNew (v ++ u) = true := by
  induction v with
  | nil => exact h
  | cons c v ih => simp [usesNew, ih]

theorem take_append_of_eq {n : Nat} {u w : List Char} (h : u.take n = w) (hw : w.length = n)
    (v : List Char) : (u ++ v).take n = w := by
  have hle : n ≤ u.length := by
    have hlen := congrArg List.length h
    rw [List.length_take, hw] at hlen
    omega
  rw [List.take_append_of_le_length hle, h]

theorem usesNew_append_right {u : List Char} (h : usesNew u = true) (v : List Char) :
    usesNew (u ++ v) = true := by
  induction u with
  | nil => exact nomatch h
  | cons c u ih =>
    simp only [usesNew, Bool.or_eq_true, Bool.and_eq_true, decide_eq_true_eq, List.cons_append] at h ⊢
    cases h with
    | inr h => exact Or.inr (ih h)
    | inl h =>
      refine Or.inl ⟨h.1, ?_⟩
      obtain ((h | h) | h) | h := h.2
      · exact Or.inl (Or.inl (Or.inl (take_append_of_eq h rfl v)))
      · exact Or.inl (Or.inl (Or.inr (take_append_of_eq h rfl v)))
      · exact Or.inl (Or.inr (take_append_of_eq h rfl v))
      · exact Or.inr (take_append_of_eq h rfl v)

theorem namesClass_append_left {fold : Bool} (v : List Char) {u : List Char}
    (h : namesClass fold u = true) : namesClass fold (v ++ u) = true := by
  induction v with
  | nil => exact h
  | cons c v ih => simp [namesClass, ih]

theorem namesClass_append_right {fold : Bool} {u : List Char} (h : namesClass fold u = true)
    (v : List Char) : namesClass fold (u ++ v) = true := by
  induction u with
  | nil => exact nomatch h
  | cons c u ih =>
    simp only [namesClass, Bool.or_eq_true, Bool.and_eq_true, decide_eq_true_eq, List.cons_append]
      at h ⊢
    cases h with
    | inr h => exact Or.inr (ih h)
    | inl h =>
      obtain ⟨⟨⟨hopen, hcolon⟩, hname⟩, hclose⟩ := h
      cases u with
      | nil => exact nomatch hcolon
      | cons k w =>
        simp only [List.tail_cons] at hname hclose
        -- the name ends inside `w`, at the `:]`
        have hdrop : w.dropWhile (classLetter fold) ≠ [] := by
          intro hnil
          rw [hnil] at hclose
          exact nomatch hclose
        have htake : (w ++ v).takeWhile (classLetter fold) = w.takeWhile (classLetter fold) := by
          rw [List.takeWhile_append, if_neg]
          intro hlen
          have hall := List.takeWhile_append_dropWhile (p := classLetter fold) (l := w)
          have hsum := congrArg List.length hall
          rw [List.length_append] at hsum
          exact hdrop (List.eq_nil_of_length_eq_zero (by omega))
        have hrest : (w ++ v).dropWhile (classLetter fold) =
            w.dropWhile (classLetter fold) ++ v := by
          rw [List.dropWhile_append, if_neg (by simpa using hdrop)]
        refine Or.inl ⟨⟨⟨hopen, hcolon⟩, ?_⟩, ?_⟩
        · simpa only [List.cons_append, List.tail_cons, htake] using hname
        · simp only [List.cons_append, List.tail_cons, hrest]
          exact take_append_of_eq hclose rfl v

theorem needs_append_left {fold : Bool} (v : List Char) {u : List Char}
    (h : e20NeedsTranslation fold u = true) : e20NeedsTranslation fold (v ++ u) = true := by
  simp only [e20NeedsTranslation, Bool.or_eq_true] at h ⊢
  exact h.imp (usesNew_append_left v) (namesClass_append_left v)

theorem needs_append_right {fold : Bool} {u : List Char}
    (h : e20NeedsTranslation fold u = true) (v : List Char) :
    e20NeedsTranslation fold (u ++ v) = true := by
  simp only [e20NeedsTranslation, Bool.or_eq_true] at h ⊢
  exact h.imp (fun h => usesNew_append_right h v) fun h => namesClass_append_right h v

theorem needs_append_false {fold : Bool} {u v : List Char}
    (h : e20NeedsTranslation fold (u ++ v) = false) :
    e20NeedsTranslation fold u = false ∧ e20NeedsTranslation fold v = false := by
  constructor
  · by_contra hu
    rw [needs_append_right (Bool.not_eq_false _ ▸ hu) v] at h
    cases h
  · by_contra hv
    rw [needs_append_left u (Bool.not_eq_false _ ▸ hv)] at h
    cases h

theorem needs_of_classPath {fold : Bool} {u : List Char} (h : classPath fold u = some true) :
    e20NeedsTranslation fold u = true := by
  unfold classPath at h
  split at h
  · rename_i a b t
    have htest := Option.some.inj h
    split at htest
    · rename_i hclose
      -- the text tested is an initial part of the regexp
      have hprefix : ∃ v, t = t.takeWhile (· ≠ ']') ++ ']' :: v := by
        obtain ⟨as, v, ht, hno⟩ := List.eq_append_cons_of_mem hclose
        have htake : t.takeWhile (· ≠ ']') = as := by
          rw [ht]
          refine takeWhile_until (by decide) ?_ v
          intro c hc
          have hne : c ≠ ']' := fun h => hno (h ▸ hc)
          simpa using hne
        exact ⟨v, by rw [htake]; exact ht⟩
      obtain ⟨v, hv⟩ := hprefix
      have hright := namesClass_append_right htest v
      have htext : a :: b :: (t.takeWhile (· ≠ ']') ++ [']']) ++ v = a :: b :: t := by
        rw [List.cons_append, List.cons_append, List.append_assoc, List.singleton_append, ← hv]
      rw [htext] at hright
      simp [e20NeedsTranslation, hright]
    · exact nomatch htest
  · exact nomatch h

end PkgsrcPatches.Elisp
