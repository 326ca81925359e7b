import PkgsrcPatches.Elisp.Misread
import PkgsrcPatches.Elisp.Numbering
import PkgsrcPatches.Elisp.Stops

/-! The regexps of Emacs 20 that use none of the constructs it lacks, and what the
translation makes of them: an error, or the regexp itself with other bracket expressions
for those that the code takes for ones with a class. -/
namespace PkgsrcPatches.Elisp

/-- `after` is what follows the leaf in its body. -/
def Leaf.OnlyOld (after : List Char) : Leaf → Prop
  | .char _ => True
  | .escape c => c ≠ '{' ∧ (c = '_' → after.head? ≠ some '<' ∧ after.head? ≠ some '>')
  | .coded _ c => c ≠ '\\' ∧ c ≠ '['
  | .bracket b => ItemsUnnamed b.items

instance (after : List Char) : (l : Leaf) → Decidable (l.OnlyOld after)
  | .char _ => isTrue trivial
  | .escape _ => inferInstanceAs (Decidable (_ ∧ (_ → _ ∧ _)))
  | .coded _ _ => inferInstanceAs (Decidable (_ ∧ _))
  | .bracket b => inferInstanceAs (Decidable (ItemsUnnamed b.items))

namespace Regexp

/-- No shy group, interval, character class or symbol boundary; no syntax or category code of a
backslash or a bracket. -/
def OnlyOld : Regexp → Prop
  | nil => True
  | leaf l s rest => l.OnlyOld (s.text ++ rest.text) ∧ rest.OnlyOld
  | group _ body _ rest => body.text.take 2 ≠ ['?', ':'] ∧ body.OnlyOld ∧ rest.OnlyOld
  | bar rest => rest.OnlyOld

instance decidableOnlyOld : (r : Regexp) → Decidable r.OnlyOld
  | nil => isTrue trivial
  | leaf _ _ rest =>
    have := decidableOnlyOld rest
    inferInstanceAs (Decidable (_ ∧ _))
  | group _ body _ rest =>
    have := decidableOnlyOld body
    have := decidableOnlyOld rest
    inferInstanceAs (Decidable (_ ∧ _ ∧ _))
  | bar rest => decidableOnlyOld rest

/-- A back-reference is to a group that opens before it, `n` of them before the body. -/
def RefsOpened : Nat → Regexp → Prop
  | _, nil => True
  | n, leaf l _ rest => (∀ k ∈ l.refs, k ≤ n) ∧ rest.RefsOpened n
  | n, group k body _ rest =>
    body.RefsOpened (n + k.captures) ∧ rest.RefsOpened (n + k.captures + body.captures)
  | n, bar rest => rest.RefsOpened n

instance decidableRefsOpened : (n : Nat) → (r : Regexp) → Decidable (r.RefsOpened n)
  | _, nil => isTrue trivial
  | n, leaf _ _ rest =>
    have := decidableRefsOpened n rest
    inferInstanceAs (Decidable (_ ∧ _))
  | n, group k body _ rest =>
    have := decidableRefsOpened (n + k.captures) body
    have := decidableRefsOpened (n + k.captures + body.captures) rest
    inferInstanceAs (Decidable (_ ∧ _))
  | n, bar rest => decidableRefsOpened n rest

/-- A well-formed regexp of Emacs 20 without the constructs of Emacs 21. -/
structure Old (r : Regexp) : Prop where
  wf : r.Wf .emacs20 .first
  onlyOld : r.OnlyOld
  refs : r.RefsOpened 0

/-- Where the code finds a class, no `[` stands before a colon. -/
def ColonFree (fold : Bool) (r : Regexp) : Prop :=
  ∀ b ∈ r.brackets, b.OnClassPath fold → ItemsKnown b.items

instance (fold : Bool) (r : Regexp) : Decidable (r.ColonFree fold) :=
  inferInstanceAs (Decidable (∀ b ∈ r.brackets, _ → _))

theorem refs_le {n : Nat} {r : Regexp} (h : r.RefsOpened n) : ∀ k ∈ r.refs, k ≤ n + r.captures := by
  induction r generalizing n with
  | nil => exact fun k hk => by cases hk
  | leaf l s rest ih =>
    intro k hk
    cases List.mem_append.mp hk with
    | inr hk => exact ih h.2 k hk
    | inl hk =>
      split at hk
      · cases hk
      · exact Nat.le_add_right_of_le (h.1 k hk)
  | group kind body s rest ihbody ih =>
    intro k hk
    rw [captures]
    cases List.mem_append.mp hk with
    | inr hk =>
      have hle := ih h.2 k hk
      omega
    | inl hk =>
      split at hk
      · cases hk
      · have hle := ihbody h.1 k hk
        omega
  | bar rest ih => exact ih h

theorem OnlyOld.noneNew {r : Regexp} (h : r.OnlyOld) : r.NoneNew := by
  induction r with
  | nil => trivial
  | leaf l s rest ih =>
    refine ⟨?_, ih h.2⟩
    intro hl
    have hold := h.1
    rw [hl] at hold
    exact hold.1 rfl
  | group k body s rest ihbody ih => exact ⟨fun _ => h.1, ihbody h.2.1, ih h.2.2⟩
  | bar rest ih => exact ih h

end Regexp

theorem Suffix.not_interval {s : Suffix} (h : s.Wf .emacs20) : ¬s.IsInterval := by
  cases s with
  | ops o => exact id
  | interval i => cases h

section Translation
variable {fold : Bool}

theorem Leaf.tracked_iff {l : Leaf} {ctx : Ctx} {s : Suffix} {after : List Char}
    (hl : l.Wf .emacs20 ctx) (hs : s.Wf .emacs20) (hold : l.OnlyOld after) :
    l.Tracked fold s after ↔ ∀ b ∈ l.brackets, b.OnClassPath fold → ItemsKnown b.items := by
  cases l with
  | char c => exact iff_of_true trivial fun b hb => by cases hb
  | escape c => exact iff_of_true hold.2 fun b hb => by cases hb
  | coded k c =>
    refine iff_of_true ⟨hold.1, hold.2, fun h => (Suffix.not_interval hs h).elim⟩ fun b hb => by cases hb
  | bracket b =>
    have hno := wf20_noClass hl.1
    by_cases hpath : b.OnClassPath fold
    · simp [Leaf.Tracked, Leaf.brackets, hpath]
    · rw [Leaf.Tracked, if_neg hpath]
      refine iff_of_true hno fun a ha h => ?_
      rw [List.mem_singleton.mp ha] at h
      exact (hpath h).elim

theorem Regexp.tracked_iff {r : Regexp} {ctx : Ctx} (hwf : r.Wf .emacs20 ctx) (hold : r.OnlyOld) :
    r.Tracked fold ↔ r.ColonFree fold := by
  induction r generalizing ctx with
  | nil => exact iff_of_true trivial fun b hb => by cases hb
  | leaf l s rest ih =>
    obtain ⟨hl, hs, -, hrest⟩ := hwf
    rw [Regexp.Tracked, Leaf.tracked_iff hl hs hold.1, ih hrest hold.2]
    simp only [ColonFree, brackets, List.mem_append, or_imp, forall_and]
  | group k body s rest ihbody ih =>
    obtain ⟨-, hbody, hs, hrest⟩ := hwf
    have hone := Suffix.not_interval hs
    rw [Regexp.Tracked, ihbody hbody hold.2.1, ih hrest hold.2.2]
    simp only [ColonFree, brackets, List.mem_append, or_imp, forall_and, hone, false_imp_iff,
      true_and]
  | bar rest ih => exact ih hwf hold

/-! ### The translation fails -/

theorem runs_fails (r : Regexp) {ctx : Ctx} (hwf : r.Wf .emacs20 ctx) (hold : r.OnlyOld)
    (hno : ¬r.Tracked fold) {t : Translation} (ht : t.Bounded) {x : List Char} (hx : Closes x) :
    Fails fold (t, r.text ++ x) := by
  induction r generalizing ctx t x with
  | nil => exact (hno trivial).elim
  | leaf l s rest ih =>
    obtain ⟨hl, hs, -, hrest⟩ := hwf
    rw [Regexp.text, List.append_assoc, List.append_assoc]
    by_cases htl : l.Tracked fold s (s.text ++ rest.text)
    · obtain ⟨t₁, hruns, hafter⟩ := runs_leaf hl htl (Regexp.OnlyOld.noneNew hold).1 ht
        (angle_of_closes s.text rest.text hx)
      exact hruns.fails (ih hrest hold.2 (fun h => hno ⟨htl, h⟩) hafter.bounded hx)
    · rw [Leaf.tracked_iff hl hs hold.1] at htl
      simp only [not_forall] at htl
      obtain ⟨b, hb, hpath, hunknown⟩ := htl
      cases l with
      | bracket c =>
        obtain rfl := List.mem_singleton.mp hb
        exact fails_unknown hl hold.1 hpath hunknown t _
      | char c => cases hb
      | escape c => cases hb
      | coded k c => cases hb
  | group k body s rest ihbody ih =>
    obtain ⟨-, hbody, hs, hrest⟩ := hwf
    obtain ⟨hopen, hobody, horest⟩ := hold
    have hstart := Translation.after_open ht k
    have hstep := step_open fold t k (fun _ => hopen) (')' :: (s.text ++ (rest.text ++ x)))
    have htext : (Regexp.group k body s rest).text ++ x =
        k.text ++ (body.text ++ '\\' :: ')' :: (s.text ++ (rest.text ++ x))) := by
      simp [Regexp.text]
    rw [htext]
    by_cases htb : body.Tracked fold
    · obtain ⟨tb, hruns, hafter⟩ := runs_regexp body hbody htb (Regexp.OnlyOld.noneNew hobody)
        hstart.bounded (Or.inr ⟨s.text ++ (rest.text ++ x), rfl⟩)
      obtain ⟨t₁, hgroup, hafter₁⟩ := runs_group (fun _ => hopen) ht hruns hafter
        fun h => (Suffix.not_interval hs h).elim
      exact hgroup.fails (ih hrest horest
        (fun h => hno ⟨htb, fun h' => (Suffix.not_interval hs h').elim, h⟩) hafter₁.bounded hx)
    · exact Runs.fails (.step hstep .refl) (ihbody hbody hobody htb hstart.bounded
        (Or.inr ⟨s.text ++ (rest.text ++ x), rfl⟩))
  | bar rest ih =>
    have hbar := Translation.after_atom ht (List.cons_ne_nil '\\' ['|']) []
    exact Runs.fails (.step (step_bar fold t _) .refl) (ih hwf hold hno hbar.bounded hx)

theorem Regexp.Old.translate_none {r : Regexp} (hr : r.Old) (hno : ¬r.ColonFree fold) :
    e20Translate fold r.text = none := by
  rw [← Regexp.tracked_iff hr.wf hr.onlyOld] at hno
  have hfails := runs_fails r hr.wf hr.onlyOld hno start_bounded (Or.inl rfl)
  rw [List.append_nil] at hfails
  exact hfails.translate

/-! ### The translation is the regexp recast -/

variable (fold) in
def Bracket.readAs (b : Bracket) : List Bracket := if b.OnClassPath fold then b.asRead else [b]

theorem unroll_recast {r : Regexp} {ctx : Ctx} (hwf : r.Wf .emacs20 ctx) :
    (r.unroll fold).text = (r.recast (Bracket.readAs fold)).text := by
  induction r generalizing ctx with
  | nil => rfl
  | leaf l s rest ih =>
    obtain ⟨-, hs, -, hrest⟩ := hwf
    rw [Regexp.unroll, spread_text (emit_text fold l), ih hrest]
    cases s with
    | interval i => cases hs
    | ops o =>
      rw [Suffix.written, List.append_assoc]
      cases l with
      | bracket b =>
        rw [Regexp.recast, Leaf.recast, joined_text, Leaf.copyText, Bracket.readAs]
        split
        · rw [b.asRead_text]
        · rfl
      | char c => rfl
      | escape c => rfl
      | coded k c => rfl
  | group k body s rest ihbody ih =>
    obtain ⟨hk, hbody, hs, hrest⟩ := hwf
    rw [Regexp.unroll, spread_text (groupCopy_text _), ihbody hbody, ih hrest]
    cases s with
    | interval i => cases hs
    | ops o =>
      cases k with
      | capturing => simp [Regexp.recast, Regexp.text, Suffix.written, Kind.text, Suffix.text]
      | shy => cases hk
  | bar rest ih => rw [Regexp.unroll, Regexp.recast, Regexp.text, Regexp.text, ih hwf]

theorem e20Joined_group (l : List (List Char)) : (e20Joined l).2 = true ↔ 2 ≤ l.length := by
  match l with
  | [] => exact iff_of_false (fun h => by cases h) (by simp)
  | [a] => exact iff_of_false (fun h => by cases h) (by simp)
  | a :: b :: l => exact iff_of_true rfl (by simp)

theorem openers_marks {r : Regexp} {ctx : Ctx} (hwf : r.Wf .emacs20 ctx) :
    (r.openers fold).map (fun o => decide (o = .capturing)) = r.marks (Bracket.readAs fold) := by
  induction r generalizing ctx with
  | nil => rfl
  | leaf l s rest ih =>
    rw [Regexp.openers, List.map_append, ih hwf.2.2.2, Regexp.marks]
    refine congrArg (· ++ _) ?_
    cases l with
    | bracket b =>
      have hlen : (b.alts.map Bracket.text).length = b.asRead.length := by
        rw [← b.asRead_text, List.length_map]
      simp only [Leaf.openers, Leaf.opens, Leaf.marks, Bracket.readAs, e20Joined_group, hlen]
      by_cases hpath : b.OnClassPath fold
      · by_cases htwo : 2 ≤ b.asRead.length <;> simp [hpath, htwo]
      · simp [hpath]
    | char c => rfl
    | escape c => rfl
    | coded k c => rfl
  | group k body s rest ihbody ih =>
    obtain ⟨hk, hbody, -, hrest⟩ := hwf
    cases k with
    | capturing =>
      rw [Regexp.openers, List.map_cons, List.map_append, ihbody hbody, ih hrest]
      rfl
    | shy => cases hk
  | bar rest ih => exact ih hwf

theorem groupAt_split {r : Regexp} (hwf : r.Wf .emacs20 .first) {pre post : List Opener}
    (hops : r.openers fold = pre ++ .capturing :: post) :
    r.GroupAt (Bracket.readAs fold) (captured pre + 1) (pre.length + 1) := by
  have hmarks : (r.openers fold).map _ = _ := openers_marks hwf
  rw [hops, List.map_append] at hmarks
  refine Or.inr ⟨_, _, hmarks.symm, ?_, by rw [List.length_map]⟩
  rw [captured, List.count, List.count, List.countP_map]
  congr 2
  funext o
  cases o <;> rfl

/-- What is put in the place of bracket expressions means the same: each stands for the same
characters, and in front of a group that is referred to none is put out that is not there. -/
structure Regexp.SameMeaning (fold : Bool) (canon : Char → Char) (r : Regexp) : Prop where
  sets : ∀ b ∈ r.brackets, b.OnClassPath fold → b.SameSet canon
  refs : ∀ n ∈ r.refs, ∀ pre post, r.openers fold = pre ++ .capturing :: post →
    captured pre + 1 = n → pre.length = captured pre

theorem Regexp.Old.recasts {r : Regexp} {canon : Char → Char} (hr : r.Old)
    (hfree : r.ColonFree fold) (hsame : r.SameMeaning fold canon) :
    r.Recasts canon (Bracket.readAs fold) where
  nonempty b hb := by
    have hwf := brackets_wf hr.wf b hb
    rw [Bracket.readAs]
    split
    · exact Bracket.asRead_ne_nil hwf (Bracket.colon_of_onClassPath hwf ‹_›)
    · exact List.cons_ne_nil _ _
  wf b hb := by
    have hwf := brackets_wf hr.wf b hb
    rw [Bracket.readAs]
    split
    · rename_i hpath
      have hwf' : b.Wf .emacs21 := ⟨itemsWf_known hwf.1 (hfree b hb hpath), hwf.2⟩
      have hcolon := Bracket.colon_of_onClassPath hwf hpath
      exact hwf'.asRead_wf ((hsame.sets b hb hpath).caretPlaced hcolon)
    · exact fun a ha => List.mem_singleton.mp ha ▸ hwf
  same b hb x := by
    have hwf := brackets_wf hr.wf b hb
    rw [Bracket.readAs]
    split
    · rename_i hpath
      have hwf' : b.Wf .emacs21 := ⟨itemsWf_known hwf.1 (hfree b hb hpath), hwf.2⟩
      exact Bracket.asRead_holdsBy hwf hwf' (hsame.sets b hb hpath)
    · simp
  refs n hn := by
    have hle := Regexp.refs_le hr.refs n hn
    rw [Nat.zero_add, ← captures_eq fold] at hle
    obtain ⟨pre, post, hops, hcount⟩ := exists_split (refs_pos hn) hle
    have hat := groupAt_split hr.wf hops
    rwa [hsame.refs n hn pre post hops hcount, hcount] at hat

end Translation
end PkgsrcPatches.Elisp
