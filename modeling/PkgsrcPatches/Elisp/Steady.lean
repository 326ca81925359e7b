import PkgsrcPatches.Elisp.Misread

/-! For which regexps the copies read as their original: the unrolled tree is one of Emacs 20
and matches what the regexp does. -/
namespace PkgsrcPatches.Elisp
open Lib.Kleene

namespace Suffix

def Bare : Suffix → Prop
  | ops o => o = []
  | interval i => i.hi = some i.lo

instance : (s : Suffix) → Decidable s.Bare
  | ops _ => inferInstanceAs (Decidable (_ = _))
  | interval _ => inferInstanceAs (Decidable (_ = _))

def Agrees : Suffix → Prop
  | ops o => Dialect.emacs20.flags o = Dialect.emacs21.flags o
  | interval _ => True

instance : (s : Suffix) → Decidable s.Agrees
  | ops _ => inferInstanceAs (Decidable (_ = _))
  | interval _ => isTrue trivial

end Suffix

theorem itemsKnown_class {items : List Item} (h : ItemsKnown items) {name : List Char}
    (hmem : .cls name ∈ items) : e20Class name ≠ none := by
  induction items with
  | nil => cases hmem
  | cons i items ih =>
    obtain ⟨hi, hrest⟩ := (itemsKnown_cons i items).mp h
    cases List.mem_cons.mp hmem with
    | inl heq =>
      subst heq
      exact hi
    | inr hmem => exact ih hrest hmem

theorem Bracket.plain_of_onClassPath {fold : Bool} {b : Bracket} (hwf : b.Wf .emacs21)
    (hknown : ItemsKnown b.items) (hpath : b.OnClassPath fold) (hall : ¬b.AllBeyond) :
    ∃ x : Char, x.toNat < 128 ∧ Plain x.toNat ∧ b.Near x := by
  by_cases hclass : ∃ name, .cls name ∈ b.items
  · have hb : b.OfClasses := ⟨hwf, fun name hname => itemsKnown_class hknown hname, hclass⟩
    exact hb.plain_near hall
  · have hno : ∀ i ∈ b.items, ¬i.IsClass := by
      intro i hi hcls
      cases i with
      | cls name => exact hclass ⟨name, hi⟩
      | char c => exact hcls
      | range a c => exact hcls
    have hcolon := Bracket.colon_of_onClassPath ⟨itemsWf_noClass hwf.1 hno, hwf.2⟩ hpath
    exact ⟨':', by decide, by decide, .char ':', hcolon, by decide, rfl⟩

theorem Bracket.Right.asRead {fold : Bool} {b : Bracket} (h : b.Right) (hwf : b.Wf .emacs21)
    (hpath : b.OnClassPath fold) : b.asRead ≠ [] ∧ (∀ a ∈ b.asRead, a.Wf .emacs20) ∧
      ∀ x, (∃ a ∈ b.asRead, a.holds e20Meaning x) ↔ b.holds e20Meaning x := by
  have hsame := hwf.asRead_iff.mpr h.far
  have hcaret := (Bracket.caretPlaced_iff
    (Bracket.plain_of_onClassPath hwf h.known hpath) h.far).mpr h.caret
  refine ⟨?_, hwf.asRead_wf hcaret, hsame⟩
  obtain ⟨x, hx⟩ := h.inhabited
  obtain ⟨a, ha, -⟩ := (hsame x).mpr hx
  exact List.ne_nil_of_mem ha

/-- Only pieces that vanish are left in the branch. -/
def Regexp.Ends : Regexp → Prop
  | nil => True
  | leaf _ s rest => s.copies = 0 ∧ rest.Ends
  | group _ _ s rest => s.copies = 0 ∧ rest.Ends
  | bar _ => True

instance Regexp.decidableEnds : (r : Regexp) → Decidable r.Ends
  | nil => isTrue trivial
  | leaf _ _ rest =>
    have := decidableEnds rest
    inferInstanceAs (Decidable (_ ∧ _))
  | group _ _ _ rest =>
    have := decidableEnds rest
    inferInstanceAs (Decidable (_ ∧ _))
  | bar _ => isTrue trivial

/-- The copies of the leaf read as the leaf does. A `^` must not come to the start of its
branch, a `$` not to the end, and a literal operator stands only where nothing precedes it. -/
def Leaf.Steady (fold : Bool) (c20 c21 : Ctx) (s : Suffix) (rest : Regexp) : Leaf → Prop
  | .char c =>
    (c = '^' → (c20 = .first ↔ c21 = .first)) ∧
      (c = '$' → s.Bare → (rest.Ends ↔ s = .ops [] ∧ rest.AtEnd)) ∧
      (postOp? c ≠ none → s.copies ≤ 1)
  | .bracket b => if b.OnClassPath fold then b.Right else ∀ i ∈ b.items, ¬i.IsClass
  | _ => True

/-- `c20` and `c21` are where the piece stands in the translation and in the original. -/
def Regexp.Steady (fold : Bool) : Ctx → Ctx → Regexp → Prop
  | _, _, nil => True
  | c20, c21, leaf l s rest =>
    s.Agrees ∧ (0 < s.copies → l.Steady fold c20 c21 s rest) ∧
      rest.Steady fold (if s.copies = 0 then c20 else c20.next l) (c21.next l)
  | c20, _, group _ body s rest =>
    s.Agrees ∧ body.Steady fold .first .first ∧
      rest.Steady fold (if s.copies = 0 then c20 else .inner) .inner
  | _, _, bar rest => rest.Steady fold .first .first

def Bracket.classes (b : Bracket) : List (List Char) :=
  b.items.filterMap fun i => match i with
    | .cls name => some name
    | _ => none

def Leaf.classes : Leaf → List (List Char)
  | .bracket b => b.classes
  | _ => []

def Regexp.classes : Regexp → List (List Char)
  | nil => []
  | leaf l _ rest => l.classes ++ rest.classes
  | group _ body _ rest => body.classes ++ rest.classes
  | bar rest => rest.classes

section Language
variable {P : Type} (M : Engine P)

def Engine.Knows (names : List (List Char)) : Prop :=
  ∀ name ∈ names, ∀ x, M.cls name x ↔ e20Meaning name x

/-- `f` makes one copy of an atom that matches `a`, in the places `G`. -/
structure CopyOf (f : List PostOp → Regexp → Regexp) (a : Steps P) (G : Ctx → Prop)
    (dollar : Prop) : Prop where
  not_end : ∀ o r, ¬(f o r).AtEnd
  inner : G .inner
  denote : ∀ o r ctx acc, G ctx → (dollar → o ≠ [] ∨ ¬r.AtEnd) →
    (f o r).denote M .emacs20 ctx acc =
      r.denote M .emacs20 .inner (acc * repeated (Dialect.emacs20.flags o) a)

namespace CopyOf
variable {M} {f : List PostOp → Regexp → Regexp} {a : Steps P} {G : Ctx → Prop} {dollar : Prop}

theorem iterate_not_end (h : CopyOf M f a G dollar) (o : List PostOp) {n : Nat} (hn : 0 < n)
    (r : Regexp) : ¬((f o)^[n] r).AtEnd := by
  obtain ⟨m, rfl⟩ := Nat.exists_eq_add_of_lt hn
  rw [Nat.zero_add, Function.iterate_succ_apply']
  exact h.not_end _ _

theorem iterate_denote (h : CopyOf M f a G dollar) (o : List PostOp) (n : Nat) (r : Regexp)
    (ctx : Ctx) (acc : Steps P) (hctx : G ctx) (hlast : dollar → 0 < n → o ≠ [] ∨ ¬r.AtEnd) :
    ((f o)^[n] r).denote M .emacs20 ctx acc =
      r.denote M .emacs20 (if n = 0 then ctx else .inner)
        (acc * repeated (Dialect.emacs20.flags o) a ^ n) := by
  induction n generalizing ctx acc with
  | zero => simp
  | succ n ih =>
    rw [Function.iterate_succ_apply']
    have hstep : dollar → o ≠ [] ∨ ¬((f o)^[n] r).AtEnd := by
      intro hd
      cases n with
      | zero => exact hlast hd Nat.one_pos
      | succ n => exact Or.inr (h.iterate_not_end o (Nat.succ_pos n) r)
    rw [h.denote _ _ ctx acc hctx hstep, ih _ _ h.inner fun hd hn => hlast hd (Nat.succ_pos n)]
    simp only [ite_self, Nat.succ_ne_zero, if_false, mul_assoc, pow_succ']

theorem interval_denote (h : CopyOf M f a G dollar) (i : Interval) (rest : Regexp) (ctx : Ctx)
    (acc : Steps P) (hctx : G ctx)
    (hlast : dollar → (Suffix.interval i).Bare → 0 < (Suffix.interval i).copies → ¬rest.AtEnd) :
    ((Suffix.interval i).spread f rest).denote M .emacs20 ctx acc =
      rest.denote M .emacs20 (if (Suffix.interval i).copies = 0 then ctx else .inner)
        (acc * (Suffix.interval i).denote .emacs21 a) := by
  have hmid : G (if i.lo = 0 then ctx else .inner) := by
    split
    · exact hctx
    · exact h.inner
  cases hhi : i.hi with
  | none =>
    simp only [Suffix.spread, Suffix.denote, Suffix.copies, hhi]
    rw [h.iterate_denote [] _ _ _ _ hctx fun _ _ => Or.inr (h.not_end _ _)]
    rw [h.denote _ _ _ _ hmid fun _ => Or.inl (List.cons_ne_nil _ _)]
    simp only [Nat.succ_ne_zero, if_false, mul_assoc]
    rfl
  | some m =>
    have hle := Interval.lo_le_hi hhi
    have hinner : dollar → 0 < i.lo → ([] : List PostOp) ≠ [] ∨ ¬((f [.opt])^[m - i.lo] rest).AtEnd := by
      intro hd hlo
      by_cases hm : 0 < m - i.lo
      · exact Or.inr (h.iterate_not_end _ hm _)
      · have hzero : m - i.lo = 0 := Nat.eq_zero_of_not_pos hm
        have heq : m = i.lo := by omega
        rw [hzero]
        refine Or.inr (hlast hd ?_ ?_)
        · rw [Suffix.Bare, hhi, heq]
        · rw [Suffix.copies, hhi]
          exact heq ▸ hlo
    simp only [Suffix.spread, Suffix.denote, Suffix.copies, hhi]
    rw [h.iterate_denote [] _ _ _ _ hctx hinner,
      h.iterate_denote [.opt] _ _ _ _ hmid fun _ _ => Or.inl (List.cons_ne_nil _ _)]
    have hflags : repeated (Dialect.emacs20.flags []) a = a := rfl
    have hflags' : repeated (Dialect.emacs20.flags [.opt]) a = 1 + a := rfl
    have hctx' : (if m - i.lo = 0 then (if i.lo = 0 then ctx else .inner) else Ctx.inner) =
        if m = 0 then ctx else .inner := by
      split
      · split
        · rw [if_pos (by omega)]
        · rw [if_neg (by omega)]
      · rw [if_neg (by omega)]
    rw [hflags, hflags', hctx', between_eq a hle, mul_assoc]

end CopyOf
theorem bracket_holds_congr {b : Bracket} (hM : M.Knows b.classes) (x : Char) :
    b.holds M.cls x ↔ b.holds e20Meaning x := by
  have hitem : ∀ i ∈ b.items, (i.holds M.cls x ↔ i.holds e20Meaning x) := by
    intro i hi
    cases i with
    | char c => exact Iff.rfl
    | range a c => exact Iff.rfl
    | cls name => exact hM name (List.mem_filterMap.mpr ⟨_, hi, rfl⟩) x
  have hexists : (∃ i ∈ b.items, i.holds M.cls x) ↔ ∃ i ∈ b.items, i.holds e20Meaning x :=
    exists_congr fun i => and_congr_right fun hi => hitem i hi
  simp only [Bracket.holds, hexists]

theorem emit_bracket_denote (fold : Bool) {b : Bracket} (hwf : b.Wf .emacs21)
    (hb : b.OnClassPath fold → b.Right) (hM : M.Knows b.classes) (o : List PostOp) (rest : Regexp)
    (ctx : Ctx) (acc : Steps P) :
    ((Leaf.bracket b).emit fold o rest).denote M .emacs20 ctx acc = rest.denote M .emacs20 .inner
      (acc * repeated (Dialect.emacs20.flags o) (M.oneOf (b.holds M.cls))) := by
  simp only [Leaf.emit]
  split
  · obtain ⟨hne, hread, hsame⟩ := (hb ‹_›).asRead hwf ‹_›
    have hset : M.oneOf (fun c => ∃ a ∈ b.asRead, a.holds M.cls c) = M.oneOf (b.holds M.cls) := by
      rw [oneOf_wf20 M hread]
      exact oneOf_congr M fun c => (hsame c).trans (bracket_holds_congr M hM c).symm
    rw [joined_denote M _ hne, hset]
  · simp only [Regexp.denote, next_bracket, Suffix.denote, Leaf.denote]

theorem emit_not_end (fold : Bool) (l : Leaf) (o : List PostOp) (rest : Regexp) :
    ¬(l.emit fold o rest).AtEnd := by
  cases l with
  | char c => exact id
  | escape c => exact id
  | coded k c => exact id
  | bracket b =>
    simp only [Leaf.emit]
    split
    · exact joined_not_end _ _ _
    · exact id

def Leaf.Carries (fold : Bool) : Leaf → Prop
  | .bracket b => b.Wf .emacs21 ∧ if b.OnClassPath fold then b.Right else ∀ i ∈ b.items, ¬i.IsClass
  | _ => True

theorem Leaf.carries_of_steady {fold : Bool} {c20 c21 : Ctx} {s : Suffix} {rest : Regexp}
    {l : Leaf} (hl : l.Wf .emacs21 c21) (h : l.Steady fold c20 c21 s rest) : l.Carries fold := by
  cases l with
  | bracket b => exact ⟨hl, h⟩
  | char c => trivial
  | escape c => trivial
  | coded k c => trivial

theorem emit_denote {fold : Bool} {l : Leaf} (hl : l.Carries fold) (hM : M.Knows l.classes)
    (o : List PostOp) (rest : Regexp) (ctx : Ctx) (acc : Steps P) :
    (l.emit fold o rest).denote M .emacs20 ctx acc = rest.denote M .emacs20 (ctx.next l)
      (acc * repeated (Dialect.emacs20.flags o)
        (l.denote M ctx (Suffix.ops o = .ops [] ∧ rest.AtEnd))) := by
  cases l with
  | char c => rfl
  | escape c => rfl
  | coded k c => rfl
  | bracket b =>
    have hright : b.OnClassPath fold → b.Right := by
      intro hpath
      have hb := hl.2
      rwa [if_pos hpath] at hb
    rw [emit_bracket_denote M fold hl.1 hright hM, next_bracket]
    rfl

theorem Leaf.copyOf (fold : Bool) (l : Leaf) {c21 : Ctx} (hl : l.Carries fold)
    (hM : M.Knows l.classes) (hcaret : l = .char '^' → c21 ≠ .first) :
    CopyOf M (l.emit fold) (l.denote M c21 False) (fun ctx => l = .char '^' → ctx ≠ .first)
      (l = .char '$') := by
  refine ⟨emit_not_end fold l, fun _ => Ctx.noConfusion, ?_⟩
  intro o r ctx acc hctx hlast
  have hnext : ctx.next l = .inner := if_neg fun h => hctx h.2 h.1
  have hcopy : l.denote M ctx (Suffix.ops o = .ops [] ∧ r.AtEnd) = l.denote M c21 False := by
    refine l.denote_congr M (fun h => iff_of_false (hctx h) (hcaret h)) fun h => ?_
    refine iff_of_false (fun hend => ?_) id
    cases hlast h with
    | inl ho => exact ho (by simpa using hend.1)
    | inr hr => exact hr hend.2
  rw [emit_denote M hl hM, hnext, hcopy]

theorem groupCopy_copyOf (body : Regexp) :
    CopyOf M (groupCopy body) (body.denote M .emacs20 .first 1) (fun _ => True) False := by
  refine ⟨fun _ _ => id, trivial, ?_⟩
  intro o r ctx acc _ _
  rfl

theorem iterate_at_end {f : Regexp → Regexp} (hf : ∀ r, ¬(f r).AtEnd) (n : Nat) (r : Regexp) :
    (f^[n] r).AtEnd ↔ n = 0 ∧ r.AtEnd := by
  cases n with
  | zero => simp
  | succ n =>
    rw [Function.iterate_succ_apply']
    exact iff_of_false (hf _) fun h => Nat.succ_ne_zero n h.1

theorem spread_at_end {f : List PostOp → Regexp → Regexp} (hf : ∀ o r, ¬(f o r).AtEnd)
    (s : Suffix) (rest : Regexp) : (s.spread f rest).AtEnd ↔ s.copies = 0 ∧ rest.AtEnd := by
  cases s with
  | ops o => exact iff_of_false (hf _ _) fun h => nomatch h.1
  | interval i =>
    simp only [Suffix.spread, Suffix.copies]
    rw [iterate_at_end (hf [])]
    cases hhi : i.hi with
    | none => exact iff_of_false (fun h => hf _ _ h.2) fun h => Nat.succ_ne_zero _ h.1
    | some h =>
      have hle := Interval.lo_le_hi hhi
      simp only
      rw [iterate_at_end (hf [.opt]), ← and_assoc]
      exact and_congr_left fun _ => by omega

theorem ends_iff (fold : Bool) (r : Regexp) : (r.unroll fold).AtEnd ↔ r.Ends := by
  induction r with
  | nil => exact Iff.rfl
  | leaf l s rest ih =>
    rw [Regexp.unroll, spread_at_end (emit_not_end fold l), ih]
    rfl
  | group k body s rest _ ih =>
    rw [Regexp.unroll, spread_at_end fun _ _ => id, ih]
    rfl
  | bar rest _ => exact Iff.rfl

theorem Suffix.absent {s : Suffix} (h : s.copies = 0) :
    ∃ i, s = .interval i ∧ i.lo = 0 ∧ i.hi = some 0 := by
  cases s with
  | ops o => exact (Nat.one_ne_zero h).elim
  | interval i =>
    simp only [Suffix.copies] at h
    cases hhi : i.hi with
    | none =>
      rw [hhi] at h
      exact (Nat.succ_ne_zero _ h).elim
    | some m =>
      rw [hhi] at h
      have hm : m = 0 := h
      subst hm
      exact ⟨i, rfl, Nat.le_zero.mp (Interval.lo_le_hi hhi), hhi⟩

theorem spread_absent (f : List PostOp → Regexp → Regexp) {s : Suffix} (h : s.copies = 0)
    (rest : Regexp) : s.spread f rest = rest := by
  obtain ⟨i, rfl, hlo, hhi⟩ := Suffix.absent h
  simp [Suffix.spread, hlo, hhi]

theorem denote_absent {s : Suffix} (h : s.copies = 0) (d : Dialect) (a : Steps P) :
    s.denote d a = 1 := by
  obtain ⟨i, rfl, hlo, hhi⟩ := Suffix.absent h
  simp [Suffix.denote, hlo, hhi, between]

section Leaves
variable {fold : Bool} {l : Leaf} {rest : Regexp} {c20 c21 : Ctx} (acc : Steps P)

theorem leaf_ops_denote (hl : l.Wf .emacs21 c21) {o : List PostOp} (hagree : (Suffix.ops o).Agrees)
    (hst : l.Steady fold c20 c21 (.ops o) rest) (hM : M.Knows l.classes) :
    (l.emit fold o (rest.unroll fold)).denote M .emacs20 c20 acc =
      (rest.unroll fold).denote M .emacs20 (c20.next l) (acc * (Suffix.ops o).denote .emacs21
        (l.denote M c21 (Suffix.ops o = .ops [] ∧ rest.AtEnd))) := by
  have hflags : Dialect.emacs20.flags o = Dialect.emacs21.flags o := hagree
  have hcopy : l.denote M c20 (Suffix.ops o = .ops [] ∧ (rest.unroll fold).AtEnd) =
      l.denote M c21 (Suffix.ops o = .ops [] ∧ rest.AtEnd) := by
    refine l.denote_congr M (fun h => ?_) fun h => ?_
    · subst h
      exact hst.1 rfl
    · subst h
      refine and_congr_right fun ho => ?_
      rw [ends_iff, hst.2.1 rfl (by simpa [Suffix.Bare] using ho)]
      exact and_iff_right ho
  rw [emit_denote M (Leaf.carries_of_steady hl hst) hM, hcopy, hflags]
  rfl

theorem leaf_interval_denote (hl : l.Wf .emacs21 c21) {i : Interval} (hcopies : (Suffix.interval i).copies ≠ 0)
    (hanchor : ¬c21.anchors l) (hst : l.Steady fold c20 c21 (.interval i) rest)
    (hM : M.Knows l.classes) :
    ((Suffix.interval i).spread (l.emit fold) (rest.unroll fold)).denote M .emacs20 c20 acc =
      (rest.unroll fold).denote M .emacs20 (c20.next l) (acc * (Suffix.interval i).denote .emacs21
        (l.denote M c21 (Suffix.interval i = .ops [] ∧ rest.AtEnd))) := by
  have hcaret : l = .char '^' → c21 ≠ .first := fun h h' => hanchor ⟨h', h⟩
  have hcaret' : l = .char '^' → c20 ≠ .first := by
    intro h h'
    subst h
    exact hcaret rfl ((hst.1 rfl).mp h')
  have hlast : l = .char '$' → (Suffix.interval i).Bare → 0 < (Suffix.interval i).copies →
      ¬(rest.unroll fold).AtEnd := by
    intro h hbare _ hend
    subst h
    have hno := (hst.2.1 rfl hbare).mp ((ends_iff fold rest).mp hend)
    cases hno.1
  have hnext : c20.next l = .inner := if_neg fun h => hcaret' h.2 h.1
  have hcopy : l.denote M c21 False =
      l.denote M c21 (Suffix.interval i = .ops [] ∧ rest.AtEnd) := by
    refine l.denote_congr M (fun _ => Iff.rfl) fun _ => iff_of_false id ?_
    intro h
    cases h.1
  rw [(Leaf.copyOf M fold l (Leaf.carries_of_steady hl hst) hM hcaret).interval_denote i _ c20 acc
    hcaret' hlast, if_neg hcopies, hnext, hcopy]

theorem leaf_denote (hl : l.Wf .emacs21 c21) {s : Suffix} (hanchor : c21.anchors l → s = .ops [])
    (hagree : s.Agrees)
    (hsteady : 0 < s.copies → l.Steady fold c20 c21 s rest) (hM : M.Knows l.classes)
    (hrest : ∀ acc, (rest.unroll fold).denote M .emacs20
        (if s.copies = 0 then c20 else c20.next l) acc =
      rest.denote M .emacs21 (c21.next l) acc) :
    (s.spread (l.emit fold) (rest.unroll fold)).denote M .emacs20 c20 acc =
      rest.denote M .emacs21 (c21.next l)
        (acc * s.denote .emacs21 (l.denote M c21 (s = .ops [] ∧ rest.AtEnd))) := by
  by_cases hcopies : s.copies = 0
  · rw [spread_absent _ hcopies, denote_absent hcopies, mul_one, ← hrest, if_pos hcopies]
  · have hst := hsteady (Nat.pos_of_ne_zero hcopies)
    rw [← hrest, if_neg hcopies]
    cases s with
    | ops o => exact leaf_ops_denote M acc hl hagree hst hM
    | interval i =>
      refine leaf_interval_denote M acc hl hcopies (fun h => ?_) hst hM
      cases hanchor h

end Leaves

variable {fold : Bool}

theorem unroll_denote (r : Regexp) (c20 c21 : Ctx) (acc : Steps P) (hwf : r.Wf .emacs21 c21)
    (hs : r.Steady fold c20 c21) (hM : M.Knows r.classes) :
    (r.unroll fold).denote M .emacs20 c20 acc = r.denote M .emacs21 c21 acc := by
  induction r generalizing c20 c21 acc with
  | nil => rfl
  | leaf l s rest ih =>
    obtain ⟨hl, _, hanchor, hrest⟩ := hwf
    obtain ⟨hagree, hsteady, hsrest⟩ := hs
    have hMl : M.Knows l.classes := fun n hn => hM n (List.mem_append_left _ hn)
    have hMrest : M.Knows rest.classes := fun n hn => hM n (List.mem_append_right _ hn)
    exact leaf_denote M acc hl hanchor hagree hsteady hMl fun acc =>
      ih _ _ acc hrest hsrest hMrest
  | group k body s rest ihbody ih =>
    obtain ⟨_, hbody, _, hrest⟩ := hwf
    obtain ⟨hagree, hsbody, hsrest⟩ := hs
    have hMbody : M.Knows body.classes := fun n hn => hM n (List.mem_append_left _ hn)
    have hMrest : M.Knows rest.classes := fun n hn => hM n (List.mem_append_right _ hn)
    have hsame := ihbody .first .first 1 hbody hsbody hMbody
    have hcont := fun acc => ih _ _ acc hrest hsrest hMrest
    rw [Regexp.unroll, Regexp.denote, ← hsame]
    cases s with
    | ops o =>
      have hflags : Dialect.emacs20.flags o = Dialect.emacs21.flags o := hagree
      rw [← hcont]
      simp only [Suffix.spread, groupCopy, Regexp.denote, Suffix.denote, hflags, Suffix.copies,
        Nat.one_ne_zero, if_false]
    | interval i =>
      rw [(groupCopy_copyOf M _).interval_denote i _ c20 acc trivial fun h => h.elim, hcont]
  | bar rest ih =>
    rw [Regexp.unroll, Regexp.denote, Regexp.denote, ih .first .first 1 hwf hs hM]

end Language

/-! ### The translation is a regexp of Emacs 20 -/

/-- One copy of the leaf may stand there, whatever follows it. -/
def Leaf.Fits (l : Leaf) (ctx : Ctx) : Prop :=
  ∀ c, l = .char c → (postOp? c ≠ none → ctx ≠ .inner) ∧ (c = '^' → ctx ≠ .first)

theorem emit_wf {fold : Bool} {l : Leaf} {c20 c21 : Ctx} (hl : l.Wf .emacs21 c21)
    (hcarry : l.Carries fold) (hop : ∀ c, l = .char c → postOp? c ≠ none → c20 ≠ .inner)
    {o : List PostOp} (hanchor : c20.anchors l → o = []) {rest : Regexp}
    (hrest : rest.Wf .emacs20 (c20.next l)) : (l.emit fold o rest).Wf .emacs20 c20 := by
  have ho : c20.anchors l → Suffix.ops o = .ops [] := fun h => congrArg _ (hanchor h)
  cases l with
  | char c =>
    refine ⟨⟨hl.1, hl.2.1, fun h => ?_⟩, trivial, ho, hrest⟩
    by_contra hno
    exact hop c rfl hno h
  | escape c =>
    refine ⟨?_, trivial, ho, hrest⟩
    intro h
    exact hl (List.mem_cons_of_mem _ h)
  | coded k c => exact ⟨hl, trivial, ho, hrest⟩
  | bracket b =>
    rw [next_bracket] at hrest
    simp only [Leaf.Carries] at hcarry
    simp only [Leaf.emit]
    split
    · have hright := hcarry.2
      rw [if_pos ‹_›] at hright
      obtain ⟨hne, hread, _⟩ := hright.asRead hl ‹_›
      exact joined_wf hread hne o hrest c20
    · have hno := hcarry.2
      rw [if_neg ‹_›] at hno
      refine ⟨⟨itemsWf_noClass hl.1 hno, hl.2⟩, trivial, ho, ?_⟩
      rw [next_bracket]
      exact hrest

section Copies
variable {f : List PostOp → Regexp → Regexp} {G : Ctx → Prop}

theorem iterate_wf (hf : ∀ o r ctx, G ctx → r.Wf .emacs20 .inner → (f o r).Wf .emacs20 ctx)
    (o : List PostOp) (n : Nat) {r : Regexp} {ctx : Ctx} (hctx : G ctx)
    (hinner : 2 ≤ n → G .inner) (hr : r.Wf .emacs20 (if n = 0 then ctx else .inner)) :
    ((f o)^[n] r).Wf .emacs20 ctx := by
  induction n generalizing ctx with
  | zero => exact hr
  | succ n ih =>
    rw [Function.iterate_succ_apply']
    refine hf _ _ _ hctx ?_
    cases n with
    | zero => exact hr
    | succ n => exact ih (hinner (by omega)) (fun _ => hinner (by omega)) hr

theorem interval_wf (hf : ∀ o r ctx, G ctx → r.Wf .emacs20 .inner → (f o r).Wf .emacs20 ctx)
    (i : Interval) {rest : Regexp} {ctx : Ctx} (hctx : G ctx)
    (hinner : 2 ≤ (Suffix.interval i).copies → G .inner)
    (hrest : rest.Wf .emacs20 (if (Suffix.interval i).copies = 0 then ctx else .inner)) :
    ((Suffix.interval i).spread f rest).Wf .emacs20 ctx := by
  cases hhi : i.hi with
  | none =>
    simp only [Suffix.spread, Suffix.copies, hhi] at hinner hrest ⊢
    refine iterate_wf hf [] _ hctx (fun h => hinner (by omega)) (hf _ _ _ ?_ hrest)
    split
    · exact hctx
    · exact hinner (by omega)
  | some m =>
    have hle := Interval.lo_le_hi hhi
    simp only [Suffix.spread, Suffix.copies, hhi] at hinner hrest ⊢
    refine iterate_wf hf [] _ hctx (fun h => hinner (by omega)) ?_
    cases hopt : m - i.lo with
    | zero =>
      have heq : m = i.lo := by omega
      rw [heq] at hrest
      exact hrest
    | succ k =>
      refine iterate_wf hf [.opt] _ ?_ (fun h => hinner (by omega)) ?_
      · split
        · exact hctx
        · exact hinner (by omega)
      · rw [if_neg (by omega)] at hrest
        exact hrest

end Copies

theorem leaf_wf {fold : Bool} {l : Leaf} {s : Suffix} {c20 c21 : Ctx} {R rest : Regexp}
    (hl : l.Wf .emacs21 c21) (hanchor : c21.anchors l → s = .ops [])
    (hctx : c20 = c21 ∨ c21 = .inner) (hsteady : 0 < s.copies → l.Steady fold c20 c21 s rest)
    (hR : R.Wf .emacs20 (if s.copies = 0 then c20 else c20.next l)) :
    (s.spread (l.emit fold) R).Wf .emacs20 c20 := by
  by_cases hcopies : s.copies = 0
  · rw [if_pos hcopies] at hR
    rw [spread_absent _ hcopies]
    exact hR
  have hst := hsteady (Nat.pos_of_ne_zero hcopies)
  rw [if_neg hcopies] at hR
  have hcarry : l.Carries fold := Leaf.carries_of_steady hl hst
  have hop : ∀ c, l = .char c → postOp? c ≠ none → c20 ≠ .inner := by
    intro c h hc hin
    subst h
    obtain h | h := hctx
    · exact hc (hl.2.2 (h ▸ hin))
    · exact hc (hl.2.2 h)
  have hcaret : c20.anchors l → c21.anchors l := by
    intro h
    obtain ⟨h, rfl⟩ := h
    exact ⟨(hst.1 rfl).mp h, rfl⟩
  cases s with
  | ops o =>
    refine emit_wf hl hcarry hop (fun h => ?_) hR
    simpa using hanchor (hcaret h)
  | interval i =>
    have hno : ¬c20.anchors l := fun h => nomatch hanchor (hcaret h)
    have hnext : c20.next l = .inner := if_neg hno
    rw [hnext] at hR
    refine interval_wf (G := l.Fits) ?_ i ?_ ?_ ?_
    · intro o r ctx hfit hr
      have hno' : ¬ctx.anchors l := fun h => (hfit '^' h.2).2 rfl h.1
      refine emit_wf hl hcarry (fun c h => (hfit c h).1) (fun h => (hno' h).elim) ?_
      rw [Ctx.next, if_neg hno']
      exact hr
    · intro c h
      exact ⟨hop c h, fun hc h' => hno ⟨h', hc ▸ h⟩⟩
    · intro htwo c h
      refine ⟨fun hc => ?_, fun _ => Ctx.noConfusion⟩
      subst h
      have hone := hst.2.2 hc
      omega
    · rw [if_neg hcopies]
      exact hR

theorem unroll_wf {fold : Bool} (r : Regexp) (c20 c21 : Ctx) (hwf : r.Wf .emacs21 c21)
    (hctx : c20 = c21 ∨ c21 = .inner) (hs : r.Steady fold c20 c21) :
    (r.unroll fold).Wf .emacs20 c20 := by
  induction r generalizing c20 c21 with
  | nil => trivial
  | leaf l s rest ih =>
    obtain ⟨hl, _, hanchor, hrest⟩ := hwf
    obtain ⟨_, hsteady, hsrest⟩ := hs
    refine leaf_wf hl hanchor hctx hsteady (ih _ _ hrest ?_ hsrest)
    by_cases ha : c21.anchors l
    · have hone : s.copies = 1 := by rw [hanchor ha]; rfl
      have hst := hsteady (by omega)
      obtain ⟨hfirst, rfl⟩ := ha
      have hsame : c20 = c21 := by rw [(hst.1 rfl).mpr hfirst, hfirst]
      rw [if_neg (by omega), hsame]
      exact Or.inl rfl
    · exact Or.inr (if_neg ha)
  | group k body s rest ihbody ih =>
    obtain ⟨_, hbody, _, hrest⟩ := hwf
    obtain ⟨_, hsbody, hsrest⟩ := hs
    have hU := ihbody .first .first hbody (Or.inl rfl) hsbody
    have hR := ih _ _ hrest (Or.inr rfl) hsrest
    have hcopy : ∀ o r ctx, True → r.Wf .emacs20 .inner →
        (groupCopy (body.unroll fold) o r).Wf .emacs20 ctx :=
      fun o r ctx _ hr => ⟨fun hd => (nomatch hd), hU, trivial, hr⟩
    cases s with
    | ops o => exact hcopy o _ c20 trivial hR
    | interval i => exact interval_wf (G := fun _ => True) hcopy i trivial (fun _ => trivial) hR
  | bar rest ih => exact ih .first .first hwf (Or.inl rfl) hs

end PkgsrcPatches.Elisp
