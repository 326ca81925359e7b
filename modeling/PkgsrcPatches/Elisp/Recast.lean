import PkgsrcPatches.Elisp.Groups
import PkgsrcPatches.Elisp.SameSet

/-! What Emacs 20 promises about bracket expressions. Only the characters that one stands
for count, and where alternatives take its place the group they make counts among the
groups behind it. -/
namespace PkgsrcPatches.Elisp
open Lib.Kleene

/-- The character is meant where characters with the same `canon` are one. -/
def Bracket.holdsBy (canon : Char → Char) (b : Bracket) (x : Char) : Prop :=
  if b.neg then ¬∃ y, canon y = canon x ∧ ∃ i ∈ b.items, i.holds e20Meaning y
  else ∃ y, canon y = canon x ∧ ∃ i ∈ b.items, i.holds e20Meaning y

theorem Bracket.holdsBy_id (b : Bracket) (x : Char) : b.holdsBy id x ↔ b.holds e20Meaning x := by
  simp only [holdsBy, holds, id, exists_eq_left]

def Leaf.brackets : Leaf → List Bracket
  | .bracket b => [b]
  | _ => []

/-- Alternatives in the place of a bracket expression. -/
def Leaf.recast (f : Bracket → List Bracket) (rest : Regexp) : Leaf → Suffix → Regexp
  | .bracket b, .ops o => joined (f b) o rest
  | l, s => .leaf l s rest

def Leaf.marks (f : Bracket → List Bracket) : Leaf → List Bool
  | .bracket b => if 2 ≤ (f b).length then [false] else []
  | _ => []

namespace Regexp

def brackets : Regexp → List Bracket
  | nil => []
  | leaf l _ rest => l.brackets ++ rest.brackets
  | group _ body _ rest => body.brackets ++ rest.brackets
  | bar rest => rest.brackets

def recast (f : Bracket → List Bracket) : Regexp → Regexp
  | nil => nil
  | leaf l s rest => l.recast f (rest.recast f) s
  | group k body s rest => group k (body.recast f) s (rest.recast f)
  | bar rest => bar (rest.recast f)

/-- The groups of `r.recast f` in order, each with whether `r` has it. -/
def marks (f : Bracket → List Bracket) : Regexp → List Bool
  | nil => []
  | leaf l _ rest => l.marks f ++ rest.marks f
  | group _ body _ rest => true :: (body.marks f ++ rest.marks f)
  | bar rest => rest.marks f

/-- Group `k` of `r` is group `j` of `r.recast f`; group 0 is the whole match. -/
def GroupAt (f : Bracket → List Bracket) (r : Regexp) (k j : Nat) : Prop :=
  (k = 0 ∧ j = 0) ∨ ∃ pre post, r.marks f = pre ++ true :: post ∧ pre.count true + 1 = k ∧
    pre.length + 1 = j

/-- The alternatives stand for the same characters, and no group of theirs comes before a group
that is referred to. -/
structure Recasts (canon : Char → Char) (f : Bracket → List Bracket) (r : Regexp) : Prop where
  nonempty : ∀ b ∈ r.brackets, f b ≠ []
  wf : ∀ b ∈ r.brackets, ∀ a ∈ f b, a.Wf .emacs20
  same : ∀ b ∈ r.brackets, ∀ x, (∃ a ∈ f b, a.holdsBy canon x) ↔ b.holdsBy canon x
  refs : ∀ n ∈ r.refs, r.GroupAt f n n

end Regexp

/-- What the searches rely on of Emacs 20: `search` gives the value and the match data for a
regexp, `canon` is the case table in use. -/
structure Documented {V α : Type} (canon : Char → Char)
    (search : List Char → Option (V × MatchData α)) : Prop where
  recast : ∀ (f : Bracket → List Bracket) (r : Regexp), r.Wf .emacs20 .first → r.Recasts canon f →
    Option.Rel (fun m m' => ∀ k j, r.GroupAt f k j → m.2.group k = m'.2.group j)
      (search r.text) (search (r.recast f).text)
  value : ∀ t u m m', search t = some m → search u = some m' → m.2.group 0 = m'.2.group 0 →
    m.1 = m'.1
  beyond : ∀ (r : Regexp) m, r.Wf .emacs20 .first → search r.text = some m →
    ∀ k, r.captures < k → m.2.group k = (none, none)

/-! ### What a recast regexp matches -/

section Recast
variable {f : Bracket → List Bracket}

theorem recast_at_end (r : Regexp) : (r.recast f).AtEnd ↔ r.AtEnd := by
  cases r with
  | nil => exact Iff.rfl
  | leaf l s rest =>
    refine iff_of_false ?_ id
    cases l with
    | bracket b =>
      cases s with
      | ops o => exact joined_not_end _ _ _
      | interval i => exact id
    | char c => exact id
    | escape c => exact id
    | coded k c => exact id
  | group k body s rest => exact Iff.rfl
  | bar rest => exact Iff.rfl

theorem brackets_wf {d : Dialect} {r : Regexp} {ctx : Ctx} (hwf : r.Wf d ctx) :
    ∀ b ∈ r.brackets, b.Wf d := by
  induction r generalizing ctx with
  | nil => exact fun b hb => by cases hb
  | leaf l s rest ih =>
    intro b hb
    cases List.mem_append.mp hb with
    | inr hb => exact ih hwf.2.2.2 b hb
    | inl hb =>
      cases l with
      | bracket a => exact List.mem_singleton.mp hb ▸ hwf.1
      | char c => cases hb
      | escape c => cases hb
      | coded k c => cases hb
  | group k body s rest ihbody ih =>
    intro b hb
    exact (List.mem_append.mp hb).elim (ihbody hwf.2.1 b) (ih hwf.2.2.2 b)
  | bar rest ih => exact ih hwf

theorem recast_wf {r : Regexp} {ctx : Ctx} (hwf : r.Wf .emacs20 ctx)
    (halts : ∀ b ∈ r.brackets, f b ≠ [] ∧ ∀ a ∈ f b, a.Wf .emacs20) :
    (r.recast f).Wf .emacs20 ctx := by
  induction r generalizing ctx with
  | nil => exact hwf
  | leaf l s rest ih =>
    obtain ⟨hl, hs, hanchor, hrest⟩ := hwf
    have hR := ih hrest fun b hb => halts b (List.mem_append_right _ hb)
    cases l with
    | bracket b =>
      cases s with
      | ops o =>
        obtain ⟨hne, hb⟩ := halts b List.mem_cons_self
        rw [next_bracket] at hR
        exact joined_wf hb hne o hR ctx
      | interval i => cases hs
    | char c => exact ⟨hl, hs, hanchor, hR⟩
    | escape c => exact ⟨hl, hs, hanchor, hR⟩
    | coded k c => exact ⟨hl, hs, hanchor, hR⟩
  | group k body s rest ihbody ih =>
    obtain ⟨hk, hbody, hs, hrest⟩ := hwf
    have hB := ihbody hbody fun b hb => halts b (List.mem_append_left _ hb)
    have hR := ih hrest fun b hb => halts b (List.mem_append_right _ hb)
    refine ⟨?_, hB, hs, hR⟩
    cases k with
    | capturing => exact fun h => by cases h
    | shy => exact hk
  | bar rest ih => exact ih hwf halts

variable {P : Type} (M : Engine P)

theorem recast_denote {r : Regexp} {ctx : Ctx} (hwf : r.Wf .emacs20 ctx)
    (halts : ∀ b ∈ r.brackets, f b ≠ [] ∧ ∀ x, (∃ a ∈ f b, a.holds M.cls x) ↔ b.holds M.cls x)
    (acc : Steps P) : (r.recast f).denote M .emacs20 ctx acc = r.denote M .emacs20 ctx acc := by
  induction r generalizing ctx acc with
  | nil => rfl
  | leaf l s rest ih =>
    obtain ⟨-, hs, -, hrest⟩ := hwf
    have hR := ih hrest fun b hb => halts b (List.mem_append_right _ hb)
    have hplain : (Regexp.leaf l s (rest.recast f)).denote M .emacs20 ctx acc =
        (Regexp.leaf l s rest).denote M .emacs20 ctx acc := by
      have hlast : l.denote M ctx (s = .ops [] ∧ (rest.recast f).AtEnd) =
          l.denote M ctx (s = .ops [] ∧ rest.AtEnd) :=
        l.denote_congr M (fun _ => Iff.rfl) fun _ => and_congr_right fun _ => recast_at_end rest
      rw [Regexp.denote, Regexp.denote, hR, hlast]
    cases l with
    | bracket b =>
      cases s with
      | ops o =>
        obtain ⟨hne, hb⟩ := halts b List.mem_cons_self
        rw [next_bracket] at hR
        rw [Regexp.recast, Leaf.recast, joined_denote M .emacs20 hne, oneOf_congr M hb, hR,
          Regexp.denote, next_bracket]
        rfl
      | interval i => cases hs
    | char c => exact hplain
    | escape c => exact hplain
    | coded k c => exact hplain
  | group k body s rest ihbody ih =>
    obtain ⟨-, hbody, -, hrest⟩ := hwf
    have hB := ihbody hbody (fun b hb => halts b (List.mem_append_left _ hb)) 1
    have hR := ih hrest fun b hb => halts b (List.mem_append_right _ hb)
    rw [Regexp.recast, Regexp.denote, Regexp.denote, hB, hR]
  | bar rest ih => rw [Regexp.recast, Regexp.denote, Regexp.denote, ih hwf halts]

end Recast

/-! ### A search that keeps the promises -/

open Classical in
/-- The first place where something is matched and the nearest end of a match there. -/
noncomputable def firstMatch (S : Steps Nat) : Option (Nat × Nat) :=
  if h : ∃ p q, S p q then some (Nat.find h, Nat.find (Nat.find_spec h)) else none

/-- Reports the whole match and no group. -/
noncomputable def searchIn (M : Engine Nat) (u : List Char) : Option (Nat × MatchData Nat) :=
  ((Dialect.emacs20.read u).bind fun r => firstMatch (r.denote M .emacs20 .first 1)).map fun p =>
    (p.1, [some p.1, some p.2])

variable (M : Engine Nat)

theorem searchIn_text {r : Regexp} (hwf : r.Wf .emacs20 .first) : searchIn M r.text =
    (firstMatch (r.denote M .emacs20 .first 1)).map fun p => (p.1, [some p.1, some p.2]) := by
  rw [searchIn, read_text .emacs20 r hwf]
  rfl

theorem pair_group {α : Type} (p q : α) {k : Nat} (hk : 0 < k) :
    MatchData.group [some p, some q] k = (none, none) :=
  MatchData.group_of_length_le (by simp only [List.length_cons, List.length_nil]; omega)

theorem documented_searchIn : Documented id (searchIn M) where
  recast f r hwf hr := by
    have hset : ∀ b ∈ r.brackets, ∀ x, (∃ a ∈ f b, a.holds M.cls x) ↔ b.holds M.cls x := by
      intro b hb x
      have hx := hr.same b hb x
      simp only [Bracket.holdsBy_id] at hx
      rw [wf20_holds (brackets_wf hwf b hb), ← hx]
      exact exists_congr fun a => and_congr_right fun ha => wf20_holds (hr.wf b hb a ha) _ x
    have hwf' := recast_wf hwf fun b hb => ⟨hr.nonempty b hb, hr.wf b hb⟩
    have hsame := recast_denote M hwf (fun b hb => ⟨hr.nonempty b hb, hset b hb⟩) 1
    rw [searchIn_text M hwf, searchIn_text M hwf', hsame]
    cases firstMatch (r.denote M .emacs20 .first 1) with
    | none => exact .none
    | some p =>
      refine .some fun k j h => ?_
      obtain ⟨rfl, rfl⟩ | ⟨pre, post, -, rfl, rfl⟩ := h
      · rfl
      · rw [pair_group _ _ (Nat.succ_pos _), pair_group _ _ (Nat.succ_pos _)]
  value t u m m' h h' hgroup := by
    obtain ⟨p, -, rfl⟩ := Option.map_eq_some_iff.mp h
    obtain ⟨q, -, rfl⟩ := Option.map_eq_some_iff.mp h'
    exact Option.some.inj (Prod.mk.inj hgroup).1
  beyond r m hwf h k hk := by
    obtain ⟨p, -, rfl⟩ := Option.map_eq_some_iff.mp h
    exact pair_group _ _ (Nat.zero_lt_of_lt hk)

end PkgsrcPatches.Elisp
