import PkgsrcPatches.Elisp.TracedAtoms

/-! Where the code keeps track of its atoms. On these regexps the text it puts
out is that of the unrolled tree, by one induction over the body. -/
namespace PkgsrcPatches.Elisp

/-- A syntax or category code is read as two atoms. -/
def Leaf.entries : Leaf → List Bool
  | .coded _ _ => [true, true]
  | _ => [true]

/-- What a body leaves on the stack, top first: a number, or the mark of a group. -/
def Regexp.entries : Regexp → List Bool
  | nil => []
  | leaf l s rest => rest.entries ++ s.leaves l.entries
  | group _ body s rest => rest.entries ++ s.leaves (false :: (body.entries ++ [true]).tail)
  | bar rest => rest.entries ++ [true]

/-- The leaf is read as one token, or as two and then not repeated. -/
def Leaf.Tracked (fold : Bool) (s : Suffix) (after : List Char) : Leaf → Prop
  | .char _ => True
  | .escape c => c = '_' → after.head? ≠ some '<' ∧ after.head? ≠ some '>'
  | .coded _ c => c ≠ '\\' ∧ c ≠ '[' ∧ (s.IsInterval → s.copies = 1)
  | .bracket b => if b.OnClassPath fold then ItemsKnown b.items else ∀ i ∈ b.items, ¬i.IsClass

/-- An interval on a group asks for one copy, and the last atom recorded inside the group is
no group itself. -/
def Regexp.Tracked (fold : Bool) : Regexp → Prop
  | nil => True
  | leaf l s rest => l.Tracked fold s (s.text ++ rest.text) ∧ rest.Tracked fold
  | group _ body s rest =>
    body.Tracked fold ∧
      (s.IsInterval → s.copies = 1 ∧ (body.entries ++ [true]).head? = some true) ∧
      rest.Tracked fold
  | bar rest => rest.Tracked fold

/-- Neither an escape nor a parenthesis reads as a construct that only Emacs 21 has. -/
def Regexp.NoneNew : Regexp → Prop
  | nil => True
  | leaf l _ rest => l ≠ .escape '{' ∧ rest.NoneNew
  | group k body _ rest =>
    (k = .capturing → body.text.take 2 ≠ ['?', ':']) ∧ body.NoneNew ∧ rest.NoneNew
  | bar rest => rest.NoneNew

namespace Regexp

def captures : Regexp → Nat
  | nil => 0
  | leaf _ _ rest => rest.captures
  | group k body _ rest => k.captures + body.captures + rest.captures
  | bar rest => rest.captures

def recorded (fold : Bool) : Nat → Regexp → List (Option Nat)
  | _, nil => []
  | orig, leaf l _ rest => l.opens fold ++ rest.recorded fold orig
  | orig, group k body _ rest =>
    k.recorded orig :: (body.recorded fold (orig + k.captures) ++
      rest.recorded fold (orig + k.captures + body.captures))
  | orig, bar rest => rest.recorded fold orig

end Regexp

section Tokens
variable {fold : Bool}

theorem Runs.step {t t' : Translation} {re re' : List Char} {b : Translation × List Char}
    (h : e20Step fold t re = some (t', re')) (hrest : Runs fold (t', re') b) :
    Runs fold (t, re) b :=
  Relation.ReflTransGen.head h hrest

theorem opens_reverse (l : Leaf) : (l.opens fold).reverse = l.opens fold := by
  cases l with
  | bracket b =>
    simp only [Leaf.opens]
    split <;> rfl
  | char c => rfl
  | escape c => rfl
  | coded k c => rfl

theorem copyText_ne_nil (l : Leaf) : l.copyText fold ≠ [] := by
  have hjoined : ∀ alts : List Bracket, (e20Joined (alts.map Bracket.text)).1 ≠ [] := by
    intro alts
    match alts with
    | [] => exact List.cons_ne_nil _ _
    | [a] => exact List.cons_ne_nil _ _
    | a :: b :: alts => exact List.cons_ne_nil _ _
  cases l with
  | bracket b =>
    simp only [Leaf.copyText]
    split
    · exact hjoined _
    · exact List.cons_ne_nil _ _
  | char c => exact List.cons_ne_nil _ _
  | escape c => exact List.cons_ne_nil _ _
  | coded k c => exact List.cons_ne_nil _ _

theorem not_reserved {d : Dialect} {c : Char} (h : c ∉ d.reserved) (hopen : c ≠ '{') :
    c ∉ Dialect.emacs21.reserved := by
  cases d with
  | emacs20 => exact fun hc => (List.mem_cons.mp hc).elim hopen h
  | emacs21 => exact h

theorem step_leaf {d : Dialect} {l : Leaf} {ctx : Ctx} {s : Suffix} {after : List Char}
    (hl : l.Wf d ctx) (htr : l.Tracked fold s after) (hnew : l ≠ .escape '{')
    (hcoded : ∀ k c, l ≠ .coded k c) (t : Translation)
    {x : List Char} (hx : x.head? = some '<' ∨ x.head? = some '>' → after.head? = x.head?) :
    e20Step fold t (l.text ++ x) = some ({ t.atom (l.copyText fold) with
      groups := l.opens fold ++ t.groups }, x) := by
  cases l with
  | char c => exact step_char fold t hl.1 hl.2.1 x
  | escape c =>
    refine step_escape fold t (not_reserved hl fun hc => hnew (hc ▸ rfl)) fun hc => ?_
    obtain ⟨hlt, hgt⟩ := htr hc
    constructor
    · intro h
      exact hlt (hx (Or.inl h) ▸ h)
    · intro h
      exact hgt (hx (Or.inr h) ▸ h)
  | coded k c => exact (hcoded k c rfl).elim
  | bracket b => exact step_bracket fold t hl htr x

variable (fold) in
theorem runs_suffix (s : Suffix) {t : Translation} (ht : t.Bounded) {a : List Char} (ha : a ≠ [])
    (g : List (Option Nat)) (x : List Char) :
    ∃ t', Runs fold ({ t.atom a with groups := g.reverse ++ t.groups }, s.text ++ x) (t', x) ∧
      t.After t' (s.written a) g 0 (s.leaves [true]) := by
  -- the places do not matter here
  have hmark := map_mark a 0
  obtain ⟨t', d, hruns, hafter, htext, -⟩ :=
    traces_suffix fold s ht (map_mark t.emitted 0) (a := a.map (·, 0)) (by rwa [hmark]) g x
  rw [htext, hmark] at hafter
  rw [hmark] at hruns
  exact ⟨t', hruns.runs, hafter⟩

theorem runs_leaf {d : Dialect} {l : Leaf} {s : Suffix} {ctx : Ctx} {after : List Char}
    (hl : l.Wf d ctx) (htr : l.Tracked fold s after) (hnew : l ≠ .escape '{') {t : Translation}
    (ht : t.Bounded) {x : List Char}
    (hx : (s.text ++ x).head? = some '<' ∨ (s.text ++ x).head? = some '>' →
      after.head? = (s.text ++ x).head?) :
    ∃ t', Runs fold (t, l.text ++ (s.text ++ x)) (t', x) ∧
      t.After t' (s.written (l.copyText fold)) (l.opens fold) 0 (s.leaves l.entries) := by
  by_cases hcoded : ∃ k c, l = .coded k c
  · obtain ⟨k, c, rfl⟩ := hcoded
    obtain ⟨hback, hopen, hone⟩ := htr
    have hkind := Translation.after_atom ht (List.cons_ne_nil '\\' [k]) []
    obtain ⟨t', hruns, hafter⟩ :=
      runs_suffix fold s hkind.bounded (List.cons_ne_nil c []) [] x
    refine ⟨t', .step (step_kind fold t hl _) (.step (step_char fold _ hback hopen _) hruns), ?_⟩
    have hall := hkind.trans hafter
    have htext : s.written ['\\', k, c] = ['\\', k] ++ s.written [c] := by
      cases s with
      | ops o => rfl
      | interval i =>
        rw [Suffix.written, Suffix.written, e20Rep_one (hone trivial), e20Rep_one (hone trivial) [c]]
        rfl
    have hentries : s.leaves [true, true] = s.leaves [true] ++ [true] := by
      cases s with
      | ops o => simp [Suffix.leaves]
      | interval i => rfl
    rw [← htext, ← hentries] at hall
    exact hall
  · have hno : ∀ k c, l ≠ .coded k c := fun k c h => hcoded ⟨k, c, h⟩
    have hstep := step_leaf hl htr hnew hno t hx
    rw [← opens_reverse l] at hstep
    obtain ⟨t', hruns, hafter⟩ :=
      runs_suffix fold s ht (copyText_ne_nil l) (l.opens fold) x
    refine ⟨t', .step hstep hruns, ?_⟩
    have hentries : l.entries = [true] := by
      cases l with
      | coded k c => exact (hno k c rfl).elim
      | char c => rfl
      | escape c => rfl
      | bracket b => rfl
    rw [hentries]
    exact hafter

theorem runs_group {k : Kind} {body rest : List Char} {s : Suffix} {U : List Char}
    {g : List (Option Nat)} {n : Nat} {e : List Bool} (hk : k = .capturing → body.take 2 ≠ ['?', ':'])
    {t tb : Translation} (ht : t.Bounded)
    (hruns : Runs fold (k.opened t, body ++ '\\' :: ')' :: (s.text ++ rest))
      (tb, '\\' :: ')' :: (s.text ++ rest)))
    (hbody : (k.opened t).After tb U g n e)
    (hone : s.IsInterval → s.copies = 1 ∧ (e ++ [true]).head? = some true) :
    ∃ t', Runs fold (t, k.text ++ (body ++ '\\' :: ')' :: (s.text ++ rest))) (t', rest) ∧
      t.After t' (s.written ('\\' :: '(' :: (U ++ ['\\', ')']))) (k.recorded t.orig :: g)
        (k.captures + n) (s.leaves (false :: (e ++ [true]).tail)) := by
  have hmark := map_mark ('\\' :: '(' :: (U ++ ['\\', ')'])) 0
  obtain ⟨t', d, hruns', hafter, htext, -⟩ := traces_closed ht hbody hmark hone [] rest
  rw [htext, hmark] at hafter
  exact ⟨t', .step (step_open fold t k hk _) (hruns.trans (Runs.step (step_close fold tb _) hruns'.runs)),
    hafter⟩

theorem head_of_closes {u x : List Char} (hx : Closes x) {c : Char} (h : (u ++ x).head? = some c)
    (hc : c ≠ '\\') : u.head? = some c := by
  cases u with
  | cons a u => exact h
  | nil =>
    obtain rfl | ⟨y, rfl⟩ := hx
    · cases h
    · exact (hc (Option.some.inj h).symm).elim

theorem angle_of_closes (u v : List Char) {x : List Char} (hx : Closes x) :
    (u ++ (v ++ x)).head? = some '<' ∨ (u ++ (v ++ x)).head? = some '>' →
      (u ++ v).head? = (u ++ (v ++ x)).head? := by
  rw [← List.append_assoc]
  intro h
  cases h with
  | inl h => rw [h, head_of_closes hx h (by decide)]
  | inr h => rw [h, head_of_closes hx h (by decide)]

theorem start_bounded : Translation.start.Bounded := ⟨fun n h => (by cases h), Nat.zero_le _⟩

/-- The induction over the body: what the pass puts out is the unrolled tree. -/
theorem runs_regexp {d : Dialect} (r : Regexp) {ctx : Ctx} (hwf : r.Wf d ctx)
    (htr : r.Tracked fold) (hnew : r.NoneNew) {t : Translation} (ht : t.Bounded) {x : List Char} (hx : Closes x) :
    ∃ t', Runs fold (t, r.text ++ x) (t', x) ∧
      t.After t' (r.unroll fold).text (r.recorded fold t.orig) r.captures r.entries := by
  induction r generalizing ctx t x with
  | nil => exact ⟨t, Relation.ReflTransGen.refl, .refl ht⟩
  | leaf l s rest ih =>
    obtain ⟨hl, _, _, hrest⟩ := hwf
    obtain ⟨htl, htrest⟩ := htr
    obtain ⟨hnew, hnrest⟩ := hnew
    obtain ⟨t₁, hruns, hafter⟩ := runs_leaf hl htl hnew ht (angle_of_closes s.text rest.text hx)
    obtain ⟨t', hruns', hafter'⟩ := ih hrest htrest hnrest hafter.bounded hx
    refine ⟨t', ?_, ?_⟩
    · rw [Regexp.text, List.append_assoc, List.append_assoc]
      exact hruns.trans hruns'
    · have hall := hafter.trans hafter'
      have horig : t₁.orig = t.orig := hafter.orig
      rw [Regexp.unroll, spread_text (emit_text fold l)]
      rw [Nat.zero_add, horig] at hall
      exact hall
  | group k body s rest ihbody ih =>
    obtain ⟨_, hbody, _, hrest⟩ := hwf
    obtain ⟨htbody, hone, htrest⟩ := htr
    obtain ⟨hk, hnbody, hnrest⟩ := hnew
    have hopen := Translation.after_open ht k
    obtain ⟨tb, hruns, hafter⟩ := ihbody hbody htbody hnbody hopen.bounded
      (Or.inr ⟨s.text ++ (rest.text ++ x), rfl⟩)
    obtain ⟨t₁, hgroup, hafter₁⟩ := runs_group hk ht hruns hafter hone
    obtain ⟨t', hruns', hafter'⟩ := ih hrest htrest hnrest hafter₁.bounded hx
    refine ⟨t', ?_, ?_⟩
    · have htext : (Regexp.group k body s rest).text ++ x =
          k.text ++ (body.text ++ '\\' :: ')' :: (s.text ++ (rest.text ++ x))) := by
        simp [Regexp.text]
      rw [htext]
      exact hgroup.trans hruns'
    · have hall := hafter₁.trans hafter'
      have horig : t₁.orig = t.orig + k.captures + body.captures := by
        rw [hafter₁.orig, Nat.add_assoc]
      have horig' : (k.opened t).orig = t.orig + k.captures := hopen.orig
      rw [horig, horig'] at hall
      rw [Regexp.unroll, spread_text (groupCopy_text _)]
      exact hall
  | bar rest ih =>
    have hbar := Translation.after_atom ht (List.cons_ne_nil '\\' ['|']) []
    obtain ⟨t', hruns, hafter⟩ := ih hwf htr hnew hbar.bounded hx
    refine ⟨t', .step (step_bar fold t _) hruns, ?_⟩
    have hall := hbar.trans hafter
    rw [Nat.zero_add] at hall
    exact hall

theorem e20Translate_unroll {d : Dialect} {r : Regexp} (hwf : r.Wf d .first) (htr : r.Tracked fold)
    (hnew : r.NoneNew) : e20Translate fold r.text = some ((r.unroll fold).text, r.recorded fold 0) := by
  obtain ⟨t', hruns, hafter⟩ := runs_regexp r hwf htr hnew start_bounded (Or.inl rfl)
  rw [List.append_nil] at hruns
  rw [e20Translate_of_runs hruns, hafter.emitted, hafter.groups]
  simp [Translation.start, Translation.emitted]

theorem take_of_wf {k : Kind} {body : List Char} (h : k.Wf .emacs21 body) (hk : k = .capturing) :
    body.take 2 ≠ ['?', ':'] := by
  intro htake
  rw [hk] at h
  refine h rfl ?_
  have hhead := congrArg List.head? htake
  rwa [List.head?_take, if_neg (by decide)] at hhead

theorem noneNew_of_wf {r : Regexp} {ctx : Ctx} (hwf : r.Wf .emacs21 ctx) : r.NoneNew := by
  induction r generalizing ctx with
  | nil => trivial
  | leaf l s rest ih =>
    refine ⟨?_, ih hwf.2.2.2⟩
    intro h
    have hl := hwf.1
    rw [h] at hl
    exact hl List.mem_cons_self
  | group k body s rest ihbody ih =>
    exact ⟨take_of_wf hwf.1, ihbody hwf.2.1, ih hwf.2.2.2⟩
  | bar rest ih => exact ih hwf

theorem e20Translate_text {r : Regexp} (hwf : r.Wf .emacs21 .first) (htr : r.Tracked fold) :
    e20Translate fold r.text = some ((r.unroll fold).text, r.recorded fold 0) :=
  e20Translate_unroll hwf htr (noneNew_of_wf hwf)

end Tokens
end PkgsrcPatches.Elisp
