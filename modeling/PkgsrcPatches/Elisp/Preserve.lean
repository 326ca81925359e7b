import PkgsrcPatches.Elisp.Steady

/-! That the translated regexp matches what the original does, and the regexps
for which the code loses track of an atom. -/
namespace PkgsrcPatches.Elisp

/-- Emacs 20 reads the translation as a regexp without shy groups and intervals, and it leads
between the same positions as the original under Emacs 21, in any text where the classes mean
what the alist of the code says. -/
def Preserves (fold : Bool) (r : Regexp) : Prop :=
  ∃ out groups r', e20Translate fold r.text = some (out, groups) ∧
    Dialect.emacs20.read out = some r' ∧ r'.Wf .emacs20 .first ∧
    ∀ (P : Type) (M : Engine P), M.Knows r.classes →
      ∀ p q, r'.Matches M .emacs20 p q ↔ r.Matches M .emacs21 p q

/-- The code keeps track of every atom, and each copy reads as its original. -/
structure Regexp.Kept (fold : Bool) (r : Regexp) : Prop where
  tracked : r.Tracked fold
  steady : r.Steady fold .first .first

theorem e20Translate_preserves {fold : Bool} {r : Regexp} (hwf : r.Wf .emacs21 .first)
    (hkept : r.Kept fold) : Preserves fold r := by
  have htext := e20Translate_text hwf hkept.tracked
  have hwf' := unroll_wf r .first .first hwf (Or.inl rfl) hkept.steady
  refine ⟨_, _, r.unroll fold, htext, read_text .emacs20 _ hwf', hwf', ?_⟩
  intro P M hM p q
  have hsame := unroll_denote M r .first .first 1 hwf hkept.steady hM
  rw [Regexp.Matches, Regexp.Matches, hsame]

/-- `[[:digit:]]`. -/
def digits : Bracket := ⟨false, [.cls "digit".toList]⟩

theorem digits_zero : digits.holds e20Meaning '0' := by
  have hzero : e20MarkRanges (fun _ => false) "0-9".toList 48 = true := by decide
  exact ⟨.cls "digit".toList, List.mem_cons_self, hzero⟩

theorem digits_near (x : Char) : ¬digits.Far x := by
  have hnone : digits.extras = [] := by decide
  intro h
  obtain ⟨i, hi, -⟩ := h
  rw [hnone] at hi
  cases hi

theorem digits_right : digits.Right where
  opens := fun h => nomatch h
  known := by decide
  caret := fun _ => ⟨'0', by decide, by decide, by decide, digits_zero⟩
  inhabited := ⟨'0', digits_zero⟩
  far := ⟨fun _ x h => (digits_near x h).elim, fun _ _ => ⟨by decide, fun x h => (digits_near x h).elim⟩⟩

/-- `[[:digit:]]\{2\}\(?:ab\)\{0,1\}`. -/
def twoDigits : Regexp :=
  .leaf (.bracket digits) (.interval (.exactly (.single 2)))
    (.group .shy (.leaf (.char 'a') (.ops []) (.leaf (.char 'b') (.ops []) .nil))
      (.interval (.between (.single 0) (.single 1) (by decide)))
      .nil)

theorem steady_plain (fold : Bool) (c20 c21 : Ctx) (s : Suffix) (rest : Regexp) {c : Char}
    (hc : c ≠ '^' ∧ c ≠ '$' ∧ postOp? c = none) : (Leaf.char c).Steady fold c20 c21 s rest :=
  ⟨fun h => (hc.1 h).elim, fun h => (hc.2.1 h).elim, fun h => (h hc.2.2).elim⟩

theorem e20Translate_preserves_twoDigits :
    (twoDigits.Wf .emacs21 .first ∧ twoDigits.Kept true) ∧ Preserves true twoDigits := by
  have hwf : twoDigits.Wf .emacs21 .first := by decide
  have hpath : digits.OnClassPath true := by decide
  have hleaf : (Leaf.bracket digits).Tracked true (.interval (.exactly (.single 2)))
      [] := by
    rw [Leaf.Tracked, if_pos hpath]
    decide
  have hkept : twoDigits.Kept true := by
    refine ⟨⟨hleaf, ⟨trivial, trivial, trivial⟩, fun _ => ⟨rfl, rfl⟩, trivial⟩, ?_⟩
    refine ⟨trivial, fun _ => ?_, trivial, ?_, trivial⟩
    · rw [Leaf.Steady, if_pos hpath]
      exact digits_right
    · exact ⟨rfl, fun _ => steady_plain _ _ _ _ _ (by decide), rfl,
        fun _ => steady_plain _ _ _ _ _ (by decide), trivial⟩
  exact ⟨⟨hwf, hkept⟩, e20Translate_preserves hwf hkept⟩

/-- `\(ab\)\{2\}`. -/
def twice : Regexp :=
  .group .capturing (.leaf (.char 'a') (.ops []) (.leaf (.char 'b') (.ops []) .nil))
    (.interval (.exactly (.single 2))) .nil

/-- The copies start at the last atom inside the group: `\(ab\)b\)`, which is no regexp. -/
theorem twice_not_preserved : twice.text = "\\(ab\\)\\\x7b2\\\x7d".toList ∧
    twice.Wf .emacs21 .first ∧ ¬Preserves true twice := by
  refine ⟨by decide, by decide, ?_⟩
  intro h
  obtain ⟨out, groups, r', htext, hread, _⟩ := h
  have hout : e20Translate true twice.text = some ("\\(ab\\)b\\)".toList, [some 1]) := by decide
  rw [hout] at htext
  obtain ⟨rfl, _⟩ := Prod.mk.inj (Option.some.inj htext)
  have hnone : Dialect.emacs20.read "\\(ab\\)b\\)".toList = none := by decide
  rw [hnone] at hread
  cases hread

end PkgsrcPatches.Elisp
