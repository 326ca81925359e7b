import PkgsrcPatches.Elisp.Passed

/-! Where the code signals an error, and what it puts out for the other regexps it follows. -/
namespace PkgsrcPatches.Elisp

section Fails
variable {fold : Bool}

def Fails (fold : Bool) (a : Translation × List Char) : Prop :=
  ∃ b, Runs fold a b ∧ e20Step fold b.1 b.2 = none ∧ b.2 ≠ []

theorem Runs.fails {a b : Translation × List Char} (h : Runs fold a b) (hb : Fails fold b) :
    Fails fold a := by
  obtain ⟨c, hruns, hstop⟩ := hb
  exact ⟨c, h.trans hruns, hstop⟩

theorem loop_none_of_step {t : Translation} {re : List Char} (hne : re ≠ [])
    (hnext : ∀ a, e20Step fold t re = some a → ∀ n, e20Loop fold n a.1 a.2 = none) :
    ∀ n, e20Loop fold n t re = none := by
  intro n
  cases re with
  | nil => exact (hne rfl).elim
  | cons c re =>
    cases n with
    | zero => rfl
    | succ n =>
      rw [e20Loop]
      cases hs : e20Step fold t (c :: re) with
      | none => rfl
      | some a => exact hnext a hs n

theorem Fails.loop {a : Translation × List Char} (h : Fails fold a) :
    ∀ n, e20Loop fold n a.1 a.2 = none := by
  obtain ⟨b, hruns, hstep, hrest⟩ := h
  induction hruns using Relation.ReflTransGen.head_induction_on with
  | refl =>
    apply loop_none_of_step hrest
    intro a h
    rw [hstep] at h
    cases h
  | @head a c hab _ ih =>
    have hne : a.2 ≠ [] := by
      intro hnil
      rw [hnil] at hab
      cases hab
    apply loop_none_of_step hne
    intro a' h
    rw [hab] at h
    exact Option.some.inj h ▸ ih

theorem Fails.translate {re : List Char} (h : Fails fold (.start, re)) : e20Translate fold re = none := by
  rw [e20Translate, h.loop]
  rfl

theorem fails_unknown {d : Dialect} {b : Bracket} (hb : b.Wf d) (hnamed : ItemsUnnamed b.items)
    (hpath : b.OnClassPath fold) (hno : ¬ItemsKnown b.items) (t : Translation) (x : List Char) :
    Fails fold (t, b.text ++ x) := by
  have hopen : b.text = '[' :: b.text.tail := rfl
  have htest := classPath_append fold hb x
  have hclass : classPath fold b.text = some true := hpath
  have hbracket := Bracket.e20Bracket_unknown hb hnamed hno x
  rw [hopen, List.cons_append] at htest hbracket
  rw [hopen, List.cons_append]
  rw [← hopen, hclass] at htest
  refine ⟨_, .refl, ?_, List.cons_ne_nil _ _⟩
  simp only [e20Step, if_neg (by decide : ¬('[' = '\\')), if_true, e20OpenBracket, htest, hbracket]

theorem fails_interval {t tb : Translation} (ht : t.Bounded) {k : Kind} {body : List Char}
    {g : List (Option Nat)} {n : Nat} {e : List Bool} (h : (k.opened t).After tb body g n e)
    (htop : (e ++ [true]).head? ≠ some true) (i : Interval) (x : List Char) :
    Fails fold (tb.closeGroup, (Suffix.interval i).text ++ x) := by
  have hentries : tb.atoms.map Start.IsNumber = (e ++ [true]) ++ t.atoms.map Start.IsNumber :=
    ((Translation.after_open ht k).trans h).entries
  have hhead : (tb.atoms.map Start.IsNumber).head? = some false := by
    cases e with
    | nil => exact (htop rfl).elim
    | cons b e =>
      cases b with
      | true => exact (htop rfl).elim
      | false => rw [hentries]; rfl
  have hoffset : (tb.closeGroup.atoms.headD .missing).offset = none := by
    cases hatoms : tb.atoms with
    | nil => simp [Translation.closeGroup, hatoms, Start.offset]
    | cons a atoms =>
      rw [hatoms] at hhead
      cases a with
      | number n => cases hhead
      | missing => simp [Translation.closeGroup, hatoms, Start.offset]
      | group p => simp [Translation.closeGroup, hatoms, Start.offset]
  refine ⟨_, .refl, ?_, by simp [Suffix.text]⟩
  rw [step_interval, Translation.interval, hoffset]
  rfl

/-- The induction over the body, up to the place where the error is signalled. -/
theorem stops_fails (r : Regexp) {ctx : Ctx} {h : Held} {μ : Mode} (hwf : r.Wf .emacs21 ctx)
    (hf : r.Followed fold h) (hs : r.Stops fold h) (hμ : h.Settles μ) {t : Translation}
    (ht : t.Bounded) {x : List Char} (hx : Closes x) : Fails fold (t, h.text ++ (r.text ++ x)) := by
  have hmark : ∀ t : Translation, Marked.text (t.emitted.map (·, 0)) = t.emitted :=
    fun t => map_mark _ 0
  induction r generalizing ctx h μ t x with
  | nil => exact hs.elim
  | leaf l s rest ih =>
    obtain ⟨hl, _, _, hrest⟩ := hwf
    obtain ⟨hfl, hfrest⟩ := hf
    rw [Regexp.text, List.append_assoc, List.append_assoc]
    by_cases hunknown : l.Unknown fold
    · cases l with
      | bracket b =>
        cases h with
        | nothing => exact fails_unknown hl (itemsWf_unnamed hl.1) hunknown.1 hunknown.2 t _
        | backslash => exact (hfl.1.1 hunknown.1).elim
        | symbol => exact hfl.elim
      | char c => exact hunknown.elim
      | escape c => exact hunknown.elim
      | coded k c => exact hunknown.elim
    · obtain ⟨t₁, d, μ₁, hruns, hafter, -, hμ₁⟩ :=
        passed_leaf hl hfl hunknown hμ hx ht (hmark t)
      exact hruns.runs.fails (ih hrest hfrest (hs.resolve_left hunknown) hμ₁ hafter.bounded hx)
  | group k body s rest ihbody ih =>
    obtain ⟨hkwf, hbody, _, hrest⟩ := hwf
    obtain ⟨rfl, hfbody, hheld, hone, hfrest⟩ := hf
    have hopen := Translation.after_open ht k
    let y := '\\' :: ')' :: (s.text ++ (rest.text ++ x))
    have hy : Closes y := Or.inr ⟨_, rfl⟩
    have htext : (Regexp.group k body s rest).text ++ x = k.text ++ (body.text ++ y) := by
      simp [Regexp.text, y]
    have hstart : Runs fold (t, k.text ++ (body.text ++ y)) (k.opened t, body.text ++ y) :=
      .step (step_open fold t k (take_of_wf hkwf) _) .refl
    change Fails fold (t, (Regexp.group k body s rest).text ++ x)
    rw [htext]
    by_cases hsbody : body.Stops fold .nothing
    · exact hstart.fails (ihbody hbody hfbody hsbody Held.settles_nothing hopen.bounded hy)
    · obtain ⟨tb, d, -, hruns, hafter, -⟩ := traces_regexp body hbody hfbody hsbody Held.settles_nothing
        hopen.bounded (hmark _) hy
      rw [hheld] at hruns
      by_cases htop : s.IsInterval → (body.stacked fold .nothing ++ [true]).head? = some true
      · have hs' : rest.Stops fold .nothing :=
          ((hs.resolve_left hsbody).resolve_left fun h => h.2 (htop h.1))
        obtain ⟨t₁, hgroup, hafter₁⟩ := runs_group (take_of_wf hkwf) ht hruns.runs hafter
          fun hi => ⟨hone hi (htop hi), htop hi⟩
        exact hgroup.fails (ih hrest hfrest hs' Held.settles_nothing hafter₁.bounded hx)
      · rw [Classical.not_imp] at htop
        obtain ⟨hi, htop⟩ := htop
        cases s with
        | ops o => exact hi.elim
        | interval i =>
          have hclose : Runs fold (tb, y) (tb.closeGroup, (Suffix.interval i).text ++ (rest.text ++ x)) :=
            .step (step_close fold tb _) .refl
          exact hstart.fails (hruns.runs.fails (hclose.fails (fails_interval ht hafter htop i _)))
  | bar rest ih =>
    obtain ⟨hsym, hfrest⟩ := hf
    obtain ⟨t₁, d, hruns, hafter, -⟩ := traces_bar hsym hμ (y := rest.text) hx ht []
    exact hruns.runs.fails (ih hwf hfrest hs Held.settles_nothing hafter.bounded hx)

theorem translate_stops {r : Regexp} (hwf : r.Wf .emacs21 .first) (hf : r.Followed fold .nothing)
    (hs : r.Stops fold .nothing) : e20Translate fold r.text = none := by
  have hfails := stops_fails r hwf hf hs Held.settles_nothing start_bounded (Or.inl rfl)
  rw [List.append_nil] at hfails
  exact hfails.translate

end Fails

section Whole
variable {fold : Bool}

theorem held_ne_symbol {r : Regexp} {h : Held} (hf : r.Followed fold h) : r.held h ≠ .symbol := by
  induction r generalizing h with
  | nil => exact hf
  | leaf l s rest ih => exact ih hf.2
  | group k body s rest ihbody ih => exact ih hf.2.2.2.2
  | bar rest ih => exact ih hf.2

theorem traces_whole {r : Regexp} (hwf : r.Wf .emacs21 .first) (hf : r.Followed fold .nothing)
    (hno : ¬r.Stops fold .nothing) :
    ∃ t' d, Traces fold (.start, [], r.text) (t', d, []) ∧ t'.emitted = d.text ∧
      t'.groups.reverse = r.recorded fold 0 ∧
      Reads .plain .plain d (opened (r.located fold 0)) r.refs := by
  obtain ⟨t', d, μ, hruns, hafter, hread, hμ⟩ := traces_regexp r hwf hf hno Held.settles_nothing
    start_bounded (m := []) rfl (Or.inl rfl)
  rw [List.append_nil, List.append_nil] at hruns
  have hgroups : t'.groups.reverse = r.recorded fold 0 := by
    rw [hafter.groups]
    simp [Translation.start]
  cases hheld : r.held .nothing with
  | nothing =>
    rw [hheld] at hruns hμ
    obtain rfl : μ = .plain := hμ
    exact ⟨t', d, hruns, hafter.emitted, hgroups, hread⟩
  | backslash =>
    -- a backslash at the end is put out as it is
    rw [hheld] at hruns hμ
    have hstep : e20Step fold t' ['\\'] = some (t'.atom ['\\'], []) := rfl
    have hlast := hruns.trans (Traces.step hstep (if_neg (by decide)) (t'.atom_emitted _) .refl)
    refine ⟨_, _, hlast, ?_, hgroups, ?_⟩
    · rw [t'.atom_emitted, hafter.emitted]
      simp only [Marked.text, List.nil_append, List.map_append]
      rfl
    · have hall := hread.append (hμ 1)
      rwa [List.append_nil, List.append_nil] at hall
  | symbol => exact (held_ne_symbol hf hheld).elim

/-- The groups and references of the translation, and what is recorded. -/
theorem e20Traced_followed {r : Regexp} (hwf : r.Wf .emacs21 .first) (hf : r.Followed fold .nothing)
    (hno : ¬r.Stops fold .nothing) :
    ∃ out, e20Traced fold r.text = some out ∧
      e20Translate fold r.text = some (out.text, r.recorded fold 0) ∧
      Mode.plain.openings out = opened (r.located fold 0) ∧
      ∀ n, n ∈ Mode.plain.references out ↔ n ∈ r.refs := by
  obtain ⟨t', d, hruns, hemit, hgroups, hread⟩ := traces_whole hwf hf hno
  refine ⟨d, hruns.loop (Nat.le_refl _), ?_, hread.opened, hread.refs⟩
  rw [e20Translate_of_runs hruns.runs, hemit, hgroups]

end Whole

end PkgsrcPatches.Elisp
