import PkgsrcPatches.Flim.Tokens

/-! What the pieces of the program do. -/
namespace PkgsrcPatches.Flim
open Lib Lib.Ccl

/-- From one state to another the text has been written, as in a string, and what is being read
is the same. -/
structure Went (s s' : State) (text : List Char) : Prop where
  any : s'.reg 1 = s.reg 1
  mode : s'.reg 2 = s.reg 2
  output : s'.output = s.output ++ Sexp.escape text

variable {s s' s'' : State} {a b : List Char} {c : Char} {w : List Char} {Q : Flow → State → Prop}

theorem escape_cons (c : Char) (w : List Char) :
    Sexp.escape (c :: w) = Sexp.escapeChar c ++ Sexp.escape w := rfl

theorem escape_append (a b : List Char) :
    Sexp.escape (a ++ b) = Sexp.escape a ++ Sexp.escape b := List.flatMap_append

theorem escape_plain (hq : c ≠ '"') (hb : c ≠ '\\') : Sexp.escapeChar c = [c] := by
  rw [Sexp.escapeChar, if_neg hq, if_neg hb]

theorem Went.refl (s : State) : Went s s [] := ⟨rfl, rfl, (List.append_nil _).symm⟩

theorem Went.trans (h : Went s s' a) (h' : Went s' s'' b) : Went s s'' (a ++ b) where
  any := h'.any.trans h.any
  mode := h'.mode.trans h.mode
  output := by rw [h'.output, h.output, escape_append, List.append_assoc]

theorem went_took (s : State) (c : Char) (w : List Char) : Went s (s.took 0 c w) [] :=
  ⟨rfl, rfl, (List.append_nil _).symm⟩

theorem went_put (s : State) (c : Char) : Went s (s.put (Sexp.escapeChar c)) [c] :=
  ⟨rfl, rfl, by simp [State.put, Sexp.escape]⟩

theorem went_depth (s : State) (v : Int) : Went s (s.set 3 v) [] :=
  ⟨rfl, rfl, (List.append_nil _).symm⟩

theorem toNat_inj {c d : Char} : ((c.toNat : Int) = d.toNat) ↔ c = d := by
  rw [Int.natCast_inj]
  exact ⟨fun h => Char.toNat_inj.mp h, fun h => h ▸ rfl⟩

theorem eq_eval {d : Char} (hc : s.reg 0 = c.toNat) :
    (Expr.eq (.reg 0) (code d)).eval s.reg = if c = d then 1 else 0 := by
  have h : (Expr.eq (.reg 0) (code d)).eval s.reg = if s.reg 0 = d.toNat then 1 else 0 := rfl
  rw [h, hc]
  simp only [toNat_inj]

theorem ends_wrt (hc : s.reg 0 = c.toNat) (h : Q .next (s.put (Sexp.escapeChar c))) :
    Ends wrt s Q := by
  unfold wrt
  by_cases hq : c = '"'
  · refine ends_ite_true ?_ (ends_writeText ?_)
    · rw [eq_eval hc, if_pos hq]
      exact Int.one_ne_zero
    · rw [hq] at h
      exact h
  · refine ends_ite_false ?_ ?_
    · rw [eq_eval hc, if_neg hq]
    · by_cases hb : c = '\\'
      · refine ends_ite_true ?_ (ends_writeText ?_)
        · rw [eq_eval hc, if_pos hb]
          exact Int.one_ne_zero
        · rw [hb] at h
          exact h
      · refine ends_ite_false ?_ (ends_write hc ?_)
        · rw [eq_eval hc, if_neg hb]
        · rw [← escape_plain hq hb]
          exact h

theorem ends_backslash (hs : s.input = w)
    (hend : w = [] → ∀ s', Went s s' ['\\'] → Q .eof s')
    (hrep : ∀ c w', w = c :: w' → ∀ s', Went s s' ['\\', c] → s'.input = w' → s'.reg 3 = s.reg 3 →
      Q .rep s') :
    Ends (block [.writeText ['\\', '\\'], .read 0, wrt, .rep]) s Q := by
  have hput : Went s (s.put ['\\', '\\']) ['\\'] := went_put s '\\'
  refine ends_writeText_seq ?_
  cases w with
  | nil => exact ends_seq (ends_read_nil hs (hend rfl _ hput))
  | cons c w =>
    refine ends_seq (ends_read_cons hs ?_)
    refine ends_seq (ends_wrt (c := c) rfl (ends_seq (ends_rep ?_)))
    have htook := went_took (s.put ['\\', '\\']) c w
    exact hrep c w rfl _ ((hput.trans htook).trans (went_put _ c)) rfl rfl

/-! ### Quoted strings and domain literals -/

theorem set_at {blocks : List Stmt} {c : Char} (hc : c.toNat < blocks.length) (d : Char) (p : Stmt) :
    (blocks.set d.toNat p)[c.toNat]? = if c = d then some p else blocks[c.toNat]? := by
  by_cases h : c = d
  · subst h
    rw [if_pos rfl, List.getElem?_set_self hc]
  · rw [if_neg h, List.getElem?_set_ne fun he => h (Char.toNat_inj.mp he.symm)]

theorem encBlocks_length (tag : Char) :
    (encBlocks tag).length = max tag.toNat '\\'.toNat + 1 := by
  simp [encBlocks]

theorem encBlocks_at {tag c : Char} (hc : c.toNat < (encBlocks tag).length) :
    (encBlocks tag)[c.toNat]? =
      if c = tag then some .brk
      else if c = '"' then some (block [.writeText ['\\', '"'], .rep])
      else if c = '\\' then some (block [.writeText ['\\', '\\'], .read 0, wrt, .rep])
      else some (writeRepeat 0) := by
  rw [encBlocks_length] at hc
  rw [encBlocks, set_at (by simpa using hc), set_at (by simpa using hc), set_at (by simpa using hc),
    List.getElem?_replicate, if_pos hc]

theorem ends_plain {blocks : List Stmt} (hs : s.input = c :: w)
    (hin : c.toNat < blocks.length → blocks[c.toNat]? = some (writeRepeat 0))
    (hq : c ≠ '"') (hb : c ≠ '\\')
    (h : ∀ s', Went s s' [c] → s'.input = w → s'.reg 3 = s.reg 3 → Q .rep s') :
    Ends (block [readBranch 0 blocks, writeRepeat 0]) s Q := by
  have hwent : Went s ((s.took 0 c w).put [c]) [c] := by
    have hput := went_put (s.took 0 c w) c
    rw [escape_plain hq hb] at hput
    exact (went_took s c w).trans hput
  have hdone := h _ hwent rfl rfl
  by_cases hc : c.toNat < blocks.length
  · exact ends_readBranch_in hs (hin hc) (ends_writeRepeat rfl ⟨by simp, hdone⟩)
  · exact ends_readBranch_out hs (Nat.le_of_not_lt hc) (ends_seq (ends_writeRepeat rfl hdone))

theorem ends_quote (h : ∀ s', Went s s' ['"'] → s'.input = s.input → s'.reg 3 = s.reg 3 → Q .rep s') :
    Ends (block [.writeText ['\\', '"'], .rep]) s Q :=
  ends_writeText_seq (ends_seq (ends_rep (h _ (went_put s '"') rfl rfl)))

theorem ends_encLoop {tag : Char} (hs : s.input = w)
    (hclosed : ∀ b rest s', w = b ++ tag :: rest → Body tag b → Went s s' b → s'.input = rest →
      Q .next s')
    (hopen : ∀ b e s', w = b ++ e → Body tag b → (e = [] ∨ e = ['\\']) → Went s s' w → Q .eof s') :
    Ends (.loop (encBody tag)) s Q := by
  induction hn : w.length using Nat.strong_induction_on generalizing w s with
  | _ n ih =>
    subst hn
    refine ends_loop ?_
    cases w with
    | nil => exact ends_readBranch_nil hs (hopen [] [] s rfl .nil (Or.inl rfl) (Went.refl s))
    | cons c w =>
      have hstep := went_took s c w
      -- the loop goes on behind `x`
      have hmore : ∀ x w' s', c :: w = x ++ w' → x ≠ [] → (∀ b, Body tag b → Body tag (x ++ b)) →
          Went s s' x → s'.input = w' → Ends (.loop (encBody tag)) s' Q := by
        intro x w' s' hx hne hbody hwent hinput
        have hlen : w'.length < (c :: w).length := by
          have hpos := List.length_pos_iff.mpr hne
          rw [hx, List.length_append]
          omega
        refine ih _ hlen hinput ?_ ?_ rfl
        · intro b rest s'' hw hb hb' hrest
          exact hclosed (x ++ b) rest s'' (by rw [hx, hw, List.append_assoc]) (hbody b hb)
            (hwent.trans hb') hrest
        · intro b e s'' hw hb he hwent'
          exact hopen (x ++ b) e s'' (by rw [hx, hw, List.append_assoc]) (hbody b hb) he
            (hx ▸ hwent.trans hwent')
      by_cases ht : c = tag
      · have hin : c.toNat < (encBlocks tag).length := by
          rw [encBlocks_length, ht]
          omega
        refine ends_readBranch_in hs ((encBlocks_at hin).trans (if_pos ht)) (ends_brk ⟨by simp, ?_⟩)
        exact hclosed [] w _ (by rw [ht]; rfl) .nil hstep rfl
      by_cases hq : c = '"'
      · have hin : c.toNat < (encBlocks tag).length := by
          have hle : '"'.toNat ≤ '\\'.toNat := by decide
          rw [encBlocks_length, hq]
          omega
        have hblock := (encBlocks_at hin).trans ((if_neg ht).trans (if_pos hq))
        refine ends_readBranch_in hs hblock (ends_quote ?_)
        intro s' hwent hinput _
        have hb : c ≠ '\\' := by rw [hq]; decide
        rw [← hq] at hwent
        exact ⟨by simp, hmore [c] w s' rfl (by simp) (fun b h => h.char ht hb) (hstep.trans hwent)
          hinput⟩
      by_cases hb : c = '\\'
      · have hin : c.toNat < (encBlocks tag).length := by
          rw [encBlocks_length, hb]
          omega
        have hblock := (encBlocks_at hin).trans ((if_neg ht).trans ((if_neg hq).trans (if_pos hb)))
        refine ends_readBranch_in hs hblock (ends_backslash rfl ?_ ?_)
        · intro hw s' hwent
          refine ⟨by simp, hopen [] ['\\'] s' ?_ .nil (Or.inr rfl) ?_⟩
          · rw [hb, show w = [] from hw]
            rfl
          · rw [hb, show w = [] from hw]
            exact hstep.trans hwent
        · intro d w' hw s' hwent hinput _
          refine ⟨by simp, hmore ['\\', d] w' s' ?_ (by simp) (fun b h => h.pair d)
            (hstep.trans hwent) hinput⟩
          rw [hb, show w = d :: w' from hw]
          rfl
      · refine ends_plain hs (fun hin => ?_) hq hb ?_
        · exact (encBlocks_at hin).trans ((if_neg ht).trans ((if_neg hq).trans (if_neg hb)))
        · intro s' hwent hinput _
          exact hmore [c] w s' rfl (by simp) (fun b h => h.char ht hb) hwent hinput

/-! ### Comments -/

theorem cmBlocks_length :
    cmBlocks.length = max '('.toNat (max ')'.toNat '\\'.toNat) + 1 := by
  simp [cmBlocks]

theorem cmBlocks_at {c : Char} (hc : c.toNat < cmBlocks.length) :
    cmBlocks[c.toNat]? =
      if c = '"' then some (block [.writeText ['\\', '"'], .rep])
      else if c = '\\' then some (block [.writeText ['\\', '\\'], .read 0, wrt, .rep])
      else if c = ')' then some (block [.set 3 (.sub (.reg 3) (.int 1)),
        .ite (.lt (.reg 3) (.int 1)) .brk (writeRepeat 0)])
      else if c = '(' then some (block [.set 3 (.add (.reg 3) (.int 1)), writeRepeat 0])
      else some (writeRepeat 0) := by
  rw [cmBlocks_length] at hc
  rw [cmBlocks, set_at (by simpa using hc), set_at (by simpa using hc), set_at (by simpa using hc),
    set_at (by simpa using hc), List.getElem?_replicate, if_pos hc]

theorem lt_cmBlocks {c : Char} (h : c.toNat ≤ '\\'.toNat) : c.toNat < cmBlocks.length := by
  rw [cmBlocks_length]
  omega

theorem ends_cmLoop {d : Nat} (hs : s.input = w) (hd : s.reg 3 = d + 1)
    (hclosed : ∀ b rest s', w = b ++ ')' :: rest → Comment (d + 1) 1 b → Went s s' b →
      s'.input = rest → Q .next s')
    (hopen : ∀ b e d' s', w = b ++ e → Comment (d + 1) (d' + 1) b → (e = [] ∨ e = ['\\']) →
      Went s s' w → Q .eof s') :
    Ends (.loop cmBody) s Q := by
  induction hn : w.length using Nat.strong_induction_on generalizing w s d with
  | _ n ih =>
    subst hn
    refine ends_loop ?_
    cases w with
    | nil =>
      exact ends_readBranch_nil hs (hopen [] [] d s rfl (.nil _) (Or.inl rfl) (Went.refl s))
    | cons c w =>
      have hstep := went_took s c w
      -- the loop goes on behind `x`, at a depth of its own
      have hmore : ∀ x w' e s', c :: w = x ++ w' → x ≠ [] →
          (∀ d' b, Comment (e + 1) d' b → Comment (d + 1) d' (x ++ b)) →
          Went s s' x → s'.input = w' → s'.reg 3 = e + 1 → Ends (.loop cmBody) s' Q := by
        intro x w' e s' hx hne hbody hwent hinput hdepth
        have hlen : w'.length < (c :: w).length := by
          have hpos := List.length_pos_iff.mpr hne
          rw [hx, List.length_append]
          omega
        refine ih _ hlen hinput hdepth ?_ ?_ rfl
        · intro b rest s'' hw hb hb' hrest
          exact hclosed (x ++ b) rest s'' (by rw [hx, hw, List.append_assoc]) (hbody 1 b hb)
            (hwent.trans hb') hrest
        · intro b t d' s'' hw hb ht hwent'
          exact hopen (x ++ b) t d' s'' (by rw [hx, hw, List.append_assoc]) (hbody _ b hb) ht
            (hx ▸ hwent.trans hwent')
      by_cases hq : c = '"'
      · have hblock := (cmBlocks_at (c := c) (lt_cmBlocks (by rw [hq]; decide))).trans (if_pos hq)
        refine ends_readBranch_in hs hblock (ends_quote ?_)
        intro s' hwent hinput hdepth
        rw [← hq] at hwent
        refine ⟨by simp, hmore [c] w d s' rfl (by simp) (fun d' b h => ?_) (hstep.trans hwent) hinput
          (hdepth.trans hd)⟩
        exact h.char (by rw [hq]; decide) (by rw [hq]; decide) (by rw [hq]; decide)
      by_cases hb : c = '\\'
      · have hblock := (cmBlocks_at (c := c) (lt_cmBlocks (by rw [hb]))).trans
          ((if_neg hq).trans (if_pos hb))
        refine ends_readBranch_in hs hblock (ends_backslash rfl ?_ ?_)
        · intro hw s' hwent
          refine ⟨by simp, hopen [] ['\\'] d s' ?_ (.nil _) (Or.inr rfl) ?_⟩
          · rw [hb, show w = [] from hw]
            rfl
          · rw [hb, show w = [] from hw]
            exact hstep.trans hwent
        · intro e w' hw s' hwent hinput hdepth
          refine ⟨by simp, hmore ['\\', e] w' d s' ?_ (by simp) (fun d' b h => h.pair e)
            (hstep.trans hwent) hinput (hdepth.trans hd)⟩
          rw [hb, show w = e :: w' from hw]
          rfl
      by_cases hc : c = ')'
      · have hblock := (cmBlocks_at (c := c) (lt_cmBlocks (by rw [hc]; decide))).trans
          ((if_neg hq).trans ((if_neg hb).trans (if_pos hc)))
        refine ends_readBranch_in hs hblock (ends_set_seq (ends_seq ?_))
        have hdepth : (Expr.sub (.reg 3) (.int 1)).eval (s.took 0 c w).reg = d := by
          have hval : (Expr.sub (.reg 3) (.int 1)).eval (s.took 0 c w).reg = s.reg 3 - 1 := rfl
          rw [hval, hd]
          omega
        rw [hdepth]
        have hback : Went s ((s.took 0 c w).set 3 d) [] := hstep.trans (went_depth _ d)
        have hlt : (Expr.lt (.reg 3) (.int 1)).eval ((s.took 0 c w).set 3 d).reg =
            if (d : Int) < 1 then 1 else 0 := rfl
        cases d with
        | zero =>
          refine ends_ite_true ?_ (ends_brk ⟨by simp, ?_⟩)
          · rw [hlt, if_pos (by decide)]
            exact Int.one_ne_zero
          · exact hclosed [] w _ (by rw [hc]; rfl) (.nil 1) hback rfl
        | succ e =>
          refine ends_ite_false ?_ (ends_writeRepeat (c := c) rfl ⟨by simp, ?_⟩)
          · rw [hlt, if_neg (by omega)]
          · have hput := went_put ((s.took 0 c w).set 3 (e + 1 : Nat)) c
            rw [escape_plain hq hb] at hput
            refine hmore [c] w e _ rfl (by simp) (fun d' b h => ?_) (hback.trans hput) rfl ?_
            · rw [hc]
              exact h.closing
            · exact Int.natCast_succ e
      by_cases ho : c = '('
      · have hblock := (cmBlocks_at (c := c) (lt_cmBlocks (by rw [ho]; decide))).trans
          ((if_neg hq).trans ((if_neg hb).trans ((if_neg hc).trans (if_pos ho))))
        refine ends_readBranch_in hs hblock (ends_set_seq (ends_seq ?_))
        have hdepth : (Expr.add (.reg 3) (.int 1)).eval (s.took 0 c w).reg = (d + 1 : Nat) + 1 := by
          have hval : (Expr.add (.reg 3) (.int 1)).eval (s.took 0 c w).reg = s.reg 3 + 1 := rfl
          rw [hval, hd]
          omega
        rw [hdepth]
        refine ends_writeRepeat (c := c) rfl ⟨by simp, ?_⟩
        have hput := went_put ((s.took 0 c w).set 3 ((d + 1 : Nat) + 1)) c
        rw [escape_plain hq hb] at hput
        refine hmore [c] w (d + 1) _ rfl (by simp) (fun d' b h => ?_)
          ((hstep.trans (went_depth _ _)).trans hput) rfl rfl
        rw [ho]
        exact h.opening
      · refine ends_plain hs (fun hin => ?_) hq hb ?_
        · exact (cmBlocks_at hin).trans
            ((if_neg hq).trans ((if_neg hb).trans ((if_neg hc).trans (if_neg ho))))
        · intro s' hwent hinput hdepth
          exact hmore [c] w d s' rfl (by simp) (fun d' b h => h.char ho hc hb) hwent hinput
            (hdepth.trans hd)

end PkgsrcPatches.Flim
