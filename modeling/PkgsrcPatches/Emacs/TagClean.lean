import PkgsrcPatches.Emacs.TagFiles

/-! `clean_matched_file_tag` loses no tags, whatever fails. -/
namespace PkgsrcPatches.Emacs.TagUpdate
open Lib Lib.Syscall Function

def kept (buf : Content) (ls : List Content) : Content :=
  ((ls.map fun l => cstring (Lines.chomp nl l)).filter fun l => ¬ buf <:+: l).flatMap (· ++ [nl])

theorem kept_cons (buf l : Content) (ls : List Content) :
    kept buf (l :: ls) =
      (if buf <:+: cstring (Lines.chomp nl l) then [] else cstring (Lines.chomp nl l) ++ [nl]) ++
        kept buf ls := by
  rw [kept, List.map_cons, List.filter_cons]
  by_cases h : buf <:+: cstring (Lines.chomp nl l)
  · rw [if_neg (by simpa using h), if_pos h]
    rfl
  · rw [if_pos (by simpa using h), if_neg h]
    rfl

/-- What `clean_matched_file_tag` is to leave of a tags file. -/
def cleaned (matchFileName : CString) (old : Content) : Content :=
  kept (patternOf matchFileName).bytes (Lines.lines nl old)

section
variable {tagfile : CString} {old new : Content} {files₀ : CString → Option Content} {d : Disk}

/-- All that is in the old tags, or all that is to be in the new, is in a file; and no file but
the two is another. -/
structure Safe (tagfile : CString) (old new : Content) (files₀ : CString → Option Content)
    (d : Disk) : Prop where
  tags : d.missed = true ∨ d.files tagfile = some old ∨ d.files otags = some new ∨
    d.files tagfile = some new
  others : ∀ name, name ≠ tagfile → name ≠ otags → d.files name = files₀ name

structure Before (tagfile : CString) (old : Content) (files₀ : CString → Option Content)
    (d : Disk) : Prop where
  tags : d.files tagfile = some old
  others : ∀ name, name ≠ tagfile → name ≠ otags → d.files name = files₀ name

theorem Before.safe (h : Before tagfile old files₀ d) : Safe tagfile old new files₀ d :=
  ⟨Or.inr (Or.inl h.tags), h.others⟩

theorem Before.congr {d' : Disk} (h : Before tagfile old files₀ d) (hne : tagfile ≠ otags)
    (hd : ∀ name, name ≠ otags → d'.files name = d.files name) : Before tagfile old files₀ d' := by
  refine ⟨(hd tagfile hne).trans h.tags, ?_⟩
  intro name h1 h2
  rw [hd name h2, h.others name h1 h2]

def Disk.Opened (d : Disk) : Prop := d.name .otags = some otags ∧ d.name .tag = none

/-- In the loop over the lines: what is written and what is left to read make the new tags. -/
structure Copying (tagfile : CString) (old new : Content) (files₀ : CString → Option Content)
    (buf : Content) (d : Disk) : Prop extends Before tagfile old files₀ d where
  opened : d.Opened
  done : d.missed = true ∨
    ∃ w, d.files otags = some w ∧ new = w ++ kept buf (Lines.lines nl (d.rest .tag))
  short : ∀ w, d.files otags = some w →
    w.length + (kept buf (Lines.lines nl (d.rest .tag))).length ≤ new.length

structure Copied (tagfile : CString) (old new : Content) (files₀ : CString → Option Content)
    (d : Disk) : Prop extends Before tagfile old files₀ d where
  opened : d.Opened
  done : d.missed = true ∨ d.files otags = some new
  short : ∀ w, d.files otags = some w → w.length ≤ new.length

theorem writeLine_meets (hne : tagfile ≠ otags) (buf : Content) {line : Content}
    (h : Before tagfile old files₀ d) (hopened : d.Opened)
    (hdone : d.missed = true ∨ ∃ w, d.files otags = some w ∧
      new = w ++ (cstring line ++ [nl]) ++ kept buf (Lines.lines nl (d.rest .tag)))
    (hshort : ∀ w, d.files otags = some w → w.length + (cstring line ++ [nl]).length +
      (kept buf (Lines.lines nl (d.rest .tag))).length ≤ new.length) :
    (writeLine tagfile line).Meets (kernel (Safe tagfile old new files₀))
      (Post (Safe tagfile old new files₀)
        fun d' => Copying tagfile old new files₀ buf d' ∧ d'.rest .tag = d.rest .tag) d := by
  apply meets_perform h.safe
  intro ok _
  cases ok with
  | false =>
    have hb : Before tagfile old files₀ { d with missed := true } := h.congr hne fun _ _ => rfl
    apply meets_perform hb.safe
    intro a _
    cases a with
    | true => exact hb.safe
    | false =>
      refine ⟨⟨hb, hopened, Or.inl rfl, ?_⟩, rfl⟩
      intro w hw
      have hlen := hshort w hw
      rw [after_ferror]
      dsimp only
      omega
  | true =>
    have hafter : after d (.fprintf .otags (cstring line ++ [nl])) true =
        { d with files := update d.files otags ((d.files otags).map (· ++ (cstring line ++ [nl]))) } := by
      simp only [after, if_true, Disk.append, hopened.1]
    have hb : Before tagfile old files₀
        { d with files := update d.files otags ((d.files otags).map (· ++ (cstring line ++ [nl]))) } :=
      h.congr hne fun name hn => update_of_ne hn _ _
    rw [hafter]
    apply meets_perform hb.safe
    intro a _
    cases a with
    | true => exact hb.safe
    | false =>
      refine ⟨⟨hb, hopened, hdone.imp_right ?_, ?_⟩, rfl⟩
      · intro hw
        obtain ⟨w, hw, hnew⟩ := hw
        refine ⟨w ++ (cstring line ++ [nl]), ?_, hnew⟩
        rw [after_ferror]
        dsimp only
        rw [update_self, hw, Option.map_some]
      · intro w hw
        rw [after_ferror] at hw
        dsimp only at hw
        rw [update_self, Option.map_eq_some_iff] at hw
        obtain ⟨w, hw, rfl⟩ := hw
        rw [List.length_append]
        exact hshort w hw

theorem copyLines_meets (hne : tagfile ≠ otags) {buf : Content} {n : Nat}
    (h : Copying tagfile old new files₀ buf d) (hn : (Lines.lines nl (d.rest .tag)).length < n) :
    (copyLines tagfile buf n).Meets (kernel (Safe tagfile old new files₀))
      (Post (Safe tagfile old new files₀) (Copied tagfile old new files₀)) d := by
  induction n generalizing d with
  | zero => exact absurd hn (Nat.not_lt_zero _)
  | succ n ih =>
    apply meets_perform h.safe
    intro a ha
    obtain ⟨line, wrong⟩ := a
    cases wrong with
    | true =>
      -- a read that goes wrong is seen behind part of a line only
      have hb : Before tagfile old files₀
          (after d (.readline .tag) (line, true)) := h.toBefore.congr hne fun _ _ => rfl
      cases line with
      | none =>
        refine ⟨hb, h.opened, Or.inl (Bool.or_true _), ?_⟩
        intro w hw
        exact Nat.le_trans (Nat.le_add_right _ _) (h.short w hw)
      | some line =>
        apply meets_perform hb.safe
        intro a ha
        have hfailed : a = true := by
          rw [show a = _ from ha]
          exact update_self Stream.tag true d.failed
        rw [hfailed]
        exact hb.safe
    | false =>
      have hline : line = d.line .tag := ha rfl
      subst hline
      cases hls : Lines.lines nl (d.rest .tag) with
      | nil =>
        have hline : d.line .tag = none := by
          rw [Disk.line, hls]
          rfl
        rw [hline]
        refine ⟨h.toBefore.congr hne fun _ _ => rfl, h.opened, h.done.imp_right ?_, ?_⟩
        · intro hw
          obtain ⟨w, hw, hnew⟩ := hw
          rw [hnew, hls, kept, List.map_nil, List.filter_nil, List.flatMap_nil, List.append_nil]
          exact hw
        · intro w hw
          exact Nat.le_trans (Nat.le_add_right _ _) (h.short w hw)
      | cons l ls =>
        obtain ⟨hline, d', hd', hfiles, hname, hmissed, hrest⟩ := after_readline hls
        have hb : Before tagfile old files₀ d' := h.toBefore.congr hne fun name _ => by rw [hfiles]
        have hopened : d'.Opened := by
          rw [Disk.Opened, hname]
          exact h.opened
        have hdone := h.done
        have hshort := h.short
        rw [hls, ← hmissed, ← hfiles] at hdone
        rw [hls, ← hfiles] at hshort
        rw [hls] at hn
        rw [hd', hline]
        apply meets_perform hb.safe
        intro a _
        apply meets_pfatalIf hb.safe
        intro _
        dsimp only
        by_cases hbuf : buf <:+: cstring (Lines.chomp nl l)
        · rw [if_pos hbuf]
          rw [kept_cons, if_pos hbuf, List.nil_append, ← hrest] at hdone hshort
          apply ih ⟨hb, hopened, hdone, hshort⟩
          rw [hrest]
          exact Nat.lt_of_succ_lt_succ hn
        · rw [if_neg hbuf]
          rw [kept_cons, if_neg hbuf, ← hrest] at hdone hshort
          apply meets_then
          · apply writeLine_meets hne buf hb hopened
            · apply hdone.imp_right
              intro hw
              obtain ⟨w, hw, hnew⟩ := hw
              exact ⟨w, hw, hnew.trans (List.append_assoc _ _ _).symm⟩
            · intro w hw
              rw [Nat.add_assoc, ← List.length_append]
              exact hshort w hw
          · intro d'' hd''
            apply ih hd''.1
            rw [hd''.2, hrest]
            exact Nat.lt_of_succ_lt_succ hn

/-- In the loop over the bytes: the new tags are in OTAGS, and what is written and what is left
to read make them as well. -/
structure Moving (tagfile : CString) (new : Content) (files₀ : CString → Option Content)
    (d : Disk) : Prop where
  dst : d.name .dst = some tagfile
  src : d.name .src = none
  others : ∀ name, name ≠ tagfile → name ≠ otags → d.files name = files₀ name
  done : d.missed = true ∨ (d.files otags = some new ∧
    ∃ w, d.files tagfile = some w ∧ new = w ++ d.rest .src)

structure Moved (tagfile : CString) (new : Content) (files₀ : CString → Option Content)
    (d : Disk) : Prop where
  dst : d.name .dst = some tagfile
  src : d.name .src = none
  others : ∀ name, name ≠ tagfile → name ≠ otags → d.files name = files₀ name
  done : d.missed = true ∨ (d.files otags = some new ∧ d.files tagfile = some new)

structure Replaced (tagfile : CString) (new : Content) (files₀ : CString → Option Content)
    (d : Disk) : Prop where
  others : ∀ name, name ≠ tagfile → name ≠ otags → d.files name = files₀ name
  done : d.missed = true ∨ (d.files otags = none ∧ d.files tagfile = some new)

theorem Moving.safe (h : Moving tagfile new files₀ d) : Safe tagfile old new files₀ d :=
  ⟨h.done.imp_right fun hd => Or.inr (Or.inl hd.1), h.others⟩

theorem Moved.safe (h : Moved tagfile new files₀ d) : Safe tagfile old new files₀ d :=
  ⟨h.done.imp_right fun hd => Or.inr (Or.inl hd.1), h.others⟩

theorem Copied.truncated {d' : Disk} {c : Option Content} (h : Copied tagfile old new files₀ d)
    (hne : tagfile ≠ otags) (hm : d'.missed = d.missed) (hf : d'.files = update d.files tagfile c) :
    Safe tagfile old new files₀ d' := by
  refine ⟨?_, ?_⟩
  · rw [hm, hf, update_of_ne (Ne.symm hne)]
    exact h.done.imp_right fun hd => Or.inr (Or.inl hd)
  · intro name h1 h2
    rw [hf, update_of_ne h1, h.others name h1 h2]

theorem copyBytes_meets (hne : tagfile ≠ otags) {n : Nat} (h : Moving tagfile new files₀ d)
    (hn : (d.rest .src).length < n) :
    (copyBytes otags tagfile n).Meets (kernel (Safe tagfile old new files₀))
      (Post (Safe tagfile old new files₀) (Moved tagfile new files₀)) d := by
  induction n generalizing d with
  | zero => exact absurd hn (Nat.not_lt_zero _)
  | succ n ih =>
    apply meets_perform h.safe
    intro a ha
    obtain ⟨c, wrong⟩ := a
    cases wrong with
    | true =>
      have hc : c = none := ha
      subst hc
      exact ⟨h.dst, h.src, h.others, Or.inl rfl⟩
    | false =>
      have hc : c = (d.rest .src).head? := ha
      subst hc
      cases hrest : d.rest .src with
      | nil =>
        refine ⟨h.dst, h.src, h.others, h.done.imp_right ?_⟩
        intro hd
        obtain ⟨hotags, w, hw, hnew⟩ := hd
        rw [hrest, List.append_nil] at hnew
        exact ⟨hotags, hnew ▸ hw⟩
      | cons c cs =>
        have hafter : after d (.fgetc .src) (some c, false) =
            { d with rest := update d.rest .src cs } := by
          simp only [after, hrest, List.tail_cons]
          rfl
        rw [List.head?_cons, hafter]
        have hread : Safe tagfile old new files₀ { d with rest := update d.rest .src cs } :=
          ⟨h.safe.tags, h.others⟩
        apply meets_perform hread
        intro a _
        apply meets_pfatalIf hread
        intro _
        apply meets_perform hread
        intro a _
        apply meets_pfatalIf hread
        intro _
        apply meets_perform hread
        intro ok _
        cases ok with
        | false => exact hread
        | true =>
          have hafter : after { d with rest := update d.rest .src cs } (.fputc .dst c) true =
              { d with
                rest := update d.rest .src cs
                files := update d.files tagfile ((d.files tagfile).map (· ++ [c])) } := by
            simp only [after, if_true, Disk.append, h.dst]
          have hnext : Moving tagfile new files₀ { d with
              rest := update d.rest .src cs
              files := update d.files tagfile ((d.files tagfile).map (· ++ [c])) } := by
            refine ⟨h.dst, h.src, ?_, h.done.imp_right ?_⟩
            · intro name h1 h2
              dsimp only
              rw [update_of_ne h1, h.others name h1 h2]
            · intro hd
              obtain ⟨hotags, w, hw, hnew⟩ := hd
              refine ⟨(update_of_ne (Ne.symm hne) _ _).trans hotags, w ++ [c], ?_, ?_⟩
              · dsimp only
                rw [update_self, hw, Option.map_some]
              · dsimp only
                rw [update_self, hnew, hrest, List.append_assoc, List.singleton_append]
          rw [Bool.not_true, hafter]
          apply meets_pfatalIf hnext.safe
          intro _
          apply ih hnext
          dsimp only
          rw [update_self]
          rw [hrest] at hn
          exact Nat.lt_of_succ_lt_succ hn

theorem Moved.cut (h : Moved tagfile new files₀ d) (hne : tagfile ≠ otags) (k : Nat) :
    Safe tagfile old new files₀ (after d (.fclose .dst) (some k)) := by
  have hafter : after d (.fclose .dst) (some k) =
      { d with files := update d.files tagfile ((d.files tagfile).map (·.take k)) } := by
    simp only [after, h.dst]
  rw [hafter]
  refine ⟨h.done.imp_right ?_, ?_⟩
  · intro hd
    exact Or.inr (Or.inl ((update_of_ne (Ne.symm hne) _ _).trans hd.1))
  · intro name h1 h2
    exact (update_of_ne h1 _ _).trans (h.others name h1 h2)

theorem Moved.unlinked (h : Moved tagfile new files₀ d) (hne : tagfile ≠ otags) :
    Replaced tagfile new files₀ (after d (.unlink otags) true) := by
  have hafter : after d (.unlink otags) true = { d with files := update d.files otags none } := rfl
  rw [hafter]
  refine ⟨?_, h.done.imp_right ?_⟩
  · intro name h1 h2
    exact (update_of_ne h2 _ _).trans (h.others name h1 h2)
  · intro hd
    refine ⟨?_, (update_of_ne hne _ _).trans hd.2⟩
    dsimp only
    rw [update_self]

theorem opened_moving (hne : tagfile ≠ otags) (h : Copied tagfile old new files₀ d) :
    Moving tagfile new files₀
        (after (after d (.fopenRead .src otags) true) (.fopenWrite .dst tagfile) true) ∧
      ((after (after d (.fopenRead .src otags) true) (.fopenWrite .dst tagfile) true).rest .src).length ≤
        new.length := by
  have hd₁ : after d (.fopenRead .src otags) true =
      { d with rest := update d.rest .src ((d.files otags).getD []), name := update d.name .src none,
               failed := update d.failed .src false } := rfl
  have hd₂ : after (after d (.fopenRead .src otags) true) (.fopenWrite .dst tagfile) true =
      { d with
        files := update d.files tagfile (some [])
        rest := update d.rest .src ((d.files otags).getD [])
        name := update (update d.name .src none) .dst (some tagfile)
        failed := update (update d.failed .src false) .dst false } := rfl
  rw [hd₂]
  refine ⟨⟨?_, ?_, ?_, h.done.imp_right ?_⟩, ?_⟩
  · dsimp only
    rw [update_self]
  · dsimp only
    rw [update_of_ne (by decide), update_self]
  · intro name h1 h2
    dsimp only
    rw [update_of_ne h1, h.others name h1 h2]
  · intro hd
    dsimp only
    rw [update_of_ne (Ne.symm hne), update_self, update_self, hd]
    exact ⟨rfl, [], rfl, rfl⟩
  · dsimp only
    rw [update_self]
    cases hw : d.files otags with
    | none => exact Nat.zero_le _
    | some w => exact h.short w hw

theorem doMoveFile_meets (hne : tagfile ≠ otags) {n : Nat} (h : Copied tagfile old new files₀ d)
    (hn : new.length < n) :
    (doMoveFile n otags tagfile).Meets (kernel (Safe tagfile old new files₀))
      (Post (Safe tagfile old new files₀) (Replaced tagfile new files₀)) d := by
  have hsafe : Safe tagfile old new files₀ d := h.toBefore.safe
  apply meets_perform hsafe
  intro renamed hrenamed
  cases renamed with
  | true =>
    have hafter : after d (.rename otags tagfile) true =
        { d with files := update (update d.files tagfile (d.files otags)) otags none } :=
      if_pos ⟨rfl, Ne.symm hne⟩
    have hmoved : Replaced tagfile new files₀
        { d with files := update (update d.files tagfile (d.files otags)) otags none } := by
      refine ⟨?_, h.done.imp_right ?_⟩
      · intro name h1 h2
        dsimp only
        rw [update_of_ne h2, update_of_ne h1, h.others name h1 h2]
      · intro hd
        dsimp only
        rw [update_self, update_of_ne hne, update_self]
        exact ⟨rfl, hd⟩
    rw [hafter]
    exact hmoved
  | false =>
    apply meets_perform hsafe
    intro srcF _
    cases srcF with
    | false =>
      apply meets_perform hsafe
      intro dstF _
      cases dstF with
      | false => exact hsafe
      | true =>
        have hafter : (after d (.fopenWrite .dst tagfile) true).files =
            update d.files tagfile (some []) := rfl
        exact h.truncated hne rfl hafter
    | true =>
      have hread : Safe tagfile old new files₀ (after d (.fopenRead .src otags) true) :=
        ⟨hsafe.tags, h.others⟩
      apply meets_perform hread
      intro dstF _
      cases dstF with
      | false => exact hread
      | true =>
        obtain ⟨hmoving, hlen⟩ := opened_moving hne h
        apply meets_pfatalIf hmoving.safe
        intro _
        apply meets_pfatalIf hmoving.safe
        intro _
        apply meets_then (copyBytes_meets hne hmoving (Nat.lt_of_le_of_lt hlen hn))
        intro d' hd'
        apply meets_perform hd'.safe
        intro a _
        have hclose : after d' (.fclose .src) a = d' := by
          simp only [after, hd'.src]
        rw [hclose]
        apply meets_pfatalIf hd'.safe
        intro _
        apply meets_perform hd'.safe
        intro a _
        cases a with
        | some k => exact hd'.cut hne k
        | none =>
          apply meets_perform hd'.safe
          intro ok _
          cases ok with
          | false => exact hd'.safe
          | true => exact hd'.unlinked hne

theorem opened_copying (hne : tagfile ≠ otags) {f : CString} (hold : d.files tagfile = some old)
    (hothers : ∀ name, name ≠ tagfile → name ≠ otags → d.files name = files₀ name) :
    Copying tagfile old (cleaned f old) files₀ (patternOf f).bytes
        (after (after d (.fopenWrite .otags otags) true) (.fopenRead .tag tagfile) true) ∧
      (after (after d (.fopenWrite .otags otags) true) (.fopenRead .tag tagfile) true).rest .tag =
        old := by
  have hd : after (after d (.fopenWrite .otags otags) true) (.fopenRead .tag tagfile) true =
      { d with
        files := update d.files otags (some [])
        rest := update d.rest .tag (((update d.files otags (some [])) tagfile).getD [])
        name := update (update d.name .otags (some otags)) .tag none
        failed := update (update d.failed .otags false) .tag false } := rfl
  have hrest : ((update d.files otags (some [])) tagfile).getD [] = old := by
    rw [update_of_ne hne, hold]
    rfl
  rw [hd, hrest]
  refine ⟨⟨⟨(update_of_ne hne _ _).trans hold, ?_⟩, ⟨?_, ?_⟩, Or.inr ?_, ?_⟩, ?_⟩
  · intro name h1 h2
    exact (update_of_ne h2 _ _).trans (hothers name h1 h2)
  · dsimp only
    rw [update_of_ne (by decide), update_self]
  · dsimp only
    rw [update_self]
  · dsimp only
    rw [update_self, update_self]
    exact ⟨[], rfl, rfl⟩
  · dsimp only
    intro w hw
    rw [update_self] at hw
    obtain rfl := Option.some.inj hw
    rw [update_self, List.length_nil, Nat.zero_add]
    exact Nat.le_refl _
  · dsimp only
    rw [update_self]

theorem snprintf_pattern (f : CString) :
    snprintf (f.strlen + 5) (patternOf f).bytes = (patternOf f).bytes := by
  apply List.take_of_length_le
  have h := patternOf_strlen f
  rw [CString.strlen] at h
  omega

theorem cleanMatchedFileTag_meets (hne : tagfile ≠ otags) {f : CString} {n : Nat}
    (hold : d.files tagfile = some old)
    (hothers : ∀ name, name ≠ tagfile → name ≠ otags → d.files name = files₀ name)
    (hn : (Lines.lines nl old).length < n) (hn' : (cleaned f old).length < n) :
    (cleanMatchedFileTag n tagfile f).Meets (kernel (Safe tagfile old (cleaned f old) files₀))
      (Post (Safe tagfile old (cleaned f old) files₀) (Replaced tagfile (cleaned f old) files₀)) d := by
  have hb : Before tagfile old files₀ d := ⟨hold, hothers⟩
  apply meets_perform hb.safe
  intro otagsF _
  have hb₁ : Before tagfile old files₀ (after d (.fopenWrite .otags otags) otagsF) := by
    apply hb.congr hne
    intro name hname
    cases otagsF with
    | false => rfl
    | true => exact update_of_ne hname _ _
  apply meets_perform hb₁.safe
  intro tagF _
  have hb₂ : Before tagfile old files₀
      (after (after d (.fopenWrite .otags otags) otagsF) (.fopenRead .tag tagfile) tagF) := by
    apply hb₁.congr hne
    intro name hname
    cases tagF <;> rfl
  apply meets_pfatalIf hb₂.safe
  intro hotagsF
  apply meets_pfatalIf hb₂.safe
  intro htagF
  rw [Bool.not_eq_false'] at hotagsF htagF
  subst hotagsF htagF
  obtain ⟨hcopying, hrest⟩ := opened_copying (f := f) hne hold hothers
  rw [snprintf_pattern]
  apply meets_then (copyLines_meets hne hcopying (hrest ▸ hn))
  intro d' hd'
  have hsafe : Safe tagfile old (cleaned f old) files₀ d' := hd'.toBefore.safe
  apply meets_perform hsafe
  intro a _
  cases a with
  | some k =>
    have hcut : Before tagfile old files₀ (after d' (.fclose .otags) (some k)) := by
      apply hd'.toBefore.congr hne
      intro name hname
      simp only [after, hd'.opened.1]
      rw [update_of_ne hname]
    exact hcut.safe
  | none =>
    apply meets_perform hsafe
    intro a _
    have hclose : after d' (.fclose .tag) a = d' := by
      simp only [after, hd'.opened.2]
    rw [hclose]
    apply meets_pfatalIf hsafe
    intro _
    exact doMoveFile_meets hne hd' hn'

end

/-- Whichever calls fail in whichever order: wherever `clean_matched_file_tag` makes a call or
stops, all of the old tags or all of the new are in one of the two files and no other file has
changed; and where it returns, the new tags are in place and `OTAGS` is gone. The three failures
it has no eye for are the exception: a line that cannot be written, and a read that fails between
two lines or while the file is moved. -/
theorem tags_survive {tagfile : CString} (hne : tagfile ≠ otags) (f : CString) {d : Disk}
    {old : Content} (hold : d.files tagfile = some old) :
    ∃ N, ∀ n, N ≤ n → (cleanMatchedFileTag n tagfile f).Meets
      (kernel (Safe tagfile old (cleaned f old) d.files))
      (Post (Safe tagfile old (cleaned f old) d.files) (Replaced tagfile (cleaned f old) d.files)) d := by
  refine ⟨(Lines.lines nl old).length + (cleaned f old).length + 1, ?_⟩
  intro n hn
  apply cleanMatchedFileTag_meets hne hold
  · intro name _ _
    rfl
  · omega
  · omega

def oneTag : Disk :=
  ⟨update (fun _ => none) (.lit "tags") (some (CString.lit "f\ta.c\t1").bytes), fun _ => [],
    fun _ => none, fun _ => false, false⟩

theorem oneTag_tags : oneTag.files (.lit "tags") = some (CString.lit "f\ta.c\t1").bytes := by
  rw [oneTag]
  dsimp only
  rw [update_self]

theorem tags_survive_one : ∃ N, ∀ n, N ≤ n → (cleanMatchedFileTag n (.lit "tags") (.lit "a.c")).Meets
    (kernel (Safe (.lit "tags") (CString.lit "f\ta.c\t1").bytes
      (cleaned (.lit "a.c") (CString.lit "f\ta.c\t1").bytes) oneTag.files))
    (Post (Safe (.lit "tags") (CString.lit "f\ta.c\t1").bytes
        (cleaned (.lit "a.c") (CString.lit "f\ta.c\t1").bytes) oneTag.files)
      (Replaced (.lit "tags") (cleaned (.lit "a.c") (CString.lit "f\ta.c\t1").bytes) oneTag.files))
    oneTag :=
  have hne : CString.lit "tags" ≠ otags := by decide
  tags_survive hne (.lit "a.c") oneTag_tags

end PkgsrcPatches.Emacs.TagUpdate
