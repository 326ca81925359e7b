import PkgsrcPatches.Elisp.Stops

/-! Group numbers are the caller's: when the match data put back, and the
back-references left in the translation, mean the groups the caller numbered. -/
namespace PkgsrcPatches.Elisp

/-- Group `j` of the translation was put out for the caller's group `k`; both count the whole
match as group 0. -/
def Regexp.GroupOf (r : Regexp) (out : Marked) (j k : Nat) : Prop :=
  k ≤ r.captures ∧ (0 :: Mode.plain.openings out)[j]? = (0 :: r.places 0)[k]?

instance (r : Regexp) (out : Marked) (j k : Nat) : Decidable (r.GroupOf out j k) :=
  inferInstanceAs (Decidable (_ ∧ _))

/-- The caller's group has the bounds of the one group that was put out for it, or none. -/
def Regexp.SameBounds {α : Type} (r : Regexp) (out : Marked) (md md' : MatchData α) (k : Nat) : Prop :=
  (∃ j, r.GroupOf out j k ∧ (∀ i, r.GroupOf out i k → i = j) ∧ md'.group k = md.group j) ∨
    (∀ j, ¬r.GroupOf out j k) ∧ md'.group k = (none, none)

/-- A successful search with the translation reports no group that the text has not. -/
def Numbered (fold : Bool) (r : Regexp) : Prop :=
  e20NeedsTranslation fold r.text = true → ∀ out, e20Traced fold r.text = some out →
    (∀ (α : Type) (search : List Char → Option (MatchData α)) (md : MatchData α),
      search out.text = some md → md.length ≤ 2 * ((Mode.plain.openings out).length + 1) →
        ∃ md', e20Advise fold search r.text = some (some md') ∧ ∀ k, r.SameBounds out md md' k) ∧
    ∀ n ∈ Mode.plain.references out, r.GroupOf out n n ∧ ∀ i, r.GroupOf out i n → i = n

/-- In front of a capturing group as many groups are put out as are recorded, and in front of
one that a back-reference names none but capturing ones. -/
structure Regexp.Aligned (fold : Bool) (r : Regexp) : Prop where
  recorded : ∀ pre post, r.openers fold = pre ++ .capturing :: post → width pre = pre.length
  refs : ∀ n ∈ r.refs, ∀ pre post, r.openers fold = pre ++ .capturing :: post →
    captured pre + 1 = n → width pre = captured pre

variable {fold : Bool} {r : Regexp}

theorem captured_lt {pre post : List Opener} (hops : r.openers fold = pre ++ .capturing :: post) :
    captured pre + 1 ≤ r.captures := by
  rw [← captures_eq fold, hops, captured_append, captured_cons, if_pos rfl]
  omega

theorem groupOf_zero {out : Marked} (hopen : Mode.plain.openings out = opened (r.located fold 0))
    (j : Nat) : r.GroupOf out j 0 ↔ j = 0 := by
  rw [Regexp.GroupOf, hopen]
  cases j with
  | zero => exact iff_of_true ⟨Nat.zero_le _, rfl⟩ rfl
  | succ j =>
    refine iff_of_false (fun h => ?_) (Nat.succ_ne_zero j)
    obtain ⟨e, he, hzero⟩ := mem_opened (List.mem_of_getElem? h.2)
    have hpos := (r.located_bounds fold 0 e he).1
    omega

theorem groupOf_split {out : Marked} (hopen : Mode.plain.openings out = opened (r.located fold 0))
    {pre post : List Opener} (hops : r.openers fold = pre ++ .capturing :: post) (j : Nat) :
    r.GroupOf out j (captured pre + 1) ↔ j = width pre + 1 := by
  obtain ⟨p, hp, hplace, hat⟩ := r.located_split fold hops
  rw [Regexp.GroupOf, hopen, List.getElem?_cons_succ, hplace]
  cases j with
  | zero =>
    refine iff_of_false (fun h => ?_) (Nat.succ_ne_zero _).symm
    have hzero : 0 = p := Option.some.inj h.2
    omega
  | succ j =>
    rw [List.getElem?_cons_succ, hat, Nat.add_right_cancel_iff]
    exact and_iff_right (captured_lt hops)

theorem e20Advise_translated {α : Type} (hneeds : e20NeedsTranslation fold r.text = true)
    {out : List Char} {groups : List (Option Nat)}
    (htext : e20Translate fold r.text = some (out, groups))
    {search : List Char → Option (MatchData α)} {md : MatchData α} (hsearch : search out = some md) :
    e20Advise fold search r.text = (e20FixMatchData groups md).map some := by
  simp only [e20Advise, hneeds, if_true, htext, hsearch]

theorem refs_pos {n : Nat} (h : n ∈ r.refs) : 0 < n := by
  induction r with
  | nil => cases h
  | leaf l s rest ih =>
    cases List.mem_append.mp h with
    | inr h => exact ih h
    | inl h =>
      split at h
      · cases h
      · cases l with
        | escape c =>
          simp only [Leaf.refs] at h
          split at h
          · rename_i hdigit
            rw [List.mem_singleton.mp h]
            have hone : '1'.toNat = 49 := rfl
            have hzero : '0'.toNat = 48 := rfl
            omega
          · cases h
        | char c => cases h
        | coded k c => cases h
        | bracket b => cases h
  | group k body s rest ihbody ih =>
    cases List.mem_append.mp h with
    | inr h => exact ih h
    | inl h =>
      split at h
      · cases h
      · exact ihbody h
  | bar rest ih => exact ih h

/-- Bounds that tell all groups apart. -/
def distinct (n : Nat) : MatchData Nat := (List.range n).map some

theorem distinct_group {n k : Nat} (h : 2 * k < n) : (distinct n).nth (2 * k) = some (2 * k) := by
  simp [distinct, MatchData.nth, List.getD_eq_getElem?_getD, h]

theorem fixed_group {α : Type} {md md' : MatchData α}
    (hfix : e20FixMatchData (r.recorded fold 0) md = some md') {pre post : List Opener}
    (hops : r.openers fold = pre ++ .capturing :: post) :
    md'.group (captured pre + 1) = md.group (pre.length + 1) := by
  rw [recorded_eq, hops] at hfix
  obtain ⟨md₁, hfix₁, _, hput⟩ := e20FixMatchData_spec md (pre ++ .capturing :: post)
  rw [hfix] at hfix₁
  obtain rfl := Option.some.inj hfix₁
  exact hput _ _ (recordedBy_split pre post)

theorem needs_of_opens {l : Leaf} (h : l.opens fold ≠ []) :
    e20NeedsTranslation fold l.text = true := by
  cases l with
  | bracket b =>
    simp only [Leaf.opens] at h
    split at h
    · exact needs_of_classPath ‹b.OnClassPath fold ∧ _›.1
    · exact (h rfl).elim
  | char c => exact (h rfl).elim
  | escape c => exact (h rfl).elim
  | coded k c => exact (h rfl).elim

theorem openers_capturing (h : e20NeedsTranslation fold r.text = false) :
    ∀ o ∈ r.openers fold, o = .capturing := by
  induction r with
  | nil => exact fun o ho => by cases ho
  | leaf l s rest ih =>
    rw [Regexp.text] at h
    obtain ⟨hleaf, hrest⟩ := needs_append_false h
    have hl : l.opens fold = [] := by
      by_contra hne
      rw [needs_of_opens hne] at hleaf
      cases hleaf
    intro o ho
    rw [Regexp.openers, Leaf.openers, if_pos hl, List.nil_append] at ho
    exact ih (needs_append_false hrest).2 o ho
  | group k body s rest ihbody ih =>
    have hk : k.opener = .capturing := by
      cases k with
      | capturing => rfl
      | shy => simp [Regexp.text, Kind.text, e20NeedsTranslation, usesNew] at h
    rw [Regexp.text] at h
    obtain ⟨hbody, hclosed⟩ := needs_append_false (needs_append_false h).2
    have hrest := (needs_append_false (u := '\\' :: ')' :: s.text) (v := rest.text) hclosed).2
    intro o ho
    rw [Regexp.openers, hk] at ho
    cases List.mem_cons.mp ho with
    | inl ho => exact ho
    | inr ho => exact (List.mem_append.mp ho).elim (ihbody hbody o) (ih hrest o)
  | bar rest ih => exact ih (needs_append_false (u := ['\\', '|']) (v := rest.text) h).2

theorem width_capturing {ops : List Opener} (h : ∀ o ∈ ops, o = .capturing) :
    width ops = ops.length ∧ captured ops = ops.length := by
  induction ops with
  | nil => exact ⟨rfl, rfl⟩
  | cons o ops ih =>
    obtain ⟨hwidth, hcaptured⟩ := ih fun o ho => h o (List.mem_cons_of_mem _ ho)
    have ho := h o List.mem_cons_self
    subst ho
    rw [width] at hwidth
    refine ⟨?_, ?_⟩
    · simp only [width, List.map_cons, List.sum_cons, hwidth, Opener.width, List.length_cons]
      omega
    · simp only [captured_cons, if_true, hcaptured, List.length_cons]
      omega

theorem aligned_of_untranslated (h : e20NeedsTranslation fold r.text = false) :
    r.Aligned fold := by
  have hall := openers_capturing h
  have hpre : ∀ pre post, r.openers fold = pre ++ .capturing :: post →
      width pre = pre.length ∧ captured pre = pre.length := by
    intro pre post hops
    refine width_capturing fun o ho => hall o ?_
    rw [hops]
    exact List.mem_append_left _ ho
  constructor
  · intro pre post hops
    exact (hpre pre post hops).1
  · intro n _ pre post hops _
    rw [(hpre pre post hops).1, (hpre pre post hops).2]

theorem distinct_length (n : Nat) : (distinct n).length = n := by simp [distinct]

theorem distinct_beyond {n k : Nat} (h : n ≤ k) : (distinct n).nth k = none := by
  simp [distinct, MatchData.nth, List.getD_eq_getElem?_getD, h]

theorem openings_length {out : Marked} (hopen : Mode.plain.openings out = opened (r.located fold 0)) :
    (Mode.plain.openings out).length = width (r.openers fold) := by
  rw [hopen, opened_length, r.located_openers]

theorem width_lt {ops pre post : List Opener} (hops : ops = pre ++ .capturing :: post) :
    width pre + 1 ≤ width ops := by
  rw [hops]
  simp [width, Opener.width]

section Followed
variable (hwf : r.Wf .emacs21 .first) (hf : r.Followed fold .nothing) (hno : ¬r.Stops fold .nothing)
include hwf hf hno

theorem aligned_recorded (hneeds : e20NeedsTranslation fold r.text = true) (h : Numbered fold r)
    {pre post : List Opener} (hops : r.openers fold = pre ++ .capturing :: post) :
    width pre = pre.length := by
  obtain ⟨out, htraced, htext, hopen, -⟩ := e20Traced_followed hwf hf hno
  -- a search that reports a different number for every bound
  let N := (Mode.plain.openings out).length + 1
  obtain ⟨md', hadvise, hgroup⟩ := (h hneeds out htraced).1 Nat (fun _ => some (distinct (2 * N))) _ rfl
    (by rw [distinct_length])
  rw [e20Advise_translated hneeds htext rfl] at hadvise
  obtain ⟨md₁, hfix, hmd⟩ := Option.map_eq_some_iff.mp hadvise
  obtain rfl := Option.some.inj hmd
  have hat := groupOf_split hopen hops
  obtain ⟨j, hj, -, hsame⟩ | ⟨hnone, -⟩ := hgroup (captured pre + 1)
  · rw [hat] at hj
    subst hj
    rw [fixed_group hfix hops] at hsame
    have hfirst := congrArg Prod.fst hsame
    have hlt : width pre + 1 < N := Nat.lt_succ_of_le (openings_length hopen ▸ width_lt hops)
    simp only [MatchData.group] at hfirst
    rw [distinct_group (k := width pre + 1) (by omega)] at hfirst
    by_cases hin : pre.length + 1 < N
    · rw [distinct_group (by omega)] at hfirst
      have heq := Option.some.inj hfirst
      omega
    · rw [distinct_beyond (by omega)] at hfirst
      cases hfirst
  · exact (hnone _ ((hat _).mpr rfl)).elim

theorem aligned_refs (hneeds : e20NeedsTranslation fold r.text = true) (h : Numbered fold r) {n : Nat}
    (hn : n ∈ r.refs) {pre post : List Opener} (hops : r.openers fold = pre ++ .capturing :: post)
    (hpre : captured pre + 1 = n) : width pre = captured pre := by
  obtain ⟨out, htraced, -, hopen, hrefs⟩ := e20Traced_followed hwf hf hno
  have hgroup := ((h hneeds out htraced).2 n ((hrefs n).mpr hn)).1
  rw [← hpre, groupOf_split hopen hops] at hgroup
  omega

omit hwf hf hno in
theorem bounds_of_aligned {out : Marked} (hopen : Mode.plain.openings out = opened (r.located fold 0))
    (h : r.Aligned fold) {α : Type} {md md' : MatchData α}
    (hfix : e20FixMatchData (r.recorded fold 0) md = some md') (k : Nat) :
    r.SameBounds out md md' k := by
  by_cases hk0 : k = 0
  · subst hk0
    obtain ⟨md₁, hfix₁, hzero, _⟩ := e20FixMatchData_spec md (r.openers fold)
    rw [← recorded_eq, hfix] at hfix₁
    obtain rfl := Option.some.inj hfix₁
    exact Or.inl ⟨0, (groupOf_zero hopen 0).mpr rfl, fun i hi => (groupOf_zero hopen i).mp hi, hzero⟩
  by_cases hk : k ≤ r.captures
  · rw [← captures_eq fold] at hk
    obtain ⟨pre, post, hops, rfl⟩ := exists_split (Nat.pos_of_ne_zero hk0) hk
    refine Or.inl ⟨width pre + 1, (groupOf_split hopen hops _).mpr rfl,
      fun i hi => (groupOf_split hopen hops i).mp hi, ?_⟩
    rw [fixed_group hfix hops, h.recorded pre post hops]
  · refine Or.inr ⟨fun j hj => hk hj.1, MatchData.group_of_length_le ?_⟩
    rw [e20FixMatchData_length hfix, recorded_eq, e20Max_recordedBy, captures_eq]
    omega

theorem numbered_of_aligned (hrefs : ∀ n ∈ r.refs, n ≤ r.captures) (h : r.Aligned fold) :
    Numbered fold r := by
  intro hneeds out htraced
  obtain ⟨out', htraced', htext, hopen, hback⟩ := e20Traced_followed hwf hf hno
  rw [htraced] at htraced'
  obtain rfl := Option.some.inj htraced'
  refine ⟨?_, ?_⟩
  · intro α search md hsearch _
    obtain ⟨md', hfix, _⟩ := e20FixMatchData_spec md (r.openers fold)
    rw [← recorded_eq] at hfix
    exact ⟨md', by rw [e20Advise_translated hneeds htext hsearch, hfix]; rfl,
      bounds_of_aligned hopen h hfix⟩
  · intro n hn
    have hn' := (hback n).mp hn
    have hle := hrefs n hn'
    rw [← captures_eq fold] at hle
    obtain ⟨pre, post, hops, rfl⟩ := exists_split (refs_pos hn') hle
    rw [groupOf_split hopen hops, h.refs _ hn' pre post hops rfl]
    refine ⟨rfl, fun i hi => ?_⟩
    rwa [groupOf_split hopen hops, h.refs _ hn' pre post hops rfl] at hi

end Followed

theorem numbered_of_stops (hwf : r.Wf .emacs21 .first) (hf : r.Followed fold .nothing)
    (hs : r.Stops fold .nothing) : Numbered fold r := by
  intro _ out htraced
  have htext := e20Traced_text fold r.text
  rw [htraced, translate_stops hwf hf hs] at htext
  cases htext

/-- Where the code follows the regexp, the numbers are the caller's exactly on the aligned ones. -/
theorem numbered_iff_aligned (hwf : r.Wf .emacs21 .first)
    (hf : e20NeedsTranslation fold r.text = true → r.Followed fold .nothing)
    (hrefs : ∀ n ∈ r.refs, n ≤ r.captures) :
    Numbered fold r ↔ r.Stops fold .nothing ∨ r.Aligned fold := by
  cases hneeds : e20NeedsTranslation fold r.text with
  | false =>
    refine iff_of_true (fun h => ?_) (Or.inr (aligned_of_untranslated hneeds))
    rw [hneeds] at h
    cases h
  | true =>
    have hf' := hf hneeds
    by_cases hs : r.Stops fold .nothing
    · exact iff_of_true (numbered_of_stops hwf hf' hs) (Or.inl hs)
    · rw [or_iff_right hs]
      exact ⟨fun h => ⟨fun _ _ hops => aligned_recorded hwf hf' hs hneeds h hops,
        fun _ hn _ _ hops hpre => aligned_refs hwf hf' hs hneeds h hn hops hpre⟩,
        numbered_of_aligned hwf hf' hs hrefs⟩

/-- `\(?:x\)\(a\)\1`. -/
def shyRef : Regexp :=
  .group .shy (.leaf (.char 'x') (.ops []) .nil) (.ops [])
    (.group .capturing (.leaf (.char 'a') (.ops []) .nil) (.ops [])
      (.leaf (.escape '1') (.ops []) .nil))

theorem shyRef_followed : shyRef.Followed true .nothing := by decide

theorem numbered_iff_aligned_shyRef :
    (shyRef.Wf .emacs21 .first ∧ (e20NeedsTranslation true shyRef.text = true ∧
      shyRef.Followed true .nothing) ∧ ∀ n ∈ shyRef.refs, n ≤ shyRef.captures) ∧
      (Numbered true shyRef ↔ shyRef.Stops true .nothing ∨ shyRef.Aligned true) := by
  have hwf : shyRef.Wf .emacs21 .first := by decide
  have hrefs : ∀ n ∈ shyRef.refs, n ≤ shyRef.captures := by decide
  exact ⟨⟨hwf, ⟨by decide, shyRef_followed⟩, hrefs⟩,
    numbered_iff_aligned hwf (fun _ => shyRef_followed) hrefs⟩

/-- `[[:alpha:]]\{2\}\(a\)`. -/
def alphaTwice : Regexp :=
  .leaf (.bracket ⟨false, [.cls "alpha".toList]⟩)
    (.interval (.exactly (.single 2)))
    (.group .capturing (.leaf (.char 'a') (.ops []) .nil) (.ops []) .nil)

theorem alphaTwice_openers : alphaTwice.openers true = [.cls 2] ++ .capturing :: [] := by decide

theorem alphaTwice_followed : alphaTwice.Followed true .nothing := by decide

/-- A reference behind a shy group is to the shy group, and a class repeated twice shifts the
groups behind it. -/
theorem numbers_shift : shyRef.text = "\\(?:x\\)\\(a\\)\\1".toList ∧
    alphaTwice.text = "[[:alpha:]]\\\x7b2\\\x7d\\(a\\)".toList ∧
    (shyRef.Wf .emacs21 .first ∧ alphaTwice.Wf .emacs21 .first) ∧
    ¬Numbered true shyRef ∧ ¬Numbered true alphaTwice := by
  have hshy : shyRef.Wf .emacs21 .first := by decide
  have htwice : alphaTwice.Wf .emacs21 .first := by decide
  refine ⟨by decide, by decide, ⟨hshy, htwice⟩, ?_, ?_⟩
  · intro h
    have hops : shyRef.openers true = [.shy] ++ .capturing :: [] := by decide
    have hwidth := aligned_refs hshy shyRef_followed (by decide) (by decide) h (n := 1) (by decide)
      hops rfl
    exact absurd hwidth (by decide)
  · intro h
    have hwidth := aligned_recorded htwice alphaTwice_followed (by decide) (by decide) h
      alphaTwice_openers
    exact absurd hwidth (by decide)

end PkgsrcPatches.Elisp
