import PkgsrcPatches.Elisp.OldRegexp

/-! The advised searches, with the cache of translations between them, on the regexps that
use none of the new constructs. -/
namespace PkgsrcPatches.Elisp

/-- `e20-regexp-cache`. An entry may have been made under another `case-fold-search`. -/
structure Cache where
  entries : List (List Char × List Char × List (Option Nat))
  translated : ∀ e ∈ entries, ∃ fold, e20Translate fold e.1 = some e.2

namespace Cache

def empty : Cache := ⟨[], fun e he => by cases he⟩

def add (cache : Cache) (fold : Bool) (re : List Char) : Cache where
  entries := ((e20Translate fold re).map (re, ·)).toList ++ cache.entries
  translated e he := by
    cases List.mem_append.mp he with
    | inr he => exact cache.translated e he
    | inl he =>
      obtain ⟨tr, htr, rfl⟩ := Option.map_eq_some_iff.mp (Option.mem_toList.mp he)
      exact ⟨fold, htr⟩

end Cache

def e20Regexp (fold : Bool) (cache : Cache) (re : List Char) :
    Option (List Char × List (Option Nat)) × Cache :=
  if (cache.entries.lookup re).isSome then (cache.entries.lookup re, cache)
  else (e20Translate fold re, cache.add fold re)

/-- One call of an advised function, where `search` gives the value and the match data of a
successful search; the outer `none` is an error. -/
def e20AdviseCall {V α : Type} (fold : Bool) (search : List Char → Option (V × MatchData α))
    (cache : Cache) (re : List Char) : Option (Option (V × MatchData α)) × Cache :=
  if e20NeedsTranslation fold re then
    let found := e20Regexp fold cache re
    (found.1.bind fun tr => (search tr.1).elim (some none) fun m =>
      (e20FixMatchData tr.2 m.2).map fun md => some (m.1, md), found.2)
  else (some (search re), cache)

section Call
variable {V α : Type} {fold : Bool} {search : List Char → Option (V × MatchData α)}

theorem e20Regexp_translated (cache : Cache) (re : List Char) {tr : List Char × List (Option Nat)}
    (h : (e20Regexp fold cache re).1 = some tr) : ∃ fold', e20Translate fold' re = some tr := by
  rw [e20Regexp] at h
  split at h
  · obtain ⟨l₁, l₂, hsplit, -⟩ := List.lookup_eq_some_iff.mp h
    exact cache.translated (re, tr) (hsplit ▸ List.mem_append_right _ List.mem_cons_self)
  · exact ⟨fold, h⟩

end Call

/-! ### The same value and the same groups -/

/-- Both fail, or both succeed with the same value and the same bounds of every group. -/
def SameOutcome {V α : Type} : Option (V × MatchData α) → Option (V × MatchData α) → Prop :=
  Option.Rel fun m m' => m.1 = m'.1 ∧ ∀ k, m.2.group k = m'.2.group k

structure Casing where
  fold : Bool
  canon : Char → Char
  exact : fold = false → canon = id

/-- Whatever was searched for before, an advised search for the regexp does what the search
without advice does. -/
def Casing.Untouched (c : Casing) (r : Regexp) : Prop :=
  ∀ (V α : Type) (search : List Char → Option (V × MatchData α)) (cache : Cache),
    Documented c.canon search → ∃ m, (e20AdviseCall c.fold search cache r.text).1 = some m ∧
      SameOutcome m (search r.text)

theorem needs_of_bracket {fold : Bool} {r : Regexp} {b : Bracket} (hb : b ∈ r.brackets)
    (h : e20NeedsTranslation fold b.text = true) : e20NeedsTranslation fold r.text = true := by
  induction r with
  | nil => cases hb
  | leaf l s rest ih =>
    rw [Regexp.text]
    cases List.mem_append.mp hb with
    | inr hb => exact needs_append_left _ (needs_append_left _ (ih hb))
    | inl hb =>
      cases l with
      | bracket a => exact needs_append_right (List.mem_singleton.mp hb ▸ h) _
      | char c => cases hb
      | escape c => cases hb
      | coded k c => cases hb
  | group k body s rest ihbody ih =>
    rw [Regexp.text]
    refine needs_append_left _ ?_
    cases List.mem_append.mp hb with
    | inl hb => exact needs_append_right (ihbody hb) _
    | inr hb =>
      have hrest := needs_append_left ('\\' :: ')' :: s.text) (ih hb)
      exact needs_append_left _ hrest
  | bar rest ih => exact needs_append_left ['\\', '|'] (ih hb)

namespace Regexp.Old
variable {r : Regexp} {fold : Bool} {canon : Char → Char} {V α : Type}
  {search : List Char → Option (V × MatchData α)}

theorem translate_recast (hr : r.Old) (hfree : r.ColonFree fold) :
    e20Translate fold r.text =
      some ((r.recast (Bracket.readAs fold)).text, recordedBy 0 (r.openers fold)) := by
  have htr := (Regexp.tracked_iff hr.wf hr.onlyOld).mpr hfree
  rw [e20Translate_unroll hr.wf htr hr.onlyOld.noneNew, unroll_recast hr.wf, recorded_eq]

theorem group_eq (hr : r.Old) (hdoc : Documented canon search) {m m' : V × MatchData α}
    (hsearch : search r.text = some m)
    (hrel : ∀ k j, r.GroupAt (Bracket.readAs fold) k j → m.2.group k = m'.2.group j)
    {md : MatchData α} (hfix : e20FixMatchData (recordedBy 0 (r.openers fold)) m'.2 = some md)
    (k : Nat) : md.group k = m.2.group k := by
  obtain ⟨md₁, hfix₁, hzero, -⟩ := e20FixMatchData_spec m'.2 (r.openers fold)
  rw [hfix] at hfix₁
  obtain rfl := Option.some.inj hfix₁
  by_cases hk : k = 0
  · rw [hk, hzero, hrel 0 0 (Or.inl ⟨rfl, rfl⟩)]
  by_cases hle : k ≤ r.captures
  · rw [← captures_eq fold] at hle
    obtain ⟨pre, post, hops, rfl⟩ := exists_split (Nat.pos_of_ne_zero hk) hle
    rw [← recorded_eq] at hfix
    rw [fixed_group hfix hops, hrel _ _ (groupAt_split hr.wf hops)]
  · have hlen := e20FixMatchData_length hfix
    rw [e20Max_recordedBy, captures_eq] at hlen
    rw [hdoc.beyond r m hr.wf hsearch k (by omega), MatchData.group_of_length_le (by omega)]

theorem outcome (hr : r.Old) (hsame : ∀ fold, r.ColonFree fold → r.SameMeaning fold canon)
    (hdoc : Documented canon search) {tr : List Char × List (Option Nat)}
    (htr : e20Translate fold r.text = some tr) :
    ∃ m, ((search tr.1).elim (some none) fun m =>
      (e20FixMatchData tr.2 m.2).map fun md => some (m.1, md)) = some m ∧
        SameOutcome m (search r.text) := by
  have hfree : r.ColonFree fold := by
    by_contra hno
    rw [hr.translate_none hno] at htr
    cases htr
  rw [hr.translate_recast hfree] at htr
  obtain rfl := Option.some.inj htr
  have hrel := hdoc.recast _ r hr.wf (hr.recasts hfree (hsame fold hfree))
  cases hold : search r.text with
  | none =>
    rw [hold] at hrel
    cases hnew : search (r.recast (Bracket.readAs fold)).text with
    | none => exact ⟨none, rfl, .none⟩
    | some m' =>
      rw [hnew] at hrel
      cases hrel
  | some m =>
    rw [hold] at hrel
    cases hnew : search (r.recast (Bracket.readAs fold)).text with
    | none =>
      rw [hnew] at hrel
      cases hrel
    | some m' =>
      rw [hnew] at hrel
      obtain ⟨hgroups⟩ := hrel
      have hvalue : m'.1 = m.1 :=
        hdoc.value _ _ _ _ hnew hold (hgroups 0 0 (Or.inl ⟨rfl, rfl⟩)).symm
      obtain ⟨md, hfix, -⟩ := e20FixMatchData_spec m'.2 (r.openers fold)
      exact ⟨some (m'.1, md), by simp [hfix], .some ⟨hvalue, hr.group_eq hdoc hold hgroups hfix⟩⟩

theorem advised_none (hr : r.Old) (hno : ¬r.ColonFree fold) :
    (e20AdviseCall fold search Cache.empty r.text).1 = none := by
  have hneeds : e20NeedsTranslation fold r.text = true := by
    simp only [Regexp.ColonFree, not_forall] at hno
    obtain ⟨b, hb, hpath, -⟩ := hno
    exact needs_of_bracket hb (needs_of_classPath hpath)
  rw [e20AdviseCall, if_pos hneeds]
  simp [e20Regexp, Cache.empty, hr.translate_none hno]

end Regexp.Old

theorem documented_never (canon : Char → Char) {V α : Type} :
    Documented canon fun _ => (none : Option (V × MatchData α)) where
  recast _ _ _ _ := .none
  value _ _ _ _ h := by cases h
  beyond _ _ _ h := by cases h

/-- An advised search for a regexp without the new constructs does what the search without
advice does if and only if no error is signalled for a `[` before a colon, as long as what is
put in the place of the other bracket expressions means the same. -/
theorem old_untouched (c : Casing) {r : Regexp} (hr : r.Old) :
    (c.Untouched r → r.ColonFree c.fold) ∧
      ((∀ fold, r.ColonFree fold → r.SameMeaning fold c.canon) →
        (c.Untouched r ↔ r.ColonFree c.fold)) := by
  have herror : c.Untouched r → r.ColonFree c.fold := by
    intro h
    by_contra hno
    obtain ⟨m, hcall, -⟩ := h Unit Unit (fun _ => none) Cache.empty (documented_never c.canon)
    rw [hr.advised_none hno] at hcall
    cases hcall
  refine ⟨herror, fun hsame => ⟨herror, fun hfree V α search cache hdoc => ?_⟩⟩
  rw [e20AdviseCall]
  split
  · obtain ⟨tr, hfound⟩ : ∃ tr, (e20Regexp c.fold cache r.text).1 = some tr := by
      rw [e20Regexp]
      split
      · exact Option.isSome_iff_exists.mp ‹_›
      · exact ⟨_, hr.translate_recast hfree⟩
    obtain ⟨fold, htr⟩ := e20Regexp_translated cache r.text hfound
    simp only [hfound, Option.bind_some]
    exact hr.outcome hsame hdoc htr
  · refine ⟨_, rfl, ?_⟩
    cases search r.text with
    | none => exact .none
    | some m => exact .some ⟨rfl, fun _ => rfl⟩

def exactCase : Casing := ⟨false, id, fun _ => rfl⟩

def fooSet : Bracket := ⟨false, ":foo:".toList.map .char⟩

theorem fooSet_sameSet : fooSet.SameSet id where
  caret h := by
    have hno : ¬fooSet.holds e20Meaning '^' := by simp [fooSet, Bracket.holds, Item.holds]
    exact (hno h).elim
  far := by
    have hfar : ∀ x, ¬fooSet.Far x := by
      intro x h
      obtain ⟨i, hi, -⟩ := h
      have hnone : fooSet.extras = [] := by decide
      rw [hnone] at hi
      cases hi
    exact ⟨fun _ x h => (hfar x h).elim, fun _ _ => ⟨by decide, fun x h => (hfar x h).elim⟩⟩
  folded h := by cases h

def fooRegexp : Regexp := .leaf (.bracket fooSet) (.ops []) .nil

theorem old_untouched_foo : fooRegexp.text = "[:foo:]".toList ∧
    e20NeedsTranslation exactCase.fold fooRegexp.text = true ∧ exactCase.Untouched fooRegexp ∧
    ∀ (M : Engine Nat) (cache : Cache),
      ∃ m, (e20AdviseCall exactCase.fold (searchIn M) cache fooRegexp.text).1 = some m ∧
        SameOutcome m (searchIn M fooRegexp.text) := by
  have hold : fooRegexp.Old := ⟨by decide, by decide, by decide⟩
  have hsame : ∀ fold, fooRegexp.ColonFree fold → fooRegexp.SameMeaning fold exactCase.canon := by
    refine fun fold _ => ⟨fun b hb _ => ?_, fun n hn => by cases hn⟩
    obtain rfl := List.mem_singleton.mp hb
    exact fooSet_sameSet
  have huntouched := ((old_untouched exactCase hold).2 hsame).mpr (by decide)
  exact ⟨by decide, by decide, huntouched,
    fun M cache => huntouched _ _ _ cache (documented_searchIn M)⟩

/-- `[[:foo:]`. -/
def openFoo : Regexp := .leaf (.bracket ⟨false, "[:foo:".toList.map .char⟩) (.ops []) .nil

theorem openFoo_signals : openFoo.text = "[[:foo:]".toList ∧ openFoo.Old ∧
    (∀ (V α : Type) (search : List Char → Option (V × MatchData α)),
      (e20AdviseCall exactCase.fold search Cache.empty openFoo.text).1 = none) ∧
    ¬exactCase.Untouched openFoo := by
  have hold : openFoo.Old := ⟨by decide, by decide, by decide⟩
  have hno : ¬openFoo.ColonFree exactCase.fold := by decide
  refine ⟨by decide, hold, fun V α search => hold.advised_none hno, fun h => ?_⟩
  obtain ⟨m, hcall, -⟩ := h Unit Unit (fun _ => none) Cache.empty (documented_never id)
  rw [hold.advised_none hno] at hcall
  cases hcall

end PkgsrcPatches.Elisp
