import PkgsrcPatches.Emacs.Modules

/-! A package's name read back: which Emacs a dependency settles on when it is asked
for by a pattern that begins with the prefix of the package that needs it. -/
namespace PkgsrcPatches.Emacs
open Lib

theorem glob_dash (ev : Word) (name : List Char) :
    globMatch (lits ev.chars ++ [.lit '-', .star]) name = true ↔ ev.chars ++ ['-'] <+: name := by
  have hpat : lits ev.chars ++ [.lit '-', .star] = lits (ev.chars ++ ['-']) ++ [.star] := by
    simp [lits]
  rw [hpat, globMatch_prefix]

theorem reqdFromName_dash (base : Word) (hbase : '-' ∉ base.chars) (rest : List Char) :
    reqdFromName (base.chars ++ '-' :: rest) = if base ∈ emacsVersionsAll then some base else none := by
  have hmatch : ∀ ev ∈ emacsVersionsAll,
      globMatch (lits ev.chars ++ [.lit '-', .star]) (base.chars ++ '-' :: rest) = true ↔ ev = base := by
    intro ev hev
    rw [glob_dash]
    constructor
    · intro h
      obtain ⟨t, ht⟩ := h
      rw [List.append_assoc] at ht
      exact Word.ext (append_dash_inj (versionsAll_chars ev hev).1 hbase ht).1
    · intro h
      exact ⟨rest, by rw [h, List.append_assoc]; rfl⟩
  unfold reqdFromName
  split
  · rename_i hall
    cases hfind : emacsVersionsAll.find?
        fun ev => globMatch (lits ev.chars ++ [.lit '-', .star]) (base.chars ++ '-' :: rest) with
    | none =>
      exact absurd ((hmatch base hall).mpr rfl) (List.find?_eq_none.mp hfind base hall)
    | some ev =>
      have hsome := List.find?_some hfind
      rw [(hmatch ev (List.mem_of_find?_eq_some hfind)).mp hsome]
  · rename_i hall
    rw [List.find?_eq_none]
    intro ev hev h
    exact hall ((hmatch ev hev).mp h ▸ hev)

/-- The version a name of GNU Emacs is read as, `EMACS_TYPE` taking its place when it is
of that Emacs. -/
def UserSettings.readBack (u : UserSettings) (v : Word) : Word :=
  match u.wanted with
  | some wanted => if stripNox v = stripNox wanted then wanted else stripNox v
  | none => stripNox v

theorem reqd_of_emacs (p : Package) (u : UserSettings) {v : Word} (hv : v ∈ emacsVersionsAll)
    (hf : emacsFlavor v = .emacs) (rest : List Char) :
    versionReqd u ⟨none, some (p.pkgnamePrefix v ++ rest)⟩ = some (u.readBack v) := by
  obtain ⟨hall, hplain, -⟩ := versionsAll_stripNox v hv
  have hname : reqdFromName (p.pkgnamePrefix v ++ rest) = some (stripNox v) := by
    rw [pkgnamePrefix_emacs p hf, List.append_assoc, List.cons_append,
      reqdFromName_dash _ (versionsAll_dash hv), if_pos hall]
  simp only [versionReqd, hname, UserSettings.readBack]
  cases u.wanted with
  | none => rfl
  | some wanted =>
    simp only [HOrElse.hOrElse, OrElse.orElse, Option.orElse, stripNox_of_plain hplain]
    split
    · rfl
    · rfl

theorem reqd_of_xemacs (p : Package) (u : UserSettings) {v : Word} (hf : emacsFlavor v = .xemacs)
    (rest : List Char) : versionReqd u ⟨none, some (p.pkgnamePrefix v ++ rest)⟩ = none := by
  have hname : reqdFromName (p.pkgnamePrefix v ++ rest) = none := by
    have hsplit : p.pkgnamePrefix v ++ rest = (Word.ofString "xemacs").chars ++ '-' :: rest := by
      rw [pkgnamePrefix_xemacs p hf]
      rfl
    rw [hsplit, reqdFromName_dash _ (by decide), if_neg (by decide)]
  simp only [versionReqd, hname]
  rfl

/-- What the dependency does when it is asked for by the name of a package built for `v`. -/
def settleByName (parent dep : Package) (u : UserSettings) (v : Word) (rest : PkgPattern) : Settled :=
  settle dep u ⟨none, some (parent.pkgnamePrefix v ++ rest.chars)⟩

def AcceptsName (parent dep : Package) (v : Word) : Prop :=
  ∃ w ∈ dep.versionsOk, dep.pkgnamePrefix w = parent.pkgnamePrefix v

/-- It settles on a version of that name when it accepts one, and fails otherwise. -/
structure NameLeadsBack (parent dep : Package) (u : UserSettings) (v : Word) (rest : PkgPattern) :
    Prop where
  found : AcceptsName parent dep v →
    (settleByName parent dep u v rest).failReason = none ∧
      (settleByName parent dep u v rest).type ∈ dep.versionsOk ∧
      dep.pkgnamePrefix (settleByName parent dep u v rest).type = parent.pkgnamePrefix v
  refused : ¬ AcceptsName parent dep v → (settleByName parent dep u v rest).failReason ≠ none

theorem acceptsName_emacs (parent dep : Package) {v : Word} (hv : v ∈ emacsVersionsAll)
    (hf : emacsFlavor v = .emacs) : AcceptsName parent dep v ↔ v ∈ dep.versionsOk := by
  constructor
  · intro h
    obtain ⟨w, hw, he⟩ := h
    exact (pkgnamePrefix_inj parent dep hv (dep.mem_all hw) hf).mp he.symm ▸ hw
  · intro h
    exact ⟨v, h, ((pkgnamePrefix_inj parent dep hv hv hf).mpr rfl).symm⟩

/-- A dependency that settles on none but its own versions is led back when the one it settles
on has the name, and when it fails only where none has. -/
theorem nameLeadsBack_of_settled (parent dep : Package) (u : UserSettings) (v : Word)
    (rest : PkgPattern)
    (hown : (settleByName parent dep u v rest).failReason = none →
      (settleByName parent dep u v rest).type ∈ dep.versionsOk) :
    NameLeadsBack parent dep u v rest ↔
      ((settleByName parent dep u v rest).failReason = none →
        dep.pkgnamePrefix (settleByName parent dep u v rest).type = parent.pkgnamePrefix v) ∧
      (AcceptsName parent dep v → (settleByName parent dep u v rest).failReason = none) := by
  constructor
  · intro h
    refine ⟨fun hnone => ?_, fun hyes => (h.found hyes).1⟩
    by_contra hne
    exact h.refused (fun hyes => hne (h.found hyes).2.2) hnone
  · intro h
    obtain ⟨hname, hfound⟩ := h
    refine ⟨fun hyes => ?_, fun hno hnone => hno ⟨_, hown hnone, hname hnone⟩⟩
    have hnone := hfound hyes
    exact ⟨hnone, hown hnone, hname hnone⟩

theorem readBack_ne_nil (u : UserSettings) {v : Word} (hv : v ∈ emacsVersionsAll) :
    (u.readBack v).chars.isEmpty = false := by
  have hne := (versionsAll_chars _ (versionsAll_stripNox v hv).1).2
  have hstrip : (stripNox v).chars.isEmpty = false := by
    simp [hne]
  unfold UserSettings.readBack
  cases u.wanted with
  | none => exact hstrip
  | some wanted =>
    dsimp only
    split
    · rename_i hs
      cases hw : wanted.chars with
      | cons c t => rfl
      | nil =>
        have hempty : (stripNox wanted).chars = [] := by
          unfold stripNox
          split
          · simp [Word.take, hw]
          · exact hw
        exact absurd (hs ▸ hempty) hne
    · exact hstrip

theorem settleByName_emacs (parent dep : Package) (u : UserSettings) {v : Word}
    (hv : v ∈ emacsVersionsAll) (hf : emacsFlavor v = .emacs) (rest : PkgPattern) :
    (u.readBack v ∈ dep.versionsOk → settleByName parent dep u v rest = ⟨u.readBack v, none⟩) ∧
      (u.readBack v ∉ dep.versionsOk → (settleByName parent dep u v rest).failReason ≠ none) := by
  have hreqd := reqd_of_emacs parent u hv hf rest.chars
  have hfilter : (some (u.readBack v)).filter (fun reqd => !reqd.chars.isEmpty) =
      some (u.readBack v) := by
    simp [Option.filter, readBack_ne_nil u hv]
  simp only [settleByName, settle, hreqd, hfilter]
  constructor
  · intro h
    rw [if_pos ((hasWord_iff _ _).mpr h)]
  · intro h
    rw [if_neg (fun hw => h ((hasWord_iff _ _).mp hw))]
    exact Option.some_ne_none _

theorem nameLeadsBack_emacs (parent dep : Package) (u : UserSettings) {v : Word}
    (hv : v ∈ emacsVersionsAll) (hf : emacsFlavor v = .emacs) (rest : PkgPattern) :
    NameLeadsBack parent dep u v rest ↔
      u.readBack v = v ∨ (v ∉ dep.versionsOk ∧ u.readBack v ∉ dep.versionsOk) := by
  obtain ⟨hin, hout⟩ := settleByName_emacs parent dep u hv hf rest
  by_cases hr : u.readBack v ∈ dep.versionsOk
  · rw [nameLeadsBack_of_settled parent dep u v rest (fun _ => by rw [hin hr]; exact hr), hin hr]
    have hname : dep.pkgnamePrefix (u.readBack v) = parent.pkgnamePrefix v ↔ u.readBack v = v := by
      rw [eq_comm, pkgnamePrefix_inj parent dep hv (dep.mem_all hr) hf, eq_comm]
    simp [hname, hr]
  · have hfail := hout hr
    rw [nameLeadsBack_of_settled parent dep u v rest (fun h => (hfail h).elim),
      acceptsName_emacs parent dep hv hf]
    constructor
    · intro h
      exact Or.inr ⟨fun hok => hfail (h.2 hok), hr⟩
    · intro h
      have hno : v ∉ dep.versionsOk := h.elim (fun he => he ▸ hr) And.left
      exact ⟨fun h => (hfail h).elim, fun hok => (hno hok).elim⟩

theorem settleByName_xemacs (parent dep : Package) (u : UserSettings) {v : Word}
    (hf : emacsFlavor v = .xemacs) (rest : PkgPattern) :
    settleByName parent dep u v rest = settle dep u ⟨none, none⟩ := by
  have hreqd := reqd_of_xemacs parent u hf rest.chars
  have hnone : versionReqd u ⟨none, none⟩ = none := rfl
  simp only [settleByName, settle, hreqd, hnone]

/-- The default where it is accepted, and otherwise the first version that is. -/
def Package.preferred (p : Package) (u : UserSettings) : Option Word :=
  (u.default.filter (hasWord p.versionsOk)) <|> p.versionsOk.head?

theorem settle_free (dep : Package) (u : UserSettings) :
    (dep.preferred u = none → (settle dep u ⟨none, none⟩).failReason ≠ none) ∧
      ∀ w, dep.preferred u = some w → w ∈ dep.versionsOk ∧ settle dep u ⟨none, none⟩ = ⟨w, none⟩ := by
  have hnone : (versionReqd u ⟨none, none⟩).filter (fun reqd => !reqd.chars.isEmpty) = none := rfl
  have hfirst : (dep.versionsOk.head? = none → (settle.firstOk dep).failReason ≠ none) ∧
      ∀ w, dep.versionsOk.head? = some w → w ∈ dep.versionsOk ∧ settle.firstOk dep = ⟨w, none⟩ := by
    unfold settle.firstOk
    cases dep.versionsOk with
    | nil => exact ⟨fun _ => Option.some_ne_none _, fun w h => by cases h⟩
    | cons v ok =>
      refine ⟨fun h => (by cases h), fun w h => ?_⟩
      obtain rfl := Option.some.inj h
      exact ⟨List.mem_cons_self, rfl⟩
  simp only [settle, hnone, Package.preferred]
  cases u.default with
  | none => exact hfirst
  | some d =>
    by_cases hd : hasWord dep.versionsOk d
    · simp only [Option.filter, hd, if_true]
      refine ⟨fun h => (by cases h), fun w h => ?_⟩
      obtain rfl := Option.some.inj h
      exact ⟨(hasWord_iff _ _).mp hd, rfl⟩
    · simp only [Option.filter, hd]
      exact hfirst

theorem nameLeadsBack_xemacs (parent dep : Package) (u : UserSettings) {v : Word}
    (hf : emacsFlavor v = .xemacs) (rest : PkgPattern) :
    NameLeadsBack parent dep u v rest ↔
      ∀ w, dep.preferred u = some w → emacsFlavor w = .xemacs := by
  obtain ⟨hfails, hsettles⟩ := settle_free dep u
  have hsettle := settleByName_xemacs parent dep u hf rest
  cases hp : dep.preferred u with
  | none =>
    have hfail := hfails hp
    rw [← hsettle] at hfail
    refine iff_of_true ?_ (fun w h => by cases h)
    rw [nameLeadsBack_of_settled parent dep u v rest (fun h => (hfail h).elim)]
    refine ⟨fun h => (hfail h).elim, ?_⟩
    intro hyes
    obtain ⟨w, hw, _⟩ := hyes
    have hnil : dep.versionsOk = [] := by
      cases hok : dep.versionsOk with
      | nil => rfl
      | cons v ok => simp [Package.preferred, hok] at hp
    exact absurd (hnil ▸ hw) List.not_mem_nil
  | some w =>
    obtain ⟨hown, hsettled⟩ := hsettles w hp
    rw [nameLeadsBack_of_settled parent dep u v rest (fun _ => by rw [hsettle, hsettled]; exact hown),
      hsettle, hsettled, pkgnamePrefix_eq_xemacs parent dep (dep.mem_all hown) hf]
    simp

/-- A name leads back exactly when, for GNU Emacs, the version read out of it is the one it
was made for or neither is accepted, and for XEmacs, of which the name says nothing, when
the version the dependency prefers is an XEmacs or it takes nothing. -/
theorem nameLeadsBack_iff (parent dep : Package) (u : UserSettings) (v : Word)
    (hv : v ∈ emacsVersionsAll) (rest : PkgPattern) :
    NameLeadsBack parent dep u v rest ↔
      match emacsFlavor v with
      | .emacs => u.readBack v = v ∨ (v ∉ dep.versionsOk ∧ u.readBack v ∉ dep.versionsOk)
      | .xemacs => ∀ w, dep.preferred u = some w → emacsFlavor w = .xemacs := by
  cases hf : emacsFlavor v with
  | emacs => exact nameLeadsBack_emacs parent dep u hv hf rest
  | xemacs => exact nameLeadsBack_xemacs parent dep u hf rest

theorem nameLeadsBack_nox : NameLeadsBack ⟨emacsVersionsAll, []⟩ ⟨emacsVersionsAll, []⟩
    ⟨some (.ofString "emacs30nox"), none⟩ (.ofString "emacs30nox") ⟨['f'], rfl⟩ :=
  (nameLeadsBack_iff ⟨emacsVersionsAll, []⟩ ⟨emacsVersionsAll, []⟩
    ⟨some (.ofString "emacs30nox"), none⟩ (.ofString "emacs30nox") (by decide) ⟨['f'], rfl⟩).mpr
    (Or.inl (by decide))

/-- With `EMACS_TYPE=emacs29` it leads to emacs30. -/
theorem nox_name_leads_to_x11 : ¬ NameLeadsBack ⟨[.ofString "emacs30nox"], []⟩ ⟨emacsVersionsAll, []⟩
    ⟨some (.ofString "emacs29"), none⟩ (.ofString "emacs30nox") ⟨['f'], rfl⟩ := by
  intro h
  have hyes : AcceptsName ⟨[.ofString "emacs30nox"], []⟩ ⟨emacsVersionsAll, []⟩
      (.ofString "emacs30nox") := ⟨.ofString "emacs30nox", by decide +kernel, by decide⟩
  have hpre := (h.found hyes).2.2
  revert hpre
  decide +kernel

end PkgsrcPatches.Emacs
