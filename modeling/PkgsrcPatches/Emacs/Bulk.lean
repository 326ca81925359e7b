import Mathlib.Data.List.Pairwise
import PkgsrcPatches.Emacs.Modules

/-! The list a bulk build walks, beside the names its packages get. -/
namespace PkgsrcPatches.Emacs
open Lib

theorem settle_reqd (p : Package) (u : UserSettings) {v : Word} (hv : v ∈ p.versionsOk) :
    settle p u ⟨some v, none⟩ = ⟨v, none⟩ := by
  have hne : v.chars.isEmpty = false := by
    simp [(versionsAll_chars v (p.mem_all hv)).2]
  have hreqd : (versionReqd u ⟨some v, none⟩).filter (fun reqd => !reqd.chars.isEmpty) = some v := by
    simp [versionReqd, Option.filter, hne]
  rw [settle, hreqd]
  exact if_pos ((hasWord_iff _ _).mpr hv)

/-- The prefix of the package a bulk build makes when it asks for `v`. -/
def Package.bulkPrefix (p : Package) (u : UserSettings) (v : Word) : List Char :=
  p.pkgnamePrefix (settle p u ⟨some v, none⟩).type

theorem Package.bulkPrefix_eq (p : Package) (u : UserSettings) {v : Word} (hv : v ∈ p.versionsOk) :
    p.bulkPrefix u v = p.pkgnamePrefix v := by
  rw [Package.bulkPrefix, settle_reqd p u hv]

/-- One entry for each name, none missing, the default among them. -/
structure Package.BulkOneEach (p : Package) (u : UserSettings) : Prop where
  distinct : p.versionsBulk.Pairwise fun v w => p.bulkPrefix u v ≠ p.bulkPrefix u w
  covered : ∀ v ∈ p.versionsOk, ∃ w ∈ p.versionsBulk, p.bulkPrefix u w = p.bulkPrefix u v
  default : ∀ d ∈ u.default, d ∈ p.versionsOk → ∃ b ∈ p.bulkDefault u, b ∈ p.versionsBulk

theorem Package.mem_versionsBulk (p : Package) (v : Word) :
    v ∈ p.versionsBulk ↔ v ∈ p.versionsOk ∧ (isNox v = true → stripNox v ∉ p.versionsOk) := by
  rw [Package.versionsBulk, List.mem_filter, Bool.or_eq_true, Bool.not_eq_true', Bool.not_eq_true',
    hasWord_eq_false, ← Bool.not_eq_true]
  constructor
  · intro h
    exact ⟨h.1, fun hn => h.2.resolve_left fun hc => hc hn⟩
  · intro h
    by_cases hn : isNox v = true
    · exact ⟨h.1, Or.inr (h.2 hn)⟩
    · exact ⟨h.1, Or.inl hn⟩

theorem Package.bulk_of_series (p : Package) {v : Word} (hv : v ∈ p.versionsOk) :
    ∃ w ∈ p.versionsBulk, stripNox w = stripNox v ∧ emacsFlavor w = emacsFlavor v := by
  obtain ⟨-, hplain, hflavor⟩ := versionsAll_stripNox v (p.mem_all hv)
  by_cases hb : v ∈ p.versionsBulk
  · exact ⟨v, hb, rfl, rfl⟩
  · have hfold : stripNox v ∈ p.versionsOk := by
      by_contra hn
      exact hb ((p.mem_versionsBulk v).mpr ⟨hv, fun _ => hn⟩)
    refine ⟨stripNox v, (p.mem_versionsBulk _).mpr ⟨hfold, fun hn => absurd hn (by simp [hplain])⟩,
      stripNox_of_plain hplain, hflavor⟩

theorem Package.bulk_unique (p : Package) {v w : Word} (hv : v ∈ p.versionsBulk)
    (hw : w ∈ p.versionsBulk) (hs : stripNox v = stripNox w) : v = w := by
  obtain ⟨hvok, hvfold⟩ := (p.mem_versionsBulk v).mp hv
  obtain ⟨hwok, hwfold⟩ := (p.mem_versionsBulk w).mp hw
  cases hnv : isNox v with
  | true =>
    cases hnw : isNox w with
    | true => exact eq_of_stripNox hs (hnv.trans hnw.symm)
    | false =>
      rw [stripNox_of_plain hnw] at hs
      exact absurd (hs ▸ hwok) (hvfold hnv)
  | false =>
    cases hnw : isNox w with
    | true =>
      rw [stripNox_of_plain hnv] at hs
      exact absurd (hs ▸ hvok) (hwfold hnw)
    | false => exact eq_of_stripNox hs (hnv.trans hnw.symm)

theorem Package.bulk_default (p : Package) (u : UserSettings) {d : Word} (hd : u.default = some d)
    (hok : d ∈ p.versionsOk) : ∃ b ∈ p.bulkDefault u, b ∈ p.versionsBulk := by
  have hplain := (versionsAll_stripNox d (p.mem_all hok)).2.1
  rw [Package.bulkDefault, hd]
  by_cases hfold : isNox d ∧ hasWord p.versionsBulk (stripNox d)
  · exact ⟨stripNox d, if_pos hfold, (hasWord_iff _ _).mp hfold.2⟩
  · refine ⟨d, if_neg hfold, (p.mem_versionsBulk d).mpr ⟨hok, ?_⟩⟩
    intro hn hs
    refine hfold ⟨hn, (hasWord_iff _ _).mpr ((p.mem_versionsBulk _).mpr ⟨hs, ?_⟩)⟩
    intro hc
    exact absurd hc (by simp [hplain])

/-- Neither are both builds of a GNU Emacs accepted, nor both series of XEmacs. -/
def Package.NoSharedName (p : Package) : Prop :=
  (∀ v ∈ p.versionsOk, emacsFlavor v = .emacs → isNox v = true → stripNox v ∉ p.versionsOk) ∧
    ∀ v ∈ p.versionsOk, ∀ w ∈ p.versionsOk, emacsFlavor v = .xemacs → emacsFlavor w = .xemacs →
      stripNox v = stripNox w

theorem Package.bulkOneEach_iff (p : Package) (u : UserSettings) :
    p.BulkOneEach u ↔ p.NoSharedName := by
  have hbulkOk : ∀ v ∈ p.versionsBulk, v ∈ p.versionsOk := fun v hv =>
    ((p.mem_versionsBulk v).mp hv).1
  constructor
  · intro h
    refine ⟨?_, ?_⟩
    · intro v hv hf hn hs
      obtain ⟨w, hw, he⟩ := h.covered v hv
      rw [p.bulkPrefix_eq u hv, p.bulkPrefix_eq u (hbulkOk w hw), eq_comm] at he
      have hvw := (pkgnamePrefix_inj p p (p.mem_all hv) (p.mem_all (hbulkOk w hw)) hf).mp he
      exact ((p.mem_versionsBulk v).mp (hvw ▸ hw)).2 hn hs
    · intro v hv w hw hfv hfw
      obtain ⟨a, ha, has, haf⟩ := p.bulk_of_series hv
      obtain ⟨b, hb, hbs, hbf⟩ := p.bulk_of_series hw
      rw [← has, ← hbs]
      by_contra hab
      have hpre : p.bulkPrefix u a = p.bulkPrefix u b := by
        rw [p.bulkPrefix_eq u (hbulkOk a ha), p.bulkPrefix_eq u (hbulkOk b hb),
          pkgnamePrefix_xemacs p (haf.trans hfv), pkgnamePrefix_xemacs p (hbf.trans hfw)]
      have hne : a ≠ b := fun he => hab (he ▸ rfl)
      have hsymm : Std.Symm fun v w => p.bulkPrefix u v ≠ p.bulkPrefix u w :=
        ⟨fun _ _ hxy => Ne.symm hxy⟩
      exact h.distinct.forall ha hb hne hpre
  · intro h
    obtain ⟨hpair, hseries⟩ := h
    refine ⟨?_, ?_, fun d hd hok => p.bulk_default u hd hok⟩
    · have hnodup : p.versionsBulk.Nodup := p.versionsOk_nodup.filter _
      refine hnodup.imp_of_mem ?_
      intro v w hv hw hne he
      rw [p.bulkPrefix_eq u (hbulkOk v hv), p.bulkPrefix_eq u (hbulkOk w hw)] at he
      cases hfv : emacsFlavor v with
      | emacs =>
        exact hne ((pkgnamePrefix_inj p p (p.mem_all (hbulkOk v hv)) (p.mem_all (hbulkOk w hw))
          hfv).mp he)
      | xemacs =>
        have hfw := (pkgnamePrefix_eq_xemacs p p (p.mem_all (hbulkOk w hw)) hfv).mp he.symm
        exact hne (p.bulk_unique hv hw (hseries v (hbulkOk v hv) w (hbulkOk w hw) hfv hfw))
    · intro v hv
      cases hfv : emacsFlavor v with
      | emacs => exact ⟨v, (p.mem_versionsBulk v).mpr ⟨hv, hpair v hv hfv⟩, rfl⟩
      | xemacs =>
        obtain ⟨w, hw, -, hf⟩ := p.bulk_of_series hv
        refine ⟨w, hw, ?_⟩
        rw [p.bulkPrefix_eq u hv, p.bulkPrefix_eq u (hbulkOk w hw)]
        exact (pkgnamePrefix_eq_xemacs p p (p.mem_all (hbulkOk w hw)) hfv).mpr (hf.trans hfv)

theorem bulk_misses_nox : ¬ (Package.mk emacsVersionsAll []).BulkOneEach ⟨none, none⟩ := by
  intro h
  obtain ⟨w, hw, he⟩ := h.covered (.ofString "emacs30nox") (by decide +kernel)
  revert w
  decide +kernel

end PkgsrcPatches.Emacs
