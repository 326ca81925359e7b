import PkgsrcPatches.Lib.Glob

/-! The version decision of `modules.mk`: which Emacs a package is built for, what
its name begins with, and which versions a bulk build lists. -/
namespace PkgsrcPatches.Emacs
open Lib

def emacsVersionsAll : List Word :=
  ["emacs31", "emacs31nox", "emacs30", "emacs30nox", "emacs29", "emacs29nox", "emacs28",
    "emacs28nox", "emacs27", "emacs27nox", "emacs26", "emacs26nox", "emacs25", "emacs25nox",
    "emacs24", "emacs24nox", "emacs23", "emacs23nox", "emacs22", "emacs22nox", "emacs21",
    "emacs21nox", "emacs20", "xemacs215", "xemacs215nox", "xemacs214", "xemacs214nox"].map .ofString

def firstOfAll : Word := .ofString "emacs31"

def noxSuffix : Word := .ofString "nox"

def withNox (w : Word) : Word := w.append noxSuffix

def isNox (w : Word) : Bool := !(selectWords (.star :: lits noxSuffix.chars) [w]).isEmpty

def stripNox (w : Word) : Word :=
  if isNox w then w.take (w.chars.length - noxSuffix.chars.length) else w

inductive Flavor where
  | emacs | xemacs
deriving DecidableEq

def emacsFlavor (w : Word) : Flavor :=
  if (Word.ofString "xemacs").chars.isPrefixOf w.chars then .xemacs else .emacs

structure Package where
  versionsAccepted : List Word
  versionsIncompatible : List Word

/-- What the user sets; an unset variable expands to nothing. -/
structure UserSettings where
  emacsType : Option Word
  versionDefault : Option Word

/-- A package pattern: one word, whatever glob characters it has. -/
structure PkgPattern where
  chars : List Char
  oneWord : chars.all fun c => !c.isWhitespace

structure Request where
  versionReqd : Option Word
  pkgnameReqd : Option (List Char)

/-- `EMACS_VERSION_DEFAULT`, by default `EMACS_TYPE`. -/
def UserSettings.default (u : UserSettings) : Option Word := u.versionDefault <|> u.emacsType

def UserSettings.wanted (u : UserSettings) : Option Word := u.emacsType <|> u.default

def okCandidate (incompatible ok : List Word) (cand : Word) : List Word :=
  if hasWord emacsVersionsAll cand ∧ ¬ hasWord incompatible cand ∧ ¬ hasWord ok cand then
    ok ++ [cand]
  else ok

def Package.versionsOk (p : Package) : List Word :=
  p.versionsAccepted.foldl
    (fun ok ev => [ev, withNox ev].foldl (okCandidate p.versionsIncompatible) ok) []

def Package.versionsBulk (p : Package) : List Word :=
  p.versionsOk.filter fun ev => !isNox ev || !hasWord p.versionsOk (stripNox ev)

def Package.bulkDefault (p : Package) (u : UserSettings) : Option Word :=
  match u.default with
  | none => none
  | some d => if isNox d ∧ hasWord p.versionsBulk (stripNox d) then some (stripNox d) else some d

/-- The loop over the versions that reads one out of `PKGNAME_REQD`, the first match winning. -/
def reqdFromName (name : List Char) : Option Word :=
  emacsVersionsAll.find? fun ev => globMatch (lits ev.chars ++ [.lit '-', .star]) name

def versionReqd (u : UserSettings) (r : Request) : Option Word :=
  match r.pkgnameReqd with
  | none => r.versionReqd
  | some name => match r.versionReqd <|> reqdFromName name with
    | none => none
    | some reqd => match u.wanted with
      | none => some reqd
      | some wanted => if stripNox reqd = stripNox wanted then some wanted else some reqd

inductive FailReason where
  | noLongerHas (v : Word)
  | doesNotBuildWith (v : Word)
  | noneAccepted
deriving DecidableEq

structure Settled where
  type : Word
  failReason : Option FailReason
deriving DecidableEq

def settle (p : Package) (u : UserSettings) (r : Request) : Settled :=
  match (versionReqd u r).filter fun reqd => !reqd.chars.isEmpty with
  | some reqd =>
    if hasWord p.versionsOk reqd then ⟨reqd, none⟩
    else ⟨firstOfAll, some (if hasWord emacsVersionsAll reqd then .doesNotBuildWith reqd
      else .noLongerHas reqd)⟩
  | none => match u.default with
    | some d => if hasWord p.versionsOk d then ⟨d, none⟩ else firstOk
    | none => firstOk
where
  firstOk : Settled :=
    match p.versionsOk with
    | v :: _ => ⟨v, none⟩
    | [] => ⟨firstOfAll, some .noneAccepted⟩

def emacsVariant (type : Word) : List Char :=
  if emacsFlavor type = .emacs ∧ isNox type then "nox11".toList else []

def Package.pkgnamePrefix (p : Package) (type : Word) : List Char :=
  if emacsFlavor type = .xemacs then "xemacs-".toList
  else if emacsVariant type ≠ [] then
    (stripNox type).chars ++ "-".toList ++ emacsVariant type ++ "-".toList
  else if isNox type ∧ ¬ hasWord p.versionsOk (stripNox type) then
    (stripNox type).chars ++ "-nox11".toList ++ "-".toList
  else (stripNox type).chars ++ "-".toList

theorem isNox_iff (w : Word) : isNox w = true ↔ noxSuffix.chars <:+ w.chars := by
  have hglob := globMatch_suffix noxSuffix.chars w.chars
  by_cases h : globMatch (.star :: lits noxSuffix.chars) w.chars = true
  · simp only [isNox, selectWords, List.filter_cons, h, if_true, List.isEmpty_cons, Bool.not_false,
      true_iff]
    exact hglob.mp h
  · simp only [isNox, selectWords, List.filter_cons, h, List.filter_nil, if_false,
      List.isEmpty_nil, Bool.not_true, Bool.false_eq_true, false_iff]
    exact fun hw => h (hglob.mpr hw)

theorem stripNox_of_plain {w : Word} (h : isNox w = false) : stripNox w = w := by
  rw [stripNox, h]
  rfl

theorem withNox_stripNox {w : Word} (h : isNox w = true) : withNox (stripNox w) = w := by
  obtain ⟨t, ht⟩ := (isNox_iff w).mp h
  have htake : w.chars.take (w.chars.length - noxSuffix.chars.length) = t := by
    rw [← ht, List.length_append, Nat.add_sub_cancel]
    exact List.take_left' rfl
  rw [stripNox, if_pos h]
  apply Word.ext
  calc (w.take (w.chars.length - noxSuffix.chars.length)).chars ++ noxSuffix.chars
      = t ++ noxSuffix.chars := congrArg (· ++ noxSuffix.chars) htake
    _ = w.chars := ht

theorem eq_of_stripNox {v w : Word} (hs : stripNox v = stripNox w) (hn : isNox v = isNox w) : v = w := by
  cases hv : isNox v with
  | false => rw [← stripNox_of_plain hv, hs, stripNox_of_plain (hn ▸ hv)]
  | true => rw [← withNox_stripNox hv, hs, withNox_stripNox (hn ▸ hv)]

theorem versionsAll_chars : ∀ v ∈ emacsVersionsAll, '-' ∉ v.chars ∧ v.chars ≠ [] := by decide

theorem versionsAll_stripNox : ∀ v ∈ emacsVersionsAll,
    stripNox v ∈ emacsVersionsAll ∧ isNox (stripNox v) = false ∧
      emacsFlavor (stripNox v) = emacsFlavor v := by
  decide

theorem hasWord_eq_false (words : List Word) (w : Word) : hasWord words w = false ↔ w ∉ words := by
  rw [← hasWord_iff, Bool.not_eq_true]

/-- What the loop has gathered so far: versions there are, each once. -/
def OkSoFar (incompatible ok : List Word) : Prop :=
  ok.Nodup ∧ ∀ v ∈ ok, v ∈ emacsVersionsAll ∧ v ∉ incompatible

theorem okCandidate_soFar {incompatible ok : List Word} (cand : Word) (h : OkSoFar incompatible ok) :
    OkSoFar incompatible (okCandidate incompatible ok cand) := by
  unfold okCandidate
  split
  · rename_i hc
    simp only [hasWord_iff] at hc
    obtain ⟨hall, hinc, hok⟩ := hc
    refine ⟨?_, ?_⟩
    · exact List.nodup_append.mpr ⟨h.1, List.pairwise_singleton _ _, fun a ha b hb hab =>
        hok (List.mem_singleton.mp hb ▸ hab ▸ ha)⟩
    · intro v hv
      cases List.mem_append.mp hv with
      | inl hv => exact h.2 v hv
      | inr hv => exact List.mem_singleton.mp hv ▸ ⟨hall, hinc⟩
  · exact h

theorem foldl_soFar {α : Type} {incompatible : List Word} (step : List Word → α → List Word)
    (hstep : ∀ ok a, OkSoFar incompatible ok → OkSoFar incompatible (step ok a)) (l : List α) :
    ∀ ok, OkSoFar incompatible ok → OkSoFar incompatible (l.foldl step ok) := by
  induction l with
  | nil =>
    intro ok h
    exact h
  | cons a l ih =>
    intro ok h
    exact ih _ (hstep ok a h)

theorem Package.versionsOk_soFar (p : Package) : OkSoFar p.versionsIncompatible p.versionsOk := by
  refine foldl_soFar _ ?_ p.versionsAccepted [] ⟨List.nodup_nil, fun v hv => absurd hv List.not_mem_nil⟩
  intro ok ev h
  exact foldl_soFar _ (fun _ cand hok => okCandidate_soFar cand hok) [ev, withNox ev] ok h

theorem Package.versionsOk_nodup (p : Package) : p.versionsOk.Nodup := p.versionsOk_soFar.1

theorem Package.mem_all (p : Package) {v : Word} (h : v ∈ p.versionsOk) : v ∈ emacsVersionsAll :=
  (p.versionsOk_soFar.2 v h).1

theorem pkgnamePrefix_xemacs (p : Package) {v : Word} (h : emacsFlavor v = .xemacs) :
    p.pkgnamePrefix v = "xemacs-".toList := by
  rw [Package.pkgnamePrefix, if_pos h]

def variantTail (nox : Bool) : List Char := if nox then "nox11-".toList else []

theorem pkgnamePrefix_emacs (p : Package) {v : Word} (h : emacsFlavor v = .emacs) :
    p.pkgnamePrefix v = (stripNox v).chars ++ '-' :: variantTail (isNox v) := by
  have hx : ¬ emacsFlavor v = .xemacs := by rw [h]; decide
  rw [Package.pkgnamePrefix, if_neg hx]
  cases hn : isNox v with
  | true =>
    have hvar : emacsVariant v = "nox11".toList := if_pos ⟨h, hn⟩
    rw [hvar, if_pos (by decide), List.append_assoc, List.append_assoc]
    rfl
  | false =>
    have hvar : emacsVariant v = [] := if_neg fun h => absurd h.2 (by simp [hn])
    rw [hvar, if_neg (fun h => h rfl), if_neg (fun h => absurd h.1 (by simp))]
    rfl

theorem append_dash_inj {a b r t : List Char} (ha : '-' ∉ a) (hb : '-' ∉ b)
    (h : a ++ '-' :: r = b ++ '-' :: t) : a = b ∧ r = t := by
  induction a generalizing b with
  | nil =>
    cases b with
    | nil => exact ⟨rfl, (List.cons.inj h).2⟩
    | cons c b => exact absurd ((List.cons.inj h).1 ▸ List.mem_cons_self) hb
  | cons c a ih =>
    cases b with
    | nil => exact absurd ((List.cons.inj h).1 ▸ List.mem_cons_self) ha
    | cons d b =>
      obtain ⟨hc, ht⟩ := List.cons.inj h
      obtain ⟨hab, hrt⟩ := ih (fun hm => ha (List.mem_cons_of_mem _ hm))
        (fun hm => hb (List.mem_cons_of_mem _ hm)) ht
      exact ⟨by rw [hc, hab], hrt⟩

theorem versionsAll_dash {v : Word} (hv : v ∈ emacsVersionsAll) : '-' ∉ (stripNox v).chars :=
  (versionsAll_chars _ (versionsAll_stripNox v hv).1).1

theorem pkgnamePrefix_emacs_ne (p : Package) {v : Word} (hv : v ∈ emacsVersionsAll)
    (hf : emacsFlavor v = .emacs) : p.pkgnamePrefix v ≠ "xemacs-".toList := by
  intro h
  have hx : "xemacs-".toList = (Word.ofString "xemacs").chars ++ '-' :: [] := by decide
  rw [pkgnamePrefix_emacs p hf, hx] at h
  have hbase := Word.ext (append_dash_inj (versionsAll_dash hv) (by decide) h).1
  have hno : Word.ofString "xemacs" ∉ emacsVersionsAll := by decide
  exact hno (hbase ▸ (versionsAll_stripNox v hv).1)

theorem pkgnamePrefix_inj (p q : Package) {v w : Word} (hv : v ∈ emacsVersionsAll)
    (hw : w ∈ emacsVersionsAll) (hf : emacsFlavor v = .emacs) :
    p.pkgnamePrefix v = q.pkgnamePrefix w ↔ v = w := by
  constructor
  · intro h
    cases hfw : emacsFlavor w with
    | xemacs =>
      rw [pkgnamePrefix_xemacs q hfw] at h
      exact (pkgnamePrefix_emacs_ne p hv hf h).elim
    | emacs =>
      rw [pkgnamePrefix_emacs p hf, pkgnamePrefix_emacs q hfw] at h
      obtain ⟨hbase, htail⟩ := append_dash_inj (versionsAll_dash hv) (versionsAll_dash hw) h
      have hnox : ∀ a b : Bool, variantTail a = variantTail b → a = b := by decide
      exact eq_of_stripNox (Word.ext hbase) (hnox _ _ htail)
  · intro h
    subst h
    rw [pkgnamePrefix_emacs p hf, pkgnamePrefix_emacs q hf]

theorem pkgnamePrefix_eq_xemacs (p q : Package) {v w : Word} (hw : w ∈ emacsVersionsAll)
    (hf : emacsFlavor v = .xemacs) :
    q.pkgnamePrefix w = p.pkgnamePrefix v ↔ emacsFlavor w = .xemacs := by
  rw [pkgnamePrefix_xemacs p hf]
  cases hfw : emacsFlavor w with
  | xemacs => exact iff_of_true (pkgnamePrefix_xemacs q hfw) rfl
  | emacs => exact iff_of_false (pkgnamePrefix_emacs_ne q hw hfw) (by decide)

end PkgsrcPatches.Emacs
