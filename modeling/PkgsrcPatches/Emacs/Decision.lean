import PkgsrcPatches.Emacs.Modules

/-! The version decision with its variables as make has them, of any number of words, empty
or unset, and the directory it leads to. -/
namespace PkgsrcPatches.Emacs
open Lib

def emacsPkgdirMap : List (List Char) :=
  ["emacs20@../../editors/emacs20", "emacs21@../../editors/emacs21",
    "emacs21nox@../../editors/emacs21-nox11", "emacs22@../../editors/emacs22",
    "emacs22nox@../../editors/emacs22-nox11", "emacs23@../../editors/emacs23",
    "emacs23nox@../../editors/emacs23-nox11", "emacs24@../../editors/emacs24",
    "emacs24nox@../../editors/emacs24-nox11", "emacs25@../../editors/emacs25",
    "emacs25nox@../../editors/emacs25-nox11", "emacs26@../../editors/emacs26",
    "emacs26nox@../../editors/emacs26-nox11", "emacs27@../../editors/emacs27",
    "emacs27nox@../../editors/emacs27-nox11", "emacs28@../../editors/emacs28",
    "emacs28nox@../../editors/emacs28-nox11", "emacs29@../../editors/emacs29",
    "emacs29nox@../../editors/emacs29-nox11", "emacs30@../../editors/emacs30",
    "emacs30nox@../../editors/emacs30-nox11", "emacs31@../../editors/emacs31",
    "emacs31nox@../../editors/emacs31-nox11", "xemacs214@../../editors/xemacs",
    "xemacs214nox@../../editors/xemacs214-nox11", "xemacs215@../../editors/xemacs-current",
    "xemacs215nox@../../editors/xemacs215-nox11"].map String.toList

/-- `${s:C|w||}`, the first place where `w` stands. -/
def removeFirst (w : List Char) : List Char → List Char
  | [] => []
  | c :: s => if w.isPrefixOf (c :: s) then (c :: s).drop w.length else c :: removeFirst w s

def emacsPkgdir (type : List Char) : List (List Char) :=
  (emacsPkgdirMap.filter (globMatch (lits (type ++ ['@']) ++ [.star]))).map
    (removeFirst (type ++ ['@']))

/-- A value as text, a blank between two words; one that `:C` has emptied is gone. -/
def valueText (words : List Word) : List Char :=
  [' '].intercalate ((words.map Word.chars).filter fun w => !w.isEmpty)

/-- `!empty(words:Mvalue)`: a value of several words is a pattern that no word matches. -/
def hasText (words : List Word) (value : List Char) : Bool :=
  !(selectWords (lits value) words).isEmpty

/-- A variable the user gives, and whether on the command line, where no assignment reaches it. -/
structure Given where
  words : List Word
  commandLine : Bool

/-- What is set when the decision begins; an unset variable is `none`. -/
structure Variables where
  versionsAccepted : Option (List Word)
  versionsIncompatible : Option (List Word)
  versionDefault : Option (List Word)
  emacsType : Option (List Word)
  versionReqd : Option Given
  pkgnameReqd : Option (List (List Char))

structure Decision where
  type : List Char
  failReason : List (List Char)
deriving DecidableEq

namespace Variables

def package (x : Variables) : Package :=
  ⟨x.versionsAccepted.getD emacsVersionsAll, x.versionsIncompatible.getD []⟩

def default (x : Variables) : List Word := (x.versionDefault <|> x.emacsType).getD []

def wanted (x : Variables) : List Word := x.emacsType.getD x.default

/-- The version the loop over them finds in `PKGNAME_REQD`. -/
def named (x : Variables) : Option Word :=
  x.pkgnameReqd.bind fun names =>
    emacsVersionsAll.find? fun ev => names.any (globMatch (lits ev.chars ++ [.lit '-', .star]))

/-- `EMACS_VERSION_REQD` behind that loop, which only sets it where it is unset. -/
def given (x : Variables) : Option Given := x.versionReqd <|> x.named.map fun ev => ⟨[ev], false⟩

section Decision
-- `==` of make, which compares two numbers as such and other texts as they are.
variable (same : List Char → List Char → Bool)

def agrees (x : Variables) (reqd : List Word) : Bool :=
  same (valueText (reqd.map stripNox)) (valueText (x.wanted.map stripNox))

def reqd (x : Variables) : Option (List Char) :=
  x.given.map fun g =>
    if x.pkgnameReqd.isSome ∧ ¬ g.commandLine ∧ x.agrees same g.words then valueText x.wanted
    else valueText g.words

def refusal (x : Variables) (reqd : List Char) : List (List Char) :=
  if hasText emacsVersionsAll reqd then
    ["This package does not build with ".toList ++ reqd,
      "Accepted versions are: ".toList ++ valueText x.package.versionsAccepted]
  else
    ["pkgsrc no longer has ".toList ++ reqd, "pkgsrc has: ".toList ++ valueText emacsVersionsAll]

def noneAccepted (x : Variables) : List (List Char) :=
  ["No Emacs that pkgsrc still has is accepted here".toList,
    "Accepted versions are: ".toList ++ valueText x.package.versionsAccepted,
    "pkgsrc has: ".toList ++ valueText emacsVersionsAll]

def byPreference (x : Variables) : Decision :=
  if hasText x.package.versionsOk (valueText x.default) then ⟨valueText x.default, []⟩
  else x.package.versionsOk.head?.elim ⟨firstOfAll.chars, x.noneAccepted⟩ fun v => ⟨v.chars, []⟩

def decision (x : Variables) : Decision :=
  ((x.reqd same).filter fun v => !v.isEmpty).elim x.byPreference fun v =>
    if hasText x.package.versionsOk v then ⟨v, []⟩ else ⟨firstOfAll.chars, x.refusal v⟩

end Decision
end Variables

theorem emacsPkgdir_known : ∀ v ∈ emacsVersionsAll,
    ∃ d, emacsPkgdir v.chars = [d] ∧ d ≠ [] := by
  have hone : ∀ v ∈ emacsVersionsAll, (emacsPkgdir v.chars).length = 1 ∧ [] ∉ emacsPkgdir v.chars := by
    decide +kernel
  intro v hv
  obtain ⟨d, hd⟩ := List.length_eq_one_iff.mp (hone v hv).1
  refine ⟨d, hd, ?_⟩
  intro hnil
  exact (hone v hv).2 (hd ▸ hnil ▸ List.mem_cons_self)

theorem valueText_single (w : Word) : valueText [w] = w.chars := by
  cases h : w.chars with
  | nil => simp [valueText, h]
  | cons c t => simp [valueText, h, List.intercalate]

theorem hasText_iff (words : List Word) (value : List Char) :
    hasText words value = true ↔ ∃ w ∈ words, w.chars = value := by
  simp only [hasText, selectWords, Bool.not_eq_true', List.isEmpty_eq_false_iff, ne_eq,
    List.filter_eq_nil_iff, globMatch_lits, not_forall, not_not, exists_prop]

theorem foldl_okCandidate (incompatible l : List Word) : ∀ ok,
    l.foldl (okCandidate incompatible) ok =
      ok ++ (l.filter fun v => v ∈ emacsVersionsAll ∧ v ∉ incompatible ∧ v ∉ ok).eraseDups := by
  induction l with
  | nil =>
    intro ok
    simp
  | cons c l ih =>
    intro ok
    rw [List.foldl_cons, ih, okCandidate]
    simp only [hasWord_iff]
    by_cases hc : c ∈ emacsVersionsAll ∧ c ∉ incompatible ∧ c ∉ ok
    · rw [if_pos hc, List.filter_cons_of_pos (by simpa using hc), List.eraseDups_cons,
        List.filter_filter, List.append_assoc, List.singleton_append]
      congr 3
      apply List.filter_congr
      intro v _
      by_cases hv : v = c <;> simp [hv]
    · rw [if_neg hc, List.filter_cons_of_neg (by simpa using hc)]

section Accepted
variable (p : Package)

/-- The versions named, each followed by its nox build, in the order written. -/
def Package.candidates : List Word := p.versionsAccepted.flatMap fun ev => [ev, withNox ev]

theorem Package.versionsOk_eq : p.versionsOk =
    (p.candidates.filter fun v => v ∈ emacsVersionsAll ∧ v ∉ p.versionsIncompatible).eraseDups := by
  have hfold : p.versionsOk = p.candidates.foldl (okCandidate p.versionsIncompatible) [] :=
    List.foldl_flatMap.symm
  rw [hfold, foldl_okCandidate, List.nil_append]
  simp

theorem Package.mem_versionsOk (v : Word) : v ∈ p.versionsOk ↔
    v ∈ emacsVersionsAll ∧ v ∉ p.versionsIncompatible ∧
      (v ∈ p.versionsAccepted ∨ ∃ ev ∈ p.versionsAccepted, v = withNox ev) := by
  have hcand : v ∈ p.candidates ↔
      v ∈ p.versionsAccepted ∨ ∃ ev ∈ p.versionsAccepted, v = withNox ev := by
    simp only [Package.candidates, List.mem_flatMap, List.mem_cons, List.not_mem_nil, or_false]
    constructor
    · intro h
      obtain ⟨ev, hev, h⟩ := h
      cases h with
      | inl h => exact Or.inl (h ▸ hev)
      | inr h => exact Or.inr ⟨ev, hev, h⟩
    · intro h
      cases h with
      | inl h => exact ⟨v, h, Or.inl rfl⟩
      | inr h =>
        obtain ⟨ev, hev, h⟩ := h
        exact ⟨ev, hev, Or.inr h⟩
  rw [p.versionsOk_eq, List.mem_eraseDups, List.mem_filter, hcand]
  simp only [decide_eq_true_eq]
  tauto

end Accepted

namespace Variables

/-- How a version asked for, if there is one, and the accepted ones decide. -/
structure DecidesBy (x : Variables) (asked : Option (List Char)) (d : Decision) : Prop where
  known : ∃ v ∈ emacsVersionsAll, v.chars = d.type
  pkgdir : ∃ dir, emacsPkgdir d.type = [dir] ∧ dir ≠ []
  fails : d.failReason ≠ [] ↔
    (∃ v, asked = some v ∧ ¬ hasText x.package.versionsOk v) ∨ x.package.versionsOk = []
  accepted : d.failReason = [] → ∃ v ∈ x.package.versionsOk, v.chars = d.type
  isAsked : d.failReason = [] → ∀ v, asked = some v → d.type = v
  isDefault : asked = none → hasText x.package.versionsOk (valueText x.default) →
    d.type = valueText x.default
  isFirst : asked = none → ¬ hasText x.package.versionsOk (valueText x.default) →
    ∀ v, x.package.versionsOk.head? = some v → d.type = v.chars

theorem known_of_ok (x : Variables) {v : Word} (h : v ∈ x.package.versionsOk) :
    (∃ w ∈ emacsVersionsAll, w.chars = v.chars) ∧
      ∃ dir, emacsPkgdir v.chars = [dir] ∧ dir ≠ [] :=
  ⟨⟨v, x.package.mem_all h, rfl⟩, emacsPkgdir_known v (x.package.mem_all h)⟩

theorem known_first : (∃ w ∈ emacsVersionsAll, w.chars = firstOfAll.chars) ∧
    ∃ dir, emacsPkgdir firstOfAll.chars = [dir] ∧ dir ≠ [] :=
  ⟨⟨firstOfAll, by decide, rfl⟩, emacsPkgdir_known firstOfAll (by decide)⟩

theorem byPreference_decidesBy (x : Variables) : x.DecidesBy none x.byPreference := by
  unfold byPreference
  split
  · rename_i hdef
    obtain ⟨v, hv, hchars⟩ := (hasText_iff _ _).mp hdef
    obtain ⟨hknown, hdir⟩ := hchars ▸ x.known_of_ok hv
    have hne : x.package.versionsOk ≠ [] := List.ne_nil_of_mem hv
    exact { known := hknown, pkgdir := hdir, fails := by simp [hne], accepted := fun _ => ⟨v, hv, hchars⟩,
            isAsked := fun _ v hv => (by cases hv), isDefault := fun _ _ => rfl,
            isFirst := fun _ h => absurd hdef h }
  · rename_i hdef
    cases hok : x.package.versionsOk with
    | nil =>
      have hno : ¬ hasText x.package.versionsOk (valueText x.default) = true := hdef
      exact { known := known_first.1, pkgdir := known_first.2, fails := by simp [noneAccepted, hok],
              accepted := fun h => by simp [noneAccepted] at h,
              isAsked := fun _ v hv => (by cases hv), isDefault := fun _ h => absurd h hno,
              isFirst := fun _ _ v hv => by simp [hok] at hv }
    | cons v ok =>
      have hv : v ∈ x.package.versionsOk := hok ▸ List.mem_cons_self
      have hno : ¬ hasText x.package.versionsOk (valueText x.default) = true := hdef
      obtain ⟨hknown, hdir⟩ := x.known_of_ok hv
      exact { known := hknown, pkgdir := hdir, fails := by simp [hok], accepted := fun _ => ⟨v, hv, rfl⟩,
              isAsked := fun _ v hv => (by cases hv), isDefault := fun _ h => absurd h hno,
              isFirst := fun _ _ w hw => by simp [hok] at hw; simp [hw] }

theorem refusal_ne_nil (x : Variables) (v : List Char) : x.refusal v ≠ [] := by
  unfold refusal
  split <;> exact List.cons_ne_nil _ _

def asked (same : List Char → List Char → Bool) (x : Variables) : Option (List Char) :=
  (x.reqd same).filter fun v => !v.isEmpty

theorem decision_decidesBy (same : List Char → List Char → Bool) (x : Variables) :
    x.DecidesBy (x.asked same) (x.decision same) := by
  rw [decision, ← asked]
  cases x.asked same with
  | none => exact x.byPreference_decidesBy
  | some v =>
    rw [Option.elim_some]
    split
    · rename_i hok
      obtain ⟨w, hw, hchars⟩ := (hasText_iff _ _).mp hok
      obtain ⟨hknown, hdir⟩ := hchars ▸ x.known_of_ok hw
      have hne : x.package.versionsOk ≠ [] := List.ne_nil_of_mem hw
      exact { known := hknown, pkgdir := hdir, fails := by simp [hne, hok],
              accepted := fun _ => ⟨w, hw, hchars⟩, isAsked := fun _ u hu => Option.some.inj hu,
              isDefault := fun h => (by cases h), isFirst := fun h => (by cases h) }
    · rename_i hok
      exact { known := known_first.1, pkgdir := known_first.2,
              fails := iff_of_true (x.refusal_ne_nil v) (Or.inl ⟨v, rfl, hok⟩),
              accepted := fun h => absurd h (x.refusal_ne_nil v),
              isAsked := fun h => absurd h (x.refusal_ne_nil v),
              isDefault := fun h => (by cases h), isFirst := fun h => (by cases h) }

section Rules
variable (same : List Char → List Char → Bool) (x : Variables)

/-- The version that is asked for: the user's, else the one in the name a dependency is
looked for by, which stands for the wanted build where they are of one Emacs. -/
def requested : Option (List Char) :=
  ((x.versionReqd.map fun g => valueText g.words) <|>
    x.named.map fun ev => if x.agrees same [ev] then valueText x.wanted else ev.chars).filter
      fun v => !v.isEmpty

structure FollowsRules : Prop where
  decides : x.DecidesBy (x.requested same) (x.decision same)
  kept : ∀ g, x.versionReqd = some g → x.reqd same = some (valueText g.words)
  ok_nodup : x.package.versionsOk.Nodup
  mem_ok : ∀ v, v ∈ x.package.versionsOk ↔
    v ∈ emacsVersionsAll ∧ v ∉ x.package.versionsIncompatible ∧
      (v ∈ x.package.versionsAccepted ∨ ∃ ev ∈ x.package.versionsAccepted, v = withNox ev)
  ok_order : x.package.versionsOk = (x.package.candidates.filter fun v =>
    v ∈ emacsVersionsAll ∧ v ∉ x.package.versionsIncompatible).eraseDups

/-- A version the user names gives way to another build of the same Emacs, because
`PKGNAME_REQD` is there. -/
def Replaced : Prop :=
  x.pkgnameReqd.isSome ∧ ∃ g, x.versionReqd = some g ∧ ¬ g.commandLine ∧
    x.agrees same g.words ∧ valueText x.wanted ≠ valueText g.words

theorem reqd_of_given {g : Given} (h : x.versionReqd = some g) :
    x.reqd same = some (if x.pkgnameReqd.isSome ∧ ¬ g.commandLine ∧ x.agrees same g.words then
      valueText x.wanted else valueText g.words) := by
  have hgiven : x.given = some g := by rw [given, h]; rfl
  rw [reqd, hgiven, Option.map_some]

theorem kept_iff : (∀ g, x.versionReqd = some g → x.reqd same = some (valueText g.words)) ↔
    ¬ x.Replaced same := by
  constructor
  · intro hkept hrep
    obtain ⟨hname, g, hg, hline, hagrees, hne⟩ := hrep
    have hreqd := hkept g hg
    rw [x.reqd_of_given same hg, if_pos ⟨hname, hline, hagrees⟩] at hreqd
    exact hne (Option.some.inj hreqd)
  · intro hrep g hg
    rw [x.reqd_of_given same hg]
    split
    · rename_i hc
      by_contra hne
      exact hrep ⟨hc.1, g, hg, hc.2.1, hc.2.2, fun h => hne (congrArg some h)⟩
    · rfl

theorem asked_eq_requested (h : ¬ x.Replaced same) : x.asked same = x.requested same := by
  rw [asked, requested]
  congr 1
  cases hg : x.versionReqd with
  | some g =>
    rw [(x.kept_iff same).mpr h g hg]
    rfl
  | none =>
    have hgiven : x.given = x.named.map fun ev => ⟨[ev], false⟩ := by rw [given, hg]; rfl
    rw [reqd, hgiven]
    cases hn : x.named with
    | none => rfl
    | some ev =>
      have hname : x.pkgnameReqd.isSome = true := by
        cases hp : x.pkgnameReqd with
        | none => simp [named, hp] at hn
        | some names => rfl
      simp [hname, valueText_single]

end Rules

theorem version_decision_iff (same : List Char → List Char → Bool) (x : Variables) :
    x.FollowsRules same ↔ ¬ x.Replaced same := by
  constructor
  · intro h
    exact (x.kept_iff same).mp h.kept
  · intro h
    exact { decides := x.asked_eq_requested same h ▸ x.decision_decidesBy same
            kept := (x.kept_iff same).mpr h
            ok_nodup := x.package.versionsOk_nodup
            mem_ok := x.package.mem_versionsOk
            ok_order := x.package.versionsOk_eq }

end Variables

/-- The user wants `emacs30` here and has `emacs30nox` as the usual type; the package takes
the first only and is looked for by its name. -/
def refusedInput : Variables where
  versionsAccepted := some [.ofString "emacs30"]
  versionsIncompatible := some [.ofString "emacs30nox"]
  versionDefault := none
  emacsType := some [.ofString "emacs30nox"]
  versionReqd := some ⟨[.ofString "emacs30"], false⟩
  pkgnameReqd := some ["emacs30-foo-[0-9]*".toList]

theorem user_version_replaced : ¬ refusedInput.FollowsRules (· == ·) ∧
    (refusedInput.decision (· == ·)).type = "emacs31".toList ∧
    (refusedInput.decision (· == ·)).failReason.head? =
      some "This package does not build with emacs30nox".toList := by
  refine ⟨?_, by decide +kernel, by decide +kernel⟩
  intro h
  have hrep : refusedInput.Replaced (· == ·) :=
    ⟨rfl, _, rfl, by decide, by decide +kernel, by decide +kernel⟩
  exact (refusedInput.kept_iff (· == ·)).mp h.kept hrep

section Single
variable (p : Package) (u : UserSettings) (r : Request)

def Variables.ofSettings : Variables where
  versionsAccepted := some p.versionsAccepted
  versionsIncompatible := some p.versionsIncompatible
  versionDefault := u.versionDefault.map ([·])
  emacsType := u.emacsType.map ([·])
  versionReqd := r.versionReqd.map fun w => ⟨[w], false⟩
  pkgnameReqd := r.pkgnameReqd.map ([·])

def Variables.messages (x : Variables) : Option FailReason → List (List Char)
  | none => []
  | some (.noLongerHas v) => x.refusal v.chars
  | some (.doesNotBuildWith v) => x.refusal v.chars
  | some .noneAccepted => x.noneAccepted

theorem valueText_toList (o : Option Word) :
    valueText ((o.map ([·])).getD []) = (o.map Word.chars).getD [] := by
  cases o with
  | none => rfl
  | some w => exact valueText_single w

theorem ofSettings_default :
    valueText (Variables.ofSettings p u r).default = (u.default.map Word.chars).getD [] := by
  rw [← valueText_toList]
  cases hd : u.versionDefault <;> simp [Variables.default, Variables.ofSettings, UserSettings.default, hd]

theorem ofSettings_wanted :
    (Variables.ofSettings p u r).wanted = (u.wanted.map ([·])).getD [] := by
  cases ht : u.emacsType <;> cases hd : u.versionDefault <;>
    simp [Variables.wanted, Variables.default, Variables.ofSettings, UserSettings.wanted,
      UserSettings.default, ht, hd]

theorem ofSettings_named :
    (Variables.ofSettings p u r).named = r.pkgnameReqd.bind reqdFromName := by
  cases hn : r.pkgnameReqd <;> simp [Variables.named, Variables.ofSettings, hn, reqdFromName]

theorem ofSettings_given : (Variables.ofSettings p u r).given =
    (r.versionReqd <|> r.pkgnameReqd.bind reqdFromName).map fun w => ⟨[w], false⟩ := by
  rw [Variables.given, ofSettings_named]
  cases hr : r.versionReqd <;> simp [Variables.ofSettings, hr]

/-- Words as make compares them, and no request for the bare suffix where no type is wanted,
which would agree with the empty one. -/
structure ComparesWords (same : List Char → List Char → Bool) : Prop where
  words : ∀ v w : Word, same v.chars w.chars = true ↔ v = w
  notBare : u.wanted = none → ∀ v, r.versionReqd = some v → (stripNox v).chars ≠ []

theorem reqdFromName_known {name : List Char} {v : Word} (h : reqdFromName name = some v) :
    v ∈ emacsVersionsAll := List.mem_of_find?_eq_some h

theorem ofSettings_agrees {same : List Char → List Char → Bool} (h : ComparesWords u r same)
    {v : Word} (hv : (r.versionReqd <|> r.pkgnameReqd.bind reqdFromName) = some v) :
    (Variables.ofSettings p u r).agrees same [v] = true ↔
      ∃ w, u.wanted = some w ∧ stripNox v = stripNox w := by
  rw [Variables.agrees, ofSettings_wanted, List.map_singleton, valueText_single]
  cases hw : u.wanted with
  | some w =>
    have hone : (((some w).map ([·])).getD []).map stripNox = [stripNox w] := rfl
    rw [hone, valueText_single, h.words]
    simp
  | none =>
    have hne : (stripNox v).chars ≠ [] := by
      cases hr : r.versionReqd with
      | some z =>
        rw [hr] at hv
        exact Option.some.inj hv ▸ h.notBare hw z hr
      | none =>
        rw [hr] at hv
        obtain ⟨name, -, hname⟩ := Option.bind_eq_some_iff.mp hv
        exact (versionsAll_chars _ (versionsAll_stripNox v (reqdFromName_known hname)).1).2
    have hno : ¬ same (stripNox v).chars [] = true := fun hs =>
      hne (congrArg Word.chars ((h.words (stripNox v) ⟨[], rfl⟩).mp hs))
    exact iff_of_false hno (by simp)

theorem ofSettings_reqd {same : List Char → List Char → Bool} (h : ComparesWords u r same) :
    (Variables.ofSettings p u r).reqd same = (versionReqd u r).map Word.chars := by
  have hsome : (Variables.ofSettings p u r).pkgnameReqd.isSome = r.pkgnameReqd.isSome := by
    cases hn : r.pkgnameReqd <;> simp [Variables.ofSettings, hn]
  rw [Variables.reqd, ofSettings_given, hsome, ofSettings_wanted, versionReqd]
  cases hn : r.pkgnameReqd with
  | none => cases hr : r.versionReqd <;> simp [valueText_single]
  | some name =>
    have hbind : (some name).bind reqdFromName = reqdFromName name := rfl
    cases hv : r.versionReqd <|> reqdFromName name with
    | none => simp [hv]
    | some v =>
      have hagrees := ofSettings_agrees p u r h (v := v) (by rw [hn]; exact hv)
      simp only [hbind, hv, Option.map_some, Option.isSome_some, Bool.false_eq_true, not_false_eq_true,
        true_and, hagrees]
      cases hw : u.wanted with
      | none => simp [valueText_single]
      | some w =>
        by_cases hs : stripNox v = stripNox w <;> simp [hs, valueText_single]

theorem ofSettings_firstOk (hno : hasText p.versionsOk
      (valueText (Variables.ofSettings p u r).default) = false) :
    (Variables.ofSettings p u r).byPreference = ⟨(settle.firstOk p).type.chars,
      (Variables.ofSettings p u r).messages (settle.firstOk p).failReason⟩ := by
  have hok : (Variables.ofSettings p u r).package.versionsOk = p.versionsOk := rfl
  rw [Variables.byPreference, hok, hno, settle.firstOk]
  cases p.versionsOk with
  | nil => rfl
  | cons v ok => rfl

theorem hasText_nil : hasText p.versionsOk [] = false := by
  rw [← Bool.not_eq_true, hasText_iff]
  intro h
  obtain ⟨v, hv, hnil⟩ := h
  exact (versionsAll_chars v (p.mem_all hv)).2 hnil

theorem ofSettings_byPreference :
    (Variables.ofSettings p u r).byPreference = ⟨(settle p u ⟨none, none⟩).type.chars,
      (Variables.ofSettings p u r).messages (settle p u ⟨none, none⟩).failReason⟩ := by
  have hfirst := ofSettings_firstOk p u r
  have hdef := ofSettings_default p u r
  have hok : (Variables.ofSettings p u r).package.versionsOk = p.versionsOk := rfl
  have hnone : (versionReqd u ⟨none, none⟩).filter (fun v => !v.chars.isEmpty) = none := rfl
  rw [settle, hnone]
  cases hd : u.default with
  | none =>
    rw [hd] at hdef
    exact hfirst (hdef ▸ hasText_nil p)
  | some d =>
    rw [hd] at hdef
    have hchars : ((some d).map Word.chars).getD [] = d.chars := rfl
    cases hacc : hasWord p.versionsOk d with
    | false =>
      simp only [hacc, Bool.false_eq_true, if_false]
      exact hfirst (hdef ▸ hacc)
    | true =>
      have hyes : hasText p.versionsOk d.chars = true := hacc
      simp only [hacc, if_true, Variables.byPreference, hok, hdef, hchars, hyes]
      rfl

theorem decision_ofSettings {same : List Char → List Char → Bool} (h : ComparesWords u r same) :
    (Variables.ofSettings p u r).decision same = ⟨(settle p u r).type.chars,
      (Variables.ofSettings p u r).messages (settle p u r).failReason⟩ := by
  have hpref := ofSettings_byPreference p u r
  have hok : (Variables.ofSettings p u r).package.versionsOk = p.versionsOk := rfl
  have hnone : (versionReqd u ⟨none, none⟩).filter (fun v => !v.chars.isEmpty) = none := rfl
  rw [settle, hnone] at hpref
  rw [Variables.decision, ofSettings_reqd p u r h, settle]
  cases hv : versionReqd u r with
  | none => exact hpref
  | some v =>
    cases he : v.chars.isEmpty with
    | true => simpa [Option.filter, he] using hpref
    | false =>
      have htext : hasText p.versionsOk v.chars = hasWord p.versionsOk v := rfl
      simp only [Option.map_some, Option.filter, he, Bool.not_false, if_true, Option.elim_some, hok, htext]
      split
      · rfl
      · split <;> rfl

end Single

end PkgsrcPatches.Emacs
