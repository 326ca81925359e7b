import Mathlib.Data.List.Nodup
import PkgsrcPatches.Emacs.Modules

/-! Where `modules.mk` puts the files of an elisp package, what the package is called and which
packages it refuses: builds for two versions side by side. -/
namespace PkgsrcPatches.Emacs
open Lib

/-- `_EMACS_VERSION_MAJOR` and `_EMACS_VERSION_MINOR` of each `version.mk` below `coexist`, the same
for a nox build. (`emacs26-nox11` and `emacs27-nox11` outside it have 26.1 and 27.1.) -/
def versionMk : List (Word × String × String) :=
  [(.ofString "emacs31", "31", "1"), (.ofString "emacs30", "30", "2"),
    (.ofString "emacs29", "29", "4"), (.ofString "emacs28", "28", "2"),
    (.ofString "emacs27", "27", "2"), (.ofString "emacs26", "26", "3"),
    (.ofString "emacs25", "25", "3"), (.ofString "emacs24", "24", "5"),
    (.ofString "emacs23", "23", "4"), (.ofString "emacs22", "22", "3"),
    (.ofString "emacs21", "21", "4"), (.ofString "emacs20", "20", "7"),
    (.ofString "xemacs215", "21", "5"), (.ofString "xemacs214", "21", "4")]

/-- `${_EMACS_VERSION_MAJOR}.${_EMACS_VERSION_MINOR}` of a plain build. -/
def seriesVersion (series : Word) : List Char :=
  match versionMk.lookup series with
  | some (major, minor) => major.toList ++ '.' :: minor.toList
  | none => ['.']

def emacsVersion (type : Word) : List Char := seriesVersion (stripNox type)

abbrev Path := List (List Char)

def emacsDatadir (type : Word) : Path :=
  if emacsVariant type = [] then ["share".toList]
  else ["share".toList,
    "emacs-".toList ++ (emacsVersion type ++ '-' :: emacsVariant type)]

/-- `EMACS_LISPPREFIX`, `EMACS_ETCPREFIX` and `EMACS_INFOPREFIX`. -/
inductive Area where
  | lisp | etc | info
deriving DecidableEq

/-- A file of a `PLIST`: below one of the three prefixes, or by a path that says nothing of the
Emacs, such as a helper program's in `bin` or one below `share/doc`. -/
inductive PlistFile where
  | below (a : Area) (rel : Path)
  | elsewhere (path : Path)
deriving DecidableEq

def numbered (base : List Char) : List Piece := lits (base ++ ['-']) ++ [.range '0' '9', .star]

def nameChar (c : Char) : Bool := c.isAlphanum || "-_+.".toList.contains c

def digit (c : Char) : Bool := decide ('0'.toNat ≤ c.toNat) && decide (c.toNat ≤ '9'.toNat)

/-- The match of `pkg_add`, and what it is documented to make of a pattern `base-[0-9]*`. -/
structure PkgMatch where
  accepts : (pattern : List Piece) → (name : List Char) → Bool
  numbered : ∀ base name, base.all nameChar = true → name.all nameChar = true →
    (accepts (numbered base) name = true ↔
      ∃ d rest, name = base ++ '-' :: d :: rest ∧ digit d = true)

/-- An elisp package: its name begins with `EMACS_PKGNAME_PREFIX`. -/
structure Elp where
  package : Package
  base : List Char
  conflicts : List (List Piece)

namespace Elp

def pkgname (e : Elp) (type : Word) : List Char := e.package.pkgnamePrefix type ++ e.base

/-- `PKGINFODIR`, which is the user's own for a package whose name lacks the prefix. -/
def pkginfodir (e : Elp) (user : Path) (type : Word) : Path :=
  if globMatch (lits (e.package.pkgnamePrefix type) ++ [.star]) (e.pkgname type) then
    emacsDatadir type ++ ["emacs".toList, emacsVersion type, "info".toList]
  else user

def dir (e : Elp) (user : Path) (type : Word) (a : Area) : Path :=
  match emacsFlavor type, a with
  | .emacs, .lisp => emacsDatadir type ++ ["emacs".toList, emacsVersion type, "site-lisp".toList]
  | .emacs, .etc => ["share".toList, "emacs".toList, emacsVersion type, "etc".toList]
  | .emacs, .info => e.pkginfodir user type
  | .xemacs, .lisp => ["lib", "xemacs", "site-packages", "lisp"].map String.toList
  | .xemacs, .etc => ["lib", "xemacs", "site-packages", "etc"].map String.toList
  | .xemacs, .info => ["lib", "xemacs", "site-packages", "info"].map String.toList

def file (e : Elp) (user : Path) (type : Word) : PlistFile → Path
  | .below a rel => e.dir user type a ++ rel
  | .elsewhere path => path

def emacsConflicts (e : Elp) (type : Word) : List (List Piece) :=
  e.conflicts.filter fun c => !globMatch c (e.pkgname type)

/-- `pkg_add` refuses the one beside the other. -/
def refuses (pkgAdd : PkgMatch) (e : Elp) (type other : Word) : Bool :=
  (e.emacsConflicts type).any fun c => pkgAdd.accepts c (e.pkgname other)

end Elp

def emacsLoadPath (buildlinkDir : Path) (type : Word) : List Path :=
  let dir := buildlinkDir ++ (emacsDatadir type ++ ["emacs".toList])
  [dir ++ [emacsVersion type, "lisp".toList], dir ++ [emacsVersion type, "site-lisp".toList],
    dir ++ ["site-lisp".toList]]

/-! ### Which tree -/

theorem seriesVersion_nodup : ((emacsVersionsAll.filter fun v =>
    !isNox v && emacsFlavor v == .emacs).map seriesVersion).Nodup := by
  decide

theorem emacsVersion_inj {v w : Word} (hv : v ∈ emacsVersionsAll) (hw : w ∈ emacsVersionsAll)
    (hfv : emacsFlavor v = .emacs) (hfw : emacsFlavor w = .emacs) :
    emacsVersion v = emacsVersion w ↔ stripNox v = stripNox w := by
  have hmem (u : Word) (hu : u ∈ emacsVersionsAll) (hf : emacsFlavor u = .emacs) :
      stripNox u ∈ emacsVersionsAll.filter fun v => !isNox v && emacsFlavor v == .emacs := by
    obtain ⟨hall, hnox, hflavor⟩ := versionsAll_stripNox u hu
    simp [hall, hnox, hflavor, hf]
  constructor
  · intro h
    exact List.inj_on_of_nodup_map seriesVersion_nodup (hmem v hv hfv) (hmem w hw hfw) h
  · intro h
    exact congrArg seriesVersion h

def tree (variant : Bool) (version : List Char) : Path :=
  if variant then ["share".toList, "emacs-".toList ++ (version ++ '-' :: "nox11".toList),
    "emacs".toList, version]
  else ["share".toList, "emacs".toList, version]

theorem variantDir_ne (u : List Char) :
    "emacs".toList ≠ "emacs-".toList ++ (u ++ '-' :: "nox11".toList) := by
  intro h
  have hlen := congrArg List.length h
  simp only [List.length_append, List.length_cons] at hlen
  have h5 : "emacs".toList.length = 5 := rfl
  have h6 : "emacs-".toList.length = 6 := rfl
  omega

theorem tree_append_inj {a b : Bool} {v w : List Char} {f g : Path} :
    tree a v ++ f = tree b w ++ g ↔ a = b ∧ v = w ∧ f = g := by
  constructor
  · intro h
    cases a with
    | true =>
      cases b with
      | true =>
        simp only [tree, if_true, List.cons_append, List.nil_append, List.cons.injEq, true_and] at h
        exact ⟨rfl, h.2.1, h.2.2⟩
      | false =>
        simp only [tree, if_true, Bool.false_eq_true, if_false, List.cons_append, List.nil_append,
          List.cons.injEq, true_and] at h
        exact (variantDir_ne v h.1.symm).elim
    | false =>
      cases b with
      | true =>
        simp only [tree, if_true, Bool.false_eq_true, if_false, List.cons_append, List.nil_append,
          List.cons.injEq, true_and] at h
        exact (variantDir_ne w h.1).elim
      | false =>
        simp only [tree, Bool.false_eq_true, if_false, List.cons_append, List.nil_append,
          List.cons.injEq, true_and] at h
        exact ⟨rfl, h⟩
  · intro h
    obtain ⟨rfl, rfl, rfl⟩ := h
    rfl

theorem emacsDatadir_tree {v : Word} (hf : emacsFlavor v = .emacs) (rest : Path) :
    emacsDatadir v ++ "emacs".toList :: emacsVersion v :: rest =
      tree (isNox v) (emacsVersion v) ++ rest := by
  cases hn : isNox v with
  | true =>
    have hvar : emacsVariant v = "nox11".toList := if_pos ⟨hf, hn⟩
    rw [emacsDatadir, hvar, if_neg (by decide)]
    rfl
  | false =>
    have hvar : emacsVariant v = [] := if_neg fun h => absurd h.2 (by simp [hn])
    rw [emacsDatadir, hvar, if_pos rfl]
    rfl

theorem tree_ne_shared {v : Word} (hf : emacsFlavor v = .emacs) (b : Bool) (u : List Char) :
    tree b u ++ ["site-lisp".toList] ≠ emacsDatadir v ++ ["emacs".toList, "site-lisp".toList] := by
  intro h
  have hlen := congrArg List.length h
  cases hn : isNox v with
  | true =>
    have hvar : emacsVariant v = "nox11".toList := if_pos ⟨hf, hn⟩
    rw [emacsDatadir, hvar, if_neg (by decide)] at h hlen
    cases b with
    | true => simp [tree] at hlen
    | false =>
      simp only [tree, Bool.false_eq_true, if_false, List.cons_append, List.cons.injEq,
        true_and] at h
      exact variantDir_ne _ h.1
  | false =>
    have hvar : emacsVariant v = [] := if_neg fun h => absurd h.2 (by simp [hn])
    rw [emacsDatadir, hvar, if_pos rfl] at hlen
    cases b <;> simp [tree] at hlen

def Area.name : Area → List Char
  | .lisp => "site-lisp".toList
  | .etc => "etc".toList
  | .info => "info".toList

def Area.moves : Area → Bool
  | .etc => false
  | _ => true

namespace Elp
variable (e : Elp) (user : Path)

theorem dir_emacs {v : Word} (hf : emacsFlavor v = .emacs) (a : Area) :
    e.dir user v a = tree (a.moves && isNox v) (emacsVersion v) ++ [a.name] := by
  cases a with
  | lisp =>
    simp only [dir, hf]
    exact emacsDatadir_tree hf [Area.lisp.name]
  | etc =>
    simp only [dir, hf]
    rfl
  | info =>
    have hname : globMatch (lits (e.package.pkgnamePrefix v) ++ [.star]) (e.pkgname v) = true := by
      rw [pkgname, globMatch_prefix]
      exact List.prefix_append _ _
    simp only [dir, hf, pkginfodir, hname, if_true]
    exact emacsDatadir_tree hf [Area.info.name]

theorem dir_head {v : Word} (a : Area) : (e.dir user v a).head? =
    some (if emacsFlavor v = .emacs then "share".toList else "lib".toList) := by
  cases hf : emacsFlavor v with
  | emacs =>
    rw [e.dir_emacs user hf, if_pos rfl]
    cases hb : a.moves && isNox v <;> rfl
  | xemacs =>
    rw [if_neg (by decide)]
    cases a <;> simp [dir, hf]

theorem dir_xemacs {v w : Word} (hv : emacsFlavor v = .xemacs) (hw : emacsFlavor w = .xemacs)
    (a : Area) : e.dir user v a = e.dir user w a := by
  cases a <;> simp only [dir, hv, hw]

theorem flavor_of_dir {v w : Word} {a b : Area} {f g : Path}
    (h : e.dir user v a ++ f = e.dir user w b ++ g) : emacsFlavor v = emacsFlavor w := by
  have hhead := congrArg List.head? h
  rw [List.head?_append, List.head?_append, dir_head, dir_head, Option.some_or, Option.some_or] at hhead
  cases hv : emacsFlavor v <;> cases hw : emacsFlavor w <;> simp [hv, hw] at hhead ⊢

def Outside (path : Path) : Prop := ∀ v a, ¬e.dir user v a <+: path

def Placed : PlistFile → Prop
  | .below _ _ => True
  | .elsewhere path => e.Outside user path

/-- What the builds for two versions both own although they have two names. -/
def Shared (v w : Word) : PlistFile → Prop
  | .below .etc _ => emacsFlavor v = .emacs ∧ stripNox v = stripNox w
  | .below _ _ => False
  | .elsewhere _ => True

theorem below_collide {v w : Word} (hv : v ∈ emacsVersionsAll) (hw : w ∈ emacsVersionsAll)
    (hne : e.package.pkgnamePrefix v ≠ e.package.pkgnamePrefix w) (a b : Area) (f g : Path) :
    e.dir user v a ++ f = e.dir user w b ++ g ↔
      a = b ∧ f = g ∧ a = .etc ∧ emacsFlavor v = .emacs ∧ stripNox v = stripNox w := by
  constructor
  · intro h
    have hflavor := e.flavor_of_dir user h
    cases hfv : emacsFlavor v with
    | xemacs =>
      have hfw : emacsFlavor w = .xemacs := hflavor ▸ hfv
      exact (hne ((pkgnamePrefix_eq_xemacs e.package e.package hw hfv).mpr hfw).symm).elim
    | emacs =>
      have hfw : emacsFlavor w = .emacs := hflavor ▸ hfv
      rw [e.dir_emacs user hfv, e.dir_emacs user hfw, List.append_assoc, List.append_assoc,
        tree_append_inj] at h
      obtain ⟨htree, hversion, harea⟩ := h
      simp only [List.cons_append, List.nil_append, List.cons.injEq] at harea
      have hseries := (emacsVersion_inj hv hw hfv hfw).mp hversion
      have hab : a = b := by
        have hinj : ∀ a b : Area, a.name = b.name → a = b := by
          intro a b
          cases a <;> cases b <;> decide
        exact hinj a b harea.1
      subst hab
      -- were the trees those of the lisp, the two would be one version
      have hetc : a = .etc := by
        cases a with
        | etc => rfl
        | lisp => exact (hne (by rw [eq_of_stripNox hseries htree])).elim
        | info => exact (hne (by rw [eq_of_stripNox hseries htree])).elim
      exact ⟨rfl, harea.2, hetc, rfl, hseries⟩
  · intro h
    obtain ⟨rfl, rfl, rfl, hfv, hseries⟩ := h
    have hfw : emacsFlavor w = .emacs := by
      rw [← (versionsAll_stripNox w hw).2.2, ← hseries, (versionsAll_stripNox v hv).2.2, hfv]
    rw [e.dir_emacs user hfv, e.dir_emacs user hfw, (emacsVersion_inj hv hw hfv hfw).mpr hseries]
    rfl

/-- Builds for two versions are one package with one set of files, as both are for XEmacs, or two
packages; and then the only files both own are those that a plain and a nox build of the same GNU
Emacs put below `EMACS_ETCPREFIX`, and those outside the three prefixes. -/
theorem files_collide_iff {v w : Word} (hv : v ∈ emacsVersionsAll) (hw : w ∈ emacsVersionsAll) :
    (e.pkgname v = e.pkgname w → ∀ f, e.file user v f = e.file user w f) ∧
      (e.pkgname v ≠ e.pkgname w → ∀ f g, e.Placed user f → e.Placed user g →
        (e.file user v f = e.file user w g ↔ f = g ∧ Shared v w f)) := by
  have hname : e.pkgname v = e.pkgname w ↔ e.package.pkgnamePrefix v = e.package.pkgnamePrefix w :=
    List.append_left_inj e.base
  constructor
  · intro h f
    rw [hname] at h
    cases f with
    | elsewhere path => rfl
    | below a rel =>
      cases hfv : emacsFlavor v with
      | emacs => rw [(pkgnamePrefix_inj e.package e.package hv hw hfv).mp h]
      | xemacs =>
        have hfw := (pkgnamePrefix_eq_xemacs e.package e.package hw hfv).mp h.symm
        rw [file, file, e.dir_xemacs user hfv hfw]
  · intro hne f g hf hg
    rw [ne_eq, hname] at hne
    cases f with
    | elsewhere p =>
      cases g with
      | elsewhere q =>
        simp only [file, PlistFile.elsewhere.injEq, Shared, and_true]
      | below b rel =>
        refine iff_of_false (fun h => hf w b ?_) (fun h => PlistFile.noConfusion h.1)
        exact ⟨rel, h.symm⟩
    | below a rel =>
      cases g with
      | elsewhere q =>
        refine iff_of_false (fun h => hg v a ?_) (fun h => PlistFile.noConfusion h.1)
        exact ⟨rel, h⟩
      | below b rel' =>
        rw [file, file, e.below_collide user hv hw hne, PlistFile.below.injEq, and_assoc]
        refine and_congr_right fun _ => and_congr_right fun _ => ?_
        cases a <;> simp [Shared]

def sample : Elp := ⟨⟨emacsVersionsAll, []⟩, "foo-1.0".toList, [numbered "emacs20-foo".toList]⟩

theorem files_collide_nox : sample.pkgname (.ofString "emacs30") ≠
      sample.pkgname (.ofString "emacs30nox") ∧
    sample.file [] (.ofString "emacs30") (.below .etc []) =
      sample.file [] (.ofString "emacs30nox") (.below .etc []) := by
  have hne : sample.pkgname (.ofString "emacs30") ≠ sample.pkgname (.ofString "emacs30nox") := by
    decide
  have hcollide := (sample.files_collide_iff [] (v := .ofString "emacs30")
    (w := .ofString "emacs30nox") (by decide) (by decide)).2 hne
  exact ⟨hne, (hcollide (.below .etc []) (.below .etc []) trivial trivial).mpr
    ⟨rfl, by decide, by decide⟩⟩

/-! ### `CONFLICTS` -/

def noNumber : List Char → Bool
  | [] => true
  | c :: t => !(c == '-' && t.head?.any digit) && noNumber t

/-- As elisp packages are: `PKGNAME` ends in a version behind the first hyphen before a digit, and
`CONFLICTS` names packages whatever their version. -/
structure Standard (name version : List Char) (bases : List (List Char)) : Prop where
  base : e.base = name ++ '-' :: version
  chars : e.base.all nameChar = true
  name : noNumber ('-' :: name) = true
  hyphen : '-' ∉ version
  number : version.head?.any digit = true
  conflicts : e.conflicts = bases.map numbered
  bases : ∀ b ∈ bases, b.all nameChar = true

def pkgbase (name : List Char) (type : Word) : List Char := e.package.pkgnamePrefix type ++ name

theorem noNumber_of_append (pre : List Char) {d : Char} {rest : List Char}
    (h : noNumber (pre ++ '-' :: d :: rest) = true) : digit d = false := by
  induction pre with
  | nil =>
    simp only [List.nil_append, noNumber, Bool.and_eq_true, List.head?_cons] at h
    simpa using h.1
  | cons c pre ih =>
    simp only [List.cons_append, noNumber, Bool.and_eq_true] at h
    exact ih h.2

theorem noNumber_append {p name : List Char} (hp : noNumber p = true)
    (hname : noNumber ('-' :: name) = true) : noNumber (p ++ name) = true := by
  induction p with
  | nil =>
    simp only [noNumber, Bool.and_eq_true] at hname
    exact hname.2
  | cons c p ih =>
    simp only [noNumber, Bool.and_eq_true] at hp
    simp only [List.cons_append, noNumber, Bool.and_eq_true]
    refine ⟨?_, ih hp.2⟩
    cases p with
    | cons d p => exact hp.1
    | nil =>
      -- the last character of the prefix and the first of the name
      simp only [noNumber, Bool.and_eq_true] at hname
      cases hc : c == '-' with
      | true => exact hname.1
      | false => rfl

theorem base_of_name {b c version rest : List Char} {d : Char} (hb : noNumber b = true)
    (hversion : '-' ∉ version) (hd : digit d = true)
    (h : b ++ '-' :: version = c ++ '-' :: d :: rest) : c = b := by
  obtain ⟨u, hc, hu⟩ | ⟨u, hb', hu⟩ := List.append_eq_append_iff.mp h
  · cases u with
    | nil => rw [hc, List.append_nil]
    | cons x u =>
      -- the hyphen of `c` would stand in the version
      have hmem : '-' ∈ u ++ '-' :: d :: rest := List.mem_append_right _ List.mem_cons_self
      exact absurd ((List.cons.inj hu).2 ▸ hmem) hversion
  · cases u with
    | nil => rw [hb', List.append_nil]
    | cons x u =>
      obtain ⟨rfl, hrest⟩ := List.cons.inj hu
      cases u with
      | nil =>
        rw [(List.cons.inj hrest).1] at hd
        exact absurd hd (by decide)
      | cons y u =>
        rw [hb', ← (List.cons.inj hrest).1] at hb
        rw [noNumber_of_append c hb] at hd
        cases hd

theorem prefix_chars (p : Package) {v : Word} (hv : v ∈ emacsVersionsAll) :
    (p.pkgnamePrefix v).all nameChar = true ∧ noNumber (p.pkgnamePrefix v) = true := by
  have hall : ∀ v ∈ emacsVersionsAll, ∀ nox,
      (v.chars ++ '-' :: variantTail nox).all nameChar = true ∧
        noNumber (v.chars ++ '-' :: variantTail nox) = true := by decide
  cases hf : emacsFlavor v with
  | xemacs =>
    rw [pkgnamePrefix_xemacs p hf]
    decide
  | emacs =>
    rw [pkgnamePrefix_emacs p hf]
    exact hall _ (versionsAll_stripNox v hv).1 _

namespace Standard
variable {e} {name version : List Char} {bases : List (List Char)}

theorem matches_iff (h : e.Standard name version bases) {v : Word} (hv : v ∈ emacsVersionsAll)
    (b : List Char) : (∃ d rest, e.pkgname v = b ++ '-' :: d :: rest ∧ digit d = true) ↔
      b = e.pkgbase name v := by
  have hname : e.pkgname v = e.pkgbase name v ++ '-' :: version := by
    rw [pkgname, h.base, ← List.append_assoc, pkgbase]
  rw [hname]
  constructor
  · intro hmatch
    obtain ⟨d, rest, heq, hd⟩ := hmatch
    exact base_of_name (noNumber_append (prefix_chars e.package hv).2 h.name) h.hyphen hd heq
  · intro hb
    have hdigit := h.number
    cases hversion : version with
    | nil =>
      rw [hversion] at hdigit
      cases hdigit
    | cons d rest =>
      rw [hversion] at hdigit
      exact ⟨d, rest, by rw [hb], hdigit⟩

theorem globMatch_iff (h : e.Standard name version bases) {v : Word} (hv : v ∈ emacsVersionsAll)
    (b : List Char) : globMatch (numbered b) (e.pkgname v) = true ↔ b = e.pkgbase name v := by
  rw [← h.matches_iff hv, numbered, globMatch_range]
  simp only [List.append_assoc, List.cons_append, List.nil_append, digit, Bool.and_eq_true,
    decide_eq_true_eq]

theorem accepts_iff (pkgAdd : PkgMatch) (h : e.Standard name version bases) {v : Word}
    (hv : v ∈ emacsVersionsAll) {b : List Char} (hb : b ∈ bases) :
    pkgAdd.accepts (numbered b) (e.pkgname v) = true ↔ b = e.pkgbase name v := by
  have hchars : (e.pkgname v).all nameChar = true := by
    rw [pkgname, List.all_append, (prefix_chars e.package hv).1, h.chars]
    rfl
  rw [pkgAdd.numbered b _ (h.bases b hb) hchars, h.matches_iff hv]

theorem refuses_name (pkgAdd : PkgMatch) (h : e.Standard name version bases) {v w : Word}
    (hv : v ∈ emacsVersionsAll) (hw : w ∈ emacsVersionsAll) : e.refuses pkgAdd v w = true ↔
      e.pkgbase name v ≠ e.pkgbase name w ∧ e.pkgbase name w ∈ bases := by
  have hconflicts : e.emacsConflicts v =
      (bases.filter fun b => !globMatch (numbered b) (e.pkgname v)).map numbered := by
    rw [emacsConflicts, h.conflicts, List.filter_map]
    rfl
  rw [refuses, hconflicts, List.any_map, List.any_eq_true]
  constructor
  · intro hany
    obtain ⟨b, hb, haccepts⟩ := hany
    obtain ⟨hbases, hglob⟩ := List.mem_filter.mp hb
    have hbw := (h.accepts_iff pkgAdd hw hbases).mp haccepts
    refine ⟨fun hsame => ?_, hbw ▸ hbases⟩
    rw [(h.globMatch_iff hv b).mpr (hbw.trans hsame.symm)] at hglob
    cases hglob
  · intro hnamed
    obtain ⟨hne, hbases⟩ := hnamed
    have hglob : ¬globMatch (numbered (e.pkgbase name w)) (e.pkgname v) = true := fun hglob =>
      hne ((h.globMatch_iff hv _).mp hglob).symm
    exact ⟨e.pkgbase name w, List.mem_filter.mpr ⟨hbases, by simpa using hglob⟩,
      (h.accepts_iff pkgAdd hw hbases).mpr rfl⟩

end Standard

variable {e} in
/-- Of two builds of a package one refuses the other when they are two packages and one of them is
named in `CONFLICTS`; and no build refuses itself. -/
theorem refuses_iff (pkgAdd : PkgMatch) {name version : List Char} {bases : List (List Char)}
    (h : e.Standard name version bases) {v w : Word} (hv : v ∈ emacsVersionsAll)
    (hw : w ∈ emacsVersionsAll) :
    (e.refuses pkgAdd v w = true ∨ e.refuses pkgAdd w v = true ↔
      e.pkgname v ≠ e.pkgname w ∧ (e.pkgbase name v ∈ bases ∨ e.pkgbase name w ∈ bases)) ∧
      e.refuses pkgAdd v v = false := by
  have hname : e.pkgname v ≠ e.pkgname w ↔ e.pkgbase name v ≠ e.pkgbase name w :=
    not_congr ((List.append_left_inj e.base).trans (List.append_left_inj name).symm)
  constructor
  · rw [h.refuses_name pkgAdd hv hw, h.refuses_name pkgAdd hw hv, hname,
      ne_comm (a := e.pkgbase name w), ← and_or_left]
    exact and_congr_right fun _ => or_comm
  · rw [Bool.eq_false_iff, ne_eq, h.refuses_name pkgAdd hv hv]
    exact fun hself => hself.1 rfl

/-- A `pkg_add` that matches as make does. -/
def globAdd : PkgMatch where
  accepts := globMatch
  numbered base name _ _ := by
    rw [Emacs.numbered, globMatch_range]
    simp only [List.append_assoc, List.cons_append, List.nil_append, digit, Bool.and_eq_true,
      decide_eq_true_eq]

theorem refuses_emacs20 : sample.refuses globAdd (.ofString "emacs30") (.ofString "emacs20") = true ∨
    sample.refuses globAdd (.ofString "emacs20") (.ofString "emacs30") = true := by
  have hstandard : sample.Standard "foo".toList "1.0".toList ["emacs20-foo".toList] :=
    ⟨by decide, by decide, by decide, by decide, by decide, rfl,
      List.forall_mem_singleton.mpr (by decide)⟩
  exact (refuses_iff globAdd hstandard (v := .ofString "emacs30") (w := .ofString "emacs20")
    (by decide) (by decide)).1.mpr ⟨by decide, .inr (List.mem_singleton.mpr (by decide))⟩

/-! ### `EMACSLOADPATH` -/

theorem emacsLoadPath_eq (buildlinkDir : Path) {v : Word} (hf : emacsFlavor v = .emacs) :
    emacsLoadPath buildlinkDir v =
      [tree (isNox v) (emacsVersion v) ++ ["lisp".toList],
        tree (isNox v) (emacsVersion v) ++ ["site-lisp".toList],
        emacsDatadir v ++ ["emacs".toList, "site-lisp".toList]].map (buildlinkDir ++ ·) := by
  simp only [emacsLoadPath, ← emacsDatadir_tree hf, List.append_assoc, List.cons_append,
    List.nil_append, List.map_cons, List.map_nil]

theorem share_of_loadPath {v : Word} {p : Path}
    (h : p ∈ [tree (isNox v) (emacsVersion v) ++ ["lisp".toList],
      tree (isNox v) (emacsVersion v) ++ ["site-lisp".toList],
      emacsDatadir v ++ ["emacs".toList, "site-lisp".toList]]) : p.head? = some "share".toList := by
  have htree (b : Bool) (u : List Char) (f : Path) :
      (tree b u ++ f).head? = some "share".toList := by
    cases b <;> rfl
  cases List.mem_cons.mp h with
  | inl h => rw [h, htree]
  | inr h =>
    cases List.mem_cons.mp h with
    | inl h => rw [h, htree]
    | inr h =>
      rw [List.mem_singleton.mp h, emacsDatadir]
      split <;> rfl

/-- Of a package that is built for several versions, the compiler of each is shown the lisp of
the build for its own Emacs, and of no other. -/
theorem compile_sees_own (e : Elp) (user buildlinkDir : Path) {v w : Word}
    (hv : v ∈ emacsVersionsAll) (hw : w ∈ emacsVersionsAll) (hf : emacsFlavor v = .emacs) :
    buildlinkDir ++ e.dir user w .lisp ∈ emacsLoadPath buildlinkDir v ↔
      e.pkgname v = e.pkgname w := by
  have hname : e.pkgname v = e.pkgname w ↔ v = w :=
    (List.append_left_inj e.base).trans (pkgnamePrefix_inj e.package e.package hv hw hf)
  rw [hname, emacsLoadPath_eq buildlinkDir hf,
    List.mem_map_of_injective (List.append_right_injective buildlinkDir)]
  constructor
  · intro h
    cases hfw : emacsFlavor w with
    | xemacs =>
      -- what is XEmacs's is below `lib`
      have hhead := e.dir_head user (v := w) .lisp
      rw [hfw, if_neg (fun he => Flavor.noConfusion he)] at hhead
      have hshare := share_of_loadPath h
      rw [hhead] at hshare
      cases hshare
    | emacs =>
      rw [e.dir_emacs user hfw] at h
      cases List.mem_cons.mp h with
      | inl h =>
        have hlisp := (tree_append_inj.mp h).2.2
        cases hlisp
      | inr h =>
        cases List.mem_cons.mp h with
        | inl h =>
          obtain ⟨htree, hversion, -⟩ := tree_append_inj.mp h
          exact eq_of_stripNox ((emacsVersion_inj hv hw hf hfw).mp hversion.symm) htree.symm
        | inr h => exact (tree_ne_shared hf _ _ (List.mem_singleton.mp h)).elim
  · intro h
    subst h
    rw [e.dir_emacs user hf]
    exact List.mem_cons_of_mem _ List.mem_cons_self

theorem compile_sees_own_emacs30 :
    ["work".toList] ++ sample.dir [] (.ofString "emacs30") .lisp ∈
      emacsLoadPath ["work".toList] (.ofString "emacs30") :=
  (sample.compile_sees_own [] ["work".toList] (v := .ofString "emacs30")
    (w := .ofString "emacs30") (by decide) (by decide) (by decide)).mpr rfl

end Elp

end PkgsrcPatches.Emacs
