import PkgsrcPatches.Mule.SocketPath

/-! The directory of the server's socket as emacsserver, emacsclient and the Lisp side
work it out, each from the environment. -/
namespace PkgsrcPatches.Mule
open Lib Lib.Path

/-- The directory in which either program has its socket, where its check of it holds. -/
def socketDir (h : Host) (env : Env) (uid : Nat) : Option Text :=
  match socketPath h env uid fun _ => true with
  | .built dir _ => some dir
  | _ => none

def emacsserverDir := socketDir
def emacsclientDir := socketDir

/-- What the Lisp side calls of Emacs: three functions on file names, and the user id as a
Lisp integer; and whether a handler of its own takes a file name, which need not be a file here. -/
structure Elisp where
  fileNameAsDirectory : Text → Text
  expandFileName : (name dir : Text) → Text
  directoryFileName : Text → Text
  userUid : Nat → Int
  handled : Text → Prop

/-- The name `temporary-file-directory` starts from: the first variable set, even to nothing. -/
def lispBase (env : Env) : Text :=
  match env.tmpdir <|> env.tmp <|> env.temp with
  | some t => t.bytes
  | none => slashTmp

/-- `temporary-file-directory`, whose `defvar` is evaluated when `subr.el` is loaded. -/
def temporaryFileDirectory (l : Elisp) (loadEnv : Env) : Text :=
  l.fileNameAsDirectory (lispBase loadEnv)

def muleUserTempDirectory (l : Elisp) (loadEnv : Env) (uid : Nat) : Text :=
  l.directoryFileName
    (l.expandFileName (emacsName (l.userUid uid)) (temporaryFileDirectory l loadEnv))

def Elisp.expanded (l : Elisp) (base : Text) : List Text :=
  components (l.expandFileName dot (l.fileNameAsDirectory base))

/-- The components of a plain absolute name; a colon in the first one is the syntax of a
remote file. -/
structure PlainDir (cs : List Text) : Prop where
  component : ∀ w ∈ cs, PlainComponent w
  noRemote : ∀ w ∈ (cs.filter (· ≠ dot)).head?, 58 ∉ w

/-- What the manual says of the three functions: a plain name is expanded to the file of that name
in the directory, whose own name is made absolute and canonical, as a plain absolute one is but
for its dots; and a name without a slash at its end is the directory's file name. -/
structure Elisp.Documented (l : Elisp) : Prop where
  expandFileName : ∀ base name : Text, ¬ l.handled base → PlainComponent name → name ≠ dot →
    l.expandFileName name (l.fileNameAsDirectory base) = dirText (l.expanded base ++ [name]) false
  plain : ∀ (cs : List Text) (trailing : Bool), PlainDir cs → ¬ l.handled (dirText cs trailing) ∧
    l.expanded (dirText cs trailing) = cs.filter (· ≠ dot)
  directoryFileName : ∀ cs : List Text, cs ≠ [] → (∀ w ∈ cs, w ≠ [] ∧ slash ∉ w) →
    l.directoryFileName (dirText cs false) = dirText cs false

/-- The three programs use one directory of the machine, wherever each of them was started. -/
def SameDirectory (h : Host) (l : Elisp) (loadEnv env : Env) (uid : Nat) : Prop :=
  ¬ l.handled (lispBase loadEnv) ∧
    ∃ d₁ d₂, emacsserverDir h env uid = some d₁ ∧ emacsclientDir h env uid = some d₂ ∧
      ∀ (Node : Type) (fs : FileSystem Node) (cwd₁ cwd₂ cwd₃ : Node),
        fs.resolve cwd₁ d₁ = fs.resolve cwd₂ d₂ ∧
          fs.resolve cwd₂ d₂ = fs.resolve cwd₃ (muleUserTempDirectory l loadEnv uid)

def PlainBase (env : Env) (cs : List Text) : Prop :=
  PlainDir cs ∧ ∃ trailing, lispBase env = dirText cs trailing

structure Agreed (h : Host) (l : Elisp) (env : Env) (uid : Nat) : Prop where
  dirFits : (emacsDirText env uid).length + 1 ≤ dirSize
  pathFits : PathFits h env uid
  userUid : l.userUid uid = cInt uid

/-- Both sides start from the same absolute name, once the Lisp side's is expanded. -/
structure SameBase (l : Elisp) (loadEnv env : Env) : Prop where
  absolute : (tmpdirOrSlashTmp env).head? = some slash
  noHandler : ¬ l.handled (lispBase loadEnv)
  base : components (tmpdirOrSlashTmp env) = l.expanded (lispBase loadEnv)

theorem decimalNat_digits (n : Nat) : ∀ c ∈ decimalNat n, 48 ≤ c.toNat ∧ c.toNat < 58 := by
  intro c hc
  unfold decimalNat at hc
  split at hc
  · rw [List.mem_singleton.mp hc]
    decide
  · obtain ⟨d, hd, he⟩ := List.mem_map.mp hc
    have hlt := Nat.digits_lt_base (by decide : 1 < 10) (List.mem_reverse.mp hd)
    rw [← he, UInt8.toNat_ofNat']
    omega

def valueOf (t : Text) : Nat := Nat.ofDigits 10 (t.reverse.map fun c => c.toNat - 48)

theorem valueOf_decimalNat (n : Nat) : valueOf (decimalNat n) = n := by
  unfold decimalNat valueOf
  split
  · rename_i h
    rw [h]
    rfl
  · have hback : ((Nat.digits 10 n).map fun d => (UInt8.ofNat (48 + d)).toNat - 48) =
        (Nat.digits 10 n).map id := by
      refine List.map_congr_left ?_
      intro d hd
      have hlt := Nat.digits_lt_base (by decide : 1 < 10) hd
      rw [UInt8.toNat_ofNat', id]
      omega
    rw [List.map_reverse, List.map_map, List.map_reverse, List.reverse_reverse]
    exact (congrArg (Nat.ofDigits 10) (hback.trans (List.map_id _))).trans (Nat.ofDigits_digits 10 n)

theorem decimalNat_inj {m n : Nat} (h : decimalNat m = decimalNat n) : m = n := by
  rw [← valueOf_decimalNat m, h, valueOf_decimalNat]

theorem decimalNat_noSign (n : Nat) : (decimalNat n).head? ≠ some 45 := by
  intro h
  have hd := decimalNat_digits n 45 (List.mem_of_mem_head? h)
  exact absurd hd.1 (by decide)

theorem decimal_inj {i j : Int} (h : decimal i = decimal j) : i = j := by
  unfold decimal at h
  by_cases hi : i < 0
  · by_cases hj : j < 0
    · rw [if_pos hi, if_pos hj] at h
      have habs := decimalNat_inj (List.cons.inj h).2
      omega
    · rw [if_pos hi, if_neg hj] at h
      exact absurd (congrArg List.head? h).symm (decimalNat_noSign _)
  · by_cases hj : j < 0
    · rw [if_neg hi, if_pos hj] at h
      exact absurd (congrArg List.head? h) (decimalNat_noSign _)
    · rw [if_neg hi, if_neg hj] at h
      have habs := decimalNat_inj h
      omega

theorem emacsName_inj {i j : Int} (h : emacsName i = emacsName j) : i = j :=
  decimal_inj (List.append_cancel_left h)

theorem emacsName_chars (i : Int) : ∀ c ∈ emacsName i, c ≠ slash ∧ c ≠ 58 := by
  intro c hc
  cases List.mem_append.mp hc with
  | inl h =>
    have hall : ([101, 109, 97, 99, 115] : Text).all (fun c => c ≠ slash ∧ c ≠ 58) = true := by decide
    exact of_decide_eq_true (List.all_eq_true.mp hall c h)
  | inr h =>
    cases List.mem_append.mp h with
    | inl h =>
      split at h
      · rw [List.mem_singleton.mp h]
        decide
      · exact absurd h List.not_mem_nil
    | inr h =>
      obtain ⟨h48, h58⟩ := decimalNat_digits _ c h
      refine ⟨?_, ?_⟩
      · intro he
        rw [he] at h48
        exact absurd h48 (by decide)
      · intro he
        rw [he] at h58
        exact absurd h58 (by decide)

theorem emacsName_head (i : Int) : (emacsName i).head? = some 101 := rfl

theorem emacsName_plain (i : Int) : PlainComponent (emacsName i) := by
  refine ⟨List.cons_ne_nil _ _, ?_, ?_, ?_⟩
  · intro h
    exact (emacsName_chars i slash h).1 rfl
  · intro h
    exact absurd (congrArg List.head? h) (by rw [emacsName_head]; decide)
  · rw [emacsName_head]
    decide

theorem emacsName_ne_dot (i : Int) : emacsName i ≠ dot := by
  intro h
  exact absurd (congrArg List.head? h) (by rw [emacsName_head]; decide)

theorem components_socketDir (base : Text) (i : Int) :
    components (base ++ slash :: emacsName i) = components base ++ [emacsName i] := by
  have hlast : ([emacsName i].filter fun w => w ≠ [] ∧ w ≠ dot) = [emacsName i] := by
    rw [List.filter_cons, if_pos (by simp [(emacsName_plain i).ne_nil, emacsName_ne_dot i])]
    rfl
  rw [components_append_slash, components_of_plain (emacsName_plain i).noSlash, hlast]

theorem head_socketDir {base : Text} (i : Int) :
    (base ++ slash :: emacsName i).head? = some slash ↔ base = [] ∨ base.head? = some slash := by
  cases base with
  | nil => simp
  | cons c base => simp

theorem expanded_component (l : Elisp) (base : Text) :
    ∀ w ∈ l.expanded base, w ≠ [] ∧ slash ∉ w := by
  intro w hw
  obtain ⟨hne, hslash, -⟩ := mem_components hw
  exact ⟨hne, hslash⟩

theorem expanded_filter (l : Elisp) (base : Text) :
    (l.expanded base).filter (· ≠ dot) = l.expanded base := by
  refine List.filter_eq_self.mpr ?_
  intro w hw
  exact decide_eq_true (mem_components hw).2.2

theorem muleUserTempDirectory_eq {l : Elisp} (hl : l.Documented) {loadEnv : Env}
    (h : ¬ l.handled (lispBase loadEnv)) (uid : Nat) :
    muleUserTempDirectory l loadEnv uid =
      dirText (l.expanded (lispBase loadEnv) ++ [emacsName (l.userUid uid)]) false := by
  rw [muleUserTempDirectory, temporaryFileDirectory,
    hl.expandFileName _ _ h (emacsName_plain _) (emacsName_ne_dot _)]
  refine hl.directoryFileName _ (by simp) ?_
  intro w hw
  cases List.mem_append.mp hw with
  | inl hw => exact expanded_component l _ w hw
  | inr hw => exact List.mem_singleton.mp hw ▸ (emacsName_plain _).ne_nil_noSlash

theorem components_mule {l : Elisp} (hl : l.Documented) {loadEnv : Env}
    (h : ¬ l.handled (lispBase loadEnv)) (uid : Nat) :
    components (muleUserTempDirectory l loadEnv uid) =
      l.expanded (lispBase loadEnv) ++ [emacsName (l.userUid uid)] := by
  have hplain : ∀ w ∈ l.expanded (lispBase loadEnv) ++ [emacsName (l.userUid uid)],
      w ≠ [] ∧ slash ∉ w := by
    intro w hw
    cases List.mem_append.mp hw with
    | inl hw => exact expanded_component l _ w hw
    | inr hw => exact List.mem_singleton.mp hw ▸ (emacsName_plain _).ne_nil_noSlash
  rw [muleUserTempDirectory_eq hl h, components_dirText hplain, List.filter_append,
    expanded_filter]
  simp [emacsName_ne_dot]

theorem socketDir_eq_some (h : Host) (env : Env) (uid : Nat) (d : Text) :
    socketDir h env uid = some d ↔
      d = emacsDirText env uid ∧ (emacsDirText env uid).length + 1 ≤ dirSize ∧ PathFits h env uid := by
  rw [socketDir, socketPath_eq]
  by_cases hdir : (emacsDirText env uid).length + 1 ≤ dirSize
  swap
  · simp [hdir]
  by_cases hname : h.systemName.strlen < systemNameSize
  swap
  · simp [hdir, hname, PathFits]
  by_cases hpath : (emacsDirText env uid).length + h.systemName.strlen + 7 ≤ h.sunPathSize
  · simp [hdir, hname, hpath, PathFits, eq_comm]
  · simp [hdir, hname, hpath, PathFits]

theorem tmpdirOrSlashTmp_ne_nil (env : Env) : tmpdirOrSlashTmp env ≠ [] := by
  unfold tmpdirOrSlashTmp
  split
  · split
    · exact List.cons_ne_nil _ _
    · assumption
  · exact List.cons_ne_nil _ _

theorem head_emacsDirText (env : Env) (uid : Nat) :
    (emacsDirText env uid).head? = some slash ↔ (tmpdirOrSlashTmp env).head? = some slash := by
  rw [emacsDirText, head_socketDir]
  exact or_iff_right (tmpdirOrSlashTmp_ne_nil env)

theorem sameDirectory_of_sameBase {h : Host} {l : Elisp} (hl : l.Documented) {loadEnv env : Env}
    {uid : Nat} (ha : Agreed h l env uid) (hs : SameBase l loadEnv env) :
    SameDirectory h l loadEnv env uid := by
  have hd : socketDir h env uid = some (emacsDirText env uid) :=
    (socketDir_eq_some h env uid _).mpr ⟨rfl, ha.dirFits, ha.pathFits⟩
  refine ⟨hs.noHandler, _, _, hd, hd, ?_⟩
  intro Node fs cwd₁ cwd₂ cwd₃
  have habs := (head_emacsDirText env uid).mpr hs.absolute
  have hmule : (muleUserTempDirectory l loadEnv uid).head? = some slash := by
    rw [muleUserTempDirectory_eq hl hs.noHandler]
    exact dirText_head _ _
  have hdir : components (emacsDirText env uid) =
      components (tmpdirOrSlashTmp env) ++ [emacsName (cInt uid)] := components_socketDir _ _
  rw [fs.resolve_absolute _ habs, fs.resolve_absolute _ habs, fs.resolve_absolute _ hmule,
    hdir, components_mule hl hs.noHandler, hs.base, ha.userUid]
  exact ⟨rfl, rfl⟩

theorem absolute_of_sameDirectory {h : Host} {l : Elisp} {loadEnv env : Env} {uid : Nat}
    (hs : SameDirectory h l loadEnv env uid) : (tmpdirOrSlashTmp env).head? = some slash := by
  obtain ⟨-, d₁, d₂, h₁, h₂, hagree⟩ := hs
  have hd₁ := ((socketDir_eq_some h env uid d₁).mp h₁).1
  have hd₂ := ((socketDir_eq_some h env uid d₂).mp h₂).1
  subst hd₁ hd₂
  by_contra hrel
  have hhead : (emacsDirText env uid).head? ≠ some slash := mt (head_emacsDirText env uid).mp hrel
  have hfree := (hagree _ freeSystem (1, []) (2, []) (0, [])).1
  rw [FileSystem.resolve, FileSystem.resolve, if_neg hhead, if_neg hhead, freeSystem_foldl,
    freeSystem_foldl] at hfree
  exact absurd (Prod.mk.inj hfree).1 (by decide)

theorem sameBase_of_sameDirectory {h : Host} {l : Elisp} (hl : l.Documented) {loadEnv env : Env}
    {uid : Nat} (hs : SameDirectory h l loadEnv env uid) :
    Agreed h l env uid ∧ SameBase l loadEnv env := by
  have habs := absolute_of_sameDirectory hs
  obtain ⟨hlocal, d₁, d₂, h₁, h₂, hagree⟩ := hs
  obtain ⟨-, hfits, hpath⟩ := (socketDir_eq_some h env uid d₁).mp h₁
  have hd₂ := ((socketDir_eq_some h env uid d₂).mp h₂).1
  subst hd₂
  have hmule : (muleUserTempDirectory l loadEnv uid).head? = some slash := by
    rw [muleUserTempDirectory_eq hl hlocal]
    exact dirText_head _ _
  have hdir : components (emacsDirText env uid) =
      components (tmpdirOrSlashTmp env) ++ [emacsName (cInt uid)] := components_socketDir _ _
  -- In a file system without links the way to a directory is its components.
  have hfree := (hagree _ freeSystem (0, []) (0, []) (0, [])).2
  rw [freeSystem.resolve_absolute _ ((head_emacsDirText env uid).mpr habs),
    freeSystem.resolve_absolute _ hmule, hdir, components_mule hl hlocal,
    freeSystem_foldl, freeSystem_foldl] at hfree
  have hway : components (tmpdirOrSlashTmp env) ++ [emacsName (cInt uid)] =
      l.expanded (lispBase loadEnv) ++ [emacsName (l.userUid uid)] :=
    List.append_cancel_left (Prod.mk.inj hfree).2
  obtain ⟨hbase, hname⟩ := List.append_inj' hway (by rw [List.length_singleton, List.length_singleton])
  exact ⟨⟨hfits, hpath, (emacsName_inj (List.cons.inj hname).1).symm⟩, habs, hlocal, hbase⟩

/-- The three programs use one directory exactly if the texts fit, the user id is one integer and
both sides start from one absolute name; where the Lisp side starts from a plain absolute name,
that is one with the same components. -/
theorem sameDirectory_iff (h : Host) (l : Elisp) (hl : l.Documented) (loadEnv env : Env) (uid : Nat) :
    (SameDirectory h l loadEnv env uid ↔ Agreed h l env uid ∧ SameBase l loadEnv env) ∧
      ∀ cs, PlainBase loadEnv cs → (SameDirectory h l loadEnv env uid ↔ Agreed h l env uid ∧
        (tmpdirOrSlashTmp env).head? = some slash ∧
        components (tmpdirOrSlashTmp env) = cs.filter (· ≠ dot)) := by
  have hiff : SameDirectory h l loadEnv env uid ↔ Agreed h l env uid ∧ SameBase l loadEnv env :=
    ⟨sameBase_of_sameDirectory hl, fun hs => sameDirectory_of_sameBase hl hs.1 hs.2⟩
  refine ⟨hiff, ?_⟩
  intro cs hcs
  obtain ⟨hplain, trailing, hbase⟩ := hcs
  obtain ⟨hlocal, hexpanded⟩ := hl.plain cs trailing hplain
  rw [← hbase] at hlocal hexpanded
  rw [hiff, ← hexpanded]
  exact ⟨fun hs => ⟨hs.1, hs.2.absolute, hs.2.base⟩, fun hs => ⟨hs.1, hs.2.1, hlocal, hs.2.2⟩⟩

/-- The functions on file names without handlers, home directories and dots. -/
def plainElisp : Elisp where
  fileNameAsDirectory s := if s.getLast? = some slash then s else s ++ [slash]
  expandFileName name dir := dirText (components dir ++ components name) false
  directoryFileName s := if s.length > 1 ∧ s.getLast? = some slash then s.dropLast else s
  userUid uid := uid
  handled _ := False

theorem plainElisp_fileNameAsDirectory (s : Text) :
    components (plainElisp.fileNameAsDirectory s) = components s := by
  simp only [plainElisp]
  split
  · rfl
  · rw [components_append_slash]
    exact List.append_nil _

theorem plainElisp_expanded (base : Text) : plainElisp.expanded base = components base := by
  have hcomponents : ∀ w ∈ components base, w ≠ [] ∧ slash ∉ w := fun w hw =>
    ⟨(mem_components hw).1, (mem_components hw).2.1⟩
  have hdot : components dot = [] := by decide
  have hself : (components base).filter (· ≠ dot) = components base :=
    List.filter_eq_self.mpr fun w hw => decide_eq_true (mem_components hw).2.2
  have hexpand : plainElisp.expandFileName dot (plainElisp.fileNameAsDirectory base) =
      dirText (components base) false := by
    have hdef : plainElisp.expandFileName dot (plainElisp.fileNameAsDirectory base) =
        dirText (components (plainElisp.fileNameAsDirectory base) ++ components dot) false := rfl
    rw [hdef, plainElisp_fileNameAsDirectory, hdot, List.append_nil]
  rw [Elisp.expanded, hexpand, components_dirText hcomponents, hself]

theorem plainElisp_documented : plainElisp.Documented := by
  refine ⟨?_, ?_, ?_⟩
  · intro base name _ hname hdot
    have hone : components name = [name] := by
      rw [components_of_plain hname.noSlash]
      simp [hname.ne_nil, hdot]
    have hdef : plainElisp.expandFileName name (plainElisp.fileNameAsDirectory base) =
        dirText (components (plainElisp.fileNameAsDirectory base) ++ components name) false := rfl
    rw [hdef, plainElisp_fileNameAsDirectory, plainElisp_expanded, hone]
  · intro cs trailing hcs
    refine ⟨id, ?_⟩
    rw [plainElisp_expanded, components_dirText fun w hw => (hcs.component w hw).ne_nil_noSlash]
  · intro cs hne hcs
    simp only [plainElisp]
    rw [if_neg fun h => dirText_getLast hcs hne h.2]

theorem sameDirectory_varTmp : SameDirectory ⟨104, .lit "host"⟩ plainElisp
    ⟨some (.lit "//var/tmp"), none, none⟩ ⟨some (.lit "//var/tmp"), none, none⟩ 1000 := by
  refine (sameDirectory_iff ⟨104, .lit "host"⟩ plainElisp plainElisp_documented
    ⟨some (.lit "//var/tmp"), none, none⟩ ⟨some (.lit "//var/tmp"), none, none⟩ 1000).1.mpr
    ⟨⟨by decide, ⟨by decide, by decide⟩, by decide⟩, by decide, id, ?_⟩
  rw [plainElisp_expanded]
  decide

/-- With `TMPDIR` unset and `TMP=/var/tmp` the C programs use `/tmp/emacs1000`. -/
theorem socketDir_ignores_tmp : ¬ SameDirectory ⟨104, .lit "host"⟩ plainElisp
    ⟨none, some (.lit "/var/tmp"), none⟩ ⟨none, some (.lit "/var/tmp"), none⟩ 1000 := by
  intro h
  obtain ⟨-, d₁, d₂, -, h₂, hagree⟩ := h
  have hd₂ := ((socketDir_eq_some _ _ _ d₂).mp h₂).1
  subst hd₂
  have hfree := (hagree _ freeSystem (0, []) (0, []) (0, [])).2
  revert hfree
  decide

end PkgsrcPatches.Mule
