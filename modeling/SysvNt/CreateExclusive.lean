import SysvNt.GuardedWalk
import SysvNt.HostOpen

/-!
# Opens that create

An open with `O_CREAT` and `O_EXCL` of a path that ends in a name either fails or makes a new
regular file: everything before the host's `FILE_CREATE` only opens, and any object in its place
is refused, but a Windows link, which NT follows. No open with `O_CREAT` of such a path comes back
with a directory, and one of an existing directory is refused as such. A path without a last name,
such as the root's, is opened as it is.
-/

namespace SysvNt

open FallibleCalls

/-- Which names the directories of the host hold, and what the objects are. NT follows some of them
inside the call: Windows links and junctions. -/
structure Namespace (ο : Type) where
  entry : ο → List UInt16 → Option ο
  regular : ο → Prop
  directory : ο → Prop
  followed : ο → Prop
  named : ∀ d, entry d [] = none

/-- How the host's handles and states are read: the object behind a handle, the names there are. -/
structure NtView (η σ ο : Type) where
  obj : η → ο
  names : σ → Namespace ο

variable {η σ ο : Type}

/-- The statuses that are not about the name: NT cannot or may not carry out the call. -/
def NtStatus.unable : NtStatus → Bool
  | .accessDenied | .sharingViolation | .diskFull | .mediaWriteProtected | .easNotSupported | .notSupported
  | .noMemory | .insufficientResources | .invalidHandle | .pending | .fileCorruptError | .other => true
  | _ => false

def Disposition.overDirectory : Disposition → NtStatus
  | .create _ => .objectNameCollision
  | _ => .fileIsADirectory

/-- What NT documents: `FILE_OPEN`, queries and closing change no names; `FILE_CREATE` succeeds
only where there is no such name or what has it is followed to where there is none, and makes a
regular file unless a directory is asked for; `FILE_NON_DIRECTORY_FILE` opens no directory, and the
status says so of one, unless `FILE_DIRECTORY_FILE` contradicts it. -/
structure NtView.Documented (V : NtView η σ ο) (nt : Nt η σ) (rest : HostStore η σ) : Prop where
  open_names : ∀ d w a o x, V.names ((nt.createFile d w a .open o).run x).2 = V.names x
  create_new : ∀ d w a ea o x h x', o.nonDirectoryFile = true →
    (nt.createFile d w a (.create ea) o).run x = (.ok h, x') →
      (V.names x').regular (V.obj h) ∧ (∀ e n, (V.names x).entry e n ≠ some (V.obj h)) ∧
        ((V.names x).entry (V.obj d) w = none ∧ (V.names x').entry (V.obj d) w = some (V.obj h) ∨
          ∃ l, (V.names x).entry (V.obj d) w = some l ∧ (V.names x).followed l)
  nonDirectory : ∀ d w a disp o x h x', o.nonDirectoryFile = true →
    (nt.createFile d w a disp o).run x = (.ok h, x') → ¬ (V.names x').directory (V.obj h)
  directory_there : ∀ d w a disp o x k, o.nonDirectoryFile = true → (V.names x).entry (V.obj d) w = some k →
    (V.names x).directory k → ∃ s x', (nt.createFile d w a disp o).run x = (.error s, x') ∧
      (s = disp.overDirectory ∨ s.unable = true ∨ o.directoryFile = true ∧ s = .invalidParameter)
  query_names : ∀ h x, V.names ((nt.queryStat h).run x).2 = V.names x
  close_names : ∀ h x, V.names (nt.close h x).2 = V.names x
  readlink_names : ∀ h x, V.names ((rest.readlink h).run x).2 = V.names x
  now_names : ∀ x, V.names (rest.now x).2 = V.names x
  alloc_names : ∀ x, V.names (rest.alloc x).2 = V.names x

/-- What opening, asking and closing keep, the store keeps as long as nothing is made or emptied. -/
theorem store_guarded {nt : Nt η σ} {rest : HostStore η σ} {I : σ → Prop}
    (hopen : ∀ d w a o x, I x → I ((nt.createFile d w a .open o).run x).2)
    (hquery : ∀ h x, I x → I ((nt.queryStat h).run x).2) (hclose : ∀ h x, I x → I (nt.close h x).2)
    (hreadlink : ∀ h x, I x → I ((rest.readlink h).run x).2) (hnow : ∀ x, I x → I (rest.now x).2)
    (halloc : ∀ x, I x → I (rest.alloc x).2) :
    Guarded (nt.store rest) (fun _ _ => True) I (fun c => c.changes = false) := by
  refine ⟨?_, ?_, ?_, ?_, hclose, hnow, halloc⟩
  · intro d ps n fl mode uid gid st _ hsafe
    have hsafe : (has fl HFS_O_CREATE || has fl HFS_O_TRUNC) = false := by
      rw [← has_bits_or]
      exact hsafe
    rw [Bool.or_eq_false_iff] at hsafe
    exact (hfsOpenat_keeps hopen hquery hclose d n hsafe.1 hsafe.2 mode uid gid st).mono
      fun _ _ => trivial
  · intro h ps fl st _
    exact (hfsReopen_keeps hopen hquery hclose h fl st).mono fun _ _ => trivial
  · exact statHandle_keeps hquery
  · exact fun h x hx => ⟨hreadlink h x hx, fun _ _ => trivial⟩

section

variable {V : NtView η σ ο} {nt : Nt η σ} {rest : HostStore η σ} (hV : V.Documented nt rest)

include hV

/-- Reading the host changes no names. -/
theorem NtView.Documented.guarded (N : Namespace ο) :
    Guarded (nt.store rest) (fun _ _ => True) (fun x => V.names x = N)
      (fun c => c.changes = false) :=
  store_guarded (fun d w a o x hx => (hV.open_names d w a o x).trans hx)
    (fun h x hx => (hV.query_names h x).trans hx) (fun h x hx => (hV.close_names h x).trans hx)
    (fun h x hx => (hV.readlink_names h x).trans hx) (fun x hx => (hV.now_names x).trans hx)
    fun x hx => (hV.alloc_names x).trans hx

omit hV in
theorem seated_anywhere (T : MountTable η) :
    Seated T (fun _ _ => True) (fun c => c.changes = false) :=
  ⟨fun _ _ _ => rfl, fun _ _ _ _ => trivial⟩

theorem walkPath_names {K : Kernel η σ} (hK : K.store = nt.store rest) {fs : FsCtx η}
    {base : Option Bytes} (hbase : Canonical (base.getD fs.cwd)) {p : Bytes} {wflags : UInt32}
    {x x' : σ} {loc : VfsLoc η} (h : (walkPath K fs base p wflags).run x = (.ok loc, x')) :
    V.names x' = V.names x ∧ GoodLoc fs wflags loc := by
  have hG := hV.guarded (V.names x)
  rw [← hK] at hG
  have hkeep := walkPath_keeps hG (seated_anywhere fs.table) hbase p wflags x rfl
  rw [KeepsAt, h] at hkeep
  exact ⟨hkeep.1, hkeep.2 loc rfl⟩

theorem openHostDir_names {K : Kernel η σ} (hK : K.store = nt.store rest) {fs : FsCtx η}
    {wflags : UInt32} {loc : VfsLoc η} (hl : GoodLoc fs wflags loc) {root : η}
    (hroot : loc.m.type = .host root) {x x' : σ} {d : η}
    (h : (openHostDir K.store root loc.m loc.abs).run x = (.ok d, x')) : V.names x' = V.names x := by
  have hG := hV.guarded (V.names x)
  rw [← hK] at hG
  have hkeep := openParent_keeps hG (seated_anywhere fs.table) hl hroot x rfl
  rw [KeepsAt, h] at hkeep
  exact hkeep.1

/-- An open that hands back no reparse point was answered by the first call of NT. -/
theorem hfsOpenat_fresh {d : η} {name : Bytes} {fl mode uid gid : UInt32} {st : Bool} {x x' : σ}
    {o : Opened η} (h : (hfsOpenat nt d name fl mode uid gid st).run x = (.ok o, x'))
    (hfresh : o.reparse = false) :
    ∃ w y, nameToWide name 255 = some w ∧
      (nt.createFile d w (accessOf fl) (dispositionOf fl mode uid gid) (optionsOf fl)).run x =
        (.ok o.h, y) ∧ V.names x' = V.names y := by
  cases hw : nameToWide name 255 with
  | none =>
      rw [hfsOpenat, hw] at h
      cases h
  | some w =>
      by_cases hlen : w.length = 0
      · rw [hfsOpenat, hw] at h
        dsimp only at h
        rw [if_pos hlen] at h
        cases h
      · rw [run_hfsOpenat nt hw hlen] at h
        cases hrun : (nt.createFile d w (accessOf fl) (dispositionOf fl mode uid gid)
            (optionsOf fl)).run x with
        | mk r y =>
            rw [hrun] at h
            have hG := hV.guarded (V.names y)
            have hquery : ∀ k z, V.names z = V.names y → V.names ((nt.queryStat k).run z).2 = V.names y :=
              fun k z hz => (hV.query_names k z).trans hz
            cases r with
            | ok k =>
                have hkeep := openFresh_keeps hquery hG.close k st y rfl
                dsimp only at h
                rw [KeepsAt, h] at hkeep
                obtain ⟨hk, _⟩ := hkeep.2 o rfl
                exact ⟨w, y, rfl, by rw [hrun, hk], hkeep.1⟩
            | error s =>
                dsimp only at h
                split_ifs at h
                · have hopen : ∀ d w a o z, V.names z = V.names y →
                      V.names ((nt.createFile d w a .open o).run z).2 = V.names y :=
                    fun d w a o z hz => (hV.open_names d w a o z).trans hz
                  have hkeep := openReparse_keeps hopen hquery hG.close d w fl y rfl
                  rw [KeepsAt, h] at hkeep
                  have hreparse := hkeep.2 o rfl
                  rw [hfresh] at hreparse
                  cases hreparse
                · cases h

omit hV in
/-- A description made by the creating branch is of an object that is neither a reparse point nor
a directory. -/
theorem createdOrLink_file {K : Kernel η σ} {loc : VfsLoc η} {flags : UInt32} {o : Opened η}
    {x x' : σ} {f : OpenFile η} (h : (createdOrLink K loc flags o).run x = (.ok (.inl f), x')) :
    o.reparse = false ∧ o.st.kind ≠ .dir ∧ x' = (K.store.alloc x).2 ∧
      ∃ path, f = .host o.h (fileKindOf o.st.kind) (keptFlags flags) path loc.m := by
  rw [createdOrLink] at h
  cases hr : o.reparse with
  | true =>
      rw [if_pos hr] at h
      split_ifs at h
      · cases h
      · cases h
      · obtain ⟨r, y, _, h⟩ := of_run_bind h
        obtain ⟨t, z, _, h⟩ := of_run_bind h
        cases h
  | false =>
      rw [hr, if_neg Bool.false_ne_true] at h
      split_ifs at h with hdir
      · cases h
      · obtain ⟨g, y, hg, h⟩ := of_run_bind h
        cases h
        rw [newHostFile] at hg
        obtain ⟨ok, z, hok, hg⟩ := of_run_bind hg
        rw [run_lift] at hok
        cases hok
        cases hb : (K.store.alloc x).1 with
        | false =>
            rw [hb] at hg
            cases hg
        | true =>
            rw [hb] at hg
            cases hg
            exact ⟨rfl, hdir, rfl, _, rfl⟩

omit hV in
/-- With `O_EXCL` no link is followed. -/
theorem openCreate_excl {K : Kernel η σ} {fs : FsCtx η} {loc : VfsLoc η} {root : η}
    {flags mode : UInt32} (he : has flags O_EXCL = true) {x x' : σ} {t : Bytes}
    (h : (openCreate K fs root loc flags mode).run x = (.ok (.inr t), x')) : False := by
  rw [openCreate] at h
  obtain ⟨d, y, _, h⟩ := of_run_bind h
  obtain ⟨o, z, _, h⟩ := of_run_bind h
  rw [createdOrLink, if_pos he] at h
  split_ifs at h
  · cases h
  · cases h
  · obtain ⟨g, u, _, h⟩ := of_run_bind h
    cases h

theorem openCreate_file {K : Kernel η σ} (hK : K.store = nt.store rest) {fs : FsCtx η}
    {loc : VfsLoc η} {root : η} {flags mode : UInt32} {x x' : σ} {f : OpenFile η}
    (h : (openCreate K fs root loc flags mode).run x = (.ok (.inl f), x')) :
    ∃ d y w k z path kind, (openHostDir K.store root loc.m loc.abs).run x = (.ok d, y) ∧
      nameToWide loc.last 255 = some w ∧
      (nt.createFile d w (accessOf (createFlags flags)) (dispositionOf (createFlags flags)
        (mode &&& 0o7777 &&& ~~~fs.umask) fs.euid fs.egid) (optionsOf (createFlags flags))).run y =
          (.ok k, z) ∧
      V.names x' = V.names z ∧ kind ≠ .dir ∧
      f = .host k (fileKindOf kind) (keptFlags flags) path loc.m := by
  rw [openCreate] at h
  obtain ⟨d, y, hd, h⟩ := of_run_bind h
  obtain ⟨o, z, ho, h⟩ := of_run_bind h
  obtain ⟨u, hopened, rfl⟩ := of_run_closing ho
  obtain ⟨hfresh, hdir, rfl, path, rfl⟩ := createdOrLink_file h
  have hopenat : K.store.openat = hfsOpenat nt := by rw [hK]; rfl
  have hclose : K.store.close = nt.close := by rw [hK]; rfl
  have halloc : K.store.alloc = rest.alloc := by rw [hK]; rfl
  rw [hopenat] at hopened
  obtain ⟨w, v, hw, hcreate, hnames⟩ := hfsOpenat_fresh hV hopened hfresh
  refine ⟨d, y, w, o.h, v, path, o.st.kind, hd, hw, hcreate, ?_, hdir, rfl⟩
  rw [halloc, hclose, hV.alloc_names, hV.close_names, hnames]

omit hV in
theorem createFlags_has (flags : UInt32) : has (createFlags flags) HFS_O_CREATE = true ∧
    has (createFlags flags) HFS_O_NODIR = true := by
  have hc : has HFS_O_CREATE HFS_O_CREATE = true := by decide
  have hn : has HFS_O_NODIR HFS_O_NODIR = true := by decide
  rw [createFlags, has_or, has_or, has_or, has_or, has_or, has_or, hc, hn]
  simp

omit hV in
theorem createFlags_asked (flags : UInt32) : has (createFlags flags) HFS_O_EXCL = has flags O_EXCL ∧
    has (createFlags flags) HFS_O_DIR = has flags O_DIRECTORY := by
  have hhost : ∀ path read write dir trunc excl : Bool, let made := (
      if path then HFS_O_ATTR else (if read then HFS_O_READ else 0) ||| (if write then HFS_O_WRITE else 0)) |||
        (if dir then HFS_O_DIR else 0) ||| (if trunc then HFS_O_TRUNC else 0) ||| HFS_O_CREATE ||| HFS_O_NODIR |||
        (if excl then HFS_O_EXCL else 0)
      has made HFS_O_EXCL = excl ∧ has made HFS_O_DIR = dir := by decide
  have hbits := hhost (has flags O_PATH) (decide (flags &&& O_ACCMODE = O_RDONLY ∨ flags &&& O_ACCMODE = O_RDWR))
    (decide (flags &&& O_ACCMODE = O_WRONLY ∨ flags &&& O_ACCMODE = O_RDWR)) (has flags O_DIRECTORY) (has flags O_TRUNC)
    (has flags O_EXCL)
  simpa only [createFlags, hostFlags, decide_eq_true_eq] using hbits

/-- A file that the creating branch opens through any number of links is no directory. -/
theorem openCreating_file {K : Kernel η σ} (hK : K.store = nt.store rest) {fs : FsCtx η}
    {flags mode : UInt32} (n : ℕ) {base : Option Bytes} {p : Bytes} {x x' : σ} {f : OpenFile η}
    (hnames : AlongLinks K fs flags mode (fun r => r ≠ .error .EEXIST) n base p x)
    (h : (openCreating K fs flags mode n base p).run x = (.ok f, x')) :
    ∃ k kind path m, f = .host k kind (keptFlags flags) path m ∧ kind ≠ .hostdir ∧
      ¬ (V.names x').directory (V.obj k) := by
  induction n generalizing base p x with
  | zero => cases h
  | succ n ih =>
      rw [openCreating] at h
      obtain ⟨r, y, hr, h⟩ := of_run_bind h
      have hwalk := of_run_attempt hr
      cases r with
      | error e =>
          have hne : e ≠ .EEXIST := by
            rintro rfl
            exact hnames.1 (congrArg Prod.fst hwalk)
          dsimp only at h
          rw [if_neg hne] at h
          cases h
      | ok loc =>
          dsimp only at h
          cases htype : loc.m.type with
          | proc => rw [htype] at h; cases h
          | dev => rw [htype] at h; cases h
          | host root =>
              rw [htype] at h
              obtain ⟨r, z, hcreate, h⟩ := of_run_bind h
              cases r with
              | inl g =>
                  cases h
                  obtain ⟨d, u, w, k, v, path, kind, _, _, hk, hnames', hkind, rfl⟩ :=
                    openCreate_file hV hK hcreate
                  refine ⟨k, fileKindOf kind, path, loc.m, rfl, ?_, ?_⟩
                  · cases kind <;> first | exact absurd rfl hkind | (intro he; cases he)
                  · rw [hnames']
                    exact hV.nonDirectory _ _ _ _ _ _ _ _ (createFlags_has flags).2 hk
              | inr t => exact ih (hnames.2 loc y hwalk root htype t z hcreate) h

/-- What an exclusive open leaves: the description is of a regular file that had no name before, and
the name was not in the directory before and is the file's now, or NT has followed what it was. -/
def MadeIn (V : NtView η σ ο) (x x' : σ) (d : η) (name : Bytes) (f : OpenFile η) : Prop :=
  ∃ w k kind flags path m, nameToWide name 255 = some w ∧ f = .host k kind flags path m ∧
    (V.names x').regular (V.obj k) ∧ (∀ e n, (V.names x).entry e n ≠ some (V.obj k)) ∧
      ((V.names x).entry (V.obj d) w = none ∧ (V.names x').entry (V.obj d) w = some (V.obj k) ∨
        ∃ l, (V.names x).entry (V.obj d) w = some l ∧ (V.names x).followed l)

/-- An open with `O_CREAT` comes to a parent and name, in the state in which the walk has found the parent:
its path's, or those of the target of a link that it has met in the place of a last name. -/
inductive ComesTo (K : Kernel η σ) (fs : FsCtx η) (flags mode : UInt32) :
    ℕ → Option Bytes → Bytes → σ → VfsLoc η → σ → Prop
  | parent {n : ℕ} {base : Option Bytes} {p : Bytes} {x y : σ} {loc : VfsLoc η}
      (walk : (walkPath K fs base p W_PARENT).run x = (.ok loc, y)) : ComesTo K fs flags mode (n + 1) base p x loc y
  | link {n : ℕ} {base : Option Bytes} {p t : Bytes} {x y z y' : σ} {loc loc' : VfsLoc η} {root : η}
      (walk : (walkPath K fs base p W_PARENT).run x = (.ok loc, y)) (host : loc.m.type = .host root)
      (target : (openCreate K fs root loc flags mode).run y = (.ok (.inr t), z))
      (rest : ComesTo K fs flags mode n (some loc.abs) t z loc' y') : ComesTo K fs flags mode (n + 1) base p x loc' y'

omit hV in
/-- From a link's target the open goes on as one of that path. -/
theorem openCreating_link {K : Kernel η σ} {fs : FsCtx η} {flags mode : UInt32} (n : ℕ) {base : Option Bytes}
    {p t : Bytes} {x y z : σ} {loc : VfsLoc η} {root : η} (walk : (walkPath K fs base p W_PARENT).run x = (.ok loc, y))
    (host : loc.m.type = .host root) (target : (openCreate K fs root loc flags mode).run y = (.ok (.inr t), z)) :
    (openCreating K fs flags mode (n + 1) base p).run x = (openCreating K fs flags mode n (some loc.abs) t).run z := by
  rw [openCreating, run_bind, run_attempt, walk]
  dsimp only
  rw [host]
  dsimp only
  rw [run_bind, target]

omit hV in
/-- At a parent and name on a host mount the open's answer is that of the host. -/
theorem ComesTo.refused {K : Kernel η σ} {fs : FsCtx η} {flags mode : UInt32} {n : ℕ} {base : Option Bytes} {p : Bytes}
    {x y z : σ} {loc : VfsLoc η} {root : η} {e : Errno} (h : ComesTo K fs flags mode n base p x loc y)
    (hroot : loc.m.type = .host root) (he : (openCreate K fs root loc flags mode).run y = (.error e, z)) :
    (openCreating K fs flags mode n base p).run x = (.error e, z) := by
  induction h with
  | parent walk =>
      rw [openCreating, run_bind, run_attempt, walk]
      dsimp only
      rw [hroot]
      dsimp only
      rw [run_bind, he]
  | link walk host target _ ih =>
      rw [openCreating_link _ walk host target]
      exact ih hroot he

omit hV in
/-- Elsewhere it is refused. -/
theorem ComesTo.elsewhere {K : Kernel η σ} {fs : FsCtx η} {flags mode : UInt32} {n : ℕ} {base : Option Bytes}
    {p : Bytes} {x y : σ} {loc : VfsLoc η} (h : ComesTo K fs flags mode n base p x loc y)
    (hroot : ∀ root, loc.m.type ≠ .host root) :
    (openCreating K fs flags mode n base p).run x = (.error .EACCES, y) := by
  induction h with
  | @parent _ _ _ _ _ loc walk =>
      rw [openCreating, run_bind, run_attempt, walk]
      dsimp only
      cases htype : loc.m.type with
      | host root => exact absurd htype (hroot root)
      | proc => rfl
      | dev => rfl
  | link walk host target _ ih =>
      rw [openCreating_link _ walk host target]
      exact ih hroot

/-- The directory of the parent holds the name, and it is a directory's. -/
def NtView.DirectoryAt (V : NtView η σ ο) (K : Kernel η σ) (root : η) (loc : VfsLoc η) (y : σ) : Prop :=
  ∃ d z w k, (openHostDir K.store root loc.m loc.abs).run y = (.ok d, z) ∧ nameToWide loc.last 255 = some w ∧
    (V.names z).entry (V.obj d) w = some k ∧ (V.names z).directory k

/-- How an open with `O_CREAT` is refused at a directory; or NT could not carry out the call, or would not
with `O_DIRECTORY` and `O_CREAT` at once. -/
def RefusedOverDirectory (flags : UInt32) (e : Errno) : Prop :=
  (e = if has flags O_EXCL then .EEXIST else .EISDIR) ∨ (∃ s : NtStatus, s.unable = true ∧ e = errnoOf s) ∨
    has flags O_DIRECTORY = true ∧ e = .EINVAL

omit hV in
theorem createFlags_overDirectory (flags mode uid gid : UInt32) :
    (dispositionOf (createFlags flags) mode uid gid).overDirectory =
      if has flags O_EXCL then .objectNameCollision else .fileIsADirectory := by
  rw [dispositionOf, (createFlags_has flags).1, (createFlags_asked flags).1, if_pos rfl]
  split_ifs <;> rfl

/-- At an existing directory the open is refused. -/
theorem openCreate_directory {K : Kernel η σ} (hK : K.store = nt.store rest) {fs : FsCtx η} {loc : VfsLoc η} {root : η}
    {flags mode : UInt32} {y : σ} (hdir : V.DirectoryAt K root loc y) :
    ∃ e z, (openCreate K fs root loc flags mode).run y = (.error e, z) ∧ RefusedOverDirectory flags e := by
  obtain ⟨d, z, w, k, hopen, hw, hentry, hk⟩ := hdir
  have hopenat : K.store.openat = hfsOpenat nt := by rw [hK]; rfl
  have hne : w.length ≠ 0 := by
    intro h
    rw [List.length_eq_zero_iff.mp h, (V.names z).named] at hentry
    cases hentry
  have hnodir : (optionsOf (createFlags flags)).nonDirectoryFile = true := (createFlags_has flags).2
  obtain ⟨s, x', hcreate, hs⟩ := hV.directory_there d w (accessOf (createFlags flags))
    (dispositionOf (createFlags flags) (mode &&& 0o7777 &&& ~~~fs.umask) fs.euid fs.egid) _ z k hnodir hentry hk
  rw [createFlags_overDirectory] at hs
  have hreparse : s ≠ .ioReparseTagNotHandled := by
    rintro rfl
    rcases hs with hs | hs | ⟨_, hs⟩
    · split_ifs at hs
    · cases hs
    · cases hs
  refine ⟨errnoOf s, (K.store.close d x').2, ?_, ?_⟩
  · rw [openCreate, run_bind, hopen]
    dsimp only
    rw [run_bind, run_closing, hopenat, run_hfsOpenat nt hw hne, hcreate]
    dsimp only
    rw [if_neg (fun h => hreparse h.1)]
  · rcases hs with rfl | hs | ⟨hd, rfl⟩
    · left
      split_ifs <;> rfl
    · exact .inr (.inl ⟨s, hs, rfl⟩)
    · exact .inr (.inr ⟨(createFlags_asked flags).2 ▸ hd, rfl⟩)

end

/-- An NT with one directory, the handle `false`, and room for one file in it, named `f`. -/
def oneNameNt : Nt Bool Bool where
  createFile d w _ disp o := ExceptT.mk fun s => match disp with
    | .create _ =>
      if d = false ∧ w = [0x66] ∧ s = false then (.ok true, true) else (.error .objectNameCollision, s)
    | .open =>
      if w = [] then
        if d = false ∧ o.nonDirectoryFile = true then (.error .fileIsADirectory, s) else (.ok d, s)
      else if d = false ∧ w = [0x66] ∧ s = true then (.ok true, s)
      else (.error .objectNameNotFound, s)
    | _ => (.error .notSupported, s)
  queryStat h := pure { fileAttributes := if h then 0x80 else 0x10 }
  close _ := pure ()

def oneNameKernel : Kernel Bool Bool where
  store := oneNameNt.store HostStore.idle
  proc := { fds := fun _ => none, exe := [], maps := [] }
  stack := []

/-- The objects of a small host: its root with a directory `d`, a Windows link `l` to a name that is
not there, and room for a file `f` and for the link's target. -/
inductive CornerObject where
  | root | dir | link | file | target
  deriving DecidableEq

abbrev CornerState := Bool × Bool

def cornerEntry (s : CornerState) (d : CornerObject) (w : List UInt16) : Option CornerObject :=
  if d = .root then
    if w = [0x64] then some .dir
    else if w = [0x6c] then some .link
    else if w = [0x66] ∧ s.1 = true then some .file
    else none
  else none

def cornerPlace (d : CornerObject) (w : List UInt16) (asLink : Bool) : Option CornerObject :=
  if w = [] then some d
  else if d = .root then
    if w = [0x64] then some .dir
    else if w = [0x6c] then some (if asLink then .link else .target)
    else if w = [0x66] then some .file
    else none
  else none

def cornerThere (s : CornerState) : CornerObject → Bool
  | .file => s.1
  | .target => s.2
  | _ => true

def cornerMade (s : CornerState) : CornerObject → CornerState
  | .file => (true, s.2)
  | _ => (s.1, true)

def cornerOpen (p : CornerObject) (disp : Disposition) (o : OpenOptions) : Except NtStatus CornerObject :=
  match disp with
  | .create _ => .error .objectNameCollision
  | _ => if o.nonDirectoryFile = true ∧ (p = .root ∨ p = .dir) then .error .fileIsADirectory else .ok p

def cornerCreate (p : CornerObject) (disp : Disposition) (s : CornerState) :
    Except NtStatus CornerObject × CornerState :=
  match disp with
  | .open | .overwrite => (.error .objectNameNotFound, s)
  | _ => (.ok p, cornerMade s p)

def cornerNt : Nt CornerObject CornerState where
  createFile d w _ disp o := ExceptT.mk fun s =>
    if o.directoryFile = true ∧ o.nonDirectoryFile = true then (.error .invalidParameter, s)
    else match cornerPlace d w o.openReparsePoint with
      | none => (.error .objectNameNotFound, s)
      | some p => if w = [] ∨ cornerThere s p = true then (cornerOpen p disp o, s) else cornerCreate p disp s
  queryStat h := pure (match h with
    | .root | .dir => { fileAttributes := 0x10 }
    | .link => { fileAttributes := 0x400, reparseTag := 0xa000000c }
    | _ => { fileAttributes := 0x80 })
  close _ := pure ()

def cornerView : NtView CornerObject CornerState CornerObject where
  obj h := h
  names s :=
    { entry := cornerEntry s
      regular := fun p => p = .file ∨ p = .target
      directory := fun p => p = .root ∨ p = .dir
      followed := fun p => p = .link
      named := fun d => by cases d <;> rfl }

def cornerKernel : Kernel CornerObject CornerState where
  store := cornerNt.store HostStore.idle
  proc := oneNameKernel.proc
  stack := []

def cornerFs : FsCtx CornerObject := FsCtx.initial .root 1 true

/-- An open of the small host that succeeds. -/
theorem of_cornerNt {d h : CornerObject} {w : List UInt16} {a : UInt32} {disp : Disposition} {o : OpenOptions}
    {s s' : CornerState} (hrun : (cornerNt.createFile d w a disp o).run s = (.ok h, s')) :
    ∃ p, cornerPlace d w o.openReparsePoint = some p ∧
      ((w = [] ∨ cornerThere s p = true) ∧ cornerOpen p disp o = .ok h ∨
        w ≠ [] ∧ ¬ cornerThere s p = true ∧ cornerCreate p disp s = (.ok h, s')) := by
  change (if o.directoryFile = true ∧ o.nonDirectoryFile = true then
    ((.error .invalidParameter, s) : Except NtStatus CornerObject × CornerState) else _) = _ at hrun
  split_ifs at hrun
  · cases hrun
  · cases hp : cornerPlace d w o.openReparsePoint with
    | none =>
        rw [hp] at hrun
        cases hrun
    | some p =>
        rw [hp] at hrun
        dsimp only at hrun
        split_ifs at hrun with hthere
        · exact ⟨p, rfl, .inl ⟨hthere, congrArg Prod.fst hrun⟩⟩
        · rw [not_or] at hthere
          exact ⟨p, rfl, .inr ⟨hthere.1, hthere.2, hrun⟩⟩

theorem cornerEntry_eq {s : CornerState} {d k : CornerObject} {w : List UInt16} (h : cornerEntry s d w = some k) :
    d = .root ∧ (w = [0x64] ∧ k = .dir ∨ w = [0x6c] ∧ k = .link ∨ w = [0x66] ∧ s.1 = true ∧ k = .file) := by
  rw [cornerEntry] at h
  split_ifs at h with hd h1 h2 h3
  · exact ⟨hd, .inl ⟨h1, (Option.some.inj h).symm⟩⟩
  · exact ⟨hd, .inr (.inl ⟨h2, (Option.some.inj h).symm⟩)⟩
  · exact ⟨hd, .inr (.inr ⟨h3.1, h3.2, (Option.some.inj h).symm⟩)⟩

theorem cornerPlace_eq {d p : CornerObject} {w : List UInt16} {asLink : Bool} (hw : w ≠ [])
    (h : cornerPlace d w asLink = some p) : d = .root ∧
      (w = [0x64] ∧ p = .dir ∨ w = [0x6c] ∧ p = (if asLink then .link else .target) ∨ w = [0x66] ∧ p = .file) := by
  rw [cornerPlace, if_neg hw] at h
  split_ifs at h with hd h1 h2 h3 h4
  · exact ⟨hd, .inl ⟨h1, (Option.some.inj h).symm⟩⟩
  · exact ⟨hd, .inr (.inl ⟨h2, by rw [if_pos h3, Option.some.inj h]⟩)⟩
  · exact ⟨hd, .inr (.inl ⟨h2, by rw [if_neg h3, Option.some.inj h]⟩)⟩
  · exact ⟨hd, .inr (.inr ⟨h4, (Option.some.inj h).symm⟩)⟩

theorem cornerOpen_ok {p h : CornerObject} {disp : Disposition} {o : OpenOptions} (hnodir : o.nonDirectoryFile = true)
    (hrun : cornerOpen p disp o = .ok h) : h = p ∧ p ≠ .root ∧ p ≠ .dir := by
  unfold cornerOpen at hrun
  split at hrun
  · cases hrun
  · split_ifs at hrun with hdir
    cases hrun
    rw [not_and, not_or] at hdir
    exact ⟨rfl, hdir hnodir⟩

theorem cornerCreate_ok {p h : CornerObject} {disp : Disposition} {s s' : CornerState}
    (hrun : cornerCreate p disp s = (.ok h, s')) : h = p := by
  cases disp <;> cases hrun <;> rfl

theorem cornerView_documented : cornerView.Documented cornerNt HostStore.idle where
  open_names d w a o s := by
    change cornerView.names (if o.directoryFile = true ∧ o.nonDirectoryFile = true then
      ((.error .invalidParameter, s) : Except NtStatus CornerObject × CornerState) else _).2 = _
    split_ifs
    · rfl
    · cases cornerPlace d w o.openReparsePoint with
      | none => rfl
      | some p =>
          dsimp only
          split_ifs <;> rfl
  create_new d w a ea o s h s' hnodir hrun := by
    obtain ⟨p, hp, ⟨_, h⟩ | ⟨hw, hthere, h⟩⟩ := of_cornerNt hrun
    · cases h
    · cases h
      obtain ⟨rfl, ⟨_, rfl⟩ | ⟨rfl, rfl⟩ | ⟨rfl, rfl⟩⟩ := cornerPlace_eq hw hp
      · exact absurd rfl hthere
      · cases ho : o.openReparsePoint with
        | true =>
            rw [ho] at hthere
            exact absurd rfl hthere
        | false =>
            refine ⟨.inr rfl, fun e n hentry => ?_, .inr ⟨.link, rfl, rfl⟩⟩
            obtain ⟨_, ⟨_, h⟩ | ⟨_, h⟩ | ⟨_, _, h⟩⟩ := cornerEntry_eq hentry <;> cases h
      · have hnone : s.1 = false := by simpa [cornerThere] using hthere
        refine ⟨.inl rfl, fun e n hentry => ?_, .inl ⟨?_, rfl⟩⟩
        · obtain ⟨_, ⟨_, h⟩ | ⟨_, h⟩ | ⟨_, h, _⟩⟩ := cornerEntry_eq hentry
          · cases h
          · cases h
          · exact Bool.false_ne_true (hnone.symm.trans h)
        · change cornerEntry s .root [0x66] = none
          simp [cornerEntry, hnone]
  nonDirectory d w a disp o s h s' hnodir hrun := by
    obtain ⟨p, hp, ⟨_, h⟩ | ⟨_, hthere, h⟩⟩ := of_cornerNt hrun
    · obtain ⟨rfl, hroot, hdir⟩ := cornerOpen_ok hnodir h
      exact fun h => h.elim hroot hdir
    · obtain rfl := cornerCreate_ok h
      rintro (rfl | rfl)
      · exact hthere rfl
      · exact hthere rfl
  directory_there d w a disp o s k hnodir hentry hk := by
    obtain ⟨rfl, ⟨rfl, rfl⟩ | ⟨_, rfl⟩ | ⟨_, _, rfl⟩⟩ := cornerEntry_eq hentry
    · cases hd : o.directoryFile with
      | true => exact ⟨.invalidParameter, s, if_pos ⟨hd, hnodir⟩, .inr (.inr ⟨rfl, rfl⟩)⟩
      | false =>
          refine ⟨disp.overDirectory, s, ?_, .inl rfl⟩
          refine (if_neg (by rw [hd]; exact fun h => Bool.false_ne_true h.1)).trans ?_
          cases disp <;> simp [cornerPlace, cornerThere, cornerOpen, hnodir, Disposition.overDirectory]
    · rcases hk with h | h <;> cases h
    · rcases hk with h | h <;> cases h
  query_names h s := rfl
  close_names h s := rfl
  readlink_names h s := rfl
  now_names s := rfl
  alloc_names s := rfl

end SysvNt
