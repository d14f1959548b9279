import SysvNt.GuardedWalk

/-!
# No name on the host crosses a mount

A place is crossed when it is the point of some mount. The walk and every operation on a
resolved path stay clear of mount points by themselves; of the operations on a parent and a
last name only `vfs_unlink` and `vfs_rename` look whether the name is one. `traced` writes down
every call of the host store on a name, and a run whose creating steps come to no mount point
writes down none that crosses one.
-/

namespace SysvNt

open FallibleCalls StateCalls

variable {η σ : Type}

def NameFree (fs : FsCtx η) (loc : VfsLoc η) : Prop :=
  ∀ root, loc.m.type = .host root → Uncrossed fs.table (namesOf loc.abs) loc.last

/-- The name that a path comes to, from a state of the host, is no mount point. -/
def ParentFree (K : Kernel η σ) (fs : FsCtx η) (base : Option Bytes) (p : Bytes) (x : σ) : Prop :=
  ∀ loc x', (walkPath K fs base p W_PARENT).run x = (.ok loc, x') → NameFree fs loc

/-- The same for the name that an open creates, and for the name that its target comes to if it
is a link, and so on. -/
def CreateFree (K : Kernel η σ) (fs : FsCtx η) (flags mode : UInt32) (base : Option Bytes)
    (p : Bytes) (x : σ) : Prop :=
  AlongLinks K fs flags mode (fun r => ∀ loc, r = .ok loc → NameFree fs loc) 41 base p x

def JoinFits (K : Kernel η σ) (fs : FsCtx η) (base : Option Bytes) (p : Bytes) (x : σ) : Prop :=
  ∀ loc x', (walkPath K fs base p W_PARENT).run x = (.ok loc, x') →
    ∃ cand, pathJoin PATH_MAX loc.abs loc.last = .ok cand

def HostCall.Clear (T : MountTable η) (c : HostCall) : Prop := Uncrossed T c.dir c.name

/-- The same for the calls that only ever change something. -/
structure GuardedChanges (H : HostStore η σ) (At : η → List Bytes → Prop) (I : σ → Prop)
    (Safe : HostCall → Prop) : Prop where
  mkdir : ∀ d ps n mode uid gid cs, At d ps → Safe ⟨ps, n, true⟩ →
    Keeps I (H.mkdir d n mode uid gid cs) (fun _ => True)
  mknod : ∀ d ps n k mode uid gid ma mi, At d ps → Safe ⟨ps, n, true⟩ →
    Keeps I (H.mknod d n k mode uid gid ma mi) (fun _ => True)
  symlink : ∀ d ps n t uid gid, At d ps → Safe ⟨ps, n, true⟩ →
    Keeps I (H.symlink d n t uid gid) (fun _ => True)
  link : ∀ h d ps n, At d ps → Safe ⟨ps, n, true⟩ → Keeps I (H.link h d n) (fun _ => True)
  unlink : ∀ d ps n rmdir, At d ps → Safe ⟨ps, n, true⟩ → Keeps I (H.unlink d n rmdir) (fun _ => True)
  rename : ∀ d ps n d' ps' n' nr, At d ps → Safe ⟨ps, n, true⟩ → At d' ps' →
    Safe ⟨ps', n', true⟩ → Keeps I (H.rename d n d' n' nr) (fun _ => True)
  setLx : ∀ h w uid gid mode ma mi, Keeps I (H.setLx h w uid gid mode ma mi) (fun _ => True)
  setTimes : ∀ h a m, Keeps I (H.setTimes h a m) (fun _ => True)
  truncate : ∀ h size, Keeps I (H.truncate h size) (fun _ => True)

section Operations

variable {K : Kernel η σ} {fs : FsCtx η} {At : η → List Bytes → Prop} {I : σ → Prop}
  (hC : GuardedChanges K.store At I (HostCall.Clear fs.table))
  (hG : Guarded K.store At I (HostCall.Clear fs.table))
  (hS : Seated fs.table At (HostCall.Clear fs.table))

include hG hS

omit hG hS in
/-- What opening a resolved object keeps, the existing branch keeps. -/
theorem openExisting_keeps_of {Safe : HostCall → Prop} (hG : Guarded K.store At I Safe)
    (hS : Seated fs.table At Safe) {wflags flags : UInt32} {loc : VfsLoc η} (hl : GoodLoc fs wflags loc)
    (hopen : ∀ root st, loc.m.type = .host root →
      Keeps I (openResolved K root loc (existingFlags st flags)) (fun _ => True)) :
    Keeps I (openExisting K fs loc flags) (fun _ => True) := by
  rw [openExisting]
  cases htype : loc.m.type with
  | proc => exact (procfsOpen_keeps hG.alloc _ _).bind fun _ _ => Keeps.pure trivial
  | dev => exact (devfsOpen_keeps hG.alloc _ _).bind fun _ _ => Keeps.pure trivial
  | host root =>
      dsimp only
      rw [openExistingHost]
      refine (statAbs_keeps hG hS hl.canonical).bind fun st _ => ?_
      refine (Keeps.liftExcept _).bind fun _ _ => ?_
      refine (hopen root st htype).bind fun o _ => ?_
      split_ifs
      · exact Keeps.throw.closing (hG.close o.h)
      · exact Keeps.throw.closing (hG.close o.h)
      · exact newHostFile_keeps hG o flags _ _

theorem openExisting_keeps {wflags : UInt32} {loc : VfsLoc η} (hl : GoodLoc fs wflags loc)
    (flags : UInt32) : Keeps I (openExisting K fs loc flags) (fun _ => True) := by
  refine openExisting_keeps_of hG hS hl fun root st htype => ?_
  rw [openResolved]
  split_ifs with hrel
  · have hmem := (fs.table.mountOf_best loc.abs).mem
    rw [← hl.m_eq] at hmem
    exact (hG.reopen root _ _ true (hS.place _ hmem root htype)).mono fun _ _ => trivial
  · rw [hl.rel_eq] at hrel
    exact openLast_keeps hG hS hl.canonical hl.m_eq htype hrel _ (fun _ _ hfree => hfree) _

theorem openCreate_keeps {loc : VfsLoc η} (hl : GoodLoc fs W_PARENT loc) {root : η}
    (hroot : loc.m.type = .host root) (hfree : NameFree fs loc) (flags mode : UInt32) :
    Keeps I (openCreate K fs root loc flags mode) (fun _ => True) := by
  rw [openCreate]
  refine (openParent_keeps hG hS hl hroot).bind fun d hd => ?_
  refine ((hG.openat d _ loc.last _ _ _ _ true hd (hfree root hroot)).closing (hG.close d)).bind fun o _ => ?_
  exact createdOrLink_keeps hG loc flags o

theorem parentWalk_keeps {base : Option Bytes} (hbase : Canonical (base.getD fs.cwd)) {p : Bytes}
    {x : σ} (hx : I x) (hfree : ParentFree K fs base p x) :
    KeepsAt I x (walkPath K fs base p W_PARENT)
      (fun loc => GoodLoc fs W_PARENT loc ∧ NameFree fs loc) := by
  obtain ⟨hI, hgood⟩ := walkPath_keeps hG hS hbase p W_PARENT x hx
  exact ⟨hI, fun loc hloc => ⟨hgood loc hloc, hfree loc _ (Prod.ext hloc rfl)⟩⟩

omit hG hS in
/-- What its two branches keep at the places it comes to, the creating open keeps. -/
theorem openCreating_keeps_of {Safe : HostCall → Prop} (hG : Guarded K.store At I Safe)
    (hS : Seated fs.table At Safe) {P : VfsLoc η → Prop} {flags mode : UInt32}
    (hexisting : ∀ loc, GoodLoc fs 0 loc → Keeps I (openExisting K fs loc flags) (fun _ => True))
    (hcreate : ∀ loc root, GoodLoc fs W_PARENT loc → loc.m.type = .host root → P loc →
      Keeps I (openCreate K fs root loc flags mode) (fun _ => True)) (n : ℕ) {base : Option Bytes}
    (hbase : Canonical (base.getD fs.cwd)) (p : Bytes) (x : σ) (hx : I x)
    (hfree : AlongLinks K fs flags mode (fun r => ∀ loc, r = .ok loc → P loc) n base p x) :
    KeepsAt I x (openCreating K fs flags mode n base p) (fun _ => True) := by
  induction n generalizing base p x with
  | zero => exact Keeps.throw x hx
  | succ n ih =>
      have hwalk := walkPath_keeps hG hS hbase p W_PARENT x hx
      rw [openCreating]
      refine hwalk.attempt.bind fun r x' hr hx' hgood => ?_
      cases r with
      | error e =>
          dsimp only
          split_ifs
          · exact ((walkPath_keeps hG hS hbase p 0).bind fun loc hl => hexisting loc hl) x' hx'
          · exact Keeps.throw x' hx'
      | ok loc =>
          have hl := hgood loc rfl
          have hrun := of_run_attempt hr
          have hname := hfree.1 loc (congrArg Prod.fst hrun)
          have hnext := hfree.2 loc x' hrun
          dsimp only
          cases htype : loc.m.type with
          | proc => exact Keeps.throw x' hx'
          | dev => exact Keeps.throw x' hx'
          | host root =>
              refine (hcreate loc root hl htype hname x' hx').bind fun r x'' hr hx'' _ => ?_
              cases r with
              | inl f => exact Keeps.pure trivial x'' hx''
              | inr t => exact @ih (some loc.abs) hl.canonical t x'' hx'' (hnext root htype t x'' hr)

theorem openCreating_keeps (flags mode : UInt32) (n : ℕ) {base : Option Bytes}
    (hbase : Canonical (base.getD fs.cwd)) (p : Bytes) (x : σ) (hx : I x)
    (hfree : AlongLinks K fs flags mode (fun r => ∀ loc, r = .ok loc → NameFree fs loc) n base p x) :
    KeepsAt I x (openCreating K fs flags mode n base p) (fun _ => True) :=
  openCreating_keeps_of hG hS (fun _ hl => openExisting_keeps hG hS hl flags)
    (fun _ _ hl htype hname => openCreate_keeps hG hS hl htype hname flags mode) n hbase p x hx hfree

theorem vfsOpen_keeps {base : Option Bytes} (hbase : Canonical (base.getD fs.cwd)) (p : Bytes)
    (flags mode : UInt32) (x : σ) (hx : I x)
    (hfree : has flags O_CREAT = true → CreateFree K fs flags mode base p x) :
    KeepsAt I x (vfsOpen K fs base p flags mode) (fun _ => True) := by
  rw [vfsOpen]
  by_cases hc : has flags O_CREAT = true
  · rw [if_pos hc]
    exact openCreating_keeps hG hS flags mode 41 hbase p x hx (hfree hc)
  · rw [if_neg hc]
    exact ((walkPath_keeps hG hS hbase p _).bind fun loc hl =>
      openExisting_keeps hG hS hl flags) x hx

theorem hostParent_keeps {base : Option Bytes} (hbase : Canonical (base.getD fs.cwd)) {p : Bytes}
    {x : σ} (hx : I x) (hfree : ParentFree K fs base p x) :
    KeepsAt I x (hostParent K fs base p) (fun r => At r.2 (namesOf r.1.abs) ∧
      Uncrossed fs.table (namesOf r.1.abs) r.1.last) := by
  rw [hostParent]
  refine (parentWalk_keeps hG hS hbase hx hfree).bind fun loc x' _ hx' hloc => ?_
  obtain ⟨hl, hname⟩ := hloc
  cases htype : loc.m.type with
  | proc => exact Keeps.throw x' hx'
  | dev => exact Keeps.throw x' hx'
  | host root =>
      dsimp only
      split_ifs
      · exact Keeps.throw x' hx'
      · exact ((openParent_keeps hG hS hl htype).bind fun d hd =>
          Keeps.pure ⟨hd, hname root htype⟩) x' hx'

include hC in
theorem vfsSymlink_keeps (target : Bytes) {base : Option Bytes}
    (hbase : Canonical (base.getD fs.cwd)) {p : Bytes} {x : σ} (hx : I x)
    (hfree : ParentFree K fs base p x) :
    KeepsAt I x (vfsSymlink K fs target base p) (fun _ => True) := by
  rw [vfsSymlink]
  split_ifs
  · exact Keeps.throw x hx
  · refine (hostParent_keeps hG hS hbase hx hfree).bind fun r x' _ hx' hr => ?_
    exact (hC.symlink r.2 _ r.1.last target _ _ hr.1 hr.2).closing (hG.close r.2) x' hx'

include hC in
theorem vfsMkdir_keeps {base : Option Bytes} (hbase : Canonical (base.getD fs.cwd)) {p : Bytes}
    (mode : UInt32) {x : σ} (hx : I x) (hfree : ParentFree K fs base p x) :
    KeepsAt I x (vfsMkdir K fs base p mode) (fun _ => True) := by
  rw [vfsMkdir]
  refine (parentWalk_keeps hG hS hbase hx hfree).bind fun loc x' _ hx' hloc => ?_
  obtain ⟨hl, hname⟩ := hloc
  cases htype : loc.m.type with
  | proc => exact Keeps.throw x' hx'
  | dev => exact Keeps.throw x' hx'
  | host root =>
      dsimp only
      split_ifs
      · exact Keeps.throw x' hx'
      · refine ((openParent_keeps hG hS hl htype).bind fun d hd => ?_) x' hx'
        exact (hC.mkdir d _ loc.last _ _ _ _ hd (hname root htype)).closing (hG.close d)

omit hS in
theorem filePut_keeps (f : OpenFile η) (x : σ) (hx : I x) : I (filePut K f x).2 := by
  cases f with
  | host h kind flags p m => exact hG.close h x hx
  | synth f flags p => exact hx

include hC in
theorem vfsMknod_keeps {base : Option Bytes} (hbase : Canonical (base.getD fs.cwd)) {p : Bytes}
    (mode major minor : UInt32) {x : σ} (hx : I x)
    (hfile : mode &&& S_IFMT = 0 ∨ mode &&& S_IFMT = S_IFREG →
      CreateFree K fs (O_CREAT ||| O_EXCL ||| O_WRONLY) (mode &&& 0o7777) base p x)
    (hfree : ¬ (mode &&& S_IFMT = 0 ∨ mode &&& S_IFMT = S_IFREG) → ParentFree K fs base p x) :
    KeepsAt I x (vfsMknod K fs base p mode major minor) (fun _ => True) := by
  rw [vfsMknod]
  split_ifs with hreg
  · refine (vfsOpen_keeps hG hS hbase p _ _ x hx fun _ => hfile hreg).bind fun f x' _ hx' _ => ?_
    exact Keeps.lift (filePut_keeps hG f) x' hx'
  · cases specialKind mode with
    | none => exact Keeps.throw x hx
    | some kind =>
        refine (hostParent_keeps hG hS hbase hx (hfree hreg)).bind fun r x' _ hx' hr => ?_
        exact (hC.mknod r.2 _ r.1.last kind _ _ _ _ _ hr.1 hr.2).closing (hG.close r.2) x' hx'

include hC in
theorem vfsLink_keeps (hD : RootsAreDirs K.store fs.table) {oldBase newBase : Option Bytes}
    (hold : Canonical (oldBase.getD fs.cwd)) (hnew : Canonical (newBase.getD fs.cwd)) {oldPath newPath : Bytes} {follow : Bool} {x : σ}
    (hx : I x) (hfree : ∀ src x', (linkSource K fs oldBase oldPath follow).run x = (.ok src, x') →
      ParentFree K fs newBase newPath x') :
    KeepsAt I x (vfsLink K fs oldBase oldPath newBase newPath follow) (fun _ => True) := by
  rw [vfsLink]
  refine (linkSource_keeps hG hS hD hold oldPath follow x hx).bind fun src x' hsrc hx' hgood => ?_
  obtain ⟨hc, hm, hroot, hrel⟩ := hgood
  refine (hostParent_keeps hG hS hnew hx' (hfree src x' hsrc)).bind fun r x'' _ hx'' hr => ?_
  refine Keeps.closing ?_ (hG.close r.2) x'' hx''
  split_ifs
  · exact Keeps.throw
  · have hopen := openLast_keeps hG hS hc hm hroot hrel (HFS_O_ATTR ||| HFS_O_REPARSE)
      (fun _ _ hfree => hfree) false
    rw [← bind_assoc]
    exact hopen.bind fun o _ => (hC.link o.h r.2 _ r.1.last hr.1 hr.2).closing (hG.close o.h)

omit hG hS in
/-- A name whose join is found at no mount point is free. -/
theorem uncrossed_of_join {loc : VfsLoc η} (hl : GoodLoc fs W_PARENT loc) {cand : Bytes}
    (hj : pathJoin PATH_MAX loc.abs loc.last = .ok cand)
    (hat : (mountAt fs.table.mounts cand).isSome = false) :
    Canonical cand ∧ Uncrossed fs.table (namesOf loc.abs) loc.last := by
  obtain ⟨hv, hrender⟩ := hl.canonical.names
  have hlast := (hl.last_valid (by decide)).1
  refine ⟨hl.canonical.pathJoin hlast hj, fun m hm he => ?_⟩
  rw [← hrender] at hj
  obtain ⟨rfl, _⟩ := pathJoin_ok hv hj
  have hsome : (mountAt fs.table.mounts (render (namesOf loc.abs ++ [loc.last]))).isSome = true :=
    List.find?_isSome.mpr ⟨m, hm, by simpa using he⟩
  rw [hsome] at hat
  cases hat

include hC in
theorem vfsUnlink_keeps {base : Option Bytes} (hbase : Canonical (base.getD fs.cwd)) {p : Bytes}
    (rmdir : Bool) {x : σ} (hx : I x) (hfits : JoinFits K fs base p x) :
    KeepsAt I x (vfsUnlink K fs base p rmdir) (fun _ => True) := by
  rw [vfsUnlink]
  refine (walkPath_keeps hG hS hbase p W_PARENT x hx).attempt.bind fun r x' hr hx' hgood => ?_
  cases r with
  | error e =>
      dsimp only
      by_cases he : e = .EEXIST
      · rw [if_pos he]
        exact Keeps.throw x' hx'
      · rw [if_neg he]
        exact Keeps.throw x' hx'
  | ok loc =>
      have hl := hgood loc rfl
      obtain ⟨cand, hj⟩ := hfits loc x' (of_run_attempt hr)
      dsimp only
      cases htype : loc.m.type with
      | proc => exact Keeps.throw x' hx'
      | dev => exact Keeps.throw x' hx'
      | host root =>
          dsimp only
          rw [joinUnchecked, hj]
          dsimp only
          split_ifs with hdot hdotdot hat
          · exact Keeps.throw x' hx'
          · exact Keeps.throw x' hx'
          · exact Keeps.throw x' hx'
          · obtain ⟨hc, hfree⟩ := uncrossed_of_join hl hj (by simpa using hat)
            refine ((statAbs_keeps hG hS hc).bind fun st _ => ?_) x' hx'
            split_ifs
            · exact Keeps.throw
            · exact Keeps.throw
            · refine (openParent_keeps hG hS hl htype).bind fun d hd => ?_
              exact (hC.unlink d _ loc.last rmdir hd hfree).closing (hG.close d)

omit hG hS in
/-- What a parent walk of `vfs_rename` comes to, and that its join is its canonical path. -/
theorem busyParent_keeps {Safe : HostCall → Prop} (hG : Guarded K.store At I Safe)
    (hS : Seated fs.table At Safe) {base : Option Bytes} (hbase : Canonical (base.getD fs.cwd)) {p : Bytes}
    {x : σ} (hx : I x) (hfits : JoinFits K fs base p x) :
    KeepsAt I x (busyParent K fs base p) (fun loc => GoodLoc fs W_PARENT loc ∧
      ∃ cand, pathJoin PATH_MAX loc.abs loc.last = .ok cand) := by
  rw [busyParent]
  refine (walkPath_keeps hG hS hbase p W_PARENT x hx).attempt.bind fun r x' hr hx' hgood => ?_
  cases r with
  | error e => exact Keeps.throw x' hx'
  | ok loc => exact Keeps.pure ⟨hgood loc rfl, hfits loc x' (of_run_attempt hr)⟩ x' hx'

include hC in
theorem renameOnHost_keeps {oloc nloc : VfsLoc η} (ho : GoodLoc fs W_PARENT oloc)
    (hn : GoodLoc fs W_PARENT nloc) {oroot nroot : η} (horoot : oloc.m.type = .host oroot)
    (hnroot : nloc.m.type = .host nroot) (hofree : Uncrossed fs.table (namesOf oloc.abs) oloc.last)
    (hnfree : Uncrossed fs.table (namesOf nloc.abs) nloc.last) (noreplace : Bool)
    (nst : Except Errno KStat) :
    Keeps I (renameOnHost K oroot nroot oloc nloc noreplace nst) (fun _ => True) := by
  rw [renameOnHost]
  refine (openParent_keeps hG hS ho horoot).bind fun od hod => ?_
  refine (openParent_keeps hG hS hn hnroot).attempt.bind fun r hr => ?_
  cases r with
  | error e => exact Keeps.throw.closing (hG.close od)
  | ok nd =>
      have hnd := hr nd rfl
      refine (((hC.rename od _ oloc.last nd _ nloc.last noreplace hod hofree hnd hnfree).attempt.closing
        (hG.close od)).closing (hG.close nd)).bind fun r _ => ?_
      cases r with
      | error e => exact Keeps.throw
      | ok u => exact Keeps.pure trivial

include hC in
theorem vfsRename_keeps {oldBase newBase : Option Bytes} (hold : Canonical (oldBase.getD fs.cwd))
    (hnew : Canonical (newBase.getD fs.cwd)) {oldPath newPath : Bytes} (flags : UInt32) {x : σ}
    (hx : I x) (hofits : JoinFits K fs oldBase oldPath x)
    (hnfits : ∀ oloc x', (busyParent K fs oldBase oldPath).run x = (.ok oloc, x') →
      JoinFits K fs newBase newPath x') :
    KeepsAt I x (vfsRename K fs oldBase oldPath newBase newPath flags) (fun _ => True) := by
  rw [vfsRename]
  by_cases hflags : flags &&& ~~~RENAME_NOREPLACE ≠ 0
  · rw [if_pos hflags]
    exact Keeps.throw x hx
  rw [if_neg hflags]
  refine (busyParent_keeps hG hS hold hx hofits).bind fun oloc x' horun hx' hoprop => ?_
  obtain ⟨ho, ocand, hoj⟩ := hoprop
  refine (busyParent_keeps hG hS hnew hx' (hnfits oloc x' horun)).bind fun nloc x'' _ hx'' hnprop => ?_
  obtain ⟨hn, ncand, hnj⟩ := hnprop
  refine (?_ : Keeps I _ _) x'' hx''
  cases hotype : oloc.m.type with
  | proc => exact Keeps.throw
  | dev => exact Keeps.throw
  | host oroot =>
      cases hntype : nloc.m.type with
      | proc => exact Keeps.throw
      | dev => exact Keeps.throw
      | host nroot =>
          dsimp only
          rw [joinUnchecked, hoj, joinUnchecked, hnj]
          dsimp only
          by_cases hat : (mountAt fs.table.mounts ocand).isSome ∨ (mountAt fs.table.mounts ncand).isSome
          · rw [if_pos hat]
            split_ifs <;> exact Keeps.throw
          rw [if_neg hat]
          rw [not_or, Bool.not_eq_true, Bool.not_eq_true] at hat
          obtain ⟨hoc, hofree⟩ := uncrossed_of_join ho hoj hat.1
          obtain ⟨hnc, hnfree⟩ := uncrossed_of_join hn hnj hat.2
          split_ifs
          · exact Keeps.throw
          · exact Keeps.throw
          · refine (statAbs_keeps hG hS hoc).bind fun ost _ => ?_
            exact (statAbs_keeps hG hS hnc).attempt.bind fun nst _ => Keeps.pure trivial
          · refine (statAbs_keeps hG hS hoc).bind fun ost _ => ?_
            refine (statAbs_keeps hG hS hnc).attempt.bind fun nst _ => ?_
            refine (Keeps.liftExcept _).bind fun _ _ => ?_
            exact renameOnHost_keeps hC hG hS ho hn hotype hntype hofree hnfree _ _

theorem vfsStat_keeps {base : Option Bytes} (hbase : Canonical (base.getD fs.cwd)) (p : Bytes)
    (follow : Bool) : Keeps I (vfsStat K fs base p follow) (fun _ => True) := by
  rw [vfsStat]
  refine (walkPath_keeps hG hS hbase p _).bind fun loc hl => ?_
  refine (statAbs_keeps hG hS hl.canonical).bind fun st _ => ?_
  split_ifs
  · refine (readlinkAbs_keeps hG hS hl.canonical).attempt.bind fun r _ => ?_
    cases r <;> exact Keeps.pure trivial
  · exact Keeps.pure trivial

theorem withAttr_keeps {base : Option Bytes} (hbase : Canonical (base.getD fs.cwd)) (p : Bytes)
    (follow : Bool) {act : η → Call Errno σ Unit} (hact : ∀ h, Keeps I (act h) (fun _ => True)) :
    Keeps I (withAttr K fs base p follow act) (fun _ => True) := by
  rw [withAttr]
  refine (walkPath_keeps hG hS hbase p _).bind fun loc hl => ?_
  refine (openAttr_keeps hG hS hl.canonical).bind fun h _ => ?_
  exact (hact h).closing (hG.close h)

omit hS in
include hC in
theorem chmodHandle_keeps (h : η) (mode : UInt32) :
    Keeps I (chmodHandle K fs h mode) (fun _ => True) := by
  rw [chmodHandle]
  refine (hG.stat h).bind fun hs _ => ?_
  dsimp only
  split_ifs
  all_goals first | exact Keeps.throw | exact hC.setLx _ _ _ _ _ _ _

omit hS in
include hC in
theorem chownHandle_keeps (h : η) (uid gid : UInt32) :
    Keeps I (chownHandle K fs h uid gid) (fun _ => True) := by
  rw [chownHandle]
  refine (hG.stat h).bind fun hs _ => ?_
  dsimp only
  split_ifs
  all_goals first | exact Keeps.throw | exact Keeps.pure trivial | exact hC.setLx _ _ _ _ _ _ _

include hC in
theorem vfsTruncate_keeps {base : Option Bytes} (hbase : Canonical (base.getD fs.cwd)) (p : Bytes)
    (size : UInt64) : Keeps I (vfsTruncate K fs base p size) (fun _ => True) := by
  intro x hx
  rw [vfsTruncate]
  have hopen := vfsOpen_keeps hG hS hbase p O_WRONLY 0 x hx fun h => absurd h (by decide)
  refine hopen.bind fun f x' _ hx' _ => Keeps.closing ?_ (filePut_keeps hG f) x' hx'
  cases f with
  | host h kind flags p m =>
      dsimp only
      split_ifs
      · exact Keeps.throw
      · exact hC.truncate h size
  | synth f flags p => exact Keeps.throw

end Operations

end SysvNt
