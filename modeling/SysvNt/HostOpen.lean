import SysvNt.HostStore
import SysvNt.Names

/-!
# Opening on the host

`hfs_openat` and `hfs_reopen` over `NtCreateFile`: the disposition and the options they ask for,
the second open that hands back a reparse point as itself, and what `stat_handle` makes of the
answer. NT is a parameter.
-/

namespace SysvNt

open FallibleCalls

inductive NtStatus where
  | objectNameNotFound | objectPathNotFound | noSuchFile | objectNameInvalid
  | objectNameCollision | accessDenied | sharingViolation | cannotDelete | directoryNotEmpty
  | fileIsADirectory | notADirectory | tooManyLinks | diskFull | mediaWriteProtected
  | notSameDevice | nameTooLong | easNotSupported | notSupported | invalidInfoClass
  | notAReparsePoint | invalidParameter | noMemory | insufficientResources | invalidHandle
  | pending | fileCorruptError | ioReparseTagNotHandled | other
  deriving DecidableEq

def errnoOf : NtStatus → Errno
  | .objectNameNotFound | .objectPathNotFound | .noSuchFile | .objectNameInvalid => .ENOENT
  | .objectNameCollision => .EEXIST
  | .accessDenied => .EACCES
  | .sharingViolation | .cannotDelete => .EBUSY
  | .directoryNotEmpty => .ENOTEMPTY
  | .fileIsADirectory => .EISDIR
  | .notADirectory => .ENOTDIR
  | .tooManyLinks => .EMLINK
  | .diskFull => .ENOSPC
  | .mediaWriteProtected => .EROFS
  | .notSameDevice => .EXDEV
  | .nameTooLong => .ENAMETOOLONG
  | .easNotSupported | .notSupported | .invalidInfoClass => .EOPNOTSUPP
  | .notAReparsePoint | .invalidParameter => .EINVAL
  | .noMemory | .insufficientResources => .ENOMEM
  | .invalidHandle => .EBADF
  | .pending => .EAGAIN
  | .fileCorruptError => Errno.EIO
  | .ioReparseTagNotHandled => .ELOOP
  | .other => Errno.EIO

structure NtInfo where
  fileId : UInt64 := 0
  creationTime : Int64 := 0
  lastAccessTime : Int64 := 0
  lastWriteTime : Int64 := 0
  changeTime : Int64 := 0
  allocationSize : UInt64 := 0
  endOfFile : UInt64 := 0
  fileAttributes : UInt32 := 0
  reparseTag : UInt32 := 0
  numberOfLinks : UInt32 := 1
  lxFlags : UInt32 := 0
  lxUid : UInt32 := 0
  lxGid : UInt32 := 0
  lxMode : UInt32 := 0
  lxDeviceIdMajor : UInt32 := 0
  lxDeviceIdMinor : UInt32 := 0

def NtInfo.kind (i : NtInfo) : HfsKind := kindOf i.fileAttributes i.reparseTag

def HFS_LX_CASE : UInt32 := 0x10

def nsOf (t : Int64) : Int64 := if t = 0 then 0 else (t - 116444736000000000) * 100

def statOf (i : NtInfo) : HfsStat where
  ino := i.fileId
  size := i.endOfFile
  blocks := (i.allocationSize + 511) / 512
  nlink := i.numberOfLinks
  lxflags := i.lxFlags &&& (HFS_LX_UID ||| HFS_LX_GID ||| HFS_LX_MODE ||| HFS_LX_DEV ||| HFS_LX_CASE)
  mode := i.lxMode
  uid := i.lxUid
  gid := i.lxGid
  rdevMajor := i.lxDeviceIdMajor
  rdevMinor := i.lxDeviceIdMinor
  atime := nsOf i.lastAccessTime
  mtime := nsOf i.lastWriteTime
  ctime := nsOf i.changeTime
  btime := nsOf i.creationTime
  kind := kindOf i.fileAttributes i.reparseTag

structure LxAttributes where
  uid : UInt32
  gid : UInt32
  mode : UInt32

inductive Disposition where
  | open
  | overwrite
  | create (ea : LxAttributes)
  | openIf (ea : LxAttributes)
  | overwriteIf (ea : LxAttributes)

structure OpenOptions where
  directoryFile : Bool
  nonDirectoryFile : Bool
  openReparsePoint : Bool
  deriving DecidableEq

structure Nt (η σ : Type) where
  createFile : (dir : η) → (name : List UInt16) → (access : UInt32) → Disposition → OpenOptions →
    Call NtStatus σ η
  queryStat : η → Call NtStatus σ NtInfo
  close : η → StateM σ Unit

def FILE_READ_DATA : UInt32 := 0x1
def FILE_WRITE_DATA : UInt32 := 0x2
def FILE_APPEND_DATA : UInt32 := 0x4
def FILE_READ_EA : UInt32 := 0x8
def FILE_WRITE_EA : UInt32 := 0x10
def FILE_TRAVERSE : UInt32 := 0x20
def FILE_READ_ATTRIBUTES : UInt32 := 0x80
def FILE_WRITE_ATTRIBUTES : UInt32 := 0x100
def DELETE : UInt32 := 0x10000

def accessOf (flags : UInt32) : UInt32 :=
  FILE_READ_ATTRIBUTES ||| FILE_READ_EA |||
    (if has flags HFS_O_READ then FILE_READ_DATA else 0) |||
    (if has flags HFS_O_WRITE then
      FILE_WRITE_DATA ||| FILE_APPEND_DATA ||| FILE_WRITE_ATTRIBUTES ||| FILE_WRITE_EA else 0) |||
    (if has flags HFS_O_ATTR then FILE_WRITE_ATTRIBUTES ||| FILE_WRITE_EA else 0) |||
    (if has flags HFS_O_DELETE then DELETE else 0) |||
    (if has flags HFS_O_DIR then FILE_TRAVERSE else 0)

def dispositionOf (flags mode uid gid : UInt32) : Disposition :=
  let ea : LxAttributes := { uid, gid, mode := 0o100000 ||| mode &&& 0o7777 }
  if has flags HFS_O_CREATE then
    if has flags HFS_O_EXCL then .create ea
    else if has flags HFS_O_TRUNC then .overwriteIf ea
    else .openIf ea
  else if has flags HFS_O_TRUNC then .overwrite
  else .open

def optionsOf (flags : UInt32) : OpenOptions where
  directoryFile := has flags HFS_O_DIR
  nonDirectoryFile := has flags HFS_O_NODIR
  openReparsePoint := has flags HFS_O_REPARSE

section

variable {η σ : Type} (nt : Nt η σ)

/-- What a call of NT is to the callers above: its status as an errno. -/
def withErrno {α : Type} (m : Call NtStatus σ α) : Call Errno σ α :=
  ExceptT.mk fun x => ((m.run x).1.mapError errnoOf, (m.run x).2)

def statHandle (h : η) : Call Errno σ HfsStat := do
  let i ← withErrno (nt.queryStat h)
  pure (statOf i)

/-- An open object with its stat, or closed again if that cannot be had. -/
def withStat (h : η) (reparse : Bool) : Call Errno σ (Opened η) := do
  let r ← attempt (statHandle nt h)
  match r with
  | .error e => closing (nt.close h) (throw e)
  | .ok st => pure ⟨h, st, reparse⟩

def openFresh (h : η) (wantStat : Bool) : Call Errno σ (Opened η) :=
  if wantStat then withStat nt h false else pure ⟨h, {}, false⟩

/-- A reparse point that nobody handles, opened as itself. -/
def openReparse (dir : η) (w : List UInt16) (flags : UInt32) : Call Errno σ (Opened η) := do
  let h ← withErrno (nt.createFile dir w
    (FILE_READ_ATTRIBUTES ||| FILE_READ_EA ||| accessOf flags &&& DELETE) .open
    { directoryFile := false, nonDirectoryFile := false, openReparsePoint := true })
  withStat nt h true

def hfsOpenat (dir : η) (name : Bytes) (flags mode uid gid : UInt32) (wantStat : Bool) :
    Call Errno σ (Opened η) :=
  match nameToWide name 255 with
  | none => throw .ENAMETOOLONG
  | some w =>
    if w.length = 0 then throw .ENOENT
    else ExceptT.mk do
      let r ← (nt.createFile dir w (accessOf flags) (dispositionOf flags mode uid gid)
        (optionsOf flags)).run
      match r with
      | .ok h => (openFresh nt h wantStat).run
      | .error s =>
        if s = .ioReparseTagNotHandled ∧ has flags HFS_O_REPARSE = false then
          (openReparse nt dir w flags).run
        else pure (.error (errnoOf s))

def hfsReopen (h : η) (flags : UInt32) (wantStat : Bool) : Call Errno σ (Opened η) := do
  let nh ← withErrno (nt.createFile h [] (accessOf flags) .open (optionsOf flags))
  openFresh nt nh wantStat

/-- The host store whose opens are made of NT's, the other calls as given. -/
def Nt.store (rest : HostStore η σ) : HostStore η σ :=
  { rest with
    openat := hfsOpenat nt
    reopen := hfsReopen nt
    stat := statHandle nt
    close := nt.close }

theorem run_withErrno {α : Type} (m : Call NtStatus σ α) (x : σ) :
    (withErrno m).run x = ((m.run x).1.mapError errnoOf, (m.run x).2) := rfl

theorem run_hfsOpenat {name : Bytes} {w : List UInt16} (hw : nameToWide name 255 = some w)
    (hlen : w.length ≠ 0) (dir : η) (flags mode uid gid : UInt32) (wantStat : Bool) (x : σ) :
    (hfsOpenat nt dir name flags mode uid gid wantStat).run x =
      match (nt.createFile dir w (accessOf flags) (dispositionOf flags mode uid gid)
        (optionsOf flags)).run x with
      | (.ok h, x') => (openFresh nt h wantStat).run x'
      | (.error s, x') =>
        if s = .ioReparseTagNotHandled ∧ has flags HFS_O_REPARSE = false then
          (openReparse nt dir w flags).run x'
        else (.error (errnoOf s), x') := by
  rw [hfsOpenat, hw]
  dsimp only
  rw [if_neg hlen]
  change (do
    match ← (nt.createFile dir w (accessOf flags) (dispositionOf flags mode uid gid)
      (optionsOf flags)).run with
    | .ok h => (openFresh nt h wantStat).run
    | .error s =>
      if s = NtStatus.ioReparseTagNotHandled ∧ has flags HFS_O_REPARSE = false then
        (openReparse nt dir w flags).run
      else pure (.error (errnoOf s))) x = _
  rw [StateCalls.bind_apply]
  cases (nt.createFile dir w (accessOf flags) (dispositionOf flags mode uid gid)
    (optionsOf flags)).run x with
  | mk r x' =>
      cases r with
      | ok h => rfl
      | error s =>
          dsimp only
          split_ifs <;> rfl

section Keeping

variable {nt} {I : σ → Prop} (hopen : ∀ d w a o x, I x → I ((nt.createFile d w a .open o).run x).2)
  (hquery : ∀ h x, I x → I ((nt.queryStat h).run x).2) (hclose : ∀ h x, I x → I (nt.close h x).2)

omit hopen hquery hclose in
theorem withErrno_keeps {α : Type} {m : Call NtStatus σ α} (h : ∀ x, I x → I (m.run x).2) :
    Keeps I (withErrno m) (fun _ => True) :=
  fun x hx => ⟨h x hx, fun _ _ => trivial⟩

include hquery

omit hopen hclose in
theorem statHandle_keeps (h : η) : Keeps I (statHandle nt h) (fun _ => True) := by
  rw [statHandle]
  exact (withErrno_keeps (hquery h)).bind fun _ _ => Keeps.pure trivial

include hclose

omit hopen in
theorem withStat_keeps (h : η) (reparse : Bool) :
    Keeps I (withStat nt h reparse) (fun o => o.h = h ∧ o.reparse = reparse) := by
  rw [withStat]
  refine (statHandle_keeps hquery h).attempt.bind fun r _ => ?_
  cases r with
  | error e => exact Keeps.throw.closing (hclose h)
  | ok st => exact Keeps.pure ⟨rfl, rfl⟩

omit hopen in
theorem openFresh_keeps (h : η) (wantStat : Bool) :
    Keeps I (openFresh nt h wantStat) (fun o => o.h = h ∧ o.reparse = false) := by
  rw [openFresh]
  split_ifs
  · exact withStat_keeps hquery hclose h false
  · exact Keeps.pure ⟨rfl, rfl⟩

include hopen

theorem openReparse_keeps (dir : η) (w : List UInt16) (flags : UInt32) :
    Keeps I (openReparse nt dir w flags) (fun o => o.reparse = true) := by
  rw [openReparse]
  refine (withErrno_keeps (hopen dir w _ _)).bind fun h _ => ?_
  exact (withStat_keeps hquery hclose h true).mono fun o ho => ho.2

theorem hfsReopen_keeps (h : η) (flags : UInt32) (wantStat : Bool) :
    Keeps I (hfsReopen nt h flags wantStat) (fun _ => True) := by
  rw [hfsReopen]
  refine (withErrno_keeps (hopen h [] _ _)).bind fun nh _ => ?_
  exact (openFresh_keeps hquery hclose nh wantStat).mono fun _ _ => trivial

/-- What the first call of NT keeps, the whole open keeps. -/
theorem hfsOpenat_keeps_of (dir : η) (name : Bytes) (flags mode uid gid : UInt32) (wantStat : Bool)
    (hfirst : ∀ w x, I x → I ((nt.createFile dir w (accessOf flags) (dispositionOf flags mode uid gid)
      (optionsOf flags)).run x).2) :
    Keeps I (hfsOpenat nt dir name flags mode uid gid wantStat) (fun _ => True) := by
  intro x hx
  cases hw : nameToWide name 255 with
  | none =>
      rw [hfsOpenat, hw]
      exact Keeps.throw x hx
  | some w =>
      by_cases hlen : w.length = 0
      · rw [hfsOpenat, hw]
        dsimp only
        rw [if_pos hlen]
        exact Keeps.throw x hx
      · have hcall := hfirst w x hx
        rw [KeepsAt, run_hfsOpenat nt hw hlen]
        cases hrun : (nt.createFile dir w (accessOf flags) (dispositionOf flags mode uid gid)
            (optionsOf flags)).run x with
        | mk r x' =>
            rw [hrun] at hcall
            cases r with
            | ok h => exact ⟨(openFresh_keeps hquery hclose h wantStat x' hcall).1, fun _ _ => trivial⟩
            | error s =>
                dsimp only
                split_ifs
                · exact ⟨(openReparse_keeps hopen hquery hclose dir w flags x' hcall).1,
                    fun _ _ => trivial⟩
                · exact ⟨hcall, fun _ _ => trivial⟩

/-- An open that asks for nothing new only opens. -/
theorem hfsOpenat_keeps (dir : η) (name : Bytes) {flags : UInt32}
    (hcreate : has flags HFS_O_CREATE = false) (htrunc : has flags HFS_O_TRUNC = false)
    (mode uid gid : UInt32) (wantStat : Bool) :
    Keeps I (hfsOpenat nt dir name flags mode uid gid wantStat) (fun _ => True) := by
  have hdisp : dispositionOf flags mode uid gid = .open := by
    rw [dispositionOf, hcreate, htrunc]
    rfl
  refine hfsOpenat_keeps_of hopen hquery hclose dir name flags mode uid gid wantStat fun w x hx => ?_
  rw [hdisp]
  exact hopen dir w _ _ x hx

end Keeping

end

end SysvNt
