import SysvNt.DeviceNumbers
import SysvNt.SetTimes
import SysvNt.Task

/-!
# The table of the system calls

`sys_fs_dispatch` takes the arguments of a frame apart and calls a function for each number. These copy
paths and structures across the boundary, find what a descriptor stands for, and leave the work to the
file system, to an operation of a description or to the table of descriptors.
-/

namespace SysvNt

open FallibleCalls FdState FileOps

variable {η σ : Type}

def AT_REMOVEDIR : UInt32 := 0x200
def AT_EACCESS : UInt32 := 0x200

/-- A structure in memory, from the sizes of its fields and what is in them. -/
def fieldBytes : List (ℕ × ℕ) → Bytes
  | [] => []
  | f :: fs => littleEndian f.1 f.2 ++ fieldBytes fs

def fieldSizes : List (ℕ × ℕ) → ℕ
  | [] => 0
  | f :: fs => f.1 + fieldSizes fs

theorem length_fieldBytes (fs : List (ℕ × ℕ)) : (fieldBytes fs).length = fieldSizes fs := by
  induction fs with
  | nil => rfl
  | cons f fs ih => rw [fieldBytes, List.length_append, length_littleEndian, ih, fieldSizes]

def LxTimespec.fields (t : LxTimespec) : List (ℕ × ℕ) :=
  [(8, t.tvSec.toUInt64.toNat), (8, t.tvNsec.toUInt64.toNat)]

def LxStatxTimestamp.fields (t : LxStatxTimestamp) : List (ℕ × ℕ) :=
  [(8, t.tvSec.toUInt64.toNat), (4, t.tvNsec.toNat), (4, 0)]

/-- The fields of `struct stat`, with those that pad it. -/
def LxStat.fields (s : LxStat) : List (ℕ × ℕ) :=
  [(8, s.stDev.toNat), (8, s.stIno.toNat), (8, s.stNlink.toNat), (4, s.stMode.toNat), (4, s.stUid.toNat),
    (4, s.stGid.toNat), (4, 0), (8, s.stRdev.toNat), (8, s.stSize.toUInt64.toNat),
    (8, s.stBlksize.toUInt64.toNat), (8, s.stBlocks.toUInt64.toNat)] ++
  s.stAtim.fields ++ s.stMtim.fields ++ s.stCtim.fields ++ [(24, 0)]

def LxStatx.fields (s : LxStatx) : List (ℕ × ℕ) :=
  [(4, s.stxMask.toNat), (4, s.stxBlksize.toNat), (8, 0), (4, s.stxNlink.toNat), (4, s.stxUid.toNat),
    (4, s.stxGid.toNat), (2, s.stxMode.toNat), (2, 0), (8, s.stxIno.toNat), (8, s.stxSize.toNat),
    (8, s.stxBlocks.toNat), (8, 0)] ++
  s.stxAtime.fields ++ s.stxBtime.fields ++ s.stxCtime.fields ++ s.stxMtime.fields ++
  [(4, s.stxRdevMajor.toNat), (4, s.stxRdevMinor.toNat), (4, s.stxDevMajor.toNat), (4, s.stxDevMinor.toNat), (112, 0)]

def LxStat.bytes (s : LxStat) : Bytes := fieldBytes s.fields

def LxStatx.bytes (s : LxStatx) : Bytes := fieldBytes s.fields

theorem LxStat.fieldSizes_fields (s : LxStat) : fieldSizes s.fields = 144 := by
  simp [LxStat.fields, LxTimespec.fields, fieldSizes]

theorem LxStatx.fieldSizes_fields (s : LxStatx) : fieldSizes s.fields = 256 := by
  simp [LxStatx.fields, LxStatxTimestamp.fields, fieldSizes]

theorem LxStat.length_bytes (s : LxStat) : s.bytes.length = 144 := by
  rw [LxStat.bytes, length_fieldBytes, s.fieldSizes_fields]

theorem LxStatx.length_bytes (s : LxStatx) : s.bytes.length = 256 := by
  rw [LxStatx.bytes, length_fieldBytes, s.fieldSizes_fields]

/-- The two timespecs in a copy of the caller's. -/
def timespecsOf (b : Bytes) : LxTimespec × LxTimespec :=
  let word i := (UInt64.ofNat (fromLittleEndian ((b.drop (8 * i)).take 8))).toInt64
  (⟨word 0, word 1⟩, ⟨word 2, word 3⟩)

/-- What `reopen_attr` and what follows it take: a description that is neither of a pipe nor of the console. -/
def OpenDescription.reopened : OpenDescription η → Except Errno (OpenFile η)
  | .opened f => .ok f
  | .pipe _ => .error .EPERM
  | .console => .error .EPERM

namespace Task

variable (M : Platform η σ)

section Descriptors

def sysClose (fd : ℤ) : Sys η σ Int64 := Int64.ofInt <$> onTable fun p => p.fdClose M fd

def sysDup (fd : ℤ) : Sys η σ Int64 := Int64.ofInt <$> onFds fun t => t.sysDup fd

def sysDup3 (oldfd newfd : ℤ) (flags : UInt32) : Sys η σ Int64 :=
  if flags &&& ~~~O_CLOEXEC ≠ 0 then throw .EINVAL
  else if oldfd = newfd then throw .EINVAL
  else Int64.ofInt <$> onTable fun p => p.fdDup2 M oldfd newfd (has flags O_CLOEXEC)

def sysDup2 (oldfd newfd : ℤ) : Sys η σ Int64 := do
  let _ ← fget oldfd
  if oldfd = newfd then pure (Int64.ofInt newfd)
  else Int64.ofInt <$> onTable fun p => p.fdDup2 M oldfd newfd false

def sysFcntl (fd cmd : ℤ) (arg : Int64) : Sys η σ Int64 :=
  Int64.ofInt <$> onFds fun t => t.sysFcntl fd cmd arg.toInt

def vfsPipe (flags : UInt32) : Sys η σ (ℕ × ℕ) := do
  alloc M
  let r ← look fun p => p.nextRing
  change fun p => p.ringNew
  let haveRd ← onHost fun _ => liftM M.store.alloc
  let haveWr ← onHost fun _ => liftM M.store.alloc
  if !haveRd || !haveWr then do
    change fun p => p.ringDrop r
    throw .ENOMEM
  else do
    let rd ← look fun p => p.fdt.next
    change fun p => p.pipeEnds r flags
    pure (rd, rd + 1)

/-- The slot for the end for writing, if the other end has one. -/
def secondSlot (wr : ℕ) (cloexec : Bool) : Except Errno ℤ → Sys η σ (Except Errno ℤ)
  | .error e => pure (.error e)
  | .ok _ => attempt (onFds fun t => t.fdInstall wr cloexec 0)

/-- The end of `sys_pipe2`, from what came of the two slots. -/
def pipe2Answer (ufds : UInt64) : (fd₀ fd₁ : Except Errno ℤ) → Sys η σ Int64
  | .error e, _ => throw e
  | .ok fd₀, .error e => do
    change fun p => (p.fdClose M fd₀).2
    throw e
  | .ok fd₀, .ok fd₁ => do
    let r ← attempt (copyOut M ufds (intBytes fd₀ ++ intBytes fd₁))
    if r.isOk then pure 0
    else do
      change fun p => (p.fdClose M fd₀).2
      change fun p => (p.fdClose M fd₁).2
      throw .EFAULT

def pipe2Install (rd wr : ℕ) (ufds : UInt64) (cloexec : Bool) : Sys η σ Int64 := do
  let fd₀ ← attempt (onFds fun t => t.fdInstall rd cloexec 0)
  let fd₁ ← secondSlot wr cloexec fd₀
  change fun p => p.filePut M rd
  change fun p => p.filePut M wr
  pipe2Answer M ufds fd₀ fd₁

def sysPipe2 (ufds : UInt64) (flags : UInt32) : Sys η σ Int64 :=
  if flags &&& ~~~(O_NONBLOCK ||| O_CLOEXEC) ≠ 0 then throw .EINVAL
  else do
    let ends ← vfsPipe M flags
    pipe2Install M ends.1 ends.2 ufds (has flags O_CLOEXEC)

end Descriptors

section Data

def throughOps (k : ℕ) (m : Table (σ × Rings) → (flags : UInt32) → Call Errno (FileOps.Live (σ × Rings)) ℕ) :
    Sys η σ Int64 :=
  Int64.ofNat <$> through k fun p => m (M.opsOf (p.fdt.heap k).flags (p.privI k) (p.file k)) (p.fdt.heap k).flags

def sysRead (fd : ℤ) (ubuf : UInt64) (len : Int64) : Sys η σ Int64 := do
  let k ← fget fd
  throughOps M k fun ops flags => FileOps.doRead M.io.besideRings ops flags ubuf len.toInt none

def sysWrite (fd : ℤ) (ubuf : UInt64) (len : Int64) : Sys η σ Int64 := do
  let k ← fget fd
  throughOps M k fun ops flags => FileOps.doWrite M.io.besideRings ops flags ubuf len.toInt none

def sysPread64 (fd : ℤ) (ubuf : UInt64) (len off : Int64) : Sys η σ Int64 :=
  if off < 0 then throw .EINVAL
  else do
    let k ← fget fd
    throughOps M k fun ops flags => FileOps.doRead M.io.besideRings ops flags ubuf len.toInt (some off.toUInt64)

def sysPwrite64 (fd : ℤ) (ubuf : UInt64) (len off : Int64) : Sys η σ Int64 :=
  if off < 0 then throw .EINVAL
  else do
    let k ← fget fd
    throughOps M k fun ops flags => FileOps.doWrite M.io.besideRings ops flags ubuf len.toInt (some off.toUInt64)

def sysReadvWritev (fd : ℤ) (uiov : UInt64) (cnt : Int64) (writing : Bool) : Sys η σ Int64 := do
  let k ← fget fd
  throughOps M k fun ops flags =>
    let io := M.io.besideRings
    let one ubuf len :=
      if writing then FileOps.doWrite io ops flags ubuf len none else FileOps.doRead io ops flags ubuf len none
    FileOps.sysReadvWritev io (SysvNt.besideRings M.store.alloc) one uiov cnt.toInt

def sysLseek (fd : ℤ) (off : Int64) (whence : Int32) : Sys η σ Int64 := do
  let k ← fget fd
  through k fun p => M.lseekOf off whence (p.file k)

def sysGetdents64 (fd : ℤ) (ubuf : UInt64) (len : Int64) : Sys η σ Int64 := do
  let k ← fget fd
  throughOps M k fun ops _ => FileOps.sysGetdents64 M.io.besideRings ops ubuf len.toInt

def sysFtruncate (fd : ℤ) (size : Int64) : Sys η σ Int64 := do
  let k ← fget fd
  throughOps M k fun ops flags => FileOps.sysFtruncate ops flags size.toInt

def sysFsync (fd : ℤ) : Sys η σ Int64 := do
  let k ← fget fd
  onHost fun p => M.fsyncOf (p.file k)
  pure 0

end Data

section Paths

def pathOrNone (upath : UInt64) : Sys η σ Bytes := if upath = 0 then pure [] else copyPath M upath

def sysOpenat (dirfd : ℤ) (upath : UInt64) (flags mode : UInt32) : Sys η σ Int64 := do
  let path ← copyPath M upath
  let base ← baseOf dirfd path
  if path = [] then throw .ENOENT
  else do
    let f ← vfs M fun K fs => vfsOpen K fs base path flags mode
    let k ← look fun p => p.fdt.next
    change fun p => p.fileNew f.made.1 f.made.2 (.opened f) 0
    let r ← attempt (onFds fun t => t.fdInstall k (has flags O_CLOEXEC) 0)
    change fun p => p.filePut M k
    Int64.ofInt <$> liftM (m := Except Errno) r

/-- What `sys_fstatat` finds: on a path, or behind a descriptor. -/
def fstatatOf (dirfd : ℤ) (base : Option Bytes) (path : Bytes) (flags : UInt32) : Sys η σ KStat :=
  if path ≠ [] then vfs M fun K fs => vfsStat K fs base path (!has flags AT_SYMLINK_NOFOLLOW)
  else if has flags AT_EMPTY_PATH then do
    let self ← fget dirfd
    onHost fun p => vfsFstat (p.kernel M) (p.file self)
  else throw .ENOENT

/-- `sys_fstatat`; with a mask it is that of `statx`. -/
def sysFstatat (dirfd : ℤ) (upath ust : UInt64) (flags : UInt32) (statx : Option UInt32) : Sys η σ Int64 := do
  let path ← pathOrNone M upath
  let base ← baseOf dirfd path
  let k ← fstatatOf M dirfd base path flags
  copyOut M ust (statx.elim (toStat k).bytes fun mask => (toStatx k mask).bytes)
  pure 0

def sysFstat (fd : ℤ) (ust : UInt64) : Sys η σ Int64 := do
  let self ← fget fd
  let k ← onHost fun p => vfsFstat (p.kernel M) (p.file self)
  copyOut M ust (toStat k).bytes
  pure 0

def sysFaccessat (dirfd : ℤ) (upath : UInt64) (mode flags : UInt32) : Sys η σ Int64 := do
  let path ← copyPath M upath
  if mode &&& ~~~7 ≠ 0 then throw .EINVAL
  else do
    let base ← baseOf dirfd path
    vfs M fun K fs => vfsAccess K fs base path mode (has flags AT_EACCESS)
    pure 0

/-- The bytes that `sys_readlinkat` copies out; behind its buffer are those of the stack. -/
def linkBytes (target : Bytes) (n : ℕ) : Bytes :=
  (List.range n).map fun i => if i < PATH_MAX then target.getD i 0 else M.beyond (i - PATH_MAX)

def sysReadlinkat (dirfd : ℤ) (upath ubuf : UInt64) (cap : Int64) : Sys η σ Int64 := do
  let path ← copyPath M upath
  if cap ≤ 0 then throw .EINVAL
  else do
    let base ← baseOf dirfd path
    if path = [] then throw .ENOENT
    else do
      let target ← vfs M fun K fs => vfsReadlink K fs base path
      let n := min target.length cap.toNatClampNeg
      copyOut M ubuf (linkBytes M target n)
      pure (Int64.ofNat n)

def sysSymlinkat (utarget : UInt64) (dirfd : ℤ) (upath : UInt64) : Sys η σ Int64 := do
  let target ← copyPath M utarget
  let path ← copyPath M upath
  let base ← baseOf dirfd path
  vfs M fun K fs => vfsSymlink K fs target base path
  pure 0

/-- The old name that `sys_linkat` links: where it starts, and the name. -/
def linkatOldOf (odirfd : ℤ) (base : Option Bytes) (old : Bytes) (flags : UInt32) : Sys η σ (Option Bytes × Bytes) :=
  if old ≠ [] then pure (base, old)
  else if has flags AT_EMPTY_PATH then do
    let self ← selfOf odirfd
    look fun p => (none, (p.file self).path)
  else throw .ENOENT

def sysLinkat (odirfd : ℤ) (uold : UInt64) (ndirfd : ℤ) (unew : UInt64) (flags : UInt32) : Sys η σ Int64 := do
  let old ← copyPath M uold
  let new ← copyPath M unew
  if flags &&& ~~~(AT_SYMLINK_FOLLOW ||| AT_EMPTY_PATH) ≠ 0 then throw .EINVAL
  else do
    let base ← baseOf odirfd old
    let src ← linkatOldOf odirfd base old flags
    let dst ← baseOf ndirfd new
    vfs M fun K fs => vfsLink K fs src.1 src.2 dst new (has flags AT_SYMLINK_FOLLOW)
    pure 0

def sysUnlinkat (dirfd : ℤ) (upath : UInt64) (flags : UInt32) : Sys η σ Int64 := do
  let path ← copyPath M upath
  if flags &&& ~~~AT_REMOVEDIR ≠ 0 then throw .EINVAL
  else do
    let base ← baseOf dirfd path
    vfs M fun K fs => vfsUnlink K fs base path (has flags AT_REMOVEDIR)
    pure 0

def sysRenameat2 (odirfd : ℤ) (uold : UInt64) (ndirfd : ℤ) (unew : UInt64) (flags : UInt32) : Sys η σ Int64 := do
  let old ← copyPath M uold
  let new ← copyPath M unew
  let ob ← baseOf odirfd old
  let nb ← baseOf ndirfd new
  vfs M fun K fs => vfsRename K fs ob old nb new flags
  pure 0

/-- The calls that copy a path, find where it starts and hand both to the file system. -/
def withPath (dirfd : ℤ) (upath : UInt64)
    (act : Kernel η σ → FsCtx η → Option Bytes → Bytes → Call Errno σ Unit) : Sys η σ Int64 := do
  let path ← copyPath M upath
  let base ← baseOf dirfd path
  vfs M fun K fs => act K fs base path
  pure 0

def sysMkdirat (dirfd : ℤ) (upath : UInt64) (mode : UInt32) : Sys η σ Int64 :=
  withPath M dirfd upath fun K fs base path => vfsMkdir K fs base path mode

def sysMknodat (dirfd : ℤ) (upath : UInt64) (mode : UInt32) (dev : UInt64) : Sys η σ Int64 :=
  withPath M dirfd upath fun K fs base path => vfsMknod K fs base path mode (mknodMajor dev) (mknodMinor dev)

def sysFchmodat (dirfd : ℤ) (upath : UInt64) (mode : UInt32) : Sys η σ Int64 :=
  withPath M dirfd upath fun K fs base path => vfsChmod K fs base path mode

def withSelf (k : ℕ) (act : Kernel η σ → FsCtx η → OpenFile η → Call Errno σ Unit) : Sys η σ Int64 := do
  let f ← orFail fun p => (p.file k).reopened
  vfs M fun K fs => act K fs f
  pure 0

def sysFchmod (fd : ℤ) (mode : UInt32) : Sys η σ Int64 := do
  let k ← fget fd
  withSelf M k fun K fs f => vfsFchmod K fs f mode

def sysFchownat (dirfd : ℤ) (upath : UInt64) (uid gid flags : UInt32) : Sys η σ Int64 := do
  let path ← copyPath M upath
  if flags &&& ~~~(AT_SYMLINK_NOFOLLOW ||| AT_EMPTY_PATH) ≠ 0 then throw .EINVAL
  else do
    let base ← baseOf dirfd path
    if path ≠ [] then do
      vfs M fun K fs => vfsChown K fs base path uid gid (!has flags AT_SYMLINK_NOFOLLOW)
      pure 0
    else if has flags AT_EMPTY_PATH then do
      let self ← selfOf dirfd
      withSelf M self fun K fs f => vfsFchown K fs f uid gid
    else throw .ENOENT

def sysFchown (fd : ℤ) (uid gid : UInt32) : Sys η σ Int64 := do
  let k ← fget fd
  withSelf M k fun K fs f => vfsFchown K fs f uid gid

def utimesIn (utimes : UInt64) : Sys η σ (Int64 × Int64) :=
  if utimes = 0 then pure (HFS_TIME_NOW, HFS_TIME_NOW)
  else do
    let ts ← copyIn M utimes 32
    liftM (m := Except Errno) (timeArgs (some (ts.map timespecsOf)))

def sysUtimensat (dirfd : ℤ) (upath utimes : UInt64) (flags : UInt32) : Sys η σ Int64 :=
  if flags &&& ~~~AT_SYMLINK_NOFOLLOW ≠ 0 then throw .EINVAL
  else do
    let times ← utimesIn M utimes
    if upath ≠ 0 then do
      let path ← copyPath M upath
      let base ← baseOf dirfd path
      if path = [] then throw .ENOENT
      else do
        vfs M fun K fs => vfsUtimens K fs base path times.1 times.2 (!has flags AT_SYMLINK_NOFOLLOW)
        pure 0
    else do
      let k ← fget dirfd
      withSelf M k fun K _ f => vfsFutimens K f times.1 times.2

def sysTruncate (upath : UInt64) (size : Int64) : Sys η σ Int64 := do
  let path ← copyPath M upath
  if size < 0 then throw .EINVAL
  else do
    vfs M fun K fs => vfsTruncate K fs none path size.toUInt64
    pure 0

def setCwd (cwd : Bytes) : Sys η σ Unit := change fun p => { p with fs := { p.fs with cwd := cwd } }

def sysChdir (upath : UInt64) : Sys η σ Int64 := do
  let path ← copyPath M upath
  let cwd ← vfs M fun K fs => vfsChdir K fs none path
  setCwd cwd
  pure 0

def sysFchdir (fd : ℤ) : Sys η σ Int64 := do
  let k ← fget fd
  let cwd ← orFail fun p => vfsFchdir (p.file k)
  setCwd cwd
  pure 0

/-- `vfs_getcwd`, with its terminator. -/
def vfsGetcwd (cap : ℕ) : Sys η σ Bytes := orFail fun p =>
  if cap < p.fs.cwd.length + 1 then .error .ERANGE else .ok (p.fs.cwd ++ [0])

def sysGetcwd (ubuf : UInt64) (cap : Int64) : Sys η σ Int64 :=
  if cap ≤ 0 then throw .EINVAL
  else do
    let cwd ← vfsGetcwd PATH_MAX
    if cap.toInt < cwd.length then throw .ERANGE
    else do
      copyOut M ubuf cwd
      pure (Int64.ofNat cwd.length)

def sysUmask (mask : UInt32) : Sys η σ Int64 := do
  let old ← look fun p => p.fs.umask
  change fun p => { p with fs := { p.fs with umask := mask &&& 0o777 } }
  pure old.toUInt64.toInt64

end Paths

end Task

structure SysFrame where
  nr : Int64
  a1 : Int64
  a2 : Int64
  a3 : Int64
  a4 : Int64
  a5 : Int64
  a6 : Int64

def NR_read : Int64 := 0
def NR_write : Int64 := 1
def NR_open : Int64 := 2
def NR_close : Int64 := 3
def NR_stat : Int64 := 4
def NR_fstat : Int64 := 5
def NR_lstat : Int64 := 6
def NR_lseek : Int64 := 8
def NR_pread64 : Int64 := 17
def NR_pwrite64 : Int64 := 18
def NR_readv : Int64 := 19
def NR_writev : Int64 := 20
def NR_access : Int64 := 21
def NR_pipe : Int64 := 22
def NR_dup : Int64 := 32
def NR_dup2 : Int64 := 33
def NR_getpid : Int64 := 39
def NR_fcntl : Int64 := 72
def NR_fsync : Int64 := 74
def NR_fdatasync : Int64 := 75
def NR_truncate : Int64 := 76
def NR_ftruncate : Int64 := 77
def NR_getcwd : Int64 := 79
def NR_chdir : Int64 := 80
def NR_fchdir : Int64 := 81
def NR_rename : Int64 := 82
def NR_mkdir : Int64 := 83
def NR_rmdir : Int64 := 84
def NR_creat : Int64 := 85
def NR_link : Int64 := 86
def NR_unlink : Int64 := 87
def NR_symlink : Int64 := 88
def NR_readlink : Int64 := 89
def NR_chmod : Int64 := 90
def NR_fchmod : Int64 := 91
def NR_chown : Int64 := 92
def NR_fchown : Int64 := 93
def NR_lchown : Int64 := 94
def NR_umask : Int64 := 95
def NR_getuid : Int64 := 102
def NR_getgid : Int64 := 104
def NR_geteuid : Int64 := 107
def NR_getegid : Int64 := 108
def NR_getdents64 : Int64 := 217
def NR_exit_group : Int64 := 231
def NR_openat : Int64 := 257
def NR_mkdirat : Int64 := 258
def NR_mknodat : Int64 := 259
def NR_fchownat : Int64 := 260
def NR_newfstatat : Int64 := 262
def NR_unlinkat : Int64 := 263
def NR_renameat : Int64 := 264
def NR_linkat : Int64 := 265
def NR_symlinkat : Int64 := 266
def NR_readlinkat : Int64 := 267
def NR_fchmodat : Int64 := 268
def NR_faccessat : Int64 := 269
def NR_utimensat : Int64 := 280
def NR_dup3 : Int64 := 292
def NR_pipe2 : Int64 := 293
def NR_renameat2 : Int64 := 316
def NR_statx : Int64 := 332

/-- A call with its arguments as the handler takes them. -/
inductive SysCall where
  | read (fd : ℤ) (ubuf : UInt64) (len : Int64)
  | write (fd : ℤ) (ubuf : UInt64) (len : Int64)
  | pread64 (fd : ℤ) (ubuf : UInt64) (len off : Int64)
  | pwrite64 (fd : ℤ) (ubuf : UInt64) (len off : Int64)
  | readvWritev (fd : ℤ) (uiov : UInt64) (cnt : Int64) (writing : Bool)
  | openat (dirfd : ℤ) (upath : UInt64) (flags mode : UInt32)
  | close (fd : ℤ)
  | fstatat (dirfd : ℤ) (upath ust : UInt64) (flags : UInt32) (statx : Option UInt32)
  | fstat (fd : ℤ) (ust : UInt64)
  | lseek (fd : ℤ) (off : Int64) (whence : Int32)
  | faccessat (dirfd : ℤ) (upath : UInt64) (mode flags : UInt32)
  | pipe2 (ufds : UInt64) (flags : UInt32)
  | dup (fd : ℤ)
  | dup2 (oldfd newfd : ℤ)
  | dup3 (oldfd newfd : ℤ) (flags : UInt32)
  | fcntl (fd cmd : ℤ) (arg : Int64)
  | fsync (fd : ℤ)
  | truncate (upath : UInt64) (size : Int64)
  | ftruncate (fd : ℤ) (size : Int64)
  | getdents64 (fd : ℤ) (ubuf : UInt64) (len : Int64)
  | getcwd (ubuf : UInt64) (cap : Int64)
  | chdir (upath : UInt64)
  | fchdir (fd : ℤ)
  | renameat2 (odirfd : ℤ) (uold : UInt64) (ndirfd : ℤ) (unew : UInt64) (flags : UInt32)
  | mkdirat (dirfd : ℤ) (upath : UInt64) (mode : UInt32)
  | unlinkat (dirfd : ℤ) (upath : UInt64) (flags : UInt32)
  | linkat (odirfd : ℤ) (uold : UInt64) (ndirfd : ℤ) (unew : UInt64) (flags : UInt32)
  | symlinkat (utarget : UInt64) (dirfd : ℤ) (upath : UInt64)
  | readlinkat (dirfd : ℤ) (upath ubuf : UInt64) (cap : Int64)
  | fchmodat (dirfd : ℤ) (upath : UInt64) (mode : UInt32)
  | fchmod (fd : ℤ) (mode : UInt32)
  | fchownat (dirfd : ℤ) (upath : UInt64) (uid gid flags : UInt32)
  | fchown (fd : ℤ) (uid gid : UInt32)
  | utimensat (dirfd : ℤ) (upath utimes : UInt64) (flags : UInt32)
  | mknodat (dirfd : ℤ) (upath : UInt64) (mode : UInt32) (dev : UInt64)
  | umask (mask : UInt32)
  | getpid
  | getuid
  | geteuid
  | getgid
  | getegid

def cUInt (a : Int64) : UInt32 := a.toUInt64.toUInt32

namespace SysFrame

variable (f : SysFrame)

def fd : ℤ := f.a1.toInt32.toInt

def call : Option SysCall :=
  if f.nr = NR_read then some (.read f.fd f.a2.toUInt64 f.a3)
  else if f.nr = NR_write then some (.write f.fd f.a2.toUInt64 f.a3)
  else if f.nr = NR_pread64 then some (.pread64 f.fd f.a2.toUInt64 f.a3 f.a4)
  else if f.nr = NR_pwrite64 then some (.pwrite64 f.fd f.a2.toUInt64 f.a3 f.a4)
  else if f.nr = NR_readv then some (.readvWritev f.fd f.a2.toUInt64 f.a3 false)
  else if f.nr = NR_writev then some (.readvWritev f.fd f.a2.toUInt64 f.a3 true)
  else if f.nr = NR_open then some (.openat AT_FDCWD f.a1.toUInt64 (cUInt f.a2) (cUInt f.a3))
  else if f.nr = NR_openat then some (.openat f.fd f.a2.toUInt64 (cUInt f.a3) (cUInt f.a4))
  else if f.nr = NR_creat then some (.openat AT_FDCWD f.a1.toUInt64 (O_CREAT ||| O_WRONLY ||| O_TRUNC) (cUInt f.a2))
  else if f.nr = NR_close then some (.close f.fd)
  else if f.nr = NR_stat then some (.fstatat AT_FDCWD f.a1.toUInt64 f.a2.toUInt64 0 none)
  else if f.nr = NR_lstat then some (.fstatat AT_FDCWD f.a1.toUInt64 f.a2.toUInt64 AT_SYMLINK_NOFOLLOW none)
  else if f.nr = NR_fstat then some (.fstat f.fd f.a2.toUInt64)
  else if f.nr = NR_newfstatat then some (.fstatat f.fd f.a2.toUInt64 f.a3.toUInt64 (cUInt f.a4) none)
  else if f.nr = NR_statx then some (.fstatat f.fd f.a2.toUInt64 f.a5.toUInt64 (cUInt f.a3) (some (cUInt f.a4)))
  else if f.nr = NR_lseek then some (.lseek f.fd f.a2 f.a3.toInt32)
  else if f.nr = NR_access then some (.faccessat AT_FDCWD f.a1.toUInt64 (cUInt f.a2) 0)
  else if f.nr = NR_faccessat then some (.faccessat f.fd f.a2.toUInt64 (cUInt f.a3) (cUInt f.a4))
  else if f.nr = NR_pipe then some (.pipe2 f.a1.toUInt64 0)
  else if f.nr = NR_pipe2 then some (.pipe2 f.a1.toUInt64 (cUInt f.a2))
  else if f.nr = NR_dup then some (.dup f.fd)
  else if f.nr = NR_dup2 then some (.dup2 f.fd f.a2.toInt32.toInt)
  else if f.nr = NR_dup3 then some (.dup3 f.fd f.a2.toInt32.toInt (cUInt f.a3))
  else if f.nr = NR_fcntl then some (.fcntl f.fd f.a2.toInt32.toInt f.a3)
  else if f.nr = NR_fsync then some (.fsync f.fd)
  else if f.nr = NR_fdatasync then some (.fsync f.fd)
  else if f.nr = NR_truncate then some (.truncate f.a1.toUInt64 f.a2)
  else if f.nr = NR_ftruncate then some (.ftruncate f.fd f.a2)
  else if f.nr = NR_getdents64 then some (.getdents64 f.fd f.a2.toUInt64 f.a3)
  else if f.nr = NR_getcwd then some (.getcwd f.a1.toUInt64 f.a2)
  else if f.nr = NR_chdir then some (.chdir f.a1.toUInt64)
  else if f.nr = NR_fchdir then some (.fchdir f.fd)
  else if f.nr = NR_rename then some (.renameat2 AT_FDCWD f.a1.toUInt64 AT_FDCWD f.a2.toUInt64 0)
  else if f.nr = NR_renameat then some (.renameat2 f.fd f.a2.toUInt64 f.a3.toInt32.toInt f.a4.toUInt64 0)
  else if f.nr = NR_renameat2 then some (.renameat2 f.fd f.a2.toUInt64 f.a3.toInt32.toInt f.a4.toUInt64 (cUInt f.a5))
  else if f.nr = NR_mkdir then some (.mkdirat AT_FDCWD f.a1.toUInt64 (cUInt f.a2))
  else if f.nr = NR_mkdirat then some (.mkdirat f.fd f.a2.toUInt64 (cUInt f.a3))
  else if f.nr = NR_rmdir then some (.unlinkat AT_FDCWD f.a1.toUInt64 AT_REMOVEDIR)
  else if f.nr = NR_unlink then some (.unlinkat AT_FDCWD f.a1.toUInt64 0)
  else if f.nr = NR_unlinkat then some (.unlinkat f.fd f.a2.toUInt64 (cUInt f.a3))
  else if f.nr = NR_link then some (.linkat AT_FDCWD f.a1.toUInt64 AT_FDCWD f.a2.toUInt64 0)
  else if f.nr = NR_linkat then some (.linkat f.fd f.a2.toUInt64 f.a3.toInt32.toInt f.a4.toUInt64 (cUInt f.a5))
  else if f.nr = NR_symlink then some (.symlinkat f.a1.toUInt64 AT_FDCWD f.a2.toUInt64)
  else if f.nr = NR_symlinkat then some (.symlinkat f.a1.toUInt64 f.a2.toInt32.toInt f.a3.toUInt64)
  else if f.nr = NR_readlink then some (.readlinkat AT_FDCWD f.a1.toUInt64 f.a2.toUInt64 f.a3)
  else if f.nr = NR_readlinkat then some (.readlinkat f.fd f.a2.toUInt64 f.a3.toUInt64 f.a4)
  else if f.nr = NR_chmod then some (.fchmodat AT_FDCWD f.a1.toUInt64 (cUInt f.a2))
  else if f.nr = NR_fchmodat then some (.fchmodat f.fd f.a2.toUInt64 (cUInt f.a3))
  else if f.nr = NR_fchmod then some (.fchmod f.fd (cUInt f.a2))
  else if f.nr = NR_chown then some (.fchownat AT_FDCWD f.a1.toUInt64 (cUInt f.a2) (cUInt f.a3) 0)
  else if f.nr = NR_lchown then some (.fchownat AT_FDCWD f.a1.toUInt64 (cUInt f.a2) (cUInt f.a3) AT_SYMLINK_NOFOLLOW)
  else if f.nr = NR_fchownat then some (.fchownat f.fd f.a2.toUInt64 (cUInt f.a3) (cUInt f.a4) (cUInt f.a5))
  else if f.nr = NR_fchown then some (.fchown f.fd (cUInt f.a2) (cUInt f.a3))
  else if f.nr = NR_utimensat then some (.utimensat f.fd f.a2.toUInt64 f.a3.toUInt64 (cUInt f.a4))
  else if f.nr = NR_mknodat then some (.mknodat f.fd f.a2.toUInt64 (cUInt f.a3) f.a4.toUInt64)
  else if f.nr = NR_umask then some (.umask (cUInt f.a1))
  else if f.nr = NR_getpid then some .getpid
  else if f.nr = NR_getuid then some .getuid
  else if f.nr = NR_geteuid then some .geteuid
  else if f.nr = NR_getgid then some .getgid
  else if f.nr = NR_getegid then some .getegid
  else none

end SysFrame

namespace Task

variable (M : Platform η σ)

def perform : SysCall → Sys η σ Int64
  | .read fd ubuf len => sysRead M fd ubuf len
  | .write fd ubuf len => sysWrite M fd ubuf len
  | .pread64 fd ubuf len off => sysPread64 M fd ubuf len off
  | .pwrite64 fd ubuf len off => sysPwrite64 M fd ubuf len off
  | .readvWritev fd uiov cnt writing => sysReadvWritev M fd uiov cnt writing
  | .openat dirfd upath flags mode => sysOpenat M dirfd upath flags mode
  | .close fd => sysClose M fd
  | .fstatat dirfd upath ust flags statx => sysFstatat M dirfd upath ust flags statx
  | .fstat fd ust => sysFstat M fd ust
  | .lseek fd off whence => sysLseek M fd off whence
  | .faccessat dirfd upath mode flags => sysFaccessat M dirfd upath mode flags
  | .pipe2 ufds flags => sysPipe2 M ufds flags
  | .dup fd => sysDup fd
  | .dup2 oldfd newfd => sysDup2 M oldfd newfd
  | .dup3 oldfd newfd flags => sysDup3 M oldfd newfd flags
  | .fcntl fd cmd arg => sysFcntl fd cmd arg
  | .fsync fd => sysFsync M fd
  | .truncate upath size => sysTruncate M upath size
  | .ftruncate fd size => sysFtruncate M fd size
  | .getdents64 fd ubuf len => sysGetdents64 M fd ubuf len
  | .getcwd ubuf cap => sysGetcwd M ubuf cap
  | .chdir upath => sysChdir M upath
  | .fchdir fd => sysFchdir fd
  | .renameat2 odirfd uold ndirfd unew flags => sysRenameat2 M odirfd uold ndirfd unew flags
  | .mkdirat dirfd upath mode => sysMkdirat M dirfd upath mode
  | .unlinkat dirfd upath flags => sysUnlinkat M dirfd upath flags
  | .linkat odirfd uold ndirfd unew flags => sysLinkat M odirfd uold ndirfd unew flags
  | .symlinkat utarget dirfd upath => sysSymlinkat M utarget dirfd upath
  | .readlinkat dirfd upath ubuf cap => sysReadlinkat M dirfd upath ubuf cap
  | .fchmodat dirfd upath mode => sysFchmodat M dirfd upath mode
  | .fchmod fd mode => sysFchmod M fd mode
  | .fchownat dirfd upath uid gid flags => sysFchownat M dirfd upath uid gid flags
  | .fchown fd uid gid => sysFchown M fd uid gid
  | .utimensat dirfd upath utimes flags => sysUtimensat M dirfd upath utimes flags
  | .mknodat dirfd upath mode dev => sysMknodat M dirfd upath mode dev
  | .umask mask => sysUmask mask
  | .getpid => look fun p => p.pid.toInt64
  | .getuid => look fun p => p.fs.uid.toUInt64.toInt64
  | .geteuid => look fun p => p.fs.euid.toUInt64.toInt64
  | .getgid => look fun p => p.fs.gid.toUInt64.toInt64
  | .getegid => look fun p => p.fs.egid.toUInt64.toInt64

/-- `sys_fs_dispatch`, where it has handled the call. -/
def sysFsDispatch (f : SysFrame) : Option (Sys η σ Int64) := f.call.map (perform M)

/-- `syscall_dispatch`: the status that the run ends with, or the answer. -/
def syscallDispatch (f : SysFrame) : Int32 ⊕ Sys η σ Int64 :=
  if f.nr = NR_exit_group then .inl f.a1.toInt32
  else .inr ((sysFsDispatch M f).getD (throw .ENOSYS))

end Task

end SysvNt
