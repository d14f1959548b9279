import SysvNt.Abi
import SysvNt.FallibleCalls

/-!
# The host file store

The calls of `hostfs.h`, each on an open object and at most one component beside it. What an
implementation does with them is a parameter; `hfs_statat` is written over `hfs_openat` as the
source writes it.
-/

namespace SysvNt

open FallibleCalls

inductive HfsKind where
  | file | dir | lxlink | fifo | chr | blk | sock | other | winlink
  deriving DecidableEq

def kindOf (attrs tag : UInt32) : HfsKind :=
  if has attrs 0x400 then
    if tag = 0xa000001d then .lxlink
    else if tag = 0x80000024 then .fifo
    else if tag = 0x80000025 then .chr
    else if tag = 0x80000026 then .blk
    else if tag = 0x80000023 then .sock
    else if tag = 0xa000000c then .winlink
    else if tag = 0xa0000003 then .dir
    else .other
  else if has attrs 0x10 then .dir else .file

def HFS_LX_UID : UInt32 := 0x1
def HFS_LX_GID : UInt32 := 0x2
def HFS_LX_MODE : UInt32 := 0x4
def HFS_LX_DEV : UInt32 := 0x8

def HFS_O_READ : UInt32 := 0x001
def HFS_O_WRITE : UInt32 := 0x002
def HFS_O_DIR : UInt32 := 0x004
def HFS_O_NODIR : UInt32 := 0x008
def HFS_O_CREATE : UInt32 := 0x010
def HFS_O_EXCL : UInt32 := 0x020
def HFS_O_TRUNC : UInt32 := 0x040
def HFS_O_REPARSE : UInt32 := 0x080
def HFS_O_DELETE : UInt32 := 0x100
def HFS_O_ATTR : UInt32 := 0x200

structure HfsStat where
  ino : UInt64 := 0
  size : UInt64 := 0
  blocks : UInt64 := 0
  nlink : UInt32 := 0
  lxflags : UInt32 := 0
  mode : UInt32 := 0
  uid : UInt32 := 0
  gid : UInt32 := 0
  rdevMajor : UInt32 := 0
  rdevMinor : UInt32 := 0
  atime : Int64 := 0
  mtime : Int64 := 0
  ctime : Int64 := 0
  btime : Int64 := 0
  kind : HfsKind := .file
  deriving DecidableEq

/-- What an open hands back: the object, its stat if it was asked for, and whether the answer
is `HFS_REPARSE`, the object itself in place of what it stands for. -/
structure Opened (η : Type) where
  h : η
  st : HfsStat
  reparse : Bool

structure HostStore (η σ : Type) where
  openat : (dir : η) → (name : Bytes) → (flags mode uid gid : UInt32) → (wantStat : Bool) →
    Call Errno σ (Opened η)
  reopen : η → (flags : UInt32) → (wantStat : Bool) → Call Errno σ (Opened η)
  stat : η → Call Errno σ HfsStat
  readlink : η → Call Errno σ Bytes
  mkdir : (dir : η) → (name : Bytes) → (mode uid gid : UInt32) → (caseSensitive : Bool) →
    Call Errno σ Unit
  mknod : (dir : η) → (name : Bytes) → HfsKind → (mode uid gid major minor : UInt32) →
    Call Errno σ Unit
  symlink : (dir : η) → (name target : Bytes) → (uid gid : UInt32) → Call Errno σ Unit
  link : (old dir : η) → (name : Bytes) → Call Errno σ Unit
  unlink : (dir : η) → (name : Bytes) → (rmdir : Bool) → Call Errno σ Unit
  rename : (olddir : η) → (oldname : Bytes) → (newdir : η) → (newname : Bytes) →
    (noreplace : Bool) → Call Errno σ Unit
  setLx : η → (which uid gid mode major minor : UInt32) → Call Errno σ Unit
  setTimes : η → (atime mtime : Int64) → Call Errno σ Unit
  truncate : η → (size : UInt64) → Call Errno σ Unit
  close : η → StateM σ Unit
  now : StateM σ Int64
  alloc : StateM σ Bool

variable {η σ : Type}

/-- `hfs_statat`: the object itself, not what it stands for. -/
def HostStore.statat (H : HostStore η σ) (dir : η) (name : Bytes) : Call Errno σ HfsStat := do
  let o ← H.openat dir name HFS_O_REPARSE 0 0 0 true
  closing (H.close o.h) (pure o.st)

/-- A store that refuses every call and never runs out of memory. -/
def HostStore.idle : HostStore η σ where
  openat _ _ _ _ _ _ _ := throw .EACCES
  reopen _ _ _ := throw .EACCES
  stat _ := throw .EACCES
  readlink _ := throw .EACCES
  mkdir _ _ _ _ _ _ := throw .EACCES
  mknod _ _ _ _ _ _ _ _ := throw .EACCES
  symlink _ _ _ _ _ := throw .EACCES
  link _ _ _ := throw .EACCES
  unlink _ _ _ := throw .EACCES
  rename _ _ _ _ _ := throw .EACCES
  setLx _ _ _ _ _ _ _ := throw .EACCES
  setTimes _ _ _ := throw .EACCES
  truncate _ _ := throw .EACCES
  close _ := pure ()
  now := pure 0
  alloc := pure true

end SysvNt
