import SysvNt.Synthetic
import SysvNt.Walk

/-!
# Canonical paths on their mounts

`stat_abs` and `readlink_abs` find the mount of a canonical path and ask the file system behind
it. On a host mount the directories of the path are opened one under the other by
`open_host_dir`. These two are what the walk asks the store through.
-/

namespace SysvNt

open FallibleCalls

variable {η σ : Type}

/-- What the operations run on: the host store, the process as `/proc` shows it, and what a
path buffer that nothing was written to happens to hold. -/
structure Kernel (η σ : Type) where
  store : HostStore η σ
  proc : ProcView
  stack : Bytes

def typeOf : HfsKind → UInt32
  | .dir => S_IFDIR
  | .lxlink | .winlink => S_IFLNK
  | .fifo => S_IFIFO
  | .chr => S_IFCHR
  | .blk => S_IFBLK
  | .sock => S_IFSOCK
  | .file | .other => S_IFREG

def namesProgram (name : Bytes) : Bool :=
  4 < name.length && [".exe", ".bat", ".cmd", ".com"].any fun s => name.drop (name.length - 4) = str s

def modeOf (hs : HfsStat) (name : Option Bytes) : UInt32 :=
  let type := typeOf hs.kind
  if type = S_IFLNK then S_IFLNK ||| 0o777
  else if has hs.lxflags HFS_LX_MODE then type ||| hs.mode &&& 0o7777
  else if type = S_IFDIR then type ||| 0o755
  else type ||| (if (name.map namesProgram).getD false then 0o755 else 0o644)

def kstatOf (m : Mount η) (hs : HfsStat) (name : Option Bytes) : KStat where
  dev := m.dev
  ino := hs.ino
  mode := modeOf hs name
  nlink := if hs.nlink = 0 then 1 else hs.nlink
  uid := if has hs.lxflags HFS_LX_UID then hs.uid else m.defaultUid
  gid := if has hs.lxflags HFS_LX_GID then hs.gid else m.defaultGid
  rdevMajor := if has hs.lxflags HFS_LX_DEV then hs.rdevMajor else 0
  rdevMinor := if has hs.lxflags HFS_LX_DEV then hs.rdevMinor else 0
  size := if typeOf hs.kind = S_IFLNK then 0 else hs.size
  blocks := hs.blocks
  blksize := 4096
  atime := hs.atime
  mtime := hs.mtime
  ctime := hs.ctime
  btime := hs.btime

def may (fs : FsCtx η) (st : KStat) (mask : UInt32) (effective : Bool) : Except Errno Unit :=
  let uid := if effective then fs.euid else fs.uid
  let gid := if effective then fs.egid else fs.gid
  if uid = 0 then
    if has mask X_OK && !isDir st.mode && !has st.mode 0o111 then .error .EACCES else .ok ()
  else
    let perm := if uid = st.uid then st.mode >>> 6 &&& 7
      else if gid = st.gid then st.mode >>> 3 &&& 7
      else st.mode &&& 7
    if mask &&& perm = mask then .ok () else .error .EACCES

/-- The components of a relative path, cut at each slash; a slash at the very end cuts nothing
off. -/
def relComponentsWithin : ℕ → Bytes → List Bytes
  | 0, _ => []
  | n + 1, rel =>
    if rel = [] then [] else component rel :: relComponentsWithin n ((afterComponent rel).drop 1)

def relComponents (rel : Bytes) : List Bytes := relComponentsWithin rel.length rel

variable (H : HostStore η σ)

/-- The loop of `open_host_dir`: the directory reached, and whether it is the loop's to close. -/
def openChain : η → Bool → List Bytes → Call Errno σ (η × Bool)
  | cur, owned, [] => pure (cur, owned)
  | cur, owned, comp :: rest =>
    let closeCur : StateM σ Unit := if owned then H.close cur else pure ()
    if NAME_MAX < comp.length then closing closeCur (throw .ENAMETOOLONG)
    else do
      let o ← closing closeCur (H.openat cur comp (HFS_O_READ ||| HFS_O_DIR) 0 0 0 false)
      if o.reparse then closing (H.close o.h) (throw .ENOTDIR)
      else openChain o.h true rest

def openHostDir (root : η) (m : Mount η) (abs : Bytes) : Call Errno σ η := do
  let r ← openChain H root false (relComponents (pathRel m abs))
  if r.2 then pure r.1
  else do
    let o ← H.reopen root (HFS_O_READ ||| HFS_O_DIR) false
    pure o.h

variable (K : Kernel η σ) (fs : FsCtx η)

def statAbs (abs : Bytes) : Call Errno σ KStat :=
  let m := fs.table.mountOf abs
  match m.type with
  | .proc => procfsStat K.store K.proc (pathRel m abs)
  | .dev => devfsStat K.store (pathRel m abs)
  | .host root =>
    if pathRel m abs = [] then do
      let hs ← K.store.stat root
      pure (kstatOf m hs none)
    else do
      let d ← openHostDir K.store root m (pathParent abs)
      let hs ← closing (K.store.close d) (K.store.statat d (lastName abs))
      pure (kstatOf m hs (some (lastName abs)))

def readlinkAbs (abs : Bytes) : Call Errno σ Bytes :=
  let m := fs.table.mountOf abs
  match m.type with
  | .proc => procfsReadlink K.proc fs.cwd (pathRel m abs)
  | .dev => devfsReadlink (pathRel m abs)
  | .host root =>
    if pathRel m abs = [] then throw .EINVAL
    else do
      let d ← openHostDir K.store root m (pathParent abs)
      let o ← closing (K.store.close d)
        (K.store.openat d (lastName abs) (HFS_O_READ ||| HFS_O_REPARSE) 0 0 0 false)
      closing (K.store.close o.h) (K.store.readlink o.h)

def absStore : AbsStore σ where
  statAbs abs := (statAbs K fs abs).run
  readlinkAbs abs := (readlinkAbs K fs abs).run

def walkPath (base : Option Bytes) (path : Bytes) (wflags : UInt32) : Call Errno σ (VfsLoc η) :=
  ExceptT.mk (walk (absStore K fs) fs base path wflags)

end SysvNt
