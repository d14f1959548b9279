import SysvNt.HostPaths

/-!
# The operations on paths

`vfs_open` and the calls that make, remove, rename and change names, over the walk and the host
store. An open that creates takes a way of its own: it resolves the parent, asks the host to
open or create the last name, and starts again from the target of a link it meets there.
-/

namespace SysvNt

open FallibleCalls

variable {η σ : Type}

inductive HostFileKind where
  | hostdir | symlink | host
  deriving DecidableEq

inductive OpenFile (η : Type) where
  | host (h : η) (kind : HostFileKind) (flags : UInt32) (path : Bytes) (mnt : Mount η)
  | synth (f : SynthFile) (flags : UInt32) (path : Bytes)

def OpenFile.path : OpenFile η → Bytes
  | .host _ _ _ path _ => path
  | .synth _ _ path => path

def fileKindOf : HfsKind → HostFileKind
  | .dir => .hostdir
  | .lxlink | .winlink => .symlink
  | _ => .host

def keptFlags (flags : UInt32) : UInt32 :=
  flags &&& ~~~(O_CREAT ||| O_EXCL ||| O_NOCTTY ||| O_TRUNC ||| O_CLOEXEC)

def hostFlags (flags : UInt32) : UInt32 :=
  let acc := flags &&& O_ACCMODE
  let rw := (if acc = O_RDONLY ∨ acc = O_RDWR then HFS_O_READ else 0) |||
    (if acc = O_WRONLY ∨ acc = O_RDWR then HFS_O_WRITE else 0)
  (if has flags O_PATH then HFS_O_ATTR else rw) |||
    (if has flags O_DIRECTORY then HFS_O_DIR else 0) |||
    (if has flags O_TRUNC then HFS_O_TRUNC else 0)

def openMask (flags : UInt32) : UInt32 :=
  let acc := flags &&& O_ACCMODE
  (if acc = O_RDONLY ∨ acc = O_RDWR then R_OK else 0) |||
    (if acc = O_WRONLY ∨ acc = O_RDWR ∨ has flags O_TRUNC = true then W_OK else 0)

def isSpecial : HfsKind → Bool
  | .fifo | .chr | .blk | .sock => true
  | _ => false

section

variable (K : Kernel η σ) (fs : FsCtx η)

/-- `file_new` for an object on the host; without memory its handle is closed. -/
def newHostFile (o : Opened η) (flags : UInt32) (m : Mount η) (path : Bytes) :
    Call Errno σ (OpenFile η) := do
  if ← liftM K.store.alloc then
    pure (.host o.h (fileKindOf o.st.kind) (keptFlags flags) path m)
  else closing (K.store.close o.h) (throw .ENOMEM)

def checkExisting (st : KStat) (flags : UInt32) : Except Errno Unit :=
  if isLnk st.mode = true ∧ has flags O_PATH = false then .error .ELOOP
  else if isDir st.mode = true ∧ flags &&& O_ACCMODE ≠ O_RDONLY ∧ has flags O_PATH = false then
    .error .EISDIR
  else if isDir st.mode = false ∧ has flags O_DIRECTORY = true then .error .ENOTDIR
  else if has flags O_PATH then .ok ()
  else may fs st (openMask flags) true

def existingFlags (st : KStat) (flags : UInt32) : UInt32 :=
  let hf := hostFlags flags
  let hf := if isDir st.mode then hf &&& ~~~(HFS_O_WRITE ||| HFS_O_TRUNC) ||| HFS_O_DIR ||| HFS_O_READ
    else hf
  if isLnk st.mode then hf ||| HFS_O_REPARSE else hf

def openResolved (root : η) (loc : VfsLoc η) (hflags : UInt32) : Call Errno σ (Opened η) :=
  if loc.rel = [] then K.store.reopen root hflags true
  else do
    let d ← openHostDir K.store root loc.m (pathParent loc.abs)
    closing (K.store.close d) (K.store.openat d (lastName loc.abs) hflags 0 0 0 true)

def openExistingHost (root : η) (loc : VfsLoc η) (flags : UInt32) : Call Errno σ (OpenFile η) := do
  let st ← statAbs K fs loc.abs
  let _ ← liftM (m := Except Errno) (checkExisting fs st flags)
  let o ← openResolved K root loc (existingFlags st flags)
  if o.reparse then closing (K.store.close o.h) (throw .ELOOP)
  else if isSpecial o.st.kind = true ∧ has flags O_PATH = false then
    closing (K.store.close o.h) (throw Errno.ENXIO)
  else newHostFile K o flags loc.m loc.abs

def openExisting (loc : VfsLoc η) (flags : UInt32) : Call Errno σ (OpenFile η) :=
  match loc.m.type with
  | .proc => do
    let f ← procfsOpen K.store K.proc loc.rel flags
    pure (.synth f.1 flags f.2)
  | .dev => do
    let f ← devfsOpen K.store loc.rel flags
    pure (.synth f.1 flags f.2)
  | .host root => openExistingHost K fs root loc flags

def createFlags (flags : UInt32) : UInt32 :=
  hostFlags flags ||| HFS_O_CREATE ||| HFS_O_NODIR ||| (if has flags O_EXCL then HFS_O_EXCL else 0)

def createTarget (r : Except Errno Bytes) : Except Errno Bytes :=
  match r with
  | .error _ => .error .ENOENT
  | .ok t => if t.length = 0 ∨ PATH_MAX ≤ t.length then .error .ENOENT else .ok t

/-- What the creating branch makes of the object the host answered with: a description, or the
target of the link it is. -/
def createdOrLink (loc : VfsLoc η) (flags : UInt32) (o : Opened η) :
    Call Errno σ (OpenFile η ⊕ Bytes) :=
  if o.reparse then
    if has flags O_EXCL then closing (K.store.close o.h) (throw .EEXIST)
    else if o.st.kind ≠ .lxlink then closing (K.store.close o.h) (throw Errno.ENXIO)
    else do
      let r ← closing (K.store.close o.h) (attempt (K.store.readlink o.h))
      let t ← liftM (m := Except Errno) (createTarget r)
      pure (.inr t)
  else if o.st.kind = .dir then closing (K.store.close o.h) (throw .EISDIR)
  else do
    let f ← newHostFile K o flags loc.m ((pathJoin PATH_MAX loc.abs loc.last).toOption.getD [])
    pure (.inl f)

/-- The creating branch on a host mount, up to the first link. -/
def openCreate (root : η) (loc : VfsLoc η) (flags mode : UInt32) :
    Call Errno σ (OpenFile η ⊕ Bytes) := do
  let d ← openHostDir K.store root loc.m loc.abs
  let o ← closing (K.store.close d) (K.store.openat d loc.last (createFlags flags)
    (mode &&& 0o7777 &&& ~~~fs.umask) fs.euid fs.egid true)
  createdOrLink K loc flags o

/-- `vfs_open_depth` with `O_CREAT`; the number is how many more times it may call itself. -/
def openCreating (flags mode : UInt32) : ℕ → Option Bytes → Bytes → Call Errno σ (OpenFile η)
  | 0, _, _ => throw .ELOOP
  | n + 1, base, path => do
    let r ← attempt (walkPath K fs base path W_PARENT)
    match r with
    | .error e =>
      if e = .EEXIST then do
        let loc ← walkPath K fs base path 0
        openExisting K fs loc flags
      else throw e
    | .ok loc => match loc.m.type with
      | .host root => do
        let r ← openCreate K fs root loc flags mode
        match r with
        | .inl f => pure f
        | .inr t => openCreating flags mode n (some loc.abs) t
      | _ => throw .EACCES

/-- `P` holds of what the walk to the parent answers, for the path and for the target of each link
that the creating branch goes on with. -/
def AlongLinks (flags mode : UInt32) (P : Except Errno (VfsLoc η) → Prop) :
    ℕ → Option Bytes → Bytes → σ → Prop
  | 0, _, _, _ => True
  | n + 1, base, path, x => P ((walkPath K fs base path W_PARENT).run x).1 ∧
      ∀ loc x', (walkPath K fs base path W_PARENT).run x = (.ok loc, x') →
        ∀ root, loc.m.type = .host root → ∀ t x'',
          (openCreate K fs root loc flags mode).run x' = (.ok (.inr t), x'') →
            AlongLinks flags mode P n (some loc.abs) t x''

def vfsOpen (base : Option Bytes) (path : Bytes) (flags mode : UInt32) :
    Call Errno σ (OpenFile η) :=
  if has flags O_CREAT then openCreating K fs flags mode 41 base path
  else do
    let loc ← walkPath K fs base path (if has flags O_NOFOLLOW then W_NOFOLLOW else 0)
    openExisting K fs loc flags

def vfsStat (base : Option Bytes) (path : Bytes) (follow : Bool) : Call Errno σ KStat := do
  let loc ← walkPath K fs base path (if follow then 0 else W_NOFOLLOW)
  let st ← statAbs K fs loc.abs
  if isLnk st.mode then do
    let r ← attempt (readlinkAbs K fs loc.abs)
    match r with
    | .ok t => pure (if 0 < t.length then { st with size := UInt64.ofNat t.length } else st)
    | .error _ => pure st
  else pure st

/-- `host_parent`: the parent on a host mount, the last name, and the parent opened. -/
def hostParent (base : Option Bytes) (path : Bytes) : Call Errno σ (VfsLoc η × η) := do
  let loc ← walkPath K fs base path W_PARENT
  match loc.m.type with
  | .host root =>
    if loc.last = dot ∨ loc.last = dotdot then throw .EINVAL
    else do
      let d ← openHostDir K.store root loc.m loc.abs
      pure (loc, d)
  | _ => throw .EACCES

def vfsSymlink (target : Bytes) (base : Option Bytes) (path : Bytes) : Call Errno σ Unit :=
  if target = [] then throw .ENOENT
  else do
    let p ← hostParent K fs base path
    closing (K.store.close p.2) (K.store.symlink p.2 p.1.last target fs.euid fs.egid)

def linkSource (base : Option Bytes) (path : Bytes) (follow : Bool) :
    Call Errno σ (VfsLoc η × η) := do
  let loc ← walkPath K fs base path (if follow then 0 else W_NOFOLLOW)
  match loc.m.type with
  | .host root => do
    let st ← statAbs K fs loc.abs
    if isDir st.mode then throw .EPERM else pure (loc, root)
  | _ => throw .EPERM

def vfsLink (oldBase : Option Bytes) (oldPath : Bytes) (newBase : Option Bytes) (newPath : Bytes)
    (follow : Bool) : Call Errno σ Unit := do
  let src ← linkSource K fs oldBase oldPath follow
  let p ← hostParent K fs newBase newPath
  closing (K.store.close p.2) (
    if p.1.m.point ≠ src.1.m.point then throw .EXDEV
    else do
      let od ← openHostDir K.store src.2 src.1.m (pathParent src.1.abs)
      let o ← closing (K.store.close od)
        (K.store.openat od (lastName src.1.abs) (HFS_O_ATTR ||| HFS_O_REPARSE) 0 0 0 false)
      closing (K.store.close o.h) (K.store.link o.h p.2 p.1.last))

/-- The path buffer that `path_join` was to fill, its error unlooked at. -/
def joinUnchecked (dir name : Bytes) : Bytes :=
  match pathJoin PATH_MAX dir name with
  | .ok p => p
  | .error _ => K.stack

def endsInDot (path : Bytes) : Bool :=
  path.getLast? = some 0x2e && (path.length = 1 || path.dropLast.getLast? = some slash)

def vfsUnlink (base : Option Bytes) (path : Bytes) (rmdir : Bool) : Call Errno σ Unit := do
  let r ← attempt (walkPath K fs base path W_PARENT)
  match r with
  | .error e =>
    if e = .EEXIST then
      throw (if rmdir && endsInDot (cstr path) then .EINVAL else if rmdir then .EBUSY else .EISDIR)
    else throw e
  | .ok loc => match loc.m.type with
    | .host root =>
      if loc.last = dot then throw .EINVAL
      else if loc.last = dotdot then throw .ENOTEMPTY
      else
        let cand := joinUnchecked K loc.abs loc.last
        if (mountAt fs.table.mounts cand).isSome then throw .EBUSY
        else do
          let st ← statAbs K fs cand
          if rmdir = true ∧ isDir st.mode = false then throw .ENOTDIR
          else if rmdir = false ∧ isDir st.mode = true then throw .EISDIR
          else do
            let d ← openHostDir K.store root loc.m loc.abs
            closing (K.store.close d) (K.store.unlink d loc.last rmdir)
    | _ => throw .EACCES

def RENAME_NOREPLACE : UInt32 := 0x1

def renameCheck (ocand ncand : Bytes) (ost : KStat) (nst : Except Errno KStat) (noreplace : Bool) :
    Except Errno Unit :=
  if isDir ost.mode = true ∧ (ocand ++ [slash]).isPrefixOf ncand = true then .error .EINVAL
  else match nst with
    | .error _ => .ok ()
    | .ok nst =>
      if noreplace then .error .EEXIST
      else if isDir ost.mode = true ∧ isDir nst.mode = false then .error .ENOTDIR
      else if isDir ost.mode = false ∧ isDir nst.mode = true then .error .EISDIR
      else .ok ()

/-- A host's refusal to replace a directory is that it is not empty. -/
def renameErrno (nst : Except Errno KStat) (e : Errno) : Errno :=
  match nst with
  | .ok st => if e = .EACCES ∧ isDir st.mode = true then .ENOTEMPTY else e
  | .error _ => e

/-- `walk` to a parent, where the root and its like are busy. -/
def busyParent (base : Option Bytes) (path : Bytes) : Call Errno σ (VfsLoc η) := do
  let r ← attempt (walkPath K fs base path W_PARENT)
  match r with
  | .error e => throw (if e = .EEXIST then .EBUSY else e)
  | .ok loc => pure loc

def renameOnHost (oroot nroot : η) (oloc nloc : VfsLoc η) (noreplace : Bool)
    (nst : Except Errno KStat) : Call Errno σ Unit := do
  let od ← openHostDir K.store oroot oloc.m oloc.abs
  let r ← attempt (openHostDir K.store nroot nloc.m nloc.abs)
  match r with
  | .error e => closing (K.store.close od) (throw e)
  | .ok nd => do
    let r ← closing (K.store.close nd) (closing (K.store.close od)
      (attempt (K.store.rename od oloc.last nd nloc.last noreplace)))
    match r with
    | .ok () => pure ()
    | .error e => throw (renameErrno nst e)

def vfsRename (oldBase : Option Bytes) (oldPath : Bytes) (newBase : Option Bytes)
    (newPath : Bytes) (flags : UInt32) : Call Errno σ Unit :=
  if flags &&& ~~~RENAME_NOREPLACE ≠ 0 then throw .EINVAL
  else do
    let oloc ← busyParent K fs oldBase oldPath
    let nloc ← busyParent K fs newBase newPath
    match oloc.m.type, nloc.m.type with
    | .host oroot, .host nroot =>
      if oloc.m.point ≠ nloc.m.point then throw .EXDEV
      else if oloc.last = dot ∨ oloc.last = dotdot ∨ nloc.last = dot ∨ nloc.last = dotdot then
        throw .EINVAL
      else
        let ocand := joinUnchecked K oloc.abs oloc.last
        let ncand := joinUnchecked K nloc.abs nloc.last
        if (mountAt fs.table.mounts ocand).isSome ∨ (mountAt fs.table.mounts ncand).isSome then
          throw .EBUSY
        else do
          let ost ← statAbs K fs ocand
          let nst ← attempt (statAbs K fs ncand)
          if ocand = ncand then pure ()
          else do
            let _ ← liftM (m := Except Errno)
              (renameCheck ocand ncand ost nst (has flags RENAME_NOREPLACE))
            renameOnHost K oroot nroot oloc nloc (has flags RENAME_NOREPLACE) nst
    | _, _ => throw .EACCES

def vfsMkdir (base : Option Bytes) (path : Bytes) (mode : UInt32) : Call Errno σ Unit := do
  let loc ← walkPath K fs base path W_PARENT
  match loc.m.type with
  | .host root =>
    if loc.last = dot ∨ loc.last = dotdot then throw .EEXIST
    else do
      let d ← openHostDir K.store root loc.m loc.abs
      closing (K.store.close d) (K.store.mkdir d loc.last (mode &&& 0o1777 &&& ~~~fs.umask)
        fs.euid fs.egid (loc.m.lxCapable && loc.m.point = [slash]))
  | _ => throw .EACCES

def filePut (f : OpenFile η) : StateM σ Unit :=
  match f with
  | .host h _ _ _ _ => K.store.close h
  | .synth _ _ _ => pure ()

def specialKind (mode : UInt32) : Option HfsKind :=
  if mode &&& S_IFMT = S_IFIFO then some .fifo
  else if mode &&& S_IFMT = S_IFCHR then some .chr
  else if mode &&& S_IFMT = S_IFBLK then some .blk
  else if mode &&& S_IFMT = S_IFSOCK then some .sock
  else none

def vfsMknod (base : Option Bytes) (path : Bytes) (mode major minor : UInt32) :
    Call Errno σ Unit :=
  if mode &&& S_IFMT = 0 ∨ mode &&& S_IFMT = S_IFREG then do
    let f ← vfsOpen K fs base path (O_CREAT ||| O_EXCL ||| O_WRONLY) (mode &&& 0o7777)
    liftM (filePut K f)
  else match specialKind mode with
    | none => throw .EINVAL
    | some kind => do
      let p ← hostParent K fs base path
      closing (K.store.close p.2) (K.store.mknod p.2 p.1.last kind (mode &&& 0o7777 &&& ~~~fs.umask)
        fs.euid fs.egid major minor)

/-- `open_attr`: the object at a resolved place, for changing its attributes. -/
def openAttr (abs : Bytes) : Call Errno σ η :=
  let m := fs.table.mountOf abs
  match m.type with
  | .host root =>
    if pathRel m abs = [] then do
      let o ← K.store.reopen root (HFS_O_ATTR ||| HFS_O_DIR) false
      pure o.h
    else do
      let d ← openHostDir K.store root m (pathParent abs)
      let o ← closing (K.store.close d)
        (K.store.openat d (lastName abs) (HFS_O_ATTR ||| HFS_O_REPARSE) 0 0 0 false)
      pure o.h
  | _ => throw .EPERM

def chmodHandle (h : η) (mode : UInt32) : Call Errno σ Unit := do
  let hs ← K.store.stat h
  let hasUid := has hs.lxflags HFS_LX_UID
  let hasGid := has hs.lxflags HFS_LX_GID
  let which := HFS_LX_MODE ||| (if hasUid then 0 else HFS_LX_UID) |||
    (if hasGid then 0 else HFS_LX_GID)
  let uid := if hasUid then hs.uid else 0
  let gid := if hasGid then hs.gid else 0
  if fs.euid ≠ 0 ∧ hasUid = true ∧ hs.uid ≠ fs.euid then throw .EPERM
  else K.store.setLx h which uid gid (typeOf hs.kind ||| mode &&& 0o7777) 0 0

/-- `chown_h`; an id of all ones is left alone. -/
def chownHandle (h : η) (uid gid : UInt32) : Call Errno σ Unit := do
  let hs ← K.store.stat h
  let which := (if uid = 0xffffffff then 0 else HFS_LX_UID) |||
    (if gid = 0xffffffff then 0 else HFS_LX_GID)
  let hasMode := has hs.lxflags HFS_LX_MODE
  let mode := if hasMode then hs.mode
    else if hs.kind = .dir then S_IFDIR ||| 0o755
    else S_IFREG ||| 0o644
  if fs.euid ≠ 0 then throw .EPERM
  else if which = 0 then pure ()
  else K.store.setLx h (if hasMode then which else which ||| HFS_LX_MODE) uid gid mode 0 0

/-- Resolve a path and do something to the object's attributes. -/
def withAttr (base : Option Bytes) (path : Bytes) (follow : Bool) (act : η → Call Errno σ Unit) :
    Call Errno σ Unit := do
  let loc ← walkPath K fs base path (if follow then 0 else W_NOFOLLOW)
  let h ← openAttr K fs loc.abs
  closing (K.store.close h) (act h)

def vfsChmod (base : Option Bytes) (path : Bytes) (mode : UInt32) : Call Errno σ Unit :=
  withAttr K fs base path true fun h => chmodHandle K fs h mode

def vfsChown (base : Option Bytes) (path : Bytes) (uid gid : UInt32) (follow : Bool) :
    Call Errno σ Unit :=
  withAttr K fs base path follow fun h => chownHandle K fs h uid gid

def vfsUtimens (base : Option Bytes) (path : Bytes) (atime mtime : Int64) (follow : Bool) :
    Call Errno σ Unit :=
  withAttr K fs base path follow fun h => K.store.setTimes h atime mtime

def vfsTruncate (base : Option Bytes) (path : Bytes) (size : UInt64) : Call Errno σ Unit := do
  let f ← vfsOpen K fs base path O_WRONLY 0
  closing (filePut K f) (match f with
    | .host h kind _ _ _ => if kind = .hostdir then throw .EINVAL else K.store.truncate h size
    | .synth _ _ _ => throw .EINVAL)

end

inductive PathOp where
  | open (base : Option Bytes) (path : Bytes) (flags mode : UInt32)
  | mkdir (base : Option Bytes) (path : Bytes) (mode : UInt32)
  | mknod (base : Option Bytes) (path : Bytes) (mode major minor : UInt32)
  | symlink (target : Bytes) (base : Option Bytes) (path : Bytes)
  | link (oldBase : Option Bytes) (oldPath : Bytes) (newBase : Option Bytes) (newPath : Bytes)
      (follow : Bool)
  | unlink (base : Option Bytes) (path : Bytes) (rmdir : Bool)
  | rename (oldBase : Option Bytes) (oldPath : Bytes) (newBase : Option Bytes) (newPath : Bytes)
      (flags : UInt32)
  | stat (base : Option Bytes) (path : Bytes) (follow : Bool)
  | chmod (base : Option Bytes) (path : Bytes) (mode : UInt32)
  | chown (base : Option Bytes) (path : Bytes) (uid gid : UInt32) (follow : Bool)
  | utimens (base : Option Bytes) (path : Bytes) (atime mtime : Int64) (follow : Bool)
  | truncate (base : Option Bytes) (path : Bytes) (size : UInt64)

/-- The descriptors' paths that an operation starts from. -/
def PathOp.bases : PathOp → List (Option Bytes)
  | .open base _ _ _ | .mkdir base _ _ | .mknod base _ _ _ _ | .symlink _ base _
  | .unlink base _ _ | .stat base _ _ | .chmod base _ _ | .chown base _ _ _ _
  | .utimens base _ _ _ _ | .truncate base _ _ => [base]
  | .link oldBase _ newBase _ _ | .rename oldBase _ newBase _ _ => [oldBase, newBase]

/-- What an operation answers, without the description or the stat. -/
def PathOp.perform (K : Kernel η σ) (fs : FsCtx η) : PathOp → Call Errno σ Unit
  | .open base path flags mode => do
    let _ ← vfsOpen K fs base path flags mode
    pure ()
  | .mkdir base path mode => vfsMkdir K fs base path mode
  | .mknod base path mode major minor => vfsMknod K fs base path mode major minor
  | .symlink target base path => vfsSymlink K fs target base path
  | .link ob op nb np follow => vfsLink K fs ob op nb np follow
  | .unlink base path rmdir => vfsUnlink K fs base path rmdir
  | .rename ob op nb np flags => vfsRename K fs ob op nb np flags
  | .stat base path follow => do
    let _ ← vfsStat K fs base path follow
    pure ()
  | .chmod base path mode => vfsChmod K fs base path mode
  | .chown base path uid gid follow => vfsChown K fs base path uid gid follow
  | .utimens base path atime mtime follow => vfsUtimens K fs base path atime mtime follow
  | .truncate base path size => vfsTruncate K fs base path size

end SysvNt
