import SysvNt.Operations

/-!
# Questions about a path, and attributes through a description

`vfs_access`, `vfs_readlink` and `vfs_chdir`, and the calls that change the attributes of the object
a description refers to: these open it again, since the description may not have the access.
-/

namespace SysvNt

open FallibleCalls

variable {η σ : Type}

def F_OK : UInt32 := 0

section

variable (K : Kernel η σ) (fs : FsCtx η)

def vfsAccess (base : Option Bytes) (path : Bytes) (mode : UInt32) (effective : Bool) :
    Call Errno σ Unit := do
  let st ← vfsStat K fs base path true
  if mode = F_OK then pure ()
  else liftM (m := Except Errno) (may fs st (mode &&& 7) effective)

def vfsReadlink (base : Option Bytes) (path : Bytes) : Call Errno σ Bytes := do
  let loc ← walkPath K fs base path W_NOFOLLOW
  let st ← statAbs K fs loc.abs
  if isLnk st.mode then readlinkAbs K fs loc.abs else throw .EINVAL

def vfsChdir (base : Option Bytes) (path : Bytes) : Call Errno σ Bytes := do
  let loc ← walkPath K fs base path W_MUSTDIR
  let st ← statAbs K fs loc.abs
  let _ ← liftM (m := Except Errno) (may fs st X_OK true)
  pure loc.abs

def reopenAttr (f : OpenFile η) : Call Errno σ η :=
  match f with
  | .host h kind _ _ _ => do
    let o ← K.store.reopen h
      (HFS_O_ATTR ||| HFS_O_REPARSE ||| (if kind = .hostdir then HFS_O_DIR else 0)) false
    pure o.h
  | .synth _ _ _ => throw .EPERM

/-- Open the object of a description again and do something to its attributes. -/
def withReopened (f : OpenFile η) (act : η → Call Errno σ Unit) : Call Errno σ Unit := do
  let h ← reopenAttr K f
  closing (K.store.close h) (act h)

def vfsFchmod (f : OpenFile η) (mode : UInt32) : Call Errno σ Unit :=
  withReopened K f fun h => chmodHandle K fs h mode

def vfsFchown (f : OpenFile η) (uid gid : UInt32) : Call Errno σ Unit :=
  withReopened K f fun h => chownHandle K fs h uid gid

def vfsFutimens (f : OpenFile η) (atime mtime : Int64) : Call Errno σ Unit :=
  withReopened K f fun h => K.store.setTimes h atime mtime

end

end SysvNt
