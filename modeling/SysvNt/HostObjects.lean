import SysvNt.HostOpen

/-!
# Attributes and reparse data on the host

The Linux attributes of an object are extended attributes, and a link or a special file is an
empty object with reparse data. `hfs_symlink` and `hfs_mknod` stamp an object they have just made,
`hfs_readlink` reads the data back, and of a Windows symbolic link it gives the name with slashes.
NT is a parameter.
-/

namespace SysvNt

open CodeUnits FallibleCalls

variable {η σ : Type}

inductive LxEa where
  | uid (v : UInt32)
  | gid (v : UInt32)
  | mod (v : UInt32)
  | dev (major minor : UInt32)
  deriving DecidableEq

/-- `build_lx_eas`; no attributes are a length of zero. -/
def buildLxEas (which uid gid mode major minor : UInt32) : List LxEa :=
  (if has which HFS_LX_UID then [.uid uid] else []) ++
    (if has which HFS_LX_GID then [.gid gid] else []) ++
    (if has which HFS_LX_MODE then [.mod mode] else []) ++
    (if has which HFS_LX_DEV then [.dev major minor] else [])

/-- `SymbolicLinkReparseBuffer`: two names in one buffer, at offsets in bytes. -/
structure SymbolicLink where
  substituteNameOffset : UInt16
  substituteNameLength : UInt16
  printNameOffset : UInt16
  printNameLength : UInt16
  flags : UInt32
  pathBuffer : List UInt16
  deriving DecidableEq

inductive Reparse where
  | symlink (s : SymbolicLink)
  | lxSymlink (data : Bytes)
  | bare (tag : UInt32)
  | other (tag : UInt32) (data : Bytes)
  deriving DecidableEq

/-- The calls of NT that make and read such objects. -/
structure NtObjects (η σ : Type) where
  create : (dir : η) → (name : List UInt16) → (access : UInt32) → OpenOptions → List LxEa →
    Call NtStatus σ η
  setReparse : η → Reparse → Call NtStatus σ Unit
  getReparse : η → Call NtStatus σ Reparse
  setDisposition : η → Call NtStatus σ Unit
  setCaseSensitive : η → Call NtStatus σ Unit
  setEa : η → List LxEa → Call NtStatus σ Unit
  close : η → StateM σ Unit

def SymbolicLink.name (s : SymbolicLink) (offset length : UInt16) : List UInt16 :=
  (s.pathBuffer.drop (offset.toNat / 2)).take (length.toNat / 2)

def SymbolicLink.printName (s : SymbolicLink) : List UInt16 :=
  s.name s.printNameOffset s.printNameLength

def withoutNtPrefix : List UInt16 → List UInt16
  | 0x5c :: 0x3f :: 0x3f :: 0x5c :: w => w
  | w => w

def SymbolicLink.shownName (s : SymbolicLink) : List UInt16 :=
  if s.printName = [] then
    withoutNtPrefix (s.name s.substituteNameOffset s.substituteNameLength)
  else s.printName

def withoutSeparator : List UInt16 → List UInt16
  | [] => []
  | u :: w => if u = 0x5c ∨ u = 0x2f then w else u :: w

def driveLetter (u : UInt16) : UInt8 :=
  if 0x41 ≤ u ∧ u ≤ 0x5a then (u - 0x41 + 0x61).toUInt8 else u.toUInt8

/-- What is written before the loop, and the units left to the loop: a name on a drive starts in
the way WSL spells it. -/
def linkStart (flags : UInt32) : List UInt16 → Bytes × List UInt16
  | d :: 0x3a :: w =>
    if has flags 1 then ([], d :: 0x3a :: w)
    else (str "/mnt/" ++ [driveLetter d, slash], withoutSeparator w)
  | w => ([], w)

def linkUnit (u : UInt16) : Bytes := utf8 (if u = 0x5c then 0x2f else u.toNat)

def TMP_SIZE : ℕ := 4200

/-- The loop of `hfs_readlink`, which stops where `tmp` has no room for a unit. -/
def linkLoop : List UInt16 → Bytes → Bytes
  | [], out => out
  | u :: w, out => if out.length + 4 < TMP_SIZE then linkLoop w (out ++ linkUnit u) else out

def linkText (s : SymbolicLink) : Bytes :=
  linkLoop (linkStart s.flags s.shownName).2 (linkStart s.flags s.shownName).1

theorem of_run_withErrno {α : Type} {m : Call NtStatus σ α} {x y : σ} {a : α}
    (h : (withErrno m).run x = (.ok a, y)) : m.run x = (.ok a, y) := by
  rw [run_withErrno] at h
  cases hm : m.run x with
  | mk r z =>
      rw [hm] at h
      cases r with
      | error s => cases h
      | ok b =>
          cases h
          rfl

section

variable (nt : NtObjects η σ)

/-- The end of `make_reparse`: the new object is stamped, or removed again. -/
def stampReparse (h : η) (rp : Reparse) : Call Errno σ Unit := do
  let r ← attempt (withErrno (nt.setReparse h rp))
  match r with
  | .ok _ => closing (nt.close h) (pure ())
  | .error e => do
    let _ ← attempt (withErrno (nt.setDisposition h))
    closing (nt.close h) (throw e)

/-- `make_reparse`: an empty object with its attributes, then stamped. -/
def makeReparse (dir : η) (name : Bytes) (mode uid gid major minor : UInt32) (rp : Reparse) :
    Call Errno σ Unit :=
  match nameToWide name 255 with
  | none => throw .ENAMETOOLONG
  | some w =>
    if w.length = 0 then throw .ENOENT
    else do
      let which := HFS_LX_UID ||| HFS_LX_GID ||| HFS_LX_MODE |||
        (if major ≠ 0 ∨ minor ≠ 0 then HFS_LX_DEV else 0)
      let h ← withErrno (nt.create dir w
        (FILE_WRITE_DATA ||| FILE_READ_DATA ||| FILE_WRITE_ATTRIBUTES ||| FILE_READ_ATTRIBUTES)
        { directoryFile := false, nonDirectoryFile := true, openReparsePoint := true }
        (buildLxEas which uid gid mode major minor))
      stampReparse nt h rp

/-- The data of an LX link: its file type, then the target. -/
def lxLink (target : Bytes) : Reparse := .lxSymlink ([2, 0, 0, 0] ++ target)

def hfsSymlink (dir : η) (name target : Bytes) (uid gid : UInt32) : Call Errno σ Unit :=
  if target.length = 0 ∨ 4095 < target.length then throw .ENAMETOOLONG
  else makeReparse nt dir name 0o120777 uid gid 0 0 (lxLink target)

def specialTag : HfsKind → Option (UInt32 × UInt32)
  | .fifo => some (0x80000024, 0o010000)
  | .chr => some (0x80000025, 0o020000)
  | .blk => some (0x80000026, 0o060000)
  | .sock => some (0x80000023, 0o140000)
  | _ => none

def hfsMknod (dir : η) (name : Bytes) (kind : HfsKind) (mode uid gid major minor : UInt32) :
    Call Errno σ Unit :=
  match specialTag kind with
  | none => throw .EINVAL
  | some t =>
    makeReparse nt dir name (t.2 ||| mode &&& 0o7777) uid gid major minor (.bare t.1)

def hfsMkdir (dir : η) (name : Bytes) (mode uid gid : UInt32) (caseSensitive : Bool) :
    Call Errno σ Unit :=
  match nameToWide name 255 with
  | none => throw .ENAMETOOLONG
  | some w =>
    if w.length = 0 then throw .ENOENT
    else do
      let h ← withErrno (nt.create dir w (FILE_READ_ATTRIBUTES ||| FILE_WRITE_ATTRIBUTES)
        { directoryFile := true, nonDirectoryFile := false, openReparsePoint := false }
        (buildLxEas (HFS_LX_UID ||| HFS_LX_GID ||| HFS_LX_MODE) uid gid (0o040000 ||| mode &&& 0o7777) 0 0))
      let _ ← if caseSensitive then attempt (withErrno (nt.setCaseSensitive h)) else pure (.ok ())
      closing (nt.close h) (pure ())

def hfsSetLx (h : η) (which uid gid mode major minor : UInt32) : Call Errno σ Unit :=
  let eas := buildLxEas which uid gid mode major minor
  if eas = [] then throw .EINVAL else withErrno (nt.setEa h eas)

def hfsReadlink (h : η) : Call Errno σ Bytes := do
  let rp ← withErrno (nt.getReparse h)
  match rp with
  | .symlink s => pure (linkText s)
  | .lxSymlink data => if data.length < 4 then throw .EINVAL else pure (data.drop 4)
  | _ => throw .EINVAL

theorem hfsReadlink_keeps {I : σ → Prop} {h : η} (hget : ∀ x, I x → I ((nt.getReparse h).run x).2) :
    Keeps I (hfsReadlink nt h) (fun _ => True) := by
  refine (withErrno_keeps hget).bind fun rp _ => ?_
  cases rp with
  | lxSymlink data =>
      dsimp only
      split_ifs
      · exact Keeps.throw
      · exact Keeps.pure trivial
  | symlink s => exact Keeps.pure trivial
  | bare tag => exact Keeps.throw
  | other tag data => exact Keeps.throw

/-- The host store whose links, special files and attributes are NT's, the other calls as given. -/
def NtObjects.store (rest : HostStore η σ) : HostStore η σ :=
  { rest with
    readlink := hfsReadlink nt
    mkdir := hfsMkdir nt
    mknod := hfsMknod nt
    symlink := hfsSymlink nt
    setLx := hfsSetLx nt }

end

end SysvNt
