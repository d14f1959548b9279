import SysvNt.DescriptorSessions
import SysvNt.Enumeration
import SysvNt.PipeCreation
import SysvNt.PipeWrites
import SysvNt.Seeks
import SysvNt.UserPaths

/-!
# The process and what it holds

`current` has a context, a table of descriptors and, behind them, descriptions: of objects on the host,
of files of `/proc` and `/dev`, of the ends of pipes and of the console. A description goes with its last
reference, and its kind's release goes with it: a handle of the host is closed, an end leaves its ring.
-/

namespace SysvNt

open FallibleCalls FdState FileOps

/-- What lies outside of the core: the host store, the bytes of its files, user memory, the console and
what the host says of a volume. `frame` is what the stack holds where a path is copied to, `beyond` what it
holds behind the buffer for the target of a link. -/
structure Platform (η σ : Type) where
  store : HostStore η σ
  io : FileIo η σ
  fsync : η → Call Errno σ Unit
  consoleRead : (fd len : ℕ) → Call Errno σ Bytes
  consoleWrite : (fd : ℕ) → Bytes → Call Errno σ ℕ
  user : σ → UserPaths.UserSource
  openRoot : Bytes → Call Errno σ η
  volumeSerial : η → StateM σ UInt64
  lxCapable : η → StateM σ Bool
  setCaseSensitive : η → Call Errno σ Unit
  exe : Bytes
  maps : Bytes
  frame : Bytes
  beyond : ℕ → UInt8

/-- `struct task`, with the descriptions in the order of their making. `privI` is the number of a
description's ring or of its console, `scan` the reader of a directory. -/
structure Task (η σ : Type) where
  pid : Int32
  host : σ
  fs : FsCtx η
  fdt : FdState
  file : ℕ → OpenDescription η
  privI : ℕ → ℕ
  scan : ℕ → HostDir
  rings : ℕ → RingCell
  nextRing : ℕ
  nextIno : UInt64

variable {η σ α : Type}

abbrev Rings := ℕ → RingCell

abbrev Sys (η σ α : Type) := Call Errno (Task η σ) α

/-- What an operation that works on a part of a world does to the world. -/
def FileOps.lifted {τ : Type} (get : τ → σ) (set : τ → σ → τ) (m : Call Errno (FileOps.Live σ) α) :
    Call Errno (FileOps.Live τ) α :=
  ExceptT.mk fun l =>
    let r := m.run ⟨get l.host, l.pos, l.scan, l.reached⟩
    (r.1, ⟨set l.host r.2.host, r.2.pos, r.2.scan, r.2.reached⟩)

def FileOps.Table.lifted {τ : Type} (get : τ → σ) (set : τ → σ → τ) (t : Table σ) : Table τ where
  read n := FileOps.lifted get set (t.read n)
  write b := FileOps.lifted get set (t.write b)
  pread := t.pread.map fun op n off => FileOps.lifted get set (op n off)
  pwrite := t.pwrite.map fun op b off => FileOps.lifted get set (op b off)
  getdents := t.getdents.map fun op n => FileOps.lifted get set (op n)
  truncate := t.truncate.map fun op size => FileOps.lifted get set (op size)

def besideRings (m : StateM σ α) : StateM (σ × Rings) α := fun x => ((m x.1).1, (m x.1).2, x.2)

/-- `copy_out` and `copy_in`: of nothing there is no call of the substrate. -/
def FileOps.FileIo.crossOut (io : FileIo η σ) (uaddr : UInt64) (b : Bytes) : StateM σ Bool :=
  if b = [] then pure true else io.copyOut uaddr b

def FileOps.FileIo.crossIn (io : FileIo η σ) (uaddr : UInt64) (n : ℕ) : StateM σ (Option Bytes) :=
  if n = 0 then pure (some []) else io.copyIn uaddr n

def FileOps.FileIo.besideRings (io : FileIo η σ) : FileIo η (σ × Rings) where
  pread h n off := ExceptT.mk (SysvNt.besideRings (io.pread h n off).run)
  pwrite h b off append := ExceptT.mk (SysvNt.besideRings (io.pwrite h b off append).run)
  directory h x := io.directory h x.1
  copyOut a b := SysvNt.besideRings (io.crossOut a b)
  copyIn a n := SysvNt.besideRings (io.crossIn a n)
  bounce := SysvNt.besideRings io.bounce
  random n := SysvNt.besideRings (io.random n)
  consoleRead n := ExceptT.mk (SysvNt.besideRings (io.consoleRead n).run)
  consoleWrite b := ExceptT.mk (SysvNt.besideRings (io.consoleWrite b).run)

def onHostPart (m : Call Errno (FileOps.Live σ) α) : Call Errno (FileOps.Live (σ × Rings)) α :=
  FileOps.lifted Prod.fst (fun x y => (y, x.2)) m

namespace Platform

variable (M : Platform η σ)

def conOps (fd : ℕ) : Table σ where
  read n := reach [] (M.consoleRead fd n)
  write b := reach [] (M.consoleWrite fd b)
  pread := none
  pwrite := none
  getdents := none
  truncate := none

/-- The operations that the opener put into a description, with the flags that it has now. -/
def opsOf (flags : UInt32) (privI : ℕ) : OpenDescription η → Table (σ × Rings)
  | .opened f => (FileOps.opsOf M.store M.io flags f).lifted Prod.fst fun x y => (y, x.2)
  | .pipe _ =>
    pipeOps.lifted (fun x => (x.2 privI).p) fun x p => (x.1, Function.update x.2 privI { x.2 privI with p := p })
  | .console => (M.conOps privI).lifted Prod.fst fun x y => (y, x.2)

def hostdirSeek (off : Int64) (whence : Int32) : Call Errno (FileOps.Live σ) Int64 := ExceptT.mk fun l =>
  let r := hostdirLseek l.scan off.toInt whence.toUInt32.toNat
  (r.1.map fun n => Int64.ofNat n, { l with scan := r.2 })

def procDirSeek (off : Int64) (whence : Int32) : Call Errno (FileOps.Live σ) Int64 := ExceptT.mk fun l =>
  let r := procDirLseek l.pos.toNat off.toInt whence.toUInt32.toNat
  (r.1.map fun n => Int64.ofNat n, { l with pos := UInt64.ofNat r.2 })

def lseekOf (off : Int64) (whence : Int32) : OpenDescription η → Call Errno (FileOps.Live (σ × Rings)) Int64
  | .opened (.host _ .hostdir _ _ _) => onHostPart (hostdirSeek off whence)
  | .opened (.host h .host _ _ _) => onHostPart (hostfileLseek M.store h off whence)
  | .opened (.host h .symlink _ _ _) => onHostPart (hostfileLseek M.store h off whence)
  | .opened (.synth f _ _) => match f with
    | .procLink => onHostPart (snapLseek [] off whence)
    | .procFile text => onHostPart (snapLseek text off whence)
    | .procDir _ => onHostPart (procDirSeek off whence)
    | .devDir => onHostPart (procDirSeek off whence)
    | .devNode _ _ => pure 0
  | .pipe _ => throw .ESPIPE
  | .console => throw .ESPIPE

def fsyncOf : OpenDescription η → Call Errno σ Unit
  | .opened (.host h _ _ _ _) => M.fsync h
  | .opened (.synth _ _ _) => throw .EINVAL
  | .pipe _ => throw .EINVAL
  | .console => throw .EINVAL

end Platform

namespace Task

variable (M : Platform η σ)

section State

variable (p : Task η σ)

def fdFile : OpenDescription η → FdFile
  | .pipe ino => .pipe ino.toNat
  | .console => .console
  | .opened f => .other f.path

def view : ProcView where
  fds n := (p.fdt.fdGet n).map fun e => fdFile (p.file e.2)
  exe := M.exe
  maps := M.maps

def kernel : Kernel η σ where
  store := M.store
  proc := p.view M
  stack := M.frame

def dirs (k : ℕ) : Option Bytes := if (p.file k).OfDirectory then some (p.file k).path else none

def copied (uaddr : UInt64) : Except Errno Bytes :=
  let r := UserPaths.copyPath (M.user p.host) uaddr M.frame
  r.1.map fun _ => cstr r.2

/-- The kind's release, when the last reference to a description goes. -/
def release (k : ℕ) : Task η σ :=
  match p.file k with
  | .opened f => { p with host := (SysvNt.filePut (p.kernel M) f p.host).2 }
  | .pipe _ =>
    let ring := (p.rings (p.privI k)).release (p.fdt.heap k).flags
    { p with rings := Function.update p.rings (p.privI k) ring }
  | .console => p

def filePut (k : ℕ) : Task η σ :=
  let q := if 0 < (p.fdt.heap k).refs - 1 then p else p.release M k
  { q with fdt := q.fdt.filePut k }

def fileNew (kind : ℕ) (flags : UInt32) (what : OpenDescription η) (privI : ℕ) : Task η σ :=
  { p with
    fdt := (p.fdt.fileNew kind flags).2
    file := Function.update p.file p.fdt.next what
    privI := Function.update p.privI p.fdt.next privI
    scan := Function.update p.scan p.fdt.next ⟨0, false, [], none⟩ }

def setFdt (t : FdState) : Task η σ := { p with fdt := t }

def withHost (x : σ) : Task η σ := { p with host := x }

def unseat (i : Slot) : Task η σ := p.setFdt ((p.fdt.seat i none).mark i false)

/-- The description of a slot that is written over loses its reference. -/
def putOld (i : Slot) : Task η σ :=
  match p.fdt.files i with
  | none => p
  | some g => p.filePut M g

def reseat (i : Slot) (k : ℕ) (cloexec : Bool) : Task η σ := p.setFdt ((p.fdt.seat i (some k)).mark i cloexec)

def fdClose (fd : ℤ) : Except Errno ℤ × Task η σ :=
  match p.fdt.fdGet fd with
  | none => (.error .EBADF, p)
  | some (i, k) => (.ok 0, (p.unseat i).filePut M k)

def fdDup2 (oldfd newfd : ℤ) (cloexec : Bool) : Except Errno ℤ × Task η σ :=
  match p.fdt.fdGet oldfd with
  | none => (.error .EBADF, p)
  | some (_, k) => match slotOf newfd with
    | none => (.error .EBADF, p)
    | some i =>
      if oldfd = newfd then (.ok newfd, p)
      else (.ok newfd, ((p.setFdt (p.fdt.fileGet k)).putOld M i).reseat i k cloexec)

def ringNew : Task η σ :=
  let ring : PipeRing := {
    ring := { buf := fun _ => 0, head := 0, tail := 0, count := 0 }
    readers := 0
    writers := 0
    ino := p.nextIno }
  { p with
    rings := Function.update p.rings p.nextRing { p := ring, frees := 0 }
    nextRing := p.nextRing + 1
    nextIno := p.nextIno + 1 }

/-- The end of `vfs_pipe`: a description of each end, and the ring knows of both. -/
def pipeEnds (r : ℕ) (flags : UInt32) : Task η σ :=
  let rd := p.fileNew FILE_KIND_PIPE (O_RDONLY ||| flags &&& O_NONBLOCK) (.pipe (p.rings r).p.ino) r
  let wr := rd.fileNew FILE_KIND_PIPE (O_WRONLY ||| flags &&& O_NONBLOCK) (.pipe (p.rings r).p.ino) r
  let ring := { wr.rings r with p := { (wr.rings r).p with readers := 1, writers := 1 } }
  { wr with rings := Function.update wr.rings r ring }

def ringDrop (r : ℕ) : Task η σ :=
  { p with rings := Function.update p.rings r { p.rings r with frees := (p.rings r).frees + 1 } }

def live (k : ℕ) : FileOps.Live (σ × Rings) := ⟨(p.host, p.rings), (p.fdt.heap k).pos, p.scan k, []⟩

def withLive (k : ℕ) (l : FileOps.Live (σ × Rings)) : Task η σ :=
  { p with
    host := l.host.1
    rings := l.host.2
    fdt := p.fdt.alter k fun d => { d with pos := l.pos }
    scan := Function.update p.scan k l.scan }

end State

section Calls

def onHost (m : Task η σ → Call Errno σ α) : Sys η σ α := ExceptT.mk fun p =>
  (((m p).run p.host).1, p.withHost ((m p).run p.host).2)

def vfs (m : Kernel η σ → FsCtx η → Call Errno σ α) : Sys η σ α := onHost fun p => m (p.kernel M) p.fs

/-- A call on the table that drops no description. -/
def onFds (m : FdState → Except Errno α × FdState) : Sys η σ α := ExceptT.mk fun p =>
  ((m p.fdt).1, p.setFdt (m p.fdt).2)

def onTable (m : Task η σ → Except Errno α × Task η σ) : Sys η σ α := ExceptT.mk m

def through (k : ℕ) (m : Task η σ → Call Errno (FileOps.Live (σ × Rings)) α) : Sys η σ α := ExceptT.mk fun p =>
  (((m p).run (p.live k)).1, p.withLive k ((m p).run (p.live k)).2)

def change (f : Task η σ → Task η σ) : Sys η σ Unit := ExceptT.mk fun p => (.ok (), f p)

def look (f : Task η σ → α) : Sys η σ α := ExceptT.mk fun p => (.ok (f p), p)

def orFail (f : Task η σ → Except Errno α) : Sys η σ α := ExceptT.mk fun p => (f p, p)

def copyIn (uaddr : UInt64) (n : ℕ) : Sys η σ (Option Bytes) := onHost fun _ => liftM (M.io.crossIn uaddr n)

def copyOut (uaddr : UInt64) (b : Bytes) : Sys η σ Unit := do
  let ok ← onHost fun _ => liftM (M.io.crossOut uaddr b)
  if ok then pure () else throw .EFAULT

def copyPath (uaddr : UInt64) : Sys η σ Bytes := orFail fun p => p.copied M uaddr

def alloc : Sys η σ Unit := do
  let ok ← onHost fun _ => liftM M.store.alloc
  if ok then pure () else throw .ENOMEM

def baseOf (dirfd : ℤ) (path : Bytes) : Sys η σ (Option Bytes) := orFail fun p =>
  SysvNt.baseOf p.fdt p.dirs dirfd path

def fget (fd : ℤ) : Sys η σ ℕ := orFail fun p =>
  match p.fdt.fdGet fd with
  | none => .error .EBADF
  | some e => .ok e.2

/-- The description that `base_of` hands back for an empty path. -/
def selfOf (dirfd : ℤ) : Sys η σ ℕ := orFail fun p =>
  if dirfd = AT_FDCWD then .error .ENOENT
  else match p.fdt.fdGet dirfd with
    | none => .error .ENOENT
    | some e => .ok e.2

end Calls

end Task

end SysvNt
