import SysvNt.DescriptorCalls
import SysvNt.OpenDescriptions

/-!
# The stat of a description

`vfs_fstat` asks the operations that the opener put into the description: the host for an object
of the host, the class of a file of `/proc` or the node of `/dev`, the ring of a pipe. A link of
`/proc` has no stat of its own.
-/

namespace SysvNt

open FallibleCalls

variable {η σ : Type}

def OpenDescription.kind : OpenDescription η → ℕ
  | .opened f => f.made.1
  | .pipe _ => FILE_KIND_PIPE
  | .console => FILE_KIND_CONSOLE

def OpenDescription.path : OpenDescription η → Bytes
  | .opened f => f.path
  | .pipe ino => str "pipe:[" ++ str (toString ino.toNat) ++ str "]"
  | .console => str "/dev/console"

def PIPE_DEV : UInt64 := 0xc

/-- The node that a description of `/dev` points to, with its place in the table. -/
def devOf (major minor : UInt32) : Option (ℕ × DevNode) :=
  (devnodes.zipIdx.find? fun d => d.1.link.isNone && d.1.major = major && d.1.minor = minor).map
    fun d => (d.2, d.1)

section

variable (K : Kernel η σ)

def hostfileStat (h : η) (kind : HostFileKind) (path : Bytes) (m : Mount η) : Call Errno σ KStat := do
  let hs ← K.store.stat h
  let st := kstatOf m hs (if slash ∈ path then some (lastName path) else none)
  if kind = .symlink then do
    let r ← attempt (K.store.readlink h)
    match r with
    | .ok t => pure (if 0 < t.length then { st with size := UInt64.ofNat t.length } else st)
    | .error _ => pure st
  else pure st

def procFileStat (text : Bytes) : Call Errno σ KStat := do
  let now ← liftM K.store.now
  pure (kstatSynthetic now PROC_DEV (PROC_INO (text.length + 7)) (S_IFREG ||| 0o444) 0)

def procDirStat (d : ProcDir) : Call Errno σ KStat := do
  let now ← liftM K.store.now
  pure { kstatSynthetic now PROC_DEV (PROC_INO (d.cls.number * 4096)) (procMode d.cls) 0 with nlink := 2 }

def devStat (major minor : UInt32) : Call Errno σ KStat :=
  match devOf major minor with
  | none => throw .EINVAL
  | some (i, d) => do
    let now ← liftM K.store.now
    pure { kstatSynthetic now DEV_DEV (UInt64.ofNat (2 + i)) d.mode 0 with
      rdevMajor := d.major
      rdevMinor := d.minor }

def devdirStat : Call Errno σ KStat := do
  let now ← liftM K.store.now
  pure { kstatSynthetic now DEV_DEV 1 (S_IFDIR ||| 0o755) 0 with nlink := 2 }

def pipeStat (ino : UInt64) : Call Errno σ KStat := do
  let now ← liftM K.store.now
  pure (kstatSynthetic now PIPE_DEV ino (S_IFIFO ||| 0o600) 0)

def conStat : Call Errno σ KStat := do
  let now ← liftM K.store.now
  pure { kstatSynthetic now DEV_DEV 9 (S_IFCHR ||| 0o620) 0 with rdevMajor := 136 }

def vfsFstat : OpenDescription η → Call Errno σ KStat
  | .pipe ino => pipeStat K ino
  | .console => conStat K
  | .opened (.host h kind _ path m) => hostfileStat K h kind path m
  | .opened (.synth f _ _) => match f with
    | .procLink => throw .EINVAL
    | .procDir d => procDirStat K d
    | .procFile text => procFileStat K text
    | .devDir => devdirStat K
    | .devNode major minor => devStat K major minor

end

/-- A description that the kernel can have, on the mounts of the table. -/
inductive OpenDescription.Made (T : MountTable η) : OpenDescription η → Prop where
  | opened {σ : Type} {K : Kernel η σ} {fs : FsCtx η} {base : Option Bytes} {path : Bytes}
      {flags mode : UInt32} {x x' : σ} {f : OpenFile η} (table : fs.table = T)
      (start : Canonical (base.getD fs.cwd))
      (opens : (vfsOpen K fs base path flags mode).run x = (.ok f, x')) : Made T (.opened f)
  | pipe (ino : UInt64) : Made T (.pipe ino)
  | console : Made T .console

theorem OpenDescription.Made.sound {T : MountTable η} (hT : InPlace T) {f : OpenFile η}
    (h : Made T (.opened f)) : f.Sound T := by
  cases h with
  | opened table start opens =>
      subst table
      exact vfsOpen_sound hT start opens

end SysvNt
