import SysvNt.HostStore
import SysvNt.Paths

/-!
# The file systems inside the kernel

`/proc` and `/dev`: a path below the mount is classified or looked up in a table, and stat,
readlink and open answer from that. `ProcView` is what they read of the process: its
descriptors, its executable's path and its rendered mappings.
-/

namespace SysvNt

open FallibleCalls

/-- What `/proc/self/fd` can tell of a descriptor's file. -/
inductive FdFile where
  | pipe (ino : ℕ)
  | console
  | other (path : Bytes)

structure ProcView where
  fds : ℕ → Option FdFile
  exe : Bytes
  maps : Bytes

def isSpace (c : UInt8) : Bool := c = 0x20 || (0x09 ≤ c && c ≤ 0x0d)

def isDigit (c : UInt8) : Bool := 0x30 ≤ c && c ≤ 0x39

def decimal (ds : Bytes) : ℕ := ds.foldl (fun n c => 10 * n + (c.toNat - 0x30)) 0

/-- `strtol` in base ten on a text it consumes whole: the number, negated or not. -/
def strtolWhole (s : Bytes) : Option ℤ :=
  let s := s.dropWhile isSpace
  let (neg, ds) := match s with
    | 0x2d :: ds => (true, ds)
    | 0x2b :: ds => (false, ds)
    | ds => (false, ds)
  if ds ≠ [] ∧ ds.all isDigit then some (if neg then -decimal ds else decimal ds) else none

inductive ProcClass where
  | root | self | maps | exe | cwd | fd | fdn (n : ℕ) | selflink
  deriving DecidableEq

/-- The position of the class in the source's enumeration. -/
def ProcClass.number : ProcClass → ℕ
  | .root => 0
  | .self => 1
  | .maps => 2
  | .exe => 3
  | .cwd => 4
  | .fd => 5
  | .fdn _ => 6
  | .selflink => 7

/-- A path below the process's own directory. -/
def classifySelf (pv : ProcView) (p : Bytes) : Option ProcClass :=
  if p = str "maps" then some .maps
  else if p = str "exe" then some .exe
  else if p = str "cwd" then some .cwd
  else if p = str "fd" then some .fd
  else if (str "fd/").isPrefixOf p then
    match strtolWhole (p.drop 3) with
    | some n =>
      if 0 ≤ n ∧ n < NR_OPEN_DEFAULT ∧ (pv.fds n.toNat).isSome then some (.fdn n.toNat) else none
    | none => none
  else none

/-- `proc_classify`; `none` is `P_NONE`. -/
def procClassify (pv : ProcView) (rel : Bytes) : Option ProcClass :=
  if rel = [] then some .root
  else if rel = str "self" then some .selflink
  else if (str "self/").isPrefixOf rel then classifySelf pv (rel.drop 5)
  else if rel = str "1" then some .self
  else if (str "1/").isPrefixOf rel then classifySelf pv (rel.drop 2)
  else none

def procMode : ProcClass → UInt32
  | .root | .self => S_IFDIR ||| 0o555
  | .fd => S_IFDIR ||| 0o500
  | .maps => S_IFREG ||| 0o444
  | .exe | .cwd | .fdn _ | .selflink => S_IFLNK ||| 0o777

def kstatSynthetic (now : Int64) (dev ino : UInt64) (mode : UInt32) (size : UInt64) : KStat where
  dev := dev
  ino := ino
  mode := mode
  nlink := 1
  size := size
  blksize := 4096
  atime := now
  mtime := now
  ctime := now
  btime := now

def PROC_DEV : UInt64 := 0x4

def PROC_INO (x : ℕ) : UInt64 := UInt64.ofNat (0x10000 + x)

variable {η σ : Type} (H : HostStore η σ)

def procfsStat (pv : ProcView) (rel : Bytes) : Call Errno σ KStat :=
  match procClassify pv rel with
  | none => throw .ENOENT
  | some cls => do
    let now ← liftM H.now
    let fdn := match cls with
      | .fdn n => n
      | _ => 0
    let st := kstatSynthetic now PROC_DEV (PROC_INO (cls.number * 4096 + fdn)) (procMode cls) 0
    pure (if isDir (procMode cls) then { st with nlink := 2 } else st)

def procfsReadlink (pv : ProcView) (cwd rel : Bytes) : Call Errno σ Bytes :=
  match procClassify pv rel with
  | none => throw .ENOENT
  | some .selflink => pure (str "1")
  | some .exe => pure pv.exe
  | some .cwd => pure cwd
  | some (.fdn n) => match pv.fds n with
    | none => throw .ENOENT
    | some (.pipe ino) => pure (str "pipe:[" ++ str (toString ino) ++ str "]")
    | some .console => pure (str "/dev/console")
    | some (.other path) => pure path
  | some _ => throw .EINVAL

/-- A directory of `/proc`: its class and the names rendered when it was opened. -/
structure ProcDir where
  cls : ProcClass
  names : List (Bytes × UInt8)

inductive SynthFile where
  | procLink
  | procDir (d : ProcDir)
  | procFile (text : Bytes)
  | devDir
  | devNode (major minor : UInt32)

def procNames (pv : ProcView) : ProcClass → List (Bytes × UInt8)
  | .root => [(str "self", DT_LNK), (str "1", DT_DIR)]
  | .self => [(str "cwd", DT_LNK), (str "exe", DT_LNK), (str "fd", DT_DIR), (str "maps", DT_REG)]
  | _ => ((List.range NR_OPEN_DEFAULT).filter fun n => (pv.fds n).isSome).map fun n =>
      (str (toString n), DT_LNK)

/-- `file_new`, or an allocation before it. -/
def allocate : Call Errno σ Unit := do
  if ← liftM H.alloc then pure () else throw .ENOMEM

/-- `procfs_open`: the file and the path it is given. -/
def procfsOpen (pv : ProcView) (rel : Bytes) (flags : UInt32) : Call Errno σ (SynthFile × Bytes) :=
  match procClassify pv rel with
  | none => throw .ENOENT
  | some cls =>
    if isLnk (procMode cls) then
      if has flags O_PATH then do
        allocate H
        pure (.procLink, str "/proc/" ++ rel)
      else throw .ELOOP
    else if isDir (procMode cls) then
      if flags &&& O_ACCMODE ≠ O_RDONLY then throw .EISDIR
      else do
        allocate H
        allocate H
        pure (.procDir ⟨cls, procNames pv cls⟩,
          str "/proc" ++ (if rel = [] then [] else [slash]) ++ rel)
    else do
      allocate H
      allocate H
      pure (.procFile pv.maps, str "/proc/" ++ rel)

structure DevNode where
  name : Bytes
  mode : UInt32
  major : UInt32
  minor : UInt32
  link : Option Bytes

def devnodes : List DevNode :=
  [⟨str "null", S_IFCHR ||| 0o666, 1, 3, none⟩,
    ⟨str "zero", S_IFCHR ||| 0o666, 1, 5, none⟩,
    ⟨str "full", S_IFCHR ||| 0o666, 1, 7, none⟩,
    ⟨str "random", S_IFCHR ||| 0o666, 1, 8, none⟩,
    ⟨str "urandom", S_IFCHR ||| 0o666, 1, 9, none⟩,
    ⟨str "tty", S_IFCHR ||| 0o666, 5, 0, none⟩,
    ⟨str "console", S_IFCHR ||| 0o600, 5, 1, none⟩,
    ⟨str "stdin", S_IFLNK ||| 0o777, 0, 0, some (str "/proc/self/fd/0")⟩,
    ⟨str "stdout", S_IFLNK ||| 0o777, 0, 0, some (str "/proc/self/fd/1")⟩,
    ⟨str "stderr", S_IFLNK ||| 0o777, 0, 0, some (str "/proc/self/fd/2")⟩,
    ⟨str "fd", S_IFLNK ||| 0o777, 0, 0, some (str "/proc/self/fd")⟩]

def devFind (rel : Bytes) : Option (ℕ × DevNode) :=
  (devnodes.zipIdx.find? fun d => d.1.name = rel).map fun d => (d.2, d.1)

def DEV_DEV : UInt64 := 0x5

def devfsStat (rel : Bytes) : Call Errno σ KStat :=
  if rel = [] then do
    let now ← liftM H.now
    pure { kstatSynthetic now DEV_DEV 1 (S_IFDIR ||| 0o755) 0 with nlink := 2 }
  else match devFind rel with
    | none => throw .ENOENT
    | some (i, d) => do
      let now ← liftM H.now
      let size := match d.link with
        | some t => UInt64.ofNat t.length
        | none => 0
      pure { kstatSynthetic now DEV_DEV (UInt64.ofNat (2 + i)) d.mode size with
        rdevMajor := d.major
        rdevMinor := d.minor }

def devfsReadlink (rel : Bytes) : Call Errno σ Bytes :=
  match devFind rel with
  | none => throw .ENOENT
  | some (_, d) => match d.link with
    | none => throw .EINVAL
    | some t => pure t

def devfsOpen (rel : Bytes) (flags : UInt32) : Call Errno σ (SynthFile × Bytes) :=
  if rel = [] then
    if flags &&& O_ACCMODE ≠ O_RDONLY then throw .EISDIR
    else do
      allocate H
      pure (.devDir, str "/dev")
  else match devFind rel with
    | none => throw .ENOENT
    | some (_, d) =>
      if d.link.isSome then throw (if has flags O_PATH then Errno.ENXIO else .ELOOP)
      else if has flags O_DIRECTORY then throw .ENOTDIR
      else do
        allocate H
        pure (.devNode d.major d.minor, str "/dev/" ++ rel)

end SysvNt
