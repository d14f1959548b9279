import Mathlib.Tactic.Common

/-!
# The Linux ABI the core speaks

The errno names of `lxerrno.h`, the flag and mode constants of `lxtypes.h`, the lengths
that bound a path and a name, and the stat record the kernel passes around before it is
shaped for a caller. A kernel function that returns `0` or `-errno` is modelled as an
`Except Errno`.
-/

namespace SysvNt

inductive Errno where
  | EPERM | ENOENT | ESRCH | EINTR | EIO | ENXIO | E2BIG | ENOEXEC | EBADF | ECHILD
  | EAGAIN | ENOMEM | EACCES | EFAULT | EBUSY | EEXIST | EXDEV | ENODEV | ENOTDIR | EISDIR
  | EINVAL | ENFILE | EMFILE | ENOTTY | ETXTBSY | EFBIG | ENOSPC | ESPIPE | EROFS | EMLINK
  | EPIPE | EDOM | ERANGE | EDEADLK | ENAMETOOLONG | ENOLCK | ENOSYS | ENOTEMPTY | ELOOP
  | ENOTSOCK | EOPNOTSUPP | EOVERFLOW
  deriving DecidableEq, Repr

/-- A `char` buffer up to its terminator, or raw memory. -/
abbrev Bytes := List UInt8

/-- The bytes of a C string constant. -/
def str (s : String) : Bytes := s.toList.map fun c => c.toNat.toUInt8

/-- What `strlen`, `strcpy` and `strcmp` see of a buffer: the bytes before the first NUL. -/
def cstr (b : Bytes) : Bytes := b.takeWhile (· ≠ 0)

def has (flags bit : UInt32) : Bool := flags &&& bit ≠ 0

theorem has_or (a b bit : UInt32) : has (a ||| b) bit = (has a bit || has b bit) := by
  have hdistrib : (a ||| b) &&& bit = a &&& bit ||| b &&& bit :=
    UInt32.toBitVec_inj.1 BitVec.and_or_distrib_right
  rw [has, has, has, hdistrib, Bool.eq_iff_iff]
  simp only [ne_eq, UInt32.or_eq_zero_iff, Bool.or_eq_true, decide_eq_true_eq]
  exact not_and_or

theorem has_bits_or (flags b c : UInt32) : has flags (b ||| c) = (has flags b || has flags c) := by
  have hdistrib : flags &&& (b ||| c) = flags &&& b ||| flags &&& c :=
    UInt32.toBitVec_inj.1 BitVec.and_or_distrib_left
  rw [has, has, has, hdistrib, Bool.eq_iff_iff]
  simp only [ne_eq, UInt32.or_eq_zero_iff, Bool.or_eq_true, decide_eq_true_eq]
  exact not_and_or

def O_ACCMODE : UInt32 := 0o3
def O_RDONLY : UInt32 := 0o0
def O_WRONLY : UInt32 := 0o1
def O_RDWR : UInt32 := 0o2
def O_CREAT : UInt32 := 0o100
def O_EXCL : UInt32 := 0o200
def O_NOCTTY : UInt32 := 0o400
def O_TRUNC : UInt32 := 0o1000
def O_APPEND : UInt32 := 0o2000
def O_NONBLOCK : UInt32 := 0o4000
def O_DIRECT : UInt32 := 0o40000
def O_DIRECTORY : UInt32 := 0o200000
def O_NOFOLLOW : UInt32 := 0o400000
def O_NOATIME : UInt32 := 0o1000000
def O_CLOEXEC : UInt32 := 0o2000000
def O_PATH : UInt32 := 0o10000000

def S_IFMT : UInt32 := 0o170000
def S_IFSOCK : UInt32 := 0o140000
def S_IFLNK : UInt32 := 0o120000
def S_IFREG : UInt32 := 0o100000
def S_IFBLK : UInt32 := 0o060000
def S_IFDIR : UInt32 := 0o040000
def S_IFCHR : UInt32 := 0o020000
def S_IFIFO : UInt32 := 0o010000

def isDir (mode : UInt32) : Bool := mode &&& S_IFMT = S_IFDIR
def isLnk (mode : UInt32) : Bool := mode &&& S_IFMT = S_IFLNK

theorem isLnk_eq_false_of_isDir {mode : UInt32} (h : isDir mode = true) : isLnk mode = false := by
  simp only [isDir, isLnk, decide_eq_true_eq, decide_eq_false_iff_not] at h ⊢
  rw [h]
  decide

/-- The status flags that `F_SETFL` may change. -/
def setflMask : UInt32 := O_APPEND ||| O_NONBLOCK ||| O_NOATIME ||| O_DIRECT

def setfl (flags arg : UInt32) : UInt32 := flags &&& ~~~setflMask ||| arg &&& setflMask

/-- Flags masked to bits outside another mask do not show through it. -/
theorem or_masked_and {m k : UInt32} (h : m &&& k = 0) (a b : UInt32) :
    (a ||| b &&& m) &&& k = a &&& k := by
  have hdistrib : (a ||| b &&& m) &&& k = a &&& k ||| b &&& m &&& k :=
    UInt32.toBitVec_inj.1 BitVec.and_or_distrib_right
  rw [hdistrib, UInt32.and_assoc b, h]
  simp

theorem setfl_accmode (flags arg : UInt32) :
    setfl flags arg &&& O_ACCMODE = flags &&& O_ACCMODE := by
  have hkeep : ~~~setflMask &&& O_ACCMODE = O_ACCMODE := by decide
  rw [setfl, or_masked_and (by decide), UInt32.and_assoc, hkeep]

def DT_FIFO : UInt8 := 1
def DT_CHR : UInt8 := 2
def DT_DIR : UInt8 := 4
def DT_BLK : UInt8 := 6
def DT_REG : UInt8 := 8
def DT_LNK : UInt8 := 10
def DT_SOCK : UInt8 := 12

def R_OK : UInt32 := 4
def W_OK : UInt32 := 2
def X_OK : UInt32 := 1

def PATH_MAX : ℕ := 4096
def NAME_MAX : ℕ := 255
def PIPE_BUF : ℕ := 4096
def NR_OPEN_DEFAULT : ℕ := 1024

/-- `struct kstat`: what every stat-like call yields inside the kernel. -/
structure KStat where
  dev : UInt64 := 0
  ino : UInt64 := 0
  mode : UInt32 := 0
  nlink : UInt32 := 0
  uid : UInt32 := 0
  gid : UInt32 := 0
  rdevMajor : UInt32 := 0
  rdevMinor : UInt32 := 0
  size : UInt64 := 0
  blocks : UInt64 := 0
  atime : Int64 := 0
  mtime : Int64 := 0
  ctime : Int64 := 0
  btime : Int64 := 0
  blksize : UInt32 := 0
  deriving DecidableEq

end SysvNt
