import SysvNt.Vma
import Mathlib.Algebra.Group.Nat.Defs

/-!
# The file that is loaded

An image is a byte string somewhere in the loader's memory; a read beyond its end finds what
lies there. The fields of the file header and of the program headers are little-endian, at the
offsets of the target's structures, and the arithmetic on them is that of 64 bits.
-/

namespace SysvNt

/-- The bytes of a file, and what the loader's memory holds at the other offsets from their start.
No object is larger than half the address space. -/
structure Image where
  bytes : Bytes
  beyond : BitVec 64 → UInt8
  length_lt : bytes.length < 2 ^ 63

namespace Image

variable (img : Image)

def at_ (off : BitVec 64) : UInt8 := img.bytes[off.toNat]?.getD (img.beyond off)

def le : ℕ → BitVec 64 → ℕ
  | 0, _ => 0
  | n + 1, off => (img.at_ off).toNat + 256 * le n (off + 1)

def slice (off : BitVec 64) (n : ℕ) : Bytes :=
  (List.range n).map fun k => img.at_ (off + BitVec.ofNat 64 k)

end Image

structure Ehdr where
  ident : List UInt8
  type : BitVec 16
  machine : BitVec 16
  entry : BitVec 64
  phoff : BitVec 64
  phentsize : BitVec 16
  phnum : BitVec 16

structure Phdr where
  type : BitVec 32
  flags : BitVec 32
  offset : BitVec 64
  vaddr : BitVec 64
  filesz : BitVec 64
  memsz : BitVec 64

def Image.ehdr (img : Image) : Ehdr where
  ident := img.slice 0 6
  type := BitVec.ofNat 16 (img.le 2 16)
  machine := BitVec.ofNat 16 (img.le 2 18)
  entry := BitVec.ofNat 64 (img.le 8 24)
  phoff := BitVec.ofNat 64 (img.le 8 32)
  phentsize := BitVec.ofNat 16 (img.le 2 54)
  phnum := BitVec.ofNat 16 (img.le 2 56)

def Image.phdr (img : Image) (off : BitVec 64) : Phdr where
  type := BitVec.ofNat 32 (img.le 4 off)
  flags := BitVec.ofNat 32 (img.le 4 (off + 4))
  offset := BitVec.ofNat 64 (img.le 8 (off + 8))
  vaddr := BitVec.ofNat 64 (img.le 8 (off + 16))
  filesz := BitVec.ofNat 64 (img.le 8 (off + 32))
  memsz := BitVec.ofNat 64 (img.le 8 (off + 40))

def SIZEOF_EHDR : ℕ := 64

def SIZEOF_PHDR : ℕ := 56

def ET_EXEC : BitVec 16 := 2

def ET_DYN : BitVec 16 := 3

def EM_X86_64 : BitVec 16 := 62

def PT_LOAD : BitVec 32 := 1

def PF_X : BitVec 32 := 1

def PF_W : BitVec 32 := 2

def PF_R : BitVec 32 := 4

def DYN_BASE : BitVec 64 := 0x555555554000

def Ehdr.headerAt (eh : Ehdr) (i : ℕ) : BitVec 64 :=
  eh.phoff + BitVec.ofNat 64 (i * eh.phentsize.toNat)

def Ehdr.bias (eh : Ehdr) : BitVec 64 := if eh.type = ET_DYN then DYN_BASE else 0

theorem toNat_add_ofNat {x : BitVec 64} {n : ℕ} (h : x.toNat + n < 2 ^ 64) :
    (x + BitVec.ofNat 64 n).toNat = x.toNat + n := by
  have hmod : n % 2 ^ 64 = n := Nat.mod_eq_of_lt (by omega)
  rw [BitVec.toNat_add_of_lt, BitVec.toNat_ofNat, hmod]
  rw [BitVec.toNat_ofNat, hmod]
  exact h

def roundDn (x : BitVec 64) : BitVec 64 := x &&& ~~~4095

def roundUp (x : BitVec 64) : BitVec 64 := roundDn (x + 4095)

theorem toNat_roundDn (x : BitVec 64) : (roundDn x).toNat = x.toNat / 4096 * 4096 := by
  have hlow : ∀ i < 64, (4095 : BitVec 64).getLsbD i = decide (i < 12) := by decide
  have hmask : roundDn x = (x >>> 12) <<< 12 := by
    apply BitVec.eq_of_getLsbD_eq
    intro i hi
    rw [roundDn, BitVec.getLsbD_and, BitVec.getLsbD_not, hlow i hi, BitVec.getLsbD_shiftLeft,
      BitVec.getLsbD_ushiftRight]
    by_cases h : i < 12
    · simp [h]
    · simp only [h, hi, decide_true, decide_false, Bool.not_false, Bool.and_true, Bool.true_and]
      congr 1
      omega
  rw [hmask, BitVec.toNat_shiftLeft, BitVec.toNat_ushiftRight, Nat.shiftLeft_eq,
    Nat.shiftRight_eq_div_pow]
  have hx := x.isLt
  omega

theorem toNat_roundUp {x : BitVec 64} (h : x.toNat + 4095 < 2 ^ 64) :
    (roundUp x).toNat = (x.toNat + 4095) / 4096 * 4096 := by
  rw [roundUp, toNat_roundDn, BitVec.toNat_add_of_lt h]
  rfl

end SysvNt
