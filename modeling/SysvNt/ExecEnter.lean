import Mathlib.Algebra.GroupWithZero.Nat
import SysvNt.ElfLoad

/-!
# Entering a loaded image

`exec_enter` maps the stack and the vDSO, both where the substrate chooses, writes the initial
stack and starts the thread. The arguments are such that the whole of it fits the stack.
-/

namespace SysvNt

open FallibleCalls

variable {σ : Type}

def STK_SIZE : ℕ := 0x800000

def VDSO_SIZE : ℕ := 4096

def leBytes : ℕ → ℕ → Bytes
  | 0, _ => []
  | n + 1, v => UInt8.ofNat (v % 256) :: leBytes n (v / 256)

def overlay (off : ℕ) (bs img : Bytes) : Bytes :=
  img.take off ++ bs ++ img.drop (off + bs.length)

def vdsoEhdr : Bytes :=
  [0x7f, 0x45, 0x4c, 0x46, 2, 1, 1] ++ List.replicate 9 0 ++ leBytes 2 3 ++ leBytes 2 62 ++ leBytes 4 1 ++
    leBytes 8 0 ++ leBytes 8 64 ++ leBytes 8 0 ++ leBytes 4 0 ++ leBytes 2 64 ++ leBytes 2 56 ++
    leBytes 2 2 ++ leBytes 2 0 ++ leBytes 2 0 ++ leBytes 2 0

def phdrBytes (type flags offset vaddr paddr filesz memsz align : ℕ) : Bytes :=
  leBytes 4 type ++ leBytes 4 flags ++ leBytes 8 offset ++ leBytes 8 vaddr ++ leBytes 8 paddr ++
    leBytes 8 filesz ++ leBytes 8 memsz ++ leBytes 8 align

def vdsoImage : Bytes :=
  overlay 385 (str "linux-vdso.so.1")
    (overlay 256 (leBytes 8 5 ++ leBytes 8 384 ++ leBytes 8 14 ++ leBytes 8 1 ++ leBytes 8 0 ++ leBytes 8 0)
      (overlay 64 (phdrBytes 1 5 0 0 0 VDSO_SIZE VDSO_SIZE VDSO_SIZE ++ phdrBytes 2 4 256 256 0 48 48 8)
        (overlay 0 vdsoEhdr (List.replicate VDSO_SIZE 0))))

section Vdso

variable (S : Substrate σ)

def unmapRange (addr len : BitVec 64) : Call Unit (Loading σ) Unit := do
  let _ ← attempt (onSub (S.asUnmap addr len))
  note [.unmap addr len]

/-- A step of `vdso_map` after the mapping: a failure takes the mapping back. -/
def orUnmap (base : BitVec 64) (m : Call Unit (Loading σ) Unit) : Call Unit (Loading σ) Unit := do
  match ← attempt m with
  | .ok () => pure ()
  | .error () => do
    unmapRange S base (BitVec.ofNat 64 VDSO_SIZE)
    throw ()

def vdsoMap : Call Unit (Loading σ) (BitVec 64) := do
  let base ← mapRange S 0 (BitVec.ofNat 64 VDSO_SIZE) .vdso (SUB_PROT_READ ||| SUB_PROT_WRITE)
  orUnmap S base (do
    note [.copyOut base VDSO_SIZE]
    onSub (S.userCopyOut base vdsoImage))
  orUnmap S base (onSub (S.asProtect base (BitVec.ofNat 64 VDSO_SIZE) (SUB_PROT_READ ||| SUB_PROT_EXEC)))
  let recorded ← recordRange base (BitVec.ofNat 64 VDSO_SIZE) (SUB_PROT_READ ||| SUB_PROT_EXEC) .vdso 0
    (str "[vdso]")
  orUnmap S base (if recorded then pure () else throw ())
  pure base

end Vdso

/-- The words of the vector: `argc`, the pointers and their nulls, nine auxiliary entries. -/
def vectorWords (argc : ℕ) : ℕ := 1 + (argc + 1) + 1 + 2 * 9

structure Argv where
  strings : List Bytes
  text : ∀ s ∈ strings, 0 ∉ s
  strings_fit : (strings.map fun s => s.length + 1).sum + 16 ≤ STK_SIZE
  vector_fits : (if vectorWords strings.length % 2 = 1 then 8 else 0) + 8 * vectorWords strings.length ≤
    (STK_SIZE - (strings.map fun s => s.length + 1).sum - 16) / 16 * 16

namespace Argv

variable (args : Argv)

def argc : ℕ := args.strings.length

/-- Where the strings come to: each below the one before it. -/
def stringAt : ℕ → List Bytes → List ℕ
  | _, [] => []
  | sp, s :: ss => (sp - (s.length + 1)) :: stringAt (sp - (s.length + 1)) ss

def stringBase : ℕ := STK_SIZE - (args.strings.map fun s => s.length + 1).sum

def randomBase : ℕ := args.stringBase - 16

/-- The vector's base: aligned, below a pad word if the count is odd. -/
def vectorBase : ℕ :=
  args.randomBase / 16 * 16 - (if vectorWords args.argc % 2 = 1 then 8 else 0) -
    8 * vectorWords args.argc

end Argv

def auxRandom : Bytes :=
  [0x9e, 0x37, 0x79, 0xb9, 0x7f, 0x4a, 0x7c, 0x15, 0xf3, 0x9c, 0xc0, 0x60, 0x5c, 0xed, 0xc8, 0x34]

/-- The vector that the program finds at its stack pointer. -/
def initialVector (args : Argv) (li : LoadInfo) (gate ub vdso : BitVec 64) : List (BitVec 64) :=
  BitVec.ofNat 64 args.argc ::
    (Argv.stringAt STK_SIZE args.strings).map (fun sp => ub + BitVec.ofNat 64 sp) ++
    [0, 0, 3, li.phdrVa, 4, li.phent, 5, li.phnum, 6, 4096, 9, li.entry,
      25, ub + BitVec.ofNat 64 args.randomBase, 32, gate, 33, vdso, 0, 0]

/-- What is copied to the stack, from the vector's base to the top. -/
def initialStack (args : Argv) (li : LoadInfo) (gate ub vdso : BitVec 64) : Bytes :=
  (initialVector args li gate ub vdso).flatMap (fun w => leBytes 8 w.toNat) ++
    List.replicate (args.randomBase - args.vectorBase - 8 * vectorWords args.argc) 0 ++ auxRandom ++
    args.strings.reverse.flatMap fun s => s ++ [0]

section Exec

variable (S : Substrate σ)

/-- `exec_enter`; `allocated` is whether its two buffers were. -/
def execEnter (li : LoadInfo) (gate : BitVec 64) (args : Argv) (tid : ℤ) (allocated : Bool) :
    Call Unit (Loading σ) Unit := do
  let ub ← mapRange S 0 (BitVec.ofNat 64 STK_SIZE) .stack (SUB_PROT_READ ||| SUB_PROT_WRITE)
  let _ ← recordRange ub (BitVec.ofNat 64 STK_SIZE) (SUB_PROT_READ ||| SUB_PROT_WRITE) .stack 0
    (str "[stack]")
  let vdso ← vdsoMap S
  if allocated then do
    let sp := ub + BitVec.ofNat 64 args.vectorBase
    note [.copyOut sp (STK_SIZE - args.vectorBase)]
    onSub (S.userCopyOut sp (initialStack args li gate ub vdso))
    onSub (S.threadStart tid li.entry sp 0)
  else throw ()

def loadAndEnter (img : Image) (name : Bytes) (gate : BitVec 64) (args : Argv) (tid : ℤ)
    (allocated : Bool) : Call Unit (Loading σ) Unit := do
  let li ← elfLoad S img name
  execEnter S li gate args tid allocated

end Exec

end SysvNt
