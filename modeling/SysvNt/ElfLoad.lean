import SysvNt.ElfImage
import SysvNt.FallibleCalls

/-!
# Loading a static executable

`elf_load` checks the identification, and for each `PT_LOAD` realises the pages through the
substrate, copies the file's bytes in, drops the write permission the segment does not have, and
records the range. The state of a load is the substrate's, the tree of ranges, and a log of what
the loader touched: the bytes of the image it read, and the calls on user memory.
-/

namespace SysvNt

open FallibleCalls

variable {σ α : Type}

def SUB_PROT_READ : UInt32 := 0x1

def SUB_PROT_WRITE : UInt32 := 0x2

def SUB_PROT_EXEC : UInt32 := 0x4

/-- The calls of a substrate that building a process image needs. -/
structure Substrate (σ : Type) where
  asMap : (addr len : BitVec 64) → BackingKind → (prot : UInt32) → Call Unit σ (BitVec 64)
  asUnmap : (addr len : BitVec 64) → Call Unit σ Unit
  asProtect : (addr len : BitVec 64) → (prot : UInt32) → Call Unit σ Unit
  userCopyOut : (uaddr : BitVec 64) → Bytes → Call Unit σ Unit
  threadStart : (tid : ℤ) → (rip rsp tls : BitVec 64) → Call Unit σ Unit

/-- What a load touches: bytes of the image, and ranges of user memory. -/
inductive Access where
  | read (off : BitVec 64) (n : ℕ)
  | map (base len : BitVec 64)
  | unmap (base len : BitVec 64)
  | copyOut (va : BitVec 64) (n : ℕ)
  deriving DecidableEq

/-- The state of a load; the newest access is the first of the log. -/
structure Loading (σ : Type) where
  sub : σ
  vmas : VmaTree
  log : List Access

def Loading.start (x : σ) : Loading σ := ⟨x, VmaTree.empty, []⟩

def onSub (m : Call Unit σ α) : Call Unit (Loading σ) α :=
  ExceptT.mk fun x => ((m.run x.sub).1, { x with sub := (m.run x.sub).2 })

def note (as : List Access) : Call Unit (Loading σ) Unit :=
  ExceptT.mk fun x => (.ok (), { x with log := as ++ x.log })

def readFields (off : BitVec 64) (fields : List (BitVec 64 × ℕ)) : Call Unit (Loading σ) Unit :=
  note (fields.map fun f => .read (off + f.1) f.2)

def mapRange (S : Substrate σ) (addr len : BitVec 64) (kind : BackingKind) (prot : UInt32) :
    Call Unit (Loading σ) (BitVec 64) := do
  let base ← onSub (S.asMap addr len kind prot)
  note [.map base len]
  pure base

/-- `vma_record`; the answer is whether it recorded the range. -/
def recordRange (start len : BitVec 64) (prot : UInt32) (kind : BackingKind) (offset : BitVec 64)
    (name : Bytes) : Call Unit (Loading σ) Bool :=
  ExceptT.mk fun x => match x.vmas.record start len prot kind offset name with
    | some t => (.ok true, { x with vmas := t })
    | none => (.ok false, x)

def protOf (flags : BitVec 32) : UInt32 :=
  (if flags &&& PF_R ≠ 0 then SUB_PROT_READ else 0) |||
    (if flags &&& PF_W ≠ 0 then SUB_PROT_WRITE else 0) |||
    (if flags &&& PF_X ≠ 0 then SUB_PROT_EXEC else 0)

namespace Phdr

variable (p : Phdr) (bias : BitVec 64)

def va : BitVec 64 := p.vaddr + bias

def mapStart : BitVec 64 := roundDn (p.va bias)

def mapEnd : BitVec 64 := roundUp (p.va bias + p.memsz)

def maplen : BitVec 64 := p.mapEnd bias - p.mapStart bias

def prot : UInt32 := protOf p.flags

end Phdr

section Load

variable (S : Substrate σ) (img : Image) (name : Bytes)

def copyFile (p : Phdr) (bias : BitVec 64) : Call Unit (Loading σ) Unit :=
  if p.filesz = 0 then pure ()
  else do
    note [.copyOut (p.va bias) p.filesz.toNat, .read p.offset p.filesz.toNat]
    onSub (S.userCopyOut (p.va bias) (img.slice p.offset p.filesz.toNat))

def dropWrite (p : Phdr) (bias addr : BitVec 64) : Call Unit (Loading σ) Unit :=
  if p.prot ≠ p.prot ||| SUB_PROT_WRITE then onSub (S.asProtect addr (p.maplen bias) p.prot)
  else pure ()

def mapLoad (p : Phdr) (bias : BitVec 64) : Call Unit (Loading σ) Unit :=
  if p.memsz < p.filesz then throw ()
  else if p.maplen bias = 0 then pure ()
  else do
    let addr ← mapRange S (p.mapStart bias) (p.maplen bias) .anon (p.prot ||| SUB_PROT_WRITE)
    copyFile S img p bias
    dropWrite S p bias addr
    let _ ← recordRange addr (p.maplen bias) p.prot (if p.filesz ≠ 0 then .file else .anon)
      (if p.filesz ≠ 0 then p.offset - (p.va bias - p.mapStart bias) else 0)
      (if p.filesz ≠ 0 then name else [])
    pure ()

structure Bounds where
  lo : BitVec 64
  hi : BitVec 64
  mapped : ℕ

def Bounds.start : Bounds := ⟨BitVec.allOnes 64, 0, 0⟩

def Bounds.widen (b : Bounds) (p : Phdr) (bias : BitVec 64) : Bounds where
  lo := if p.mapStart bias < b.lo then p.mapStart bias else b.lo
  hi := if b.hi < p.mapEnd bias then p.mapEnd bias else b.hi
  mapped := b.mapped + 1

def loadHeaders : List ℕ → Bounds → Call Unit (Loading σ) Bounds
  | [], b => pure b
  | i :: is, b => do
    let ph := img.ehdr.headerAt i
    let p := img.phdr ph
    let bias := img.ehdr.bias
    readFields ph [(0, 4)]
    if p.type ≠ PT_LOAD then loadHeaders is b
    else do
      readFields ph [(8, 8), (32, 8)]
      if img.bytes.length < (p.offset + p.filesz).toNat then throw ()
      else do
        readFields ph [(16, 8), (32, 8), (40, 8), (4, 4), (8, 8)]
        mapLoad S img name p bias
        readFields ph [(16, 8), (40, 8)]
        loadHeaders is (b.widen p bias)

/-- The second pass: where the program sees the headers. -/
def findPhdrVa : List ℕ → Call Unit (Loading σ) (BitVec 64)
  | [] => pure 0
  | i :: is => do
    let ph := img.ehdr.headerAt i
    let p := img.phdr ph
    readFields ph [(0, 4)]
    if p.type ≠ PT_LOAD then findPhdrVa is
    else do
      readFields ph [(8, 8), (32, 8), (16, 8)]
      if p.offset ≤ img.ehdr.phoff ∧ img.ehdr.phoff < p.offset + p.filesz then
        pure (p.vaddr + img.ehdr.bias + (img.ehdr.phoff - p.offset))
      else findPhdrVa is

structure LoadInfo where
  entry : BitVec 64
  phdrVa : BitVec 64
  phent : BitVec 64
  phnum : BitVec 64
  loadBase : BitVec 64
  loadEnd : BitVec 64

/-- The identification and the header table as `elf_load` checks them. -/
def Image.admitted : Bool :=
  img.ehdr.ident = [0x7f, 0x45, 0x4c, 0x46, 2, 1] && img.ehdr.machine = EM_X86_64 &&
    (img.ehdr.type = ET_EXEC || img.ehdr.type = ET_DYN) && img.ehdr.phoff ≠ 0 &&
    SIZEOF_PHDR ≤ img.ehdr.phentsize.toNat &&
    (img.ehdr.phoff + BitVec.ofNat 64 (img.ehdr.phnum.toNat * img.ehdr.phentsize.toNat)).toNat ≤
      img.bytes.length

def elfLoad : Call Unit (Loading σ) LoadInfo :=
  if img.bytes.length < SIZEOF_EHDR then throw ()
  else do
    readFields 0 [(0, SIZEOF_EHDR)]
    if img.admitted then do
      let b ← loadHeaders S img name (List.range img.ehdr.phnum.toNat) Bounds.start
      if b.mapped = 0 then throw ()
      else do
        let phdrVa ← findPhdrVa img (List.range img.ehdr.phnum.toNat)
        pure { entry := img.ehdr.entry + img.ehdr.bias, phdrVa := phdrVa
               phent := img.ehdr.phentsize.setWidth 64, phnum := img.ehdr.phnum.setWidth 64
               loadBase := b.lo, loadEnd := b.hi }
    else throw ()

end Load

def Image.LoadsAt (img : Image) (i : ℕ) : Prop := (img.phdr (img.ehdr.headerAt i)).type = PT_LOAD

def Loading.noting (x : Loading σ) (as : List Access) : Loading σ := { x with log := as ++ x.log }

def fieldReads (off : BitVec 64) (fields : List (BitVec 64 × ℕ)) : List Access :=
  fields.map fun f => .read (off + f.1) f.2

section Runs

variable {S : Substrate σ} {img : Image} {name : Bytes}

theorem run_readFields (off : BitVec 64) (fields : List (BitVec 64 × ℕ)) (x : Loading σ) :
    (readFields off fields).run x = (.ok (), x.noting (fieldReads off fields)) := rfl

theorem run_onSub (m : Call Unit σ α) (x : Loading σ) :
    (onSub m).run x = ((m.run x.sub).1, { x with sub := (m.run x.sub).2 }) := rfl

theorem run_mapRange {addr len : BitVec 64} {kind : BackingKind} {prot : UInt32} {x : Loading σ}
    {base : BitVec 64} {y : σ} (h : (S.asMap addr len kind prot).run x.sub = (.ok base, y)) :
    (mapRange S addr len kind prot).run x =
      (.ok base, { x with sub := y, log := .map base len :: x.log }) := by
  rw [mapRange, run_bind, run_onSub, h]
  rfl

/-- The range that a call realised is the one mapped last. -/
theorem of_run_mapRange {addr len : BitVec 64} {kind : BackingKind} {prot : UInt32}
    {x x' : Loading σ} {base : BitVec 64}
    (h : (mapRange S addr len kind prot).run x = (.ok base, x')) :
    ∃ y, (S.asMap addr len kind prot).run x.sub = (.ok base, y) ∧
      x' = { x with sub := y, log := .map base len :: x.log } := by
  rw [mapRange, run_bind, run_onSub] at h
  cases hmap : (S.asMap addr len kind prot).run x.sub with
  | mk r y =>
      rw [hmap] at h
      cases r with
      | error e => cases h
      | ok b =>
          cases h
          exact ⟨y, rfl, rfl⟩

theorem run_recordRange (start len : BitVec 64) (prot : UInt32) (kind : BackingKind)
    (offset : BitVec 64) (name : Bytes) (x : Loading σ) :
    (recordRange start len prot kind offset name).run x =
      (.ok (x.vmas.record start len prot kind offset name).isSome,
        { x with vmas := (x.vmas.record start len prot kind offset name).getD x.vmas }) := by
  rw [recordRange, ExceptT.run_mk]
  cases x.vmas.record start len prot kind offset name <;> rfl

theorem of_run_onSub {m : Call Unit σ α} {x x' : Loading σ} {r : α}
    (h : (onSub m).run x = (.ok r, x')) :
    m.run x.sub = (.ok r, x'.sub) ∧ x'.log = x.log ∧ x'.vmas = x.vmas := by
  rw [run_onSub] at h
  cases hm : m.run x.sub with
  | mk q y =>
      rw [hm] at h
      cases h
      exact ⟨rfl, rfl, rfl⟩

/-- The first pass on a header that is no segment to load. -/
theorem run_loadHeaders_skip {i : ℕ} (h : ¬ img.LoadsAt i) (is : List ℕ) (b : Bounds)
    (x : Loading σ) :
    (loadHeaders S img name (i :: is) b).run x = (loadHeaders S img name is b).run
      (x.noting (fieldReads (img.ehdr.headerAt i) [(0, 4)])) := by
  rw [loadHeaders, run_bind, run_readFields]
  dsimp only
  rw [if_pos (show (img.phdr (img.ehdr.headerAt i)).type ≠ PT_LOAD from h)]

/-- The first pass on a segment to load, whose file range is seen to end in the image. -/
theorem run_loadHeaders_load {i : ℕ} (h : img.LoadsAt i) (is : List ℕ) (b : Bounds) (x : Loading σ)
    (hlen : ¬ img.bytes.length < ((img.phdr (img.ehdr.headerAt i)).offset +
      (img.phdr (img.ehdr.headerAt i)).filesz).toNat) :
    (loadHeaders S img name (i :: is) b).run x =
      (mapLoad S img name (img.phdr (img.ehdr.headerAt i)) img.ehdr.bias >>= fun _ =>
        readFields (img.ehdr.headerAt i) [(16, 8), (40, 8)] >>= fun _ => loadHeaders S img name is
          (b.widen (img.phdr (img.ehdr.headerAt i)) img.ehdr.bias)).run
        (((x.noting (fieldReads (img.ehdr.headerAt i) [(0, 4)])).noting
          (fieldReads (img.ehdr.headerAt i) [(8, 8), (32, 8)])).noting
          (fieldReads (img.ehdr.headerAt i) [(16, 8), (32, 8), (40, 8), (4, 4), (8, 8)])) := by
  have htype : ¬ (img.phdr (img.ehdr.headerAt i)).type ≠ PT_LOAD := not_not_intro h
  rw [loadHeaders, run_bind, run_readFields]
  dsimp only
  rw [if_neg htype, run_bind, run_readFields]
  dsimp only
  rw [if_neg hlen, run_bind, run_readFields]

theorem run_loadHeaders_refuse {i : ℕ} (h : img.LoadsAt i) (is : List ℕ) (b : Bounds) (x : Loading σ)
    (hlen : img.bytes.length < ((img.phdr (img.ehdr.headerAt i)).offset +
      (img.phdr (img.ehdr.headerAt i)).filesz).toNat) :
    (loadHeaders S img name (i :: is) b).run x =
      (.error (), (x.noting (fieldReads (img.ehdr.headerAt i) [(0, 4)])).noting
        (fieldReads (img.ehdr.headerAt i) [(8, 8), (32, 8)])) := by
  have htype : ¬ (img.phdr (img.ehdr.headerAt i)).type ≠ PT_LOAD := not_not_intro h
  rw [loadHeaders, run_bind, run_readFields]
  dsimp only
  rw [if_neg htype, run_bind, run_readFields]
  dsimp only
  rw [if_pos hlen]
  rfl

end Runs

end SysvNt
