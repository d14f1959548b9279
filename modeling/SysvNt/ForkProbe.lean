import SysvNt.ByteMemory
import SysvNt.RadixTree

/-!
# Fork over page tables

A process is a root: a tree of four levels of tables with an entry at the end of each path. A fork
copies the tables, takes the write bit from both copies of every entry that is not marked to be left
alone, and counts the reference to its frame; a write fault copies a frame that is shared and takes one
that is not. Frames come from an allocator that only moves up and ends the program when it is out.
-/

namespace SysvNt.ForkProbe

open ByteMemory RadixTree

def PAGE : Word := 0x1000
def CONTROL : Word := 0x400000
def FRAME_BASE : Word := CONTROL

def PTE_P : Word := 0x001
def PTE_RW : Word := 0x002
def PTE_US : Word := 0x004
def PTE_COW : Word := 0x200
def PTE_NOCOW : Word := 0x400
def PTE_ADDR : Word := 0x000ffffffffff000

def bit (e b : Word) : Bool := e &&& b != 0

def addr (e : Word) : Word := e &&& PTE_ADDR

/-- A table of the level; one of level zero is an entry, absent if it is not present. -/
abbrev Table (level : ℕ) := Tree (Fin 512) Word level

abbrev Page := Fin 4096 → BitVec 8

/-- Guest memory by the frame's address, the counts, the allocator and `phys_size`. -/
structure Frames where
  phys : Word → Page
  refcount : Word → BitVec 16
  next : Word
  size : Word

/-- `alloc_frame`; out of frames the program exits. -/
def allocFrame (fr : Frames) : Option (Word × Frames) :=
  if fr.size < fr.next + PAGE then none
  else some (fr.next, { fr with
    next := fr.next + PAGE
    phys := Function.update fr.phys fr.next fun _ => 0
    refcount := Function.update fr.refcount fr.next 1 })

def index (va : Word) (level : ℕ) : Fin 512 :=
  ⟨(va >>> (12 + 9 * level)).toNat % 512, Nat.mod_lt _ (by decide)⟩

def pathOf (va : Word) : Path (Fin 512) 4 :=
  .cons (index va 3) (.cons (index va 2) (.cons (index va 1) (.cons (index va 0) .nil)))

def offset (va : Word) : Fin 4096 := ⟨va.toNat % 4096, Nat.mod_lt _ (by decide)⟩

def byte (v : Word) (k : ℕ) : BitVec 8 := v.extractLsb' (8 * k) 8

def named (page : Page) (v : Word) : Page := fun k => if k.val < 8 then byte v k else page k

/-- An assignment through `pte_for` with `create`. -/
def setPte : {n : ℕ} → Table n → Path (Fin 512) n → Word → Frames → Option (Table n × Frames)
  | _, _, .nil, e, fr => some (.value e, fr)
  | _, .absent, .cons i p, e, fr => do
    let (_, fr) ← allocFrame fr
    let (s, fr) ← setPte .absent p e fr
    some (.node fun j => if j = i then s else .absent, fr)
  | _, .node t, .cons i p, e, fr => do
    let (s, fr) ← setPte (t i) p e fr
    some (.node fun j => if j = i then s else t j, fr)

def mapRange (t : Table 4) (va gpa flags : Word) : ℕ → Frames → Option (Table 4 × Frames)
  | 0, fr => some (t, fr)
  | pages + 1, fr => do
    let (t, fr) ← setPte t (pathOf va) (gpa ||| flags) fr
    mapRange t (va + PAGE) (gpa + PAGE) flags pages fr

/-- `new_root`: control memory mapped to itself and left out of copy-on-write. -/
def newRoot (fr : Frames) : Option (Table 4 × Frames) := do
  let (_, fr) ← allocFrame fr
  mapRange (.node fun _ => .absent) 0 0 (PTE_P ||| PTE_RW ||| PTE_NOCOW) (CONTROL / PAGE).toNat fr

/-- A turn of `populate`: the frame, the table that maps it and the frames left. -/
def populatePage (t : Table 4) (fr : Frames) (va tag : Word) : Option (Word × Table 4 × Frames) := do
  let (f, fr) ← allocFrame fr
  let (t, fr) ← setPte t (pathOf va) (f ||| PTE_P ||| PTE_RW ||| PTE_US)
    { fr with phys := Function.update fr.phys f (named (fr.phys f) (tag ^^^ va)) }
  some (f, t, fr)

def share (e : Word) : Word :=
  if bit e PTE_NOCOW then e else if bit e PTE_RW then e &&& ~~~PTE_RW ||| PTE_COW else e

/-- The loop of `clone_level` over the entries: the copy's, and what the source's become. -/
def cloneEach {n : ℕ} (clone : Fin 512 → Frames → Option (Table n × Table n × Frames)) :
    List (Fin 512) → Frames → Option ((Fin 512 → Table n) × (Fin 512 → Table n) × Frames)
  | [], fr => some (fun _ => .absent, fun _ => .absent, fr)
  | i :: is, fr => do
    let (d, s, fr) ← clone i fr
    let (ds, ss, fr) ← cloneEach clone is fr
    some (fun j => if j = i then d else ds j, fun j => if j = i then s else ss j, fr)

/-- `clone_level`: the copy, and what the source becomes. -/
def cloneLevel : {n : ℕ} → Table n → Frames → Option (Table n × Table n × Frames)
  | _, .absent, fr => some (.absent, .absent, fr)
  | _, .value e, fr =>
    if bit e PTE_NOCOW then some (.value e, .value e, fr)
    else
      some (.value (share e), .value (share e),
        { fr with refcount := Function.update fr.refcount (addr e) (fr.refcount (addr e) + 1) })
  | _, .node t, fr => do
    let (_, fr) ← allocFrame fr
    let (ds, ss, fr) ← cloneEach (fun i fr => cloneLevel (t i) fr) (List.finRange 512) fr
    some (.node ds, .node ss, fr)

def releaseLevel : {n : ℕ} → Table n → (Word → BitVec 16) → Word → BitVec 16
  | _, .absent, counts => counts
  | _, .value e, counts =>
    if bit e PTE_NOCOW then counts else Function.update counts (addr e) (counts (addr e) - 1)
  | _, .node t, counts => (List.finRange 512).foldl (fun counts i => releaseLevel (t i) counts) counts

/-- The live roots by their number, and the frames that were handed out for data. -/
structure Machine where
  frames : Frames
  roots : List (Option (Table 4))
  data : List Word

def Machine.root (m : Machine) (r : ℕ) : Option (Table 4) := m.roots[r]?.join

def Machine.create (m : Machine) : Option Machine := do
  let (t, fr) ← newRoot m.frames
  some { m with frames := fr, roots := m.roots ++ [some t] }

def Machine.populatePage (m : Machine) (r : ℕ) (t : Table 4) (va tag : Word) : Option Machine := do
  let (f, t, fr) ← ForkProbe.populatePage t m.frames va tag
  some ⟨fr, m.roots.set r (some t), f :: m.data⟩

def Machine.populate (m : Machine) (r : ℕ) (va tag : Word) : ℕ → Option Machine
  | 0 => some m
  | pages + 1 => match m.root r with
    | none => some m
    | some t => do
      let m ← m.populatePage r t va tag
      m.populate r (va + PAGE) tag pages

def Machine.clone (m : Machine) (r : ℕ) : Option Machine :=
  match m.root r with
  | none => some m
  | some t => do
    let (d, s, fr) ← cloneLevel t m.frames
    some { m with frames := fr, roots := m.roots.set r (some s) ++ [some d] }

def Machine.release (m : Machine) (r : ℕ) : Machine :=
  match m.root r with
  | none => m
  | some t =>
    { m with
      frames := { m.frames with refcount := releaseLevel t m.frames.refcount }
      roots := m.roots.set r none }

def Machine.setEntry (m : Machine) (r : ℕ) (t : Table 4) (va e : Word) (fr : Frames) (data : List Word) :
    Machine :=
  ⟨fr, m.roots.set r (some (insert t (pathOf va) e)), data⟩

/-- `cow_resolve`: whether the fault was one of copy-on-write. -/
def Machine.cowResolve (m : Machine) (r : ℕ) (va : Word) : Option (Bool × Machine) :=
  match m.root r with
  | none => some (false, m)
  | some t => match lookup t (pathOf va) with
    | none => some (false, m)
    | some e =>
      if bit e PTE_COW then
        let f := addr e
        if 1 < m.frames.refcount f then do
          let (nf, fr) ← allocFrame m.frames
          let fr := { fr with
            phys := Function.update fr.phys nf (fr.phys f)
            refcount := Function.update fr.refcount f (fr.refcount f - 1) }
          some (true, m.setEntry r t va (nf ||| e &&& ~~~(PTE_ADDR ||| PTE_COW) ||| PTE_RW) fr (nf :: m.data))
        else some (true, m.setEntry r t va (e &&& ~~~PTE_COW ||| PTE_RW) m.frames m.data)
      else some (false, m)

def Frames.store (fr : Frames) (f : Word) (k : Fin 4096) (b : BitVec 8) : Frames :=
  { fr with phys := Function.update fr.phys f (Function.update (fr.phys f) k b) }

def Frames.storeAt (t : Table 4) (fr : Frames) (va : Word) (b : BitVec 8) : Frames :=
  match lookup t (pathOf va) with
  | none => fr
  | some e => fr.store (addr e) (offset va) b

def writable (t : Table 4) (va : Word) : Bool := (lookup t (pathOf va)).any fun e => bit e PTE_RW

def bytesAt (va : Word) : List Word := (List.range 8).map fun k => va + BitVec.ofNat 64 k

/-- The guest's store of a word, which may lie in two pages. -/
def Frames.storeWord (t : Table 4) (fr : Frames) (va val : Word) : Frames :=
  (List.range 8).foldl (fun fr k => fr.storeAt t (va + BitVec.ofNat 64 k) (byte val k)) fr

/-- `guest_write`: the store goes through where all its entries are writable; otherwise the fault at
the first that is not is resolved and the store tried again, for so many tries. -/
def Machine.guestWrite (m : Machine) (r : ℕ) (va val : Word) : ℕ → Option (Bool × Machine)
  | 0 => some (false, m)
  | tries + 1 => match m.root r with
    | none => some (false, m)
    | some t => match (bytesAt va).find? fun a => !writable t a with
      | none => some (true, { m with frames := m.frames.storeWord t va val })
      | some a => do
        let (resolved, m) ← m.cowResolve r a
        if resolved then m.guestWrite r va val tries else some (false, m)

inductive RootCall where
  | newRoot
  | populate (r : ℕ) (va len tag : Word)
  | clone (r : ℕ)
  | write (r : ℕ) (va val : Word)
  | release (r : ℕ)

def pagesOf (len : Word) : ℕ := (len.toNat + 0xfff) / 0x1000

/-- How often `run_resolving` lets the guest run. -/
def TRIES : ℕ := 5

/-- A call: whether a write went through, and the machine that the call leaves, unless it ends the
program. -/
def RootCall.perform (m : Machine) : RootCall → Option (Bool × Machine)
  | .newRoot => m.create.map fun m => (true, m)
  | .populate r va len tag => (m.populate r va tag (pagesOf len)).map fun m => (true, m)
  | .clone r => (m.clone r).map fun m => (true, m)
  | .write r va val => m.guestWrite r va val TRIES
  | .release r => some (true, m.release r)

def Machine.initial (control : Word → Page) (size : Word) : Machine where
  frames := ⟨control, fun _ => 0, FRAME_BASE, size⟩
  roots := []
  data := []

end SysvNt.ForkProbe
