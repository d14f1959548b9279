import SysvNt.ActionRuns
import SysvNt.ByteMemory

/-!
# The mock substrate's address spaces

The instances of the mock share one process. The first copies to and from its live memory behind a
guard against faults; a clone copies to and from shadows that were taken of its parent's mappings,
and where no mapping covers a copy it falls through to live memory. A guarded copy that faults may
have copied some of its bytes.
-/

namespace SysvNt.MockSubstrate

open ByteMemory

/-- `struct mapping`; a shadow holds the bytes by their offset. -/
structure Mapping where
  base : Word
  len : Word
  reservation : Bool
  shadow : Option (ℕ → BitVec 8)

/-- The test of `map_covering`, whose sums wrap. -/
def Mapping.covers (mp : Mapping) (addr len : Word) : Bool :=
  mp.base ≤ addr && addr + len ≤ mp.base + mp.len

def Mapping.bytes (mp : Mapping) : ℕ → BitVec 8 := mp.shadow.getD fun _ => 0

structure Mock where
  maps : List Mapping
  isChild : Bool

def mapCovering (m : Mock) (addr len : Word) : Option Mapping := m.maps.find? fun mp => mp.covers addr len

def shadowCovering (m : Mock) (addr len : Word) : Option Mapping :=
  (mapCovering m addr len).filter fun mp => mp.shadow.isSome

/-- The live memory of the process, with what the host lets it do to each page. -/
structure Process where
  memory : Memory
  canRead : Word → Bool
  canWrite : Word → Bool

def Process.readable (p : Process) (x : Word) : Bool := p.canRead (x >>> 12)

def Process.writable (p : Process) (x : Word) : Bool := p.canWrite (x >>> 12)

def window (m : Memory) (a : Word) (n : ℕ) : List (BitVec 8) :=
  (List.range n).map fun k => m (a + BitVec.ofNat 64 k)

/-- Memory with the bytes of a buffer written from an address. -/
def patch (m : Memory) (a : Word) (n : ℕ) (src : ℕ → BitVec 8) : Memory := fun x =>
  if (x - a).toNat < n then src (x - a).toNat else m x

/-- Memory with some of the bytes written, each where the mask lets it. -/
def patchSome (m : Memory) (a : Word) (n : ℕ) (src : ℕ → BitVec 8) (mask : Word → Bool) : Memory := fun x =>
  if mask x then patch m a n src x else m x

def guardedCopyIn (p : Process) (a : Word) (n : ℕ) : Option (List (BitVec 8)) :=
  if ∀ k < n, p.readable (a + BitVec.ofNat 64 k) = true then some (window p.memory a n) else none

/-- `guarded_copy` to user memory: whether it went through, and the memory it leaves. A copy that
faults has written those of the writable bytes that `torn` says. -/
def guardedCopyOut (p : Process) (a : Word) (n : ℕ) (src : ℕ → BitVec 8) (torn : Word → Bool) :
    Bool × Memory :=
  if ∀ k < n, p.writable (a + BitVec.ofNat 64 k) = true then (true, patch p.memory a n src)
  else (false, patchSome p.memory a n src fun x => torn x && p.writable x)

/-- `mapped` says which addresses `as_map` has realised and `as_unmap` has not dropped. -/
structure World where
  process : Process
  mapped : Word → Bool
  instances : List Mock

/-- What a call answers: `wild` is a copy that runs over the end of a shadow. -/
inductive Answer where
  | child (i : ℕ)
  | bytes (bs : List (BitVec 8))
  | written
  | failed
  | wild
  deriving DecidableEq

def Mapping.Fits (mp : Mapping) (addr len : Word) : Prop :=
  (addr - mp.base).toNat + len.toNat ≤ mp.len.toNat

instance (mp : Mapping) (addr len : Word) : Decidable (mp.Fits addr len) :=
  inferInstanceAs (Decidable (_ ≤ _))

/-- The private copy that `m_as_clone` takes of a mapping: zeroes where a page of it cannot be read. -/
def snapshot (p : Process) (mp : Mapping) : Mapping where
  base := mp.base
  len := mp.len
  reservation := false
  shadow := match guardedCopyIn p mp.base mp.len.toNat with
    | some _ => some fun k => p.memory (mp.base + BitVec.ofNat 64 k)
    | none => some fun _ => 0

def cloneOf (p : Process) (m : Mock) : Mock where
  maps := (m.maps.filter fun mp => mp.reservation).map (snapshot p)
  isChild := true

def userCopyIn (p : Process) (m : Mock) (uaddr len : Word) : Answer :=
  match shadowCovering m uaddr len with
  | some mp =>
    if mp.Fits uaddr len then
      .bytes ((List.range len.toNat).map fun k => mp.bytes ((uaddr - mp.base).toNat + k))
    else .wild
  | none => match guardedCopyIn p uaddr len.toNat with
    | some bs => .bytes bs
    | none => .failed

def overlay (bytes : ℕ → BitVec 8) (off n : ℕ) (src : ℕ → BitVec 8) : ℕ → BitVec 8 := fun k =>
  if off ≤ k ∧ k < off + n then src (k - off) else bytes k

def Mapping.write (mp : Mapping) (uaddr len : Word) (src : ℕ → BitVec 8) : Mapping :=
  { mp with shadow := some (overlay mp.bytes (uaddr - mp.base).toNat len.toNat src) }

def updateFirst {α : Type} (test : α → Bool) (f : α → α) : List α → List α
  | [] => []
  | a :: as => if test a then f a :: as else a :: updateFirst test f as

/-- `m_user_copy_out`: the answer, the instance and the memory that it leaves. -/
def userCopyOut (p : Process) (m : Mock) (uaddr len : Word) (src : ℕ → BitVec 8) (torn : Word → Bool) :
    Answer × Mock × Memory :=
  match shadowCovering m uaddr len with
  | some mp =>
    if mp.Fits uaddr len then
      (.written, { m with maps := updateFirst (fun mp => mp.covers uaddr len) (fun mp => mp.write uaddr len src) m.maps },
        p.memory)
    else (.wild, m, p.memory)
  | none =>
    let r := guardedCopyOut p uaddr len.toNat src torn
    (if r.1 then .written else .failed, m, r.2)

inductive MockCall where
  | clone (i : ℕ) (memory : Bool)
  | copyIn (i : ℕ) (uaddr len : Word)
  | copyOut (i : ℕ) (uaddr len : Word) (src : ℕ → BitVec 8) (torn : Word → Bool)

def MockCall.on : MockCall → ℕ
  | .clone i _ | .copyIn i _ _ | .copyOut i _ _ _ _ => i

def World.perform (w : World) (m : Mock) : MockCall → Answer × World
  | .clone _ memory =>
    if memory then
      (.child w.instances.length, { w with instances := w.instances ++ [cloneOf w.process m] })
    else (.failed, w)
  | .copyIn _ uaddr len => (userCopyIn w.process m uaddr len, w)
  | .copyOut i uaddr len src torn =>
    let r := userCopyOut w.process m uaddr len src torn
    (r.1, { w with process := { w.process with memory := r.2.2 }, instances := w.instances.set i r.2.1 })

/-- What a copy to an instance should make of its contents, by what it answers. -/
def wrote (p : Process) (uaddr len : Word) (src : ℕ → BitVec 8) (torn : Word → Bool) :
    Answer → Memory → Memory
  | .written, mem => patch mem uaddr len.toNat src
  | .failed, mem => patchSome mem uaddr len.toNat src fun x => torn x && p.writable x
  | _, mem => mem

/-- What each instance should hold after a call: a clone what its parent holds, and an instance that is
written to the bytes that were written. -/
def expected (w : World) (m : Mock) (contents : List Memory) : MockCall → List Memory
  | .clone i memory => if memory then contents ++ contents[i]?.toList else contents
  | .copyIn _ _ _ => contents
  | .copyOut i uaddr len src torn =>
    contents.modify i (wrote w.process uaddr len src torn (userCopyOut w.process m uaddr len src torn).1)

/-- The instances, and what each of them should hold. -/
structure Clones where
  world : World
  contents : List Memory

def Clones.next (s : Clones) (call : MockCall) : Clones :=
  match s.world.instances[call.on]? with
  | none => s
  | some m => ⟨(s.world.perform m call).2, expected s.world m s.contents call⟩

end SysvNt.MockSubstrate
