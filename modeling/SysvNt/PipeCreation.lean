import SysvNt.DescriptorCalls
import SysvNt.DirectoryRecords
import SysvNt.PipeRing
import SysvNt.VectorCalls

/-!
# Making a pipe

`sys_pipe2` makes a ring with a description for each end, installs both and drops its own references
before it looks at what went wrong. What is undone then is undone by closing: the last reference to a
description runs `pipe_release`, and the release that leaves no end frees the ring.
-/

namespace SysvNt

open FdState FileOps RingQueue Transfers

structure RingCell where
  p : PipeRing
  frees : ℕ

def RingCell.release (c : RingCell) (flags : UInt32) : RingCell where
  p := (pipeRelease c.p flags).1
  frees := c.frees + if (pipeRelease c.p flags).2 then 1 else 0

/-- A table in which empty slots are not marked, the rings, and the ring that `priv` of a description
points to. -/
structure PipeTable where
  fds : FdState
  clear : CloexecClear fds
  priv : ℕ → Option ℕ
  rings : ℕ → RingCell
  nextRing : ℕ
  nextIno : UInt64

/-- User memory, and what a copy that fails has left of it. -/
structure UserRoom where
  writable : UInt64 → Bool
  mem : UInt64 → Option UInt8
  torn : UInt64 → Bytes → UInt64 → Option UInt8

def UserRoom.copyOut (u : UserRoom) (uaddr : UInt64) (b : Bytes) : Bool × (UInt64 → Option UInt8) :=
  if SysvNt.copyOut u.writable uaddr b.length then (true, scatter u.mem (userRange uaddr b.length) b)
  else (false, u.torn uaddr b)

def intBytes (fd : ℤ) : Bytes := littleEndian 4 fd.toNat

theorem length_intBytes_pair (a b : ℤ) : (intBytes a ++ intBytes b).length = 8 := by
  rw [List.length_append, intBytes, intBytes, length_littleEndian, length_littleEndian]

attribute [local irreducible] FdState.lowestFree

namespace PipeTable

variable (w : PipeTable)

def fileNew (flags : UInt32) (k : ℕ) : ℕ × PipeTable :=
  (w.fds.next, { w with
    fds := (w.fds.fileNew FILE_KIND_PIPE flags).2
    clear := w.clear
    priv := Function.update w.priv w.fds.next (some k) })

def filePut (f : ℕ) : PipeTable :=
  { w with
    fds := w.fds.filePut f
    clear := w.clear
    rings := if 0 < (w.fds.heap f).refs - 1 then w.rings else match w.priv f with
      | none => w.rings
      | some k => Function.update w.rings k ((w.rings k).release (w.fds.heap f).flags) }

def fdInstall (f : ℕ) (cloexec : Bool) (min : ℤ) : Except Errno ℤ × PipeTable :=
  ((w.fds.fdInstall f cloexec min).1, { w with
    fds := (w.fds.fdInstall f cloexec min).2
    clear := (fdInstall_touches w.fds f cloexec min).clear w.clear })

def unseat (i : Slot) : PipeTable :=
  { w with
    fds := (w.fds.seat i none).mark i false
    clear := (Touches.write none false rfl rfl fun _ => rfl : Touches w.fds _ (some i)).clear w.clear }

def fdClose (fd : ℤ) : Except Errno ℤ × PipeTable :=
  match w.fds.fdGet fd with
  | none => (.error .EBADF, w)
  | some (i, f) => (.ok 0, (w.unseat i).filePut f)

def ringNew : PipeTable :=
  { w with
    rings := Function.update w.rings w.nextRing
      { p := {
          ring := { buf := fun _ => 0, head := 0, tail := 0, count := 0 }
          readers := 0
          writers := 0
          ino := w.nextIno }
        frees := 0 }
    nextRing := w.nextRing + 1
    nextIno := w.nextIno + 1 }

/-- `vfs_pipe`, by which of its three allocations succeed. A description that was made alone is freed again
as it is. -/
def vfsPipe (haveRing haveRd haveWr : Bool) (flags : UInt32) : Except Errno (ℕ × ℕ) × PipeTable :=
  if !haveRing then (.error .ENOMEM, w)
  else
    let k := w.nextRing
    let w := w.ringNew
    if !haveRd || !haveWr then
      (.error .ENOMEM, { w with rings := Function.update w.rings k { w.rings k with frees := (w.rings k).frees + 1 } })
    else
      let rd := w.fileNew (O_RDONLY ||| flags &&& O_NONBLOCK) k
      let wr := rd.2.fileNew (O_WRONLY ||| flags &&& O_NONBLOCK) k
      (.ok (rd.1, wr.1), { wr.2 with
        rings := Function.update wr.2.rings k
          { wr.2.rings k with p := { (wr.2.rings k).p with readers := 1, writers := 1 } } })

def pipe2Install (u : UserRoom) (ufds : UInt64) (cloexec : Bool) (rd wr : ℕ) :
    Except Errno ℤ × PipeTable × (UInt64 → Option UInt8) :=
  let r₀ := w.fdInstall rd cloexec 0
  let r₁ : Except Errno ℤ × PipeTable := match r₀.1 with
    | .error e => (.error e, r₀.2)
    | .ok _ => r₀.2.fdInstall wr cloexec 0
  let w := (r₁.2.filePut rd).filePut wr
  match r₀.1, r₁.1 with
  | .error e, _ => (.error e, w, u.mem)
  | .ok fd₀, .error e => (.error e, (w.fdClose fd₀).2, u.mem)
  | .ok fd₀, .ok fd₁ =>
    match u.copyOut ufds (intBytes fd₀ ++ intBytes fd₁) with
    | (true, mem) => (.ok 0, w, mem)
    | (false, mem) => (.error .EFAULT, ((w.fdClose fd₀).2.fdClose fd₁).2, mem)

def sysPipe2 (u : UserRoom) (ufds : UInt64) (flags : UInt32) (haveRing haveRd haveWr : Bool) :
    Except Errno ℤ × PipeTable × (UInt64 → Option UInt8) :=
  if flags &&& ~~~(O_NONBLOCK ||| O_CLOEXEC) ≠ 0 then (.error .EINVAL, w, u.mem)
  else match w.vfsPipe haveRing haveRd haveWr flags with
    | (.error e, w) => (.error e, w, u.mem)
    | (.ok (rd, wr), w) => w.pipe2Install u ufds (has flags O_CLOEXEC) rd wr

theorem fdClose_fds (fd : ℤ) : (w.fdClose fd).2.fds = (w.fds.fdClose fd).2 := by
  rw [fdClose, FdState.fdClose]
  cases w.fds.fdGet fd <;> rfl

theorem pipe2Install_fds (u : UserRoom) (ufds : UInt64) (cloexec : Bool) (rd wr : ℕ) :
    (w.pipe2Install u ufds cloexec rd wr).1 = (w.fds.pipe2Install rd wr cloexec (SysvNt.copyOut u.writable ufds 8)).1 ∧
      (w.pipe2Install u ufds cloexec rd wr).2.1.fds =
        (w.fds.pipe2Install rd wr cloexec (SysvNt.copyOut u.writable ufds 8)).2 := by
  unfold pipe2Install FdState.pipe2Install
  dsimp only
  have hfst : (w.fdInstall rd cloexec 0).1 = (w.fds.fdInstall rd cloexec 0).1 := rfl
  have hsnd : (w.fdInstall rd cloexec 0).2.fds = (w.fds.fdInstall rd cloexec 0).2 := rfl
  generalize w.fdInstall rd cloexec 0 = r₀ at hfst hsnd ⊢
  generalize w.fds.fdInstall rd cloexec 0 = s₀ at hfst hsnd ⊢
  obtain ⟨r, v⟩ := r₀
  obtain ⟨_, _⟩ := s₀
  dsimp only at hfst hsnd
  subst hfst hsnd
  cases r with
  | error e => exact ⟨rfl, rfl⟩
  | ok fd₀ =>
      dsimp only
      have hfst : (v.fdInstall wr cloexec 0).1 = (v.fds.fdInstall wr cloexec 0).1 := rfl
      have hsnd : (v.fdInstall wr cloexec 0).2.fds = (v.fds.fdInstall wr cloexec 0).2 := rfl
      generalize v.fdInstall wr cloexec 0 = r₁ at hfst hsnd ⊢
      generalize v.fds.fdInstall wr cloexec 0 = s₁ at hfst hsnd ⊢
      obtain ⟨r, v₁⟩ := r₁
      obtain ⟨_, _⟩ := s₁
      dsimp only at hfst hsnd
      subst hfst hsnd
      cases r with
      | error e => exact ⟨rfl, fdClose_fds _ fd₀⟩
      | ok fd₁ =>
          dsimp only
          rw [UserRoom.copyOut, length_intBytes_pair]
          cases SysvNt.copyOut u.writable ufds 8 with
          | true => exact ⟨rfl, rfl⟩
          | false =>
              refine ⟨rfl, ?_⟩
              change ((((v₁.filePut rd).filePut wr).fdClose fd₀).2.fdClose fd₁).2.fds = _
              rw [fdClose_fds, fdClose_fds]
              rfl

/-- Without the rings this is the call as the table alone sees it. -/
theorem sysPipe2_fds (u : UserRoom) (ufds : UInt64) (flags : UInt32) (a b c : Bool) :
    (w.sysPipe2 u ufds flags a b c).1 =
        (w.fds.sysPipe2 flags (a && b && c) (SysvNt.copyOut u.writable ufds 8)).1 ∧
      (w.sysPipe2 u ufds flags a b c).2.1.fds =
        (w.fds.sysPipe2 flags (a && b && c) (SysvNt.copyOut u.writable ufds 8)).2 := by
  rw [sysPipe2, FdState.sysPipe2]
  by_cases hflags : flags &&& ~~~(O_NONBLOCK ||| O_CLOEXEC) ≠ 0
  · rw [if_pos hflags, if_pos hflags]
    exact ⟨rfl, rfl⟩
  · rw [if_neg hflags, if_neg hflags]
    cases a <;> cases b <;> cases c
    all_goals try exact ⟨rfl, rfl⟩
    exact pipe2Install_fds _ u ufds (has flags O_CLOEXEC) _ _

end PipeTable

/-- The two descriptions and the ring that a call has made since `w`. -/
structure Ends (w v : PipeTable) (rd wr : Desc) (c : RingCell) : Prop where
  heap : v.fds.heap = Function.update (Function.update w.fds.heap w.fds.next rd) (w.fds.next + 1) wr
  next : v.fds.next = w.fds.next + 2
  privRd : v.priv w.fds.next = some w.nextRing
  privWr : v.priv (w.fds.next + 1) = some w.nextRing
  rings : v.rings = Function.update w.rings w.nextRing c
  nextRing : v.nextRing = w.nextRing + 1

namespace Ends

variable {w v : PipeTable} {rd wr : Desc} {c : RingCell} (h : Ends w v rd wr c)

include h

theorem heap_rd : v.fds.heap w.fds.next = rd := by
  rw [h.heap, Function.update_of_ne (Nat.lt_succ_self _).ne, Function.update_self]

theorem heap_wr : v.fds.heap (w.fds.next + 1) = wr := by
  rw [h.heap, Function.update_self]

/-- A change to the table alone. -/
theorem of_table {v' : PipeTable} (hheap : v'.fds.heap = v.fds.heap) (hnext : v'.fds.next = v.fds.next)
    (hpriv : v'.priv = v.priv) (hrings : v'.rings = v.rings) (hring : v'.nextRing = v.nextRing) :
    Ends w v' rd wr c :=
  ⟨hheap.trans h.heap, hnext.trans h.next, by rw [hpriv, h.privRd], by rw [hpriv, h.privWr],
    hrings.trans h.rings, hring.trans h.nextRing⟩

theorem put_rd : Ends w (v.filePut w.fds.next) rd.put wr (if 0 < rd.refs - 1 then c else c.release rd.flags) := by
  refine ⟨?_, h.next, h.privRd, h.privWr, ?_, h.nextRing⟩
  · change Function.update v.fds.heap w.fds.next (v.fds.heap w.fds.next).put = _
    rw [h.heap_rd, h.heap, Function.update_comm (Nat.lt_succ_self _).ne', Function.update_idem]
  · change (if 0 < (v.fds.heap w.fds.next).refs - 1 then v.rings else match v.priv w.fds.next with
      | none => v.rings
      | some k => Function.update v.rings k ((v.rings k).release (v.fds.heap w.fds.next).flags)) = _
    rw [h.heap_rd, h.privRd, h.rings]
    split_ifs
    · rfl
    · dsimp only
      rw [Function.update_self, Function.update_idem]

theorem put_wr : Ends w (v.filePut (w.fds.next + 1)) rd wr.put
    (if 0 < wr.refs - 1 then c else c.release wr.flags) := by
  refine ⟨?_, h.next, h.privRd, h.privWr, ?_, h.nextRing⟩
  · change Function.update v.fds.heap (w.fds.next + 1) (v.fds.heap (w.fds.next + 1)).put = _
    rw [h.heap_wr, h.heap, Function.update_idem]
  · change (if 0 < (v.fds.heap (w.fds.next + 1)).refs - 1 then v.rings else match v.priv (w.fds.next + 1) with
      | none => v.rings
      | some k => Function.update v.rings k ((v.rings k).release (v.fds.heap (w.fds.next + 1)).flags)) = _
    rw [h.heap_wr, h.privWr, h.rings]
    split_ifs
    · rfl
    · dsimp only
      rw [Function.update_self, Function.update_idem]

theorem install_rd {i : Slot} {cloexec : Bool}
    (hi : (v.fdInstall w.fds.next cloexec 0).2.fds =
      ((v.fds.fileGet w.fds.next).seat i (some w.fds.next)).mark i cloexec) :
    Ends w (v.fdInstall w.fds.next cloexec 0).2 { rd with refs := rd.refs + 1 } wr c := by
  refine ⟨?_, ?_, h.privRd, h.privWr, h.rings, h.nextRing⟩
  · rw [hi]
    change Function.update v.fds.heap w.fds.next
      { v.fds.heap w.fds.next with refs := (v.fds.heap w.fds.next).refs + 1 } = _
    rw [h.heap_rd, h.heap, Function.update_comm (Nat.lt_succ_self _).ne', Function.update_idem]
  · rw [hi]
    exact h.next

theorem install_wr {i : Slot} {cloexec : Bool}
    (hi : (v.fdInstall (w.fds.next + 1) cloexec 0).2.fds =
      ((v.fds.fileGet (w.fds.next + 1)).seat i (some (w.fds.next + 1))).mark i cloexec) :
    Ends w (v.fdInstall (w.fds.next + 1) cloexec 0).2 rd { wr with refs := wr.refs + 1 } c := by
  refine ⟨?_, ?_, h.privRd, h.privWr, h.rings, h.nextRing⟩
  · rw [hi]
    change Function.update v.fds.heap (w.fds.next + 1)
      { v.fds.heap (w.fds.next + 1) with refs := (v.fds.heap (w.fds.next + 1)).refs + 1 } = _
    rw [h.heap_wr, h.heap, Function.update_idem]
  · rw [hi]
    exact h.next

theorem unseat (i : Slot) : Ends w (v.unseat i) rd wr c := h.of_table rfl rfl rfl rfl rfl

end Ends

/-- A description that is gone, its release having run once. -/
def Desc.Gone (d : Desc) : Prop := d.refs = 0 ∧ d.releases = 1

def RingCell.FreedOnce (c : RingCell) : Prop := c.frees = 1 ∧ c.p.readers = 0 ∧ c.p.writers = 0

/-- The table and every count are as before, and of what was made since nothing is left. -/
structure RolledBack (w v : PipeTable) : Prop where
  files : v.fds.files = w.fds.files
  cloexec : v.fds.cloexec = w.fds.cloexec
  counts : ∀ f < w.fds.next, v.fds.heap f = w.fds.heap f
  made : ∀ f, w.fds.next ≤ f → f < v.fds.next → (v.fds.heap f).Gone
  rings : ∀ k < w.nextRing, v.rings k = w.rings k
  freed : ∀ k, w.nextRing ≤ k → k < v.nextRing → (v.rings k).FreedOnce

/-- A pipe on the two lowest empty slots, its ends referred to from there alone, the reading end first. -/
structure PipeSeated (w v : PipeTable) (flags : UInt32) (i j : Slot) : Prop where
  first : w.fds.files i = none ∧ ∀ k < i, w.fds.files k ≠ none
  second : i < j ∧ w.fds.files j = none ∧ ∀ k < j, k ≠ i → w.fds.files k ≠ none
  files : v.fds.files = Function.update (Function.update w.fds.files i (some w.fds.next)) j (some (w.fds.next + 1))
  cloexec : v.fds.cloexec =
    Function.update (Function.update w.fds.cloexec i (has flags O_CLOEXEC)) j (has flags O_CLOEXEC)
  rd : v.fds.heap w.fds.next = ⟨1, FILE_KIND_PIPE, O_RDONLY ||| flags &&& O_NONBLOCK, 0, 0⟩
  wr : v.fds.heap (w.fds.next + 1) = ⟨1, FILE_KIND_PIPE, O_WRONLY ||| flags &&& O_NONBLOCK, 0, 0⟩
  counts : ∀ f < w.fds.next, v.fds.heap f = w.fds.heap f
  priv : v.priv w.fds.next = some w.nextRing ∧ v.priv (w.fds.next + 1) = some w.nextRing
  ring : (v.rings w.nextRing).frees = 0 ∧ (v.rings w.nextRing).p.readers = 1 ∧ (v.rings w.nextRing).p.writers = 1
  rings : ∀ k < w.nextRing, v.rings k = w.rings k

section Made

variable {w v : PipeTable}

theorem PipeTable.fdInstall_cases (v : PipeTable) (f : ℕ) (cloexec : Bool) :
    (∃ i : Slot, v.fds.files i = none ∧ (∀ j < i, v.fds.files j ≠ none) ∧ (v.fdInstall f cloexec 0).1 = .ok (i : ℕ) ∧
      (v.fdInstall f cloexec 0).2.fds = ((v.fds.fileGet f).seat i (some f)).mark i cloexec) ∨
    ((∀ j, v.fds.files j ≠ none) ∧ v.fdInstall f cloexec 0 = (.error .EMFILE, v)) := by
  rcases v.fds.lowestFree_cases 0 with ⟨i, hi, _, hnone, hlow⟩ | ⟨hi, hfull⟩
  · left
    have hrun : v.fds.fdInstall f cloexec 0 = (.ok (i : ℕ), ((v.fds.fileGet f).seat i (some f)).mark i cloexec) := by
      rw [FdState.fdInstall, if_neg (lt_irrefl 0), Int.toNat_zero, hi]
    exact ⟨i, hnone, fun j => hlow j (Nat.zero_le _), congrArg Prod.fst hrun, congrArg Prod.snd hrun⟩
  · right
    have hrun : v.fds.fdInstall f cloexec 0 = (.error .EMFILE, v.fds) := by
      rw [FdState.fdInstall, if_neg (lt_irrefl 0), Int.toNat_zero, hi]
    refine ⟨fun j => hfull j (Nat.zero_le _), ?_⟩
    obtain ⟨fds, clear, priv, rings, nextRing, nextIno⟩ := v
    simp only [PipeTable.fdInstall, Prod.mk.injEq, PipeTable.mk.injEq, and_true]
    exact ⟨congrArg Prod.fst hrun, congrArg Prod.snd hrun⟩

theorem PipeTable.fdClose_slot {i : Slot} {f : ℕ} (hi : v.fds.files i = some f) :
    v.fdClose (i : ℕ) = (.ok 0, (v.unseat i).filePut f) := by
  rw [PipeTable.fdClose, FdState.fdGet, slotOf_coe]
  change (match (v.fds.files i).map fun f => (i, f) with
    | none => _
    | some (i, f) => _) = _
  rw [hi]
  rfl

theorem Ends.rolledBack {rd wr : Desc} {c : RingCell} (h : Ends w v rd wr c) (hfiles : v.fds.files = w.fds.files)
    (hcloexec : v.fds.cloexec = w.fds.cloexec) (hrd : rd.Gone) (hwr : wr.Gone) (hc : c.FreedOnce) : RolledBack w v := by
  refine ⟨hfiles, hcloexec, ?_, ?_, ?_, ?_⟩
  · intro f hf
    rw [h.heap, Function.update_of_ne (by omega), Function.update_of_ne (by omega)]
  · intro f hle hlt
    rw [h.next] at hlt
    obtain rfl | rfl : f = w.fds.next ∨ f = w.fds.next + 1 := by omega
    · rwa [h.heap_rd]
    · rwa [h.heap_wr]
  · intro k hk
    rw [h.rings, Function.update_of_ne (by omega)]
  · intro k hle hlt
    rw [h.nextRing] at hlt
    obtain rfl : k = w.nextRing := by omega
    rwa [h.rings, Function.update_self]

/-- The end for reading as `vfs_pipe` makes it, and the end for writing. -/
def rdNew (flags : UInt32) : Desc := ⟨1, FILE_KIND_PIPE, O_RDONLY ||| flags &&& O_NONBLOCK, 0, 0⟩

def wrNew (flags : UInt32) : Desc := ⟨1, FILE_KIND_PIPE, O_WRONLY ||| flags &&& O_NONBLOCK, 0, 0⟩

def RingCell.Both (c : RingCell) : Prop := c.frees = 0 ∧ c.p.readers = 1 ∧ c.p.writers = 1

theorem end_accmode (b flags : UInt32) : (b ||| flags &&& O_NONBLOCK) &&& O_ACCMODE = b &&& O_ACCMODE :=
  or_masked_and (by decide) b flags

/-- Both ends released, in either order. -/
theorem RingCell.Both.released {c : RingCell} (h : c.Both) (flags : UInt32) :
    ((c.release (rdNew flags).flags).release (wrNew flags).flags).FreedOnce ∧
      ((c.release (wrNew flags).flags).release (rdNew flags).flags).FreedOnce := by
  obtain ⟨hfrees, hreaders, hwriters⟩ := h
  have hrd : (rdNew flags).flags &&& O_ACCMODE = O_RDONLY := by
    rw [rdNew, end_accmode]
    decide
  have hwr : (wrNew flags).flags &&& O_ACCMODE ≠ O_RDONLY := by
    rw [wrNew, end_accmode]
    decide
  constructor <;>
    simp [RingCell.FreedOnce, RingCell.release, pipeRelease, hrd, hwr, hfrees, hreaders, hwriters]

def ringMade (ino : UInt64) : RingCell where
  p := { ring := { buf := fun _ => 0, head := 0, tail := 0, count := 0 }, readers := 1, writers := 1, ino := ino }
  frees := 0

theorem vfsPipe_ends (w : PipeTable) (flags : UInt32) :
    ∃ v c, w.vfsPipe true true true flags = (.ok (w.fds.next, w.fds.next + 1), v) ∧
      Ends w v (rdNew flags) (wrNew flags) c ∧ c.Both ∧ v.fds.files = w.fds.files ∧ v.fds.cloexec = w.fds.cloexec := by
  have hne : w.fds.next ≠ w.fds.next + 1 := (Nat.lt_succ_self _).ne
  have hpriv : Function.update (Function.update w.priv w.fds.next (some w.nextRing)) (w.fds.next + 1)
      (some w.nextRing) w.fds.next = some w.nextRing := by
    rw [Function.update_of_ne hne, Function.update_self]
  refine ⟨_, ringMade w.nextIno, rfl, ⟨rfl, rfl, hpriv, Function.update_self .., ?_, rfl⟩, ⟨rfl, rfl, rfl⟩, rfl, rfl⟩
  simp [PipeTable.fileNew, PipeTable.ringNew, ringMade]

/-- Without one of its allocations the pipe is not made, and its ring is freed. -/
theorem vfsPipe_nomem (w : PipeTable) (flags : UInt32) {a b c : Bool} (h : (a && b && c) = false) :
    ∃ v, w.vfsPipe a b c flags = (.error .ENOMEM, v) ∧ RolledBack w v ∧
      v.nextRing = w.nextRing + if a then 1 else 0 := by
  cases a with
  | false =>
      refine ⟨w, rfl, ⟨rfl, rfl, fun _ _ => rfl, fun f hle hlt => ?_, fun _ _ => rfl, fun k hle hlt => ?_⟩, rfl⟩
      · exact absurd hlt (Nat.not_lt.mpr hle)
      · exact absurd hlt (Nat.not_lt.mpr hle)
  | true =>
      have hbc : (!b || !c) = true := by
        rw [← Bool.not_and, Bool.not_eq_true']
        exact h
      have hrun : w.vfsPipe true b c flags = (.error .ENOMEM, { w.ringNew with
          rings := Function.update w.ringNew.rings w.nextRing
            { w.ringNew.rings w.nextRing with frees := (w.ringNew.rings w.nextRing).frees + 1 } }) := by
        rw [PipeTable.vfsPipe, if_neg (by decide)]
        dsimp only
        rw [if_pos hbc]
      refine ⟨_, hrun, ⟨rfl, rfl, fun _ _ => rfl, fun f hle hlt => ?_, fun k hk => ?_, fun k hle hlt => ?_⟩, rfl⟩
      · exact absurd hlt (Nat.not_lt.mpr hle)
      · dsimp only
        rw [Function.update_of_ne hk.ne, PipeTable.ringNew]
        exact Function.update_of_ne hk.ne ..
      · obtain rfl : k = w.nextRing := Nat.le_antisymm (Nat.le_of_lt_succ hlt) hle
        simp [PipeTable.ringNew, RingCell.FreedOnce]

/-- Two places that were written and then given back what they held. -/
theorem update_undone {α β : Type*} [DecidableEq α] {g : α → β} {i j : α} {x y : β} (a b : β) (hi : g i = x)
    (hj : g j = y) :
    Function.update (Function.update (Function.update (Function.update g i a) j b) i x) j y = g := by
  funext k
  by_cases hkj : k = j
  · rw [hkj, Function.update_self, hj]
  · rw [Function.update_of_ne hkj]
    by_cases hki : k = i
    · rw [hki, Function.update_self, hi]
    · rw [Function.update_of_ne hki, Function.update_of_ne hkj, Function.update_of_ne hki]

inductive PipeEnded (w : PipeTable) (u : UserRoom) (ufds : UInt64) (flags : UInt32) :
    Except Errno ℤ × PipeTable × (UInt64 → Option UInt8) → Prop
  | undone {e : Errno} {v : PipeTable} {mem : UInt64 → Option UInt8} (hback : RolledBack w v)
      (hring : v.nextRing = w.nextRing + 1) : PipeEnded w u ufds flags (.error e, v, mem)
  | seated {v : PipeTable} {i j : Slot} (hseated : PipeSeated w v flags i j)
      (hroom : SysvNt.copyOut u.writable ufds 8 = true) :
      PipeEnded w u ufds flags (.ok 0, v, scatter u.mem (userRange ufds 8) (intBytes (i : ℕ) ++ intBytes (j : ℕ)))

theorem pipe2Install_ended {c : RingCell} {flags : UInt32} (u : UserRoom) (ufds : UInt64)
    (h : Ends w v (rdNew flags) (wrNew flags) c) (hc : c.Both) (hfiles : v.fds.files = w.fds.files)
    (hcloexec : v.fds.cloexec = w.fds.cloexec) :
    PipeEnded w u ufds flags (v.pipe2Install u ufds (has flags O_CLOEXEC) w.fds.next (w.fds.next + 1)) := by
  obtain ⟨hfreed, hfreed'⟩ := hc.released flags
  have hne : w.fds.next ≠ w.fds.next + 1 := (Nat.lt_succ_self _).ne
  rw [PipeTable.pipe2Install]
  rcases v.fdInstall_cases w.fds.next (has flags O_CLOEXEC) with ⟨i, hi, hlow, hret, hfds⟩ | ⟨hfull, hrun⟩
  · have h₀ := h.install_rd hfds
    obtain ⟨v₀, hrun⟩ : ∃ v₀, v.fdInstall w.fds.next (has flags O_CLOEXEC) 0 = (.ok (i : ℕ), v₀) :=
      ⟨_, Prod.ext hret rfl⟩
    rw [hrun] at hfds h₀ ⊢
    have hfiles₀ : v₀.fds.files = Function.update w.fds.files i (some w.fds.next) := by
      rw [hfds, ← hfiles]
      rfl
    have hcloexec₀ : v₀.fds.cloexec = Function.update w.fds.cloexec i (has flags O_CLOEXEC) := by
      rw [hfds, ← hcloexec]
      rfl
    rw [hfiles] at hi hlow
    dsimp only
    rcases v₀.fdInstall_cases (w.fds.next + 1) (has flags O_CLOEXEC) with ⟨j, hj, hlow', hret', hfds'⟩ | ⟨hfull, hrun'⟩
    · have h₁ := h₀.install_wr hfds'
      obtain ⟨v₁, hrun'⟩ : ∃ v₁, v₀.fdInstall (w.fds.next + 1) (has flags O_CLOEXEC) 0 = (.ok (j : ℕ), v₁) :=
        ⟨_, Prod.ext hret' rfl⟩
      rw [hrun'] at hfds' h₁ ⊢
      have hji : j ≠ i := by
        rintro rfl
        rw [hfiles₀, Function.update_self] at hj
        cases hj
      rw [hfiles₀, Function.update_of_ne hji] at hj
      have hlow₂ : ∀ k < j, k ≠ i → w.fds.files k ≠ none := by
        intro k hk hki
        have hfull := hlow' k hk
        rwa [hfiles₀, Function.update_of_ne hki] at hfull
      have hij : i < j := lt_of_le_of_ne (not_lt.mp fun hlt => hlow j hlt hj) hji.symm
      have hfiles₁ : v₁.fds.files = Function.update (Function.update w.fds.files i (some w.fds.next)) j
          (some (w.fds.next + 1)) := by
        rw [hfds', ← hfiles₀]
        rfl
      have hcloexec₁ : v₁.fds.cloexec = Function.update (Function.update w.fds.cloexec i (has flags O_CLOEXEC)) j
          (has flags O_CLOEXEC) := by
        rw [hfds', ← hcloexec₀]
        rfl
      have hmade := h₁.put_rd.put_wr
      dsimp only
      rw [UserRoom.copyOut, length_intBytes_pair]
      cases hroom : SysvNt.copyOut u.writable ufds 8 with
      | true =>
          rw [if_pos rfl]
          refine .seated ⟨⟨hi, hlow⟩, ⟨hij, hj, hlow₂⟩, hfiles₁, hcloexec₁, hmade.heap_rd, hmade.heap_wr, ?_,
            ⟨hmade.privRd, hmade.privWr⟩, ?_, ?_⟩ hroom
          · intro f hf
            rw [hmade.heap, Function.update_of_ne (by omega), Function.update_of_ne (by omega)]
          · rw [hmade.rings, Function.update_self]
            exact hc
          · intro k hk
            rw [hmade.rings, Function.update_of_ne hk.ne]
      | false =>
          rw [if_neg Bool.false_ne_true]
          have hsloti : ((v₁.filePut w.fds.next).filePut (w.fds.next + 1)).fds.files i = some w.fds.next := by
            change v₁.fds.files i = _
            rw [hfiles₁, Function.update_of_ne hji.symm, Function.update_self]
          have hback := (hmade.unseat i).put_rd
          dsimp only
          rw [PipeTable.fdClose_slot hsloti]
          generalize hv₂ :
            (((v₁.filePut w.fds.next).filePut (w.fds.next + 1)).unseat i).filePut w.fds.next = v₂ at hback
          have hfiles₂ : v₂.fds.files = Function.update v₁.fds.files i none := by
            rw [← hv₂]
            rfl
          have hcloexec₂ : v₂.fds.cloexec = Function.update v₁.fds.cloexec i false := by
            rw [← hv₂]
            rfl
          have hslotj : v₂.fds.files j = some (w.fds.next + 1) := by
            rw [hfiles₂, Function.update_of_ne hji, hfiles₁, Function.update_self]
          have hback' := (hback.unseat j).put_wr
          dsimp only
          rw [PipeTable.fdClose_slot hslotj]
          refine .undone (hback'.rolledBack ?_ ?_ ⟨rfl, rfl⟩ ⟨rfl, rfl⟩ hfreed) hback'.nextRing
          · change Function.update v₂.fds.files j none = _
            rw [hfiles₂, hfiles₁]
            exact update_undone _ _ hi hj
          · change Function.update v₂.fds.cloexec j false = _
            rw [hcloexec₂, hcloexec₁]
            exact update_undone _ _ (w.clear i hi) (w.clear j hj)
    · rw [hrun']
      have hback := h₀.put_rd.put_wr
      have hslot : ((v₀.filePut w.fds.next).filePut (w.fds.next + 1)).fds.files i = some w.fds.next := by
        change v₀.fds.files i = _
        rw [hfiles₀, Function.update_self]
      dsimp only
      rw [PipeTable.fdClose_slot hslot]
      have hback' := (hback.unseat i).put_rd
      refine .undone (hback'.rolledBack ?_ ?_ ⟨rfl, rfl⟩ ⟨rfl, rfl⟩ hfreed') hback'.nextRing
      · change Function.update v₀.fds.files i none = _
        rw [hfiles₀, Function.update_idem, ← hi, Function.update_eq_self]
      · change Function.update v₀.fds.cloexec i false = _
        rw [hcloexec₀, Function.update_idem, ← w.clear i hi, Function.update_eq_self]
  · rw [hrun]
    exact .undone ((h.put_rd.put_wr).rolledBack hfiles hcloexec ⟨rfl, rfl⟩ ⟨rfl, rfl⟩ hfreed) h.nextRing

end Made

/-- What `pipe2` comes to: an error with nothing left of the call, the ring it has taken, if it has, freed; or
the pipe on the two lowest empty slots, with their numbers stored. -/
structure AllOrNothing (w : PipeTable) (ufds : UInt64) (flags : UInt32) (taken : Prop) [Decidable taken]
    (r : Except Errno ℤ × PipeTable × (UInt64 → Option UInt8)) : Prop where
  nothing : ∀ e, r.1 = .error e → RolledBack w r.2.1 ∧ r.2.1.nextRing = w.nextRing + if taken then 1 else 0
  all : ∀ n, r.1 = .ok n → n = 0 ∧ ∃ i j, PipeSeated w r.2.1 flags i j ∧
    gather r.2.2 (userRange ufds 8) = some (intBytes (i : ℕ) ++ intBytes (j : ℕ))

theorem PipeEnded.allOrNothing {w : PipeTable} {u : UserRoom} {ufds : UInt64} {flags : UInt32} {taken : Prop}
    [Decidable taken] (htaken : taken) {r : Except Errno ℤ × PipeTable × (UInt64 → Option UInt8)}
    (h : PipeEnded w u ufds flags r) : AllOrNothing w ufds flags taken r := by
  cases h with
  | undone hback hring =>
      refine ⟨fun e _ => ⟨hback, ?_⟩, fun n hn => nomatch hn⟩
      rw [if_pos htaken]
      exact hring
  | seated hseated hroom =>
      refine ⟨fun e he => (nomatch he), fun n hn => ?_⟩
      cases hn
      refine ⟨rfl, _, _, hseated, gather_scatter _ (nodup_userRange _ (by decide)) ?_⟩
      rw [length_intBytes_pair, length_userRange]

theorem pipe2_all_or_nothing (w : PipeTable) (u : UserRoom) (ufds : UInt64) (flags : UInt32)
    (haveRing haveRd haveWr : Bool) :
    AllOrNothing w ufds flags (flags &&& ~~~(O_NONBLOCK ||| O_CLOEXEC) = 0 ∧ haveRing = true)
      (w.sysPipe2 u ufds flags haveRing haveRd haveWr) := by
  rw [PipeTable.sysPipe2]
  by_cases hflags : flags &&& ~~~(O_NONBLOCK ||| O_CLOEXEC) = 0
  · rw [if_neg (not_not.mpr hflags)]
    cases hmade : haveRing && haveRd && haveWr with
    | false =>
        obtain ⟨v, hrun, hback, hring⟩ := vfsPipe_nomem w flags hmade
        rw [hrun]
        refine ⟨fun e _ => ⟨hback, ?_⟩, fun n hn => nomatch hn⟩
        dsimp only
        rw [hring]
        simp only [hflags, true_and]
    | true =>
        rw [Bool.and_eq_true, Bool.and_eq_true] at hmade
        obtain ⟨⟨rfl, rfl⟩, rfl⟩ := hmade
        obtain ⟨v, c, hrun, hends, hboth, hfiles, hcloexec⟩ := vfsPipe_ends w flags
        rw [hrun]
        exact (pipe2Install_ended u ufds hends hboth hfiles hcloexec).allOrNothing ⟨hflags, rfl⟩
  · rw [if_pos hflags]
    refine ⟨fun e _ => ⟨⟨rfl, rfl, fun _ _ => rfl, fun f hle hlt => ?_, fun _ _ => rfl, fun k hle hlt => ?_⟩, ?_⟩,
      fun n hn => nomatch hn⟩
    · exact absurd hlt (Nat.not_lt.mpr hle)
    · exact absurd hlt (Nat.not_lt.mpr hle)
    · rw [if_neg fun h => hflags h.1]
      rfl

/-- One description, at the descriptors 0 and 2. -/
def twoUsed : PipeTable where
  fds := {
    files i := if i.val = 0 ∨ i.val = 2 then some 0 else none
    cloexec _ := false
    heap _ := { refs := 2, kind := 0, flags := O_RDWR, pos := 0, releases := 0 }
    next := 1 }
  clear _ _ := rfl
  priv _ := none
  rings _ := ⟨(Pipe.new 0 0).p, 1⟩
  nextRing := 0
  nextIno := 1

/-- A call that succeeds fills the two lowest slots and writes their numbers. -/
example :
    let r := twoUsed.sysPipe2 ⟨fun _ => true, fun _ => none, fun _ _ _ => none⟩ 0x1000 O_CLOEXEC true true true
    r.1 = .ok 0 ∧ gather r.2.2 (userRange 0x1000 8) = some [1, 0, 0, 0, 3, 0, 0, 0] ∧
      (r.2.1.fds.files ⟨1, by decide⟩, r.2.1.fds.files ⟨3, by decide⟩) = (some 1, some 2) ∧
      (r.2.1.fds.cloexec ⟨1, by decide⟩, r.2.1.fds.cloexec ⟨3, by decide⟩) = (true, true) ∧
      r.2.1.fds.files ⟨4, by decide⟩ = none ∧
      ((r.2.1.rings 0).p.readers, (r.2.1.rings 0).p.writers, (r.2.1.rings 0).frees) = (1, 1, 0) := by
  decide +kernel

end SysvNt
