import SysvNt.OpenedRights
import SysvNt.Seeks
import SysvNt.VectorCalls

/-!
# What the calls through a table keep

A call through the operations of a description changes the world by these operations, by the copies across
the boundary and by the allocation of the bounce buffer. What each of them keeps of the world the whole call
keeps, however many turns its loops make.
-/

namespace SysvNt.FileOps

open FallibleCalls

variable {η σ α : Type} {I : σ → Prop}

/-- What holds of the world, for a call through a description. -/
def OnHost (I : σ → Prop) (l : Live σ) : Prop := I l.host

theorem reach_onHost {m : Call Errno σ α} {Q : α → Prop} (hm : Keeps I m Q) (es : List Reach) :
    Keeps (OnHost I) (reach es m) Q := fun l hl => hm l.host hl

theorem outside_onHost {m : StateM σ α} (hm : ∀ x, I x → I (m x).2) :
    Keeps (OnHost I) (outside m) (fun _ => True) := reach_onHost (Keeps.lift hm) []

theorem position_onHost : Keeps (OnHost I) (position : Call Errno (Live σ) UInt64) (fun _ => True) :=
  fun _ hl => ⟨hl, fun _ _ => trivial⟩

theorem setPosition_onHost (pos : UInt64) :
    Keeps (OnHost I) (setPosition pos : Call Errno (Live σ) Unit) (fun _ => True) :=
  fun _ hl => ⟨hl, fun _ _ => trivial⟩

/-- The copies and the allocation of the buffer keep what holds of the world. -/
structure FileIo.Kept (io : FileIo η σ) (I : σ → Prop) : Prop where
  copyOut : ∀ a b x, I x → I (io.copyOut a b x).2
  copyIn : ∀ a n x, I x → I (io.copyIn a n x).2
  bounce : ∀ x, I x → I (io.bounce x).2

structure Table.Kept (ops : Table σ) (I : σ → Prop) : Prop where
  read : ∀ n, Keeps (OnHost I) (ops.read n) (fun _ => True)
  write : ∀ b, Keeps (OnHost I) (ops.write b) (fun _ => True)
  pread : ∀ op, ops.pread = some op → ∀ n off, Keeps (OnHost I) (op n off) (fun _ => True)
  pwrite : ∀ op, ops.pwrite = some op → ∀ b off, Keeps (OnHost I) (op b off) (fun _ => True)
  getdents : ∀ op, ops.getdents = some op → ∀ cap, Keeps (OnHost I) (op cap) (fun _ => True)
  truncate : ∀ op, ops.truncate = some op → ∀ size, Keeps (OnHost I) (op size) (fun _ => True)

section Loops

variable {io : FileIo η σ} (hio : io.Kept I)

include hio

theorem readLoop_onHost {op : ℕ → ℕ → Call Errno (Live σ) Bytes}
    (hop : ∀ done n, Keeps (OnHost I) (op done n) (fun _ => True)) (ubuf : UInt64) (len : ℕ) :
    Keeps (OnHost I) (readLoop io op ubuf len) (fun _ => True) := by
  refine transfer_keeps (L := readBody io op ubuf len) fun x hx => ?_
  change OnHost I (afterTurn (readTurn io op ubuf len x))
  have hkeep := (hop x.2 (min (len - x.2) BOUNCE) x.1 hx).1
  rw [readTurn]
  split_ifs
  · exact hx
  dsimp only
  generalize (op x.2 (min (len - x.2) BOUNCE)).run x.1 = t at hkeep
  obtain ⟨r, l⟩ := t
  cases r with
  | error e => exact hkeep
  | ok b =>
      dsimp only
      by_cases hb : b = []
      · rw [if_pos hb]
        exact hkeep
      · rw [if_neg hb]
        have hcopied := hio.copyOut (ubuf + UInt64.ofNat x.2) b l.host hkeep
        generalize io.copyOut (ubuf + UInt64.ofNat x.2) b l.host = c at hcopied
        obtain ⟨ok, y⟩ := c
        cases ok with
        | false => exact hcopied
        | true =>
            dsimp only
            split_ifs
            · exact hcopied
            · exact hcopied

theorem writeLoop_onHost {op : ℕ → Bytes → Call Errno (Live σ) ℕ}
    (hop : ∀ done b, Keeps (OnHost I) (op done b) (fun _ => True)) (ubuf : UInt64) (len : ℕ) :
    Keeps (OnHost I) (writeLoop io op ubuf len) (fun _ => True) := by
  refine transfer_keeps (L := writeBody io op ubuf len) fun x hx => ?_
  change OnHost I (afterTurn (writeTurn io op ubuf len x))
  rw [writeTurn]
  split_ifs
  · exact hx
  dsimp only
  have hcopied := hio.copyIn (ubuf + UInt64.ofNat x.2) (min (len - x.2) BOUNCE) x.1.host hx
  generalize io.copyIn (ubuf + UInt64.ofNat x.2) (min (len - x.2) BOUNCE) x.1.host = c at hcopied
  obtain ⟨copied, y⟩ := c
  cases copied with
  | none => exact hcopied
  | some b =>
      have hkeep := (hop x.2 b { x.1 with host := y } hcopied).1
      dsimp only
      generalize (op x.2 b).run { x.1 with host := y } = t at hkeep
      obtain ⟨r, l⟩ := t
      cases r with
      | error e => exact hkeep
      | ok n =>
          dsimp only
          split_ifs
          · exact hkeep
          · exact hkeep

variable {ops : Table σ} (hops : ops.Kept I) (flags : UInt32)

include hops

theorem doRead_onHost (ubuf : UInt64) (len : ℤ) (off : Option UInt64) :
    Keeps (OnHost I) (doRead io ops flags ubuf len off) (fun _ => True) := by
  unfold doRead
  refine (outside_onHost hio.bounce).bind fun b _ => ?_
  split_ifs
  · exact Keeps.throw
  · exact Keeps.throw
  · exact Keeps.throw
  · exact Keeps.throw
  cases off with
  | none => exact readLoop_onHost hio (fun _ n => hops.read n) ubuf _
  | some off =>
      cases hop : ops.pread with
      | none => exact Keeps.throw
      | some op => exact readLoop_onHost hio (fun _ n => hops.pread op hop n _) ubuf _

theorem doWrite_onHost (ubuf : UInt64) (len : ℤ) (off : Option UInt64) :
    Keeps (OnHost I) (doWrite io ops flags ubuf len off) (fun _ => True) := by
  unfold doWrite
  refine (outside_onHost hio.bounce).bind fun b _ => ?_
  split_ifs
  · exact Keeps.throw
  · exact Keeps.throw
  · exact Keeps.throw
  · exact Keeps.throw
  cases off with
  | none => exact writeLoop_onHost hio (fun _ b => hops.write b) ubuf _
  | some off =>
      cases hop : ops.pwrite with
      | none => exact Keeps.throw
      | some op => exact writeLoop_onHost hio (fun _ b => hops.pwrite op hop b _) ubuf _

omit hio in
theorem sysFtruncate_onHost (size : ℤ) : Keeps (OnHost I) (sysFtruncate ops flags size) (fun _ => True) := by
  rw [sysFtruncate]
  split_ifs
  · exact Keeps.throw
  · exact Keeps.throw
  cases hop : ops.truncate with
  | none => exact Keeps.throw
  | some op => exact (hops.truncate op hop _).bind fun _ _ => Keeps.pure trivial

theorem sysGetdents64_onHost (ubuf : UInt64) (len : ℤ) :
    Keeps (OnHost I) (sysGetdents64 io ops ubuf len) (fun _ => True) := by
  unfold sysGetdents64
  refine (outside_onHost hio.bounce).bind fun b _ => ?_
  cases hop : ops.getdents with
  | none => exact Keeps.throw
  | some op =>
      dsimp only
      split_ifs
      · exact Keeps.throw
      · exact Keeps.throw
      refine (hops.getdents op hop _).bind fun records _ => ?_
      split_ifs
      · exact Keeps.pure trivial
      refine (reach_onHost (Keeps.lift (hio.copyOut ubuf records)) [.entries]).bind fun copied _ => ?_
      split_ifs
      · exact Keeps.pure trivial
      · exact Keeps.throw

omit hio hops in
theorem vectorLoop_onHost {one : UInt64 → ℤ → Call Errno (Live σ) ℕ}
    (hone : ∀ base len, Keeps (OnHost I) (one base len) (fun _ => True)) (vs : List Iovec) (total : ℕ) :
    Keeps (OnHost I) (vectorLoop one total vs) (fun _ => True) := by
  have hlift (r : Except Errno ℕ) : Keeps (OnHost I) (liftM r : Call Errno (Live σ) ℕ) (fun _ => True) :=
    (Keeps.liftExcept r).mono fun _ _ => trivial
  induction vs generalizing total with
  | nil => exact Keeps.pure trivial
  | cons v vs ih =>
      rw [vectorLoop]
      split_ifs
      · exact ih total
      · exact hlift _
      refine (hone v.base v.len).attempt.bind fun r _ => ?_
      cases r with
      | error e => exact hlift _
      | ok n =>
          dsimp only
          split_ifs
          · exact Keeps.pure trivial
          · exact ih (total + n)

omit hops in
theorem sysReadvWritev_onHost {alloc : StateM σ Bool} (halloc : ∀ x, I x → I (alloc x).2)
    {one : UInt64 → ℤ → Call Errno (Live σ) ℕ} (hone : ∀ base len, Keeps (OnHost I) (one base len) (fun _ => True))
    (uiov : UInt64) (cnt : ℤ) : Keeps (OnHost I) (sysReadvWritev io alloc one uiov cnt) (fun _ => True) := by
  rw [sysReadvWritev]
  split_ifs
  · exact Keeps.throw
  refine (outside_onHost halloc).bind fun iov _ => ?_
  split_ifs
  · exact Keeps.throw
  refine (outside_onHost (hio.copyIn uiov _)).bind fun copied _ => ?_
  cases copied with
  | none => exact Keeps.throw
  | some b => exact vectorLoop_onHost hone _ 0

end Loops

section Kinds

variable {H : HostStore η σ} {io : FileIo η σ}

structure ObjectKept (H : HostStore η σ) (io : FileIo η σ) (I : σ → Prop) (h : η) : Prop where
  pread : ∀ n off, Keeps I (io.pread h n off) (fun _ => True)
  pwrite : ∀ b off append, Keeps I (io.pwrite h b off append) (fun _ => True)
  stat : Keeps I (H.stat h) (fun _ => True)
  truncate : ∀ size, Keeps I (H.truncate h size) (fun _ => True)

structure AsideKept (io : FileIo η σ) (I : σ → Prop) : Prop where
  random : ∀ n x, I x → I (io.random n x).2
  consoleRead : ∀ n, Keeps I (io.consoleRead n) (fun _ => True)
  consoleWrite : ∀ b, Keeps I (io.consoleWrite b) (fun _ => True)

theorem hostfileWrite_onHost {h : η} (hobj : ObjectKept H io I h) (flags : UInt32) (b : Bytes) :
    Keeps (OnHost I) (hostfileWrite H io h flags b) (fun _ => True) := by
  rw [hostfileWrite]
  refine position_onHost.bind fun pos _ => ?_
  split_ifs
  · refine (reach_onHost (hobj.pwrite b 0 true) _).bind fun n _ => ?_
    split_ifs
    · refine (reach_onHost hobj.stat _).attempt.bind fun r _ => ?_
      cases r with
      | ok hs => exact (setPosition_onHost _).bind fun _ _ => Keeps.pure trivial
      | error e => exact Keeps.pure trivial
    · exact Keeps.pure trivial
  · refine (reach_onHost (hobj.pwrite b pos false) _).bind fun n _ => ?_
    exact (setPosition_onHost _).bind fun _ _ => Keeps.pure trivial

theorem hostfileOps_kept {h : η} (hobj : ObjectKept H io I h) (flags : UInt32) : (hostfileOps H io h flags).Kept I where
  read n := by
    change Keeps (OnHost I) (hostfileRead io h n) _
    rw [hostfileRead]
    refine position_onHost.bind fun pos _ => (reach_onHost (hobj.pread n pos) _).bind fun b _ => ?_
    exact (setPosition_onHost _).bind fun _ _ => Keeps.pure trivial
  write b := hostfileWrite_onHost hobj flags b
  pread op hop n off := by
    cases hop
    exact reach_onHost (hobj.pread n off) _
  pwrite op hop b off := by
    cases hop
    exact reach_onHost (hobj.pwrite b off _) _
  getdents op hop := by cases hop
  truncate op hop size := by
    cases hop
    exact reach_onHost (hobj.truncate size) _

theorem hostdirOps_kept (h : η) : (hostdirOps io h).Kept I where
  read _ := Keeps.throw
  write _ := Keeps.throw
  pread op hop := by cases hop
  pwrite op hop := by cases hop
  getdents op hop cap := by
    cases hop
    exact fun _ hl => ⟨hl, fun _ _ => trivial⟩
  truncate op hop := by cases hop

theorem snapOps_kept (text : Bytes) : (snapOps text : Table σ).Kept I where
  read n := by
    change Keeps (OnHost I) (snapRead text n) _
    rw [snapRead]
    refine position_onHost.bind fun pos _ => ?_
    rw [snapPread, pure_bind]
    exact (setPosition_onHost _).bind fun _ _ => Keeps.pure trivial
  write _ := Keeps.throw
  pread op hop n off := by
    cases hop
    exact Keeps.pure trivial
  pwrite op hop := by cases hop
  getdents op hop := by cases hop
  truncate op hop := by cases hop

theorem listOps_kept (getdents : ℕ → ℕ → Except Errno Bytes × ℕ) : (listOps getdents : Table σ).Kept I where
  read _ := Keeps.throw
  write _ := Keeps.throw
  pread op hop := by cases hop
  pwrite op hop := by cases hop
  getdents op hop cap := by
    cases hop
    exact fun _ hl => ⟨hl, fun _ _ => trivial⟩
  truncate op hop := by cases hop

theorem devOps_kept (hio : AsideKept io I) (minor : UInt32) : (devOps io minor).Kept I where
  read n := by
    change Keeps (OnHost I) (devRead io minor n) _
    rw [devRead]
    split_ifs
    · exact Keeps.pure trivial
    · exact Keeps.pure trivial
    · exact outside_onHost (hio.random n)
    · exact reach_onHost (hio.consoleRead n) _
    · exact Keeps.throw
  write b := by
    change Keeps (OnHost I) (devWrite io minor b) _
    rw [devWrite]
    split_ifs
    · exact Keeps.pure trivial
    · exact Keeps.throw
    · exact reach_onHost (hio.consoleWrite b) _
    · exact Keeps.throw
  pread op hop := by cases hop
  pwrite op hop := by cases hop
  getdents op hop := by cases hop
  truncate op hop := by cases hop

def OpenFile.handle : OpenFile η → Option η
  | .host h _ _ _ _ => some h
  | .synth _ _ _ => none

theorem opsOf_kept {f : OpenFile η} (hobj : ∀ h, OpenFile.handle f = some h → ObjectKept H io I h)
    (hio : AsideKept io I) (flags : UInt32) : (opsOf H io flags f).Kept I := by
  cases f with
  | host h kind fl path m =>
      cases kind with
      | hostdir => exact hostdirOps_kept h
      | symlink => exact hostfileOps_kept (hobj h rfl) flags
      | host => exact hostfileOps_kept (hobj h rfl) flags
  | synth f fl path =>
      cases f with
      | procLink => exact snapOps_kept []
      | procDir d => exact listOps_kept _
      | procFile text => exact snapOps_kept text
      | devDir => exact listOps_kept _
      | devNode major minor => exact devOps_kept hio minor

theorem seekFrom_onHost (base off : Int64) :
    Keeps (OnHost I) (seekFrom base off : Call Errno (Live σ) Int64) (fun _ => True) := by
  rw [seekFrom]
  split_ifs
  · exact Keeps.throw
  · exact (setPosition_onHost _).bind fun _ _ => Keeps.pure trivial

theorem hostfileLseek_onHost {h : η} (hstat : Keeps I (H.stat h) (fun _ => True)) (off : Int64) (whence : Int32) :
    Keeps (OnHost I) (hostfileLseek H h off whence) (fun _ => True) := by
  have hasked := (reach_onHost hstat []).attempt
  have hbase : Keeps (OnHost I) (hostfileBase H h whence) (fun _ => True) := by
    rw [hostfileBase]
    split_ifs
    · exact Keeps.pure trivial
    · exact position_onHost.bind fun _ _ => Keeps.pure trivial
    · refine hasked.bind fun r _ => ?_
      cases r with
      | ok hs => exact Keeps.pure trivial
      | error e => exact Keeps.throw
    · exact Keeps.throw
  rw [hostfileLseek]
  by_cases hdata : whence = SEEK_DATA ∨ whence = SEEK_HOLE
  · rw [if_pos hdata]
    refine hasked.bind fun r _ => ?_
    cases r with
    | error e => exact Keeps.throw
    | ok hs =>
        dsimp only
        by_cases hbeyond : off < 0 ∨ hs.size ≤ off.toUInt64
        · rw [if_pos hbeyond]
          exact Keeps.throw
        · rw [if_neg hbeyond]
          exact (setPosition_onHost _).bind fun _ _ => Keeps.pure trivial
  · rw [if_neg hdata]
    exact hbase.bind fun base _ => seekFrom_onHost base off

theorem snapLseek_onHost (text : Bytes) (off : Int64) (whence : Int32) :
    Keeps (OnHost I) (snapLseek text off whence : Call Errno (Live σ) Int64) (fun _ => True) := by
  rw [snapLseek, snapBase]
  refine Keeps.bind (Q := fun _ => True) (position_onHost.bind fun pos _ => ?_) fun base _ => seekFrom_onHost base off
  split_ifs
  · exact Keeps.throw
  · exact Keeps.pure trivial

end Kinds

end SysvNt.FileOps
