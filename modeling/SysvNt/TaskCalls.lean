import SysvNt.TaskWorld

/-!
# Every call keeps the account

A call reads what it needs of the process, hands it to the file system or to a description, and changes the
table. It is followed from the process that it is made in, since what it has read holds there.
-/

namespace SysvNt

open FallibleCalls FdState FileOps Ownership

variable {η σ α β : Type}

namespace Task

section Rules

variable {I : Task η σ → Prop} {p : Task η σ} {R : β → Prop}

/-- What a call has read holds in what follows. -/
theorem orFail_bind {f : Task η σ → Except Errno α} {g : α → Sys η σ β} (hp : I p)
    (hg : ∀ a, f p = .ok a → KeepsAt I p (g a) R) : KeepsAt I p (orFail f >>= g) R := by
  refine KeepsAt.bind (Q := fun _ => True) ⟨hp, fun _ _ => trivial⟩ fun a q hrun _ _ => ?_
  obtain ⟨hf, rfl⟩ := Prod.mk.inj hrun
  exact hg a hf

theorem look_bind {f : Task η σ → α} {g : α → Sys η σ β} (hg : KeepsAt I p (g (f p)) R) :
    KeepsAt I p (look f >>= g) R := hg

theorem change_bind {f : Task η σ → Task η σ} {g : Unit → Sys η σ β} (hg : KeepsAt I (f p) (g ()) R) :
    KeepsAt I p (change f >>= g) R := hg

theorem lift_bind {m : StateM σ α} {g : α → Sys η σ β}
    (hg : KeepsAt I (p.withHost (m p.host).2) (g (m p.host).1) R) :
    KeepsAt I p ((onHost fun _ => liftM m) >>= g) R := hg

theorem attempt_fds_bind {m : FdState → Except Errno α × FdState} {g : Except Errno α → Sys η σ β}
    (hg : KeepsAt I (p.setFdt (m p.fdt).2) (g (m p.fdt).1) R) : KeepsAt I p (attempt (onFds m) >>= g) R := hg

/-- A call of the host that is followed from either outcome. -/
theorem onHost_bind {m : Task η σ → Call Errno σ α} {g : α → Sys η σ β} {P E : σ → Prop} {Q : α → σ → Prop}
    (hm : FallibleCalls.Ends P (m p) Q E) (hp : P p.host) (hE : ∀ x, E x → I (p.withHost x))
    (hg : ∀ a x, (m p).run p.host = (.ok a, x) → Q a x → KeepsAt I (p.withHost x) (g a) R) :
    KeepsAt I p (onHost m >>= g) R := by
  obtain ⟨hok, herr⟩ := hm p.host hp
  have hrun : (onHost m).run p = (((m p).run p.host).1, p.withHost ((m p).run p.host).2) := rfl
  rw [KeepsAt, run_bind, hrun]
  cases h : (m p).run p.host with
  | mk r x =>
      cases r with
      | ok a => exact hg a x h (hok a x h)
      | error e => exact ⟨hE x (herr e x h), fun _ hb => by cases hb⟩

theorem keepsAt_pure {b : β} (hp : I p) (hb : R b) : KeepsAt I p (pure b : Sys η σ β) R := Keeps.pure hb p hp

theorem keepsAt_throw {e : Errno} (hp : I p) : KeepsAt I p (throw e : Sys η σ β) R := Keeps.throw p hp

section Host

variable {M : Platform η σ} (hI : ∀ p x, I p → I (p.withHost x))

include hI

/-- What does not depend on the host a call of the host keeps. -/
theorem onHost_kept (hp : I p) (m : Task η σ → Call Errno σ α) : KeepsAt I p (onHost m) fun _ => True :=
  ⟨hI _ _ hp, fun _ _ => trivial⟩

theorem alloc_kept (hp : I p) : KeepsAt I p (alloc M) fun _ => True := by
  rw [alloc]
  refine (onHost_kept hI hp _).bind fun ok q _ hq _ => ?_
  split_ifs
  · exact keepsAt_pure hq trivial
  · exact keepsAt_throw hq

theorem copyOut_kept (hp : I p) (uaddr : UInt64) (b : Bytes) : KeepsAt I p (copyOut M uaddr b) fun _ => True := by
  rw [copyOut]
  refine (onHost_kept hI hp _).bind fun ok q _ hq _ => ?_
  split_ifs
  · exact keepsAt_pure hq trivial
  · exact keepsAt_throw hq

end Host

/-- What follows a call that leaves the account. -/
theorem then_pure {m : Sys η σ α} {Q : α → Prop} {b : β} (hm : KeepsAt I p m Q) (hb : R b) :
    KeepsAt I p (m >>= fun _ => pure b) R := hm.bind fun _ _ _ hq _ => keepsAt_pure hq hb

theorem map_kept {m : Sys η σ α} {Q : α → Prop} (f : α → β) (hm : KeepsAt I p m Q) :
    KeepsAt I p (f <$> m) fun _ => True := by
  rw [map_eq_pure_bind]
  exact hm.bind fun _ _ _ hq _ => keepsAt_pure hq trivial

end Rules

section Account

variable {M : Platform η σ} {T : MountTable (η × ℕ)} {held : List ℕ} {p : Task (η × ℕ) (σ × Ledger)} {k : ℕ}
  {Q : α → Prop}

theorem onHost_sound (hp : Sound T held p) {m : Task (η × ℕ) (σ × Ledger) → Call Errno (σ × Ledger) α}
    (hm : Keeps (Holds (p.handles T)) (m p) Q) : KeepsAt (Sound T held) p (onHost m) Q := by
  obtain ⟨hhost, hans⟩ := hm p.host hp.handles
  exact ⟨hp.withHost hhost, hans⟩

theorem Sound.rootsHeld (hp : Sound T held p) : RootsHeld p.fs.table (p.handles T) := by
  rw [hp.table]
  exact rootsHeld_handles T _

/-- A call of the file system, as it finds the process. -/
theorem vfs_sound (hp : Sound T held p)
    {m : Kernel (η × ℕ) (σ × Ledger) → FsCtx (η × ℕ) → Call Errno (σ × Ledger) α}
    (hm : Keeps (Holds (p.handles T)) (m (countedKernel M.store (p.view M.counted) M.frame) p.fs) Q) :
    KeepsAt (Sound T held) p (vfs M.counted m) Q := onHost_sound hp hm

theorem Sound.mem_handles (hp : Sound T held p) (hk : 0 < (p.fdt.heap k).refs) {n : ℕ} (hn : n ∈ (p.file k).handles) :
    n ∈ p.handles T :=
  List.mem_append_left _ (List.mem_flatMap.mpr ⟨k, hp.mem_live.mpr hk, hn⟩)

theorem Sound.withLive (hp : Sound T held p) {l : FileOps.Live ((σ × Ledger) × Rings)}
    (hl : OnHost (World (p.handles T) p.rings) l) (k : ℕ) : Sound T held (p.withLive k l) := by
  let moved (d : Desc) : Desc := { d with pos := l.pos }
  have hlive : (p.fdt.alter k moved).live = p.fdt.live := live_alter (g := moved) (fun _ => rfl) k
  have hfds : Balanced (p.fdt.alter k moved) held := hp.fds.alter (g := moved) k fun _ => ⟨rfl, rfl⟩
  refine hp.of_sameObjects ⟨hlive, fun j => ?_, rfl, rfl, hl.ends, rfl⟩ hfds hl.handles rfl hp.cwd
  rw [Task.withLive]
  dsimp only [FdState.alter]
  by_cases hj : j = k
  · rw [hj, Function.update_self]
  · rw [Function.update_of_ne hj]

theorem Sound.world (hp : Sound T held p) : World (p.handles T) p.rings (p.host, p.rings) :=
  ⟨hp.handles, fun _ => .refl _⟩

theorem through_sound (hp : Sound T held p)
    {m : Task (η × ℕ) (σ × Ledger) → Call Errno (FileOps.Live ((σ × Ledger) × Rings)) α}
    (hm : Keeps (OnHost (World (p.handles T) p.rings)) (m p) Q) (k : ℕ) :
    KeepsAt (Sound T held) p (through k m) Q := by
  obtain ⟨hworld, hans⟩ := hm (p.live k) hp.world
  exact ⟨hp.withLive hworld k, hans⟩

theorem fget_bind (hp : Sound T held p) {fd : ℤ} {g : ℕ → Sys (η × ℕ) (σ × Ledger) β} {R : β → Prop}
    (hg : ∀ k, 0 < (p.fdt.heap k).refs → KeepsAt (Sound T held) p (g k) R) :
    KeepsAt (Sound T held) p (fget fd >>= g) R := by
  refine orFail_bind hp fun k hk => ?_
  cases hget : p.fdt.fdGet fd with
  | none =>
      rw [hget] at hk
      cases hk
  | some e =>
      obtain ⟨i, j⟩ := e
      rw [hget] at hk
      cases hk
      exact hg j (hp.fds.counted.pos_of_slot (fdGet_some hget).2)

theorem selfOf_bind (hp : Sound T held p) {fd : ℤ} {g : ℕ → Sys (η × ℕ) (σ × Ledger) β} {R : β → Prop}
    (hg : ∀ k, 0 < (p.fdt.heap k).refs → KeepsAt (Sound T held) p (g k) R) :
    KeepsAt (Sound T held) p (selfOf fd >>= g) R := by
  refine orFail_bind hp fun k hk => ?_
  by_cases hcwd : fd = AT_FDCWD
  · rw [if_pos hcwd] at hk
    cases hk
  rw [if_neg hcwd] at hk
  cases hget : p.fdt.fdGet fd with
  | none =>
      rw [hget] at hk
      cases hk
  | some e =>
      obtain ⟨i, j⟩ := e
      rw [hget] at hk
      cases hk
      exact hg j (hp.fds.counted.pos_of_slot (fdGet_some hget).2)

variable (hT : InPlace T)

include hT

theorem Sound.dirs_canonical (hp : Sound T held p) {q : Bytes} (h : p.dirs k = some q) : Canonical q :=
  Session.dirs_canonical (s := ⟨p.host, p.fs, p.fdt, p.file⟩) hT ⟨hp.table, hp.cwd, hp.made⟩ h

/-- `base_of` gives a place to start from. -/
theorem baseOf_bind (hp : Sound T held p) {dirfd : ℤ} {path : Bytes} {g : Option Bytes → Sys (η × ℕ) (σ × Ledger) β}
    {R : β → Prop} (hg : ∀ base, Canonical (base.getD p.fs.cwd) → KeepsAt (Sound T held) p (g base) R) :
    KeepsAt (Sound T held) p (baseOf dirfd path >>= g) R :=
  orFail_bind hp fun base hbase => hg base (baseOf_based hp.cwd (fun _ _ => hp.dirs_canonical hT) hbase)

end Account

section Calls

variable {M : Platform η σ} {T : MountTable (η × ℕ)} {held : List ℕ} {p : Task (η × ℕ) (σ × Ledger)} {k : ℕ}

/-- A call keeps the account of the process that makes it. -/
abbrev Accounted (T : MountTable (η × ℕ)) (held : List ℕ) (p : Task (η × ℕ) (σ × Ledger))
    (m : Sys (η × ℕ) (σ × Ledger) α) : Prop := KeepsAt (Sound T held) p m fun _ => True

theorem onFds_sound {m : FdState → Except Errno α × FdState} (h : Sound T held (p.setFdt (m p.fdt).2)) :
    Accounted T held p (onFds m) := ⟨h, fun _ _ => trivial⟩

theorem onTable_sound {m : Task (η × ℕ) (σ × Ledger) → Except Errno α × Task (η × ℕ) (σ × Ledger)}
    (h : Sound T held (m p).2) : Accounted T held p (onTable m) := ⟨h, fun _ _ => trivial⟩

theorem change_sound {f : Task (η × ℕ) (σ × Ledger) → Task (η × ℕ) (σ × Ledger)} (h : Sound T held (f p)) :
    Accounted T held p (change f) := ⟨h, fun _ _ => trivial⟩

theorem sysClose_sound (hp : Sound T held p) (fd : ℤ) : Accounted T held p (sysClose M.counted fd) := by
  rw [sysClose]
  exact map_kept _ (onTable_sound (hp.fdClose fd))

theorem sysDup_sound (hp : Sound T held p) (fd : ℤ) : Accounted T held p (sysDup fd) := by
  rw [sysDup]
  exact map_kept _ (onFds_sound (hp.sysDup fd))

theorem sysDup3_sound (hp : Sound T held p) (oldfd newfd : ℤ) (flags : UInt32) :
    Accounted T held p (sysDup3 M.counted oldfd newfd flags) := by
  rw [sysDup3]
  split_ifs
  · exact keepsAt_throw hp
  · exact keepsAt_throw hp
  · exact map_kept _ (onTable_sound (hp.fdDup2 oldfd newfd _))

theorem sysDup2_sound (hp : Sound T held p) (oldfd newfd : ℤ) :
    Accounted T held p (sysDup2 M.counted oldfd newfd) := by
  rw [sysDup2]
  refine fget_bind hp fun _ _ => ?_
  split_ifs
  · exact keepsAt_pure hp trivial
  · exact map_kept _ (onTable_sound (hp.fdDup2 oldfd newfd _))

theorem sysFcntl_sound (hp : Sound T held p) (fd cmd : ℤ) (arg : Int64) :
    Accounted T held p (sysFcntl fd cmd arg) := by
  rw [sysFcntl]
  exact map_kept _ (onFds_sound (hp.sysFcntl fd cmd arg.toInt))

/-- What lies outside of the process is asked for something. -/
theorem ask_sound (hp : Sound T held p) {m : StateM (σ × Ledger) α}
    (hm : ∀ x, Holds (p.handles T) x → Holds (p.handles T) (m x).2) :
    Accounted T held p (onHost fun _ => liftM m) := onHost_sound hp (Keeps.lift hm)

theorem copyIn_sound (hp : Sound T held p) (uaddr : UInt64) (n : ℕ) : Accounted T held p (copyIn M.counted uaddr n) :=
  ask_sound hp (counted_crossIn (M := M) uaddr n)

theorem copyOut_sound (hp : Sound T held p) (uaddr : UInt64) (b : Bytes) :
    Accounted T held p (copyOut M.counted uaddr b) := by
  rw [copyOut]
  refine (ask_sound hp (counted_crossOut (M := M) uaddr b)).bind fun ok q _ hq _ => ?_
  split_ifs
  · exact keepsAt_pure hq trivial
  · exact keepsAt_throw hq

theorem alloc_sound (hp : Sound T held p) : Accounted T held p (alloc M.counted) := by
  rw [alloc]
  refine (ask_sound hp (offLedger_holds M.store.alloc)).bind fun ok q _ hq _ => ?_
  split_ifs
  · exact keepsAt_pure hq trivial
  · exact keepsAt_throw hq

/-- The operations of an open description keep the handles and the ends of the rings. -/
theorem throughOps_sound (hp : Sound T held p) (hk : 0 < (p.fdt.heap k).refs)
    {m : Table ((σ × Ledger) × Rings) → UInt32 → Call Errno (FileOps.Live ((σ × Ledger) × Rings)) ℕ}
    (hm : ∀ ops flags, ops.Kept (World (p.handles T) p.rings) →
      Keeps (OnHost (World (p.handles T) p.rings)) (m ops flags) fun _ => True) :
    Accounted T held p (throughOps M.counted k m) := by
  rw [throughOps]
  exact map_kept _ (through_sound hp (hm _ _ (opsOf_world (fun _ hn => hp.mem_handles hk hn) _ _)) k)

theorem sysRead_sound (hp : Sound T held p) (fd : ℤ) (ubuf : UInt64) (len : Int64) :
    Accounted T held p (sysRead M.counted fd ubuf len) := by
  rw [sysRead]
  exact fget_bind hp fun k hk => throughOps_sound hp hk fun ops flags hops =>
    doRead_onHost besideRings_kept hops flags ubuf _ none

theorem sysWrite_sound (hp : Sound T held p) (fd : ℤ) (ubuf : UInt64) (len : Int64) :
    Accounted T held p (sysWrite M.counted fd ubuf len) := by
  rw [sysWrite]
  exact fget_bind hp fun k hk => throughOps_sound hp hk fun ops flags hops =>
    doWrite_onHost besideRings_kept hops flags ubuf _ none

theorem sysPread64_sound (hp : Sound T held p) (fd : ℤ) (ubuf : UInt64) (len off : Int64) :
    Accounted T held p (sysPread64 M.counted fd ubuf len off) := by
  rw [sysPread64]
  split_ifs
  · exact keepsAt_throw hp
  · exact fget_bind hp fun k hk => throughOps_sound hp hk fun ops flags hops =>
      doRead_onHost besideRings_kept hops flags ubuf _ _

theorem sysPwrite64_sound (hp : Sound T held p) (fd : ℤ) (ubuf : UInt64) (len off : Int64) :
    Accounted T held p (sysPwrite64 M.counted fd ubuf len off) := by
  rw [sysPwrite64]
  split_ifs
  · exact keepsAt_throw hp
  · exact fget_bind hp fun k hk => throughOps_sound hp hk fun ops flags hops =>
      doWrite_onHost besideRings_kept hops flags ubuf _ _

theorem sysReadvWritev_sound (hp : Sound T held p) (fd : ℤ) (uiov : UInt64) (cnt : Int64) (writing : Bool) :
    Accounted T held p (sysReadvWritev M.counted fd uiov cnt writing) := by
  rw [sysReadvWritev]
  refine fget_bind hp fun k hk => throughOps_sound hp hk fun ops flags hops => ?_
  refine sysReadvWritev_onHost besideRings_kept (world_besideRings (offLedger_holds M.store.alloc)) (fun base len => ?_)
    uiov _
  cases writing with
  | true => exact doWrite_onHost besideRings_kept hops flags base len none
  | false => exact doRead_onHost besideRings_kept hops flags base len none

theorem sysLseek_sound (hp : Sound T held p) (fd : ℤ) (off : Int64) (whence : Int32) :
    Accounted T held p (sysLseek M.counted fd off whence) := by
  rw [sysLseek]
  exact fget_bind hp fun k hk => through_sound hp (lseekOf_world (fun _ hn => hp.mem_handles hk hn) off whence) k

theorem sysGetdents64_sound (hp : Sound T held p) (fd : ℤ) (ubuf : UInt64) (len : Int64) :
    Accounted T held p (sysGetdents64 M.counted fd ubuf len) := by
  rw [sysGetdents64]
  exact fget_bind hp fun k hk => throughOps_sound hp hk fun ops flags hops =>
    sysGetdents64_onHost besideRings_kept hops ubuf _

theorem sysFtruncate_sound (hp : Sound T held p) (fd : ℤ) (size : Int64) :
    Accounted T held p (sysFtruncate M.counted fd size) := by
  rw [sysFtruncate]
  exact fget_bind hp fun k hk => throughOps_sound hp hk fun ops flags hops => sysFtruncate_onHost hops flags _

theorem sysFsync_sound (hp : Sound T held p) (fd : ℤ) : Accounted T held p (sysFsync M.counted fd) := by
  rw [sysFsync]
  exact fget_bind hp fun k hk =>
    then_pure (onHost_sound hp (fsyncOf_holds fun _ hn => hp.mem_handles hk hn)) trivial

theorem sysFstat_sound (hp : Sound T held p) (fd : ℤ) (ust : UInt64) :
    Accounted T held p (sysFstat M.counted fd ust) := by
  rw [sysFstat]
  refine fget_bind hp fun self hself => ?_
  refine (onHost_sound hp (vfsFstat_holds (fun _ hn => hp.mem_handles hself hn) _ _)).bind fun k q _ hq _ => ?_
  exact then_pure (copyOut_sound hq ust _) trivial

/-- `vfs_pipe` makes a description of each end, and leaves a reference to each with its caller. -/
theorem vfsPipe_bind (hp : Sound T held p) {flags : UInt32} {g : ℕ × ℕ → Sys (η × ℕ) (σ × Ledger) α} {R : α → Prop}
    (hg : ∀ rd q, Sound T ((rd + 1) :: rd :: held) q → KeepsAt (Sound T held) q (g (rd, rd + 1)) R) :
    KeepsAt (Sound T held) p (vfsPipe M.counted flags >>= g) R := by
  have hasked (q : Task (η × ℕ) (σ × Ledger)) (hq : Sound T held q) :
      Sound T held (q.withHost (M.counted.store.alloc q.host).2) :=
    hq.withHost (offLedger_holds M.store.alloc q.host hq.handles)
  rw [vfsPipe, bind_assoc]
  refine (alloc_sound hp).bind fun _ q _ hq _ => ?_
  simp only [bind_assoc]
  refine look_bind (change_bind (lift_bind (lift_bind ?_)))
  have hq₂ := hasked _ (hasked q hq)
  split_ifs
  · rw [bind_assoc]
    exact change_bind ((keepsAt_throw (R := fun _ => False) hq₂.ringDrop).bind fun _ _ _ _ hf => hf.elim)
  · simp only [bind_assoc, pure_bind]
    refine look_bind (change_bind ?_)
    exact hg _ _ (hq₂.pipeEnds flags)

theorem pipe2Answer_sound (hp : Sound T held p) (ufds : UInt64) (fd₀ fd₁ : Except Errno ℤ) :
    Accounted T held p (pipe2Answer M.counted ufds fd₀ fd₁) := by
  cases fd₀ with
  | error e => exact keepsAt_throw hp
  | ok fd₀ =>
      cases fd₁ with
      | error e => exact change_bind (keepsAt_throw (hp.fdClose fd₀))
      | ok fd₁ =>
          rw [pipe2Answer]
          refine (copyOut_sound hp ufds _).attempt.bind fun r q _ hq _ => ?_
          split_ifs
          · exact keepsAt_pure hq trivial
          · exact change_bind (change_bind (keepsAt_throw ((hq.fdClose fd₀).fdClose fd₁)))

theorem pipe2Install_sound {rd wr : ℕ} (hp : Sound T (wr :: rd :: held) p) (ufds : UInt64) (cloexec : Bool) :
    Accounted T held p (pipe2Install M.counted rd wr ufds cloexec) := by
  have hput {q : Task (η × ℕ) (σ × Ledger)} (hq : Sound T (wr :: rd :: held) q) (fd₀ fd₁ : Except Errno ℤ) :
      Accounted T held q (do
        change fun p => p.filePut M.counted rd
        change fun p => p.filePut M.counted wr
        pipe2Answer M.counted ufds fd₀ fd₁) :=
    change_bind (change_bind (pipe2Answer_sound (hq.perm (.swap rd wr held)).filePut.filePut ufds fd₀ fd₁))
  have hrd := hp.fds.counted.pos_of_held (List.mem_cons_of_mem wr List.mem_cons_self)
  rw [pipe2Install]
  refine attempt_fds_bind ?_
  have hfirst := hp.fdInstall hrd cloexec 0
  cases (p.fdt.fdInstall rd cloexec 0).1 with
  | error e =>
      rw [secondSlot, pure_bind]
      exact hput hfirst _ _
  | ok fd₀ =>
      have hwr := hfirst.fds.counted.pos_of_held List.mem_cons_self
      rw [secondSlot]
      refine attempt_fds_bind ?_
      exact hput (hfirst.fdInstall hwr cloexec 0) _ _

theorem sysPipe2_sound (hp : Sound T held p) (ufds : UInt64) (flags : UInt32) :
    Accounted T held p (sysPipe2 M.counted ufds flags) := by
  rw [sysPipe2]
  split_ifs
  · exact keepsAt_throw hp
  · exact vfsPipe_bind hp fun rd q hq => pipe2Install_sound hq ufds _

section Paths

theorem pathOrNone_bind (hp : Sound T held p) {upath : UInt64} {g : Bytes → Sys (η × ℕ) (σ × Ledger) α} {R : α → Prop}
    (hg : ∀ path, KeepsAt (Sound T held) p (g path) R) :
    KeepsAt (Sound T held) p (pathOrNone M.counted upath >>= g) R := by
  rw [pathOrNone]
  split_ifs
  · exact hg []
  · exact orFail_bind hp fun path _ => hg path

variable (hT : InPlace T)

include hT

omit hT in
theorem fstatatOf_sound (hp : Sound T held p) (dirfd : ℤ) {base : Option Bytes} (hbase : Canonical (base.getD p.fs.cwd))
    (path : Bytes) (flags : UInt32) : Accounted T held p (fstatatOf M.counted dirfd base path flags) := by
  rw [fstatatOf]
  split_ifs
  · exact vfs_sound hp (counted_vfsStat hp.rootsHeld hbase path _)
  · exact fget_bind hp fun self hself =>
      onHost_sound hp (vfsFstat_holds (fun _ hn => hp.mem_handles hself hn) _ _)
  · exact keepsAt_throw hp

theorem sysFstatat_sound (hp : Sound T held p) (dirfd : ℤ) (upath ust : UInt64) (flags : UInt32)
    (statx : Option UInt32) : Accounted T held p (sysFstatat M.counted dirfd upath ust flags statx) := by
  rw [sysFstatat]
  refine pathOrNone_bind hp fun path => baseOf_bind hT hp fun base hbase => ?_
  refine (fstatatOf_sound hp dirfd hbase path flags).bind fun k q _ hq _ => ?_
  exact then_pure (copyOut_sound hq ust _) trivial

theorem sysFaccessat_sound (hp : Sound T held p) (dirfd : ℤ) (upath : UInt64) (mode flags : UInt32) :
    Accounted T held p (sysFaccessat M.counted dirfd upath mode flags) := by
  rw [sysFaccessat]
  refine orFail_bind hp fun path _ => ?_
  split_ifs
  · exact keepsAt_throw hp
  · exact baseOf_bind hT hp fun base hbase =>
      then_pure (vfs_sound hp (counted_vfsAccess hp.rootsHeld hbase path mode _)) trivial

theorem sysReadlinkat_sound (hp : Sound T held p) (dirfd : ℤ) (upath ubuf : UInt64) (cap : Int64) :
    Accounted T held p (sysReadlinkat M.counted dirfd upath ubuf cap) := by
  rw [sysReadlinkat]
  refine orFail_bind hp fun path _ => ?_
  by_cases hcap : cap ≤ 0
  · rw [if_pos hcap]
    exact keepsAt_throw hp
  rw [if_neg hcap]
  refine baseOf_bind hT hp fun base hbase => ?_
  by_cases hempty : path = []
  · rw [if_pos hempty]
    exact keepsAt_throw hp
  rw [if_neg hempty]
  refine (vfs_sound hp (counted_vfsReadlink hp.rootsHeld hbase path)).bind fun target q _ hq _ => ?_
  exact then_pure (copyOut_sound hq ubuf _) trivial

theorem sysSymlinkat_sound (hp : Sound T held p) (utarget : UInt64) (dirfd : ℤ) (upath : UInt64) :
    Accounted T held p (sysSymlinkat M.counted utarget dirfd upath) := by
  rw [sysSymlinkat]
  refine orFail_bind hp fun target _ => orFail_bind hp fun path _ => baseOf_bind hT hp fun base hbase => ?_
  exact then_pure (vfs_sound hp (counted_vfsSymlink hp.rootsHeld target hbase path)) trivial

omit hT in
theorem linkatOldOf_bind (hp : Sound T held p) {odirfd : ℤ} {base : Option Bytes} {old : Bytes} {flags : UInt32}
    (hbase : Canonical (base.getD p.fs.cwd)) {g : Option Bytes × Bytes → Sys (η × ℕ) (σ × Ledger) α} {R : α → Prop}
    (hg : ∀ src, Canonical (src.1.getD p.fs.cwd) → KeepsAt (Sound T held) p (g src) R) :
    KeepsAt (Sound T held) p (linkatOldOf odirfd base old flags >>= g) R := by
  rw [linkatOldOf]
  split_ifs
  · exact hg (base, old) hbase
  · rw [bind_assoc]
    refine selfOf_bind hp fun self _ => ?_
    exact look_bind (hg _ hp.cwd)
  · exact (keepsAt_throw (R := fun _ => False) hp).bind fun _ _ _ _ hf => hf.elim

theorem sysLinkat_sound (hp : Sound T held p) (odirfd : ℤ) (uold : UInt64) (ndirfd : ℤ) (unew : UInt64)
    (flags : UInt32) : Accounted T held p (sysLinkat M.counted odirfd uold ndirfd unew flags) := by
  rw [sysLinkat]
  refine orFail_bind hp fun old _ => orFail_bind hp fun new _ => ?_
  split_ifs
  · exact keepsAt_throw hp
  refine baseOf_bind hT hp fun base hbase => linkatOldOf_bind hp hbase fun src hsrc => ?_
  refine baseOf_bind hT hp fun dst hdst => ?_
  exact then_pure (vfs_sound hp (counted_vfsLink hp.rootsHeld hsrc hdst src.2 new _)) trivial

theorem sysUnlinkat_sound (hp : Sound T held p) (dirfd : ℤ) (upath : UInt64) (flags : UInt32) :
    Accounted T held p (sysUnlinkat M.counted dirfd upath flags) := by
  rw [sysUnlinkat]
  refine orFail_bind hp fun path _ => ?_
  split_ifs
  · exact keepsAt_throw hp
  · exact baseOf_bind hT hp fun base hbase =>
      then_pure (vfs_sound hp (counted_vfsUnlink hp.rootsHeld hbase path _)) trivial

theorem sysRenameat2_sound (hp : Sound T held p) (odirfd : ℤ) (uold : UInt64) (ndirfd : ℤ) (unew : UInt64)
    (flags : UInt32) : Accounted T held p (sysRenameat2 M.counted odirfd uold ndirfd unew flags) := by
  rw [sysRenameat2]
  refine orFail_bind hp fun old _ => orFail_bind hp fun new _ => ?_
  refine baseOf_bind hT hp fun ob hob => baseOf_bind hT hp fun nb hnb => ?_
  exact then_pure (vfs_sound hp (counted_vfsRename hp.rootsHeld hob hnb old new flags)) trivial

theorem withPath_sound (hp : Sound T held p) (dirfd : ℤ) (upath : UInt64)
    {act : Kernel (η × ℕ) (σ × Ledger) → FsCtx (η × ℕ) → Option Bytes → Bytes → Call Errno (σ × Ledger) Unit}
    (hact : ∀ base path, Canonical (base.getD p.fs.cwd) →
      Keeps (Holds (p.handles T)) (act (countedKernel M.store (p.view M.counted) M.frame) p.fs base path)
        fun _ => True) :
    Accounted T held p (withPath M.counted dirfd upath act) := by
  rw [withPath]
  refine orFail_bind hp fun path _ => baseOf_bind hT hp fun base hbase => ?_
  exact then_pure (vfs_sound hp (hact base path hbase)) trivial

theorem sysMkdirat_sound (hp : Sound T held p) (dirfd : ℤ) (upath : UInt64) (mode : UInt32) :
    Accounted T held p (sysMkdirat M.counted dirfd upath mode) :=
  withPath_sound hT hp dirfd upath fun _ path hbase => counted_vfsMkdir hp.rootsHeld hbase path mode

theorem sysMknodat_sound (hp : Sound T held p) (dirfd : ℤ) (upath : UInt64) (mode : UInt32) (dev : UInt64) :
    Accounted T held p (sysMknodat M.counted dirfd upath mode dev) :=
  withPath_sound hT hp dirfd upath fun _ path hbase => counted_vfsMknod hp.rootsHeld hbase path mode _ _

theorem sysFchmodat_sound (hp : Sound T held p) (dirfd : ℤ) (upath : UInt64) (mode : UInt32) :
    Accounted T held p (sysFchmodat M.counted dirfd upath mode) :=
  withPath_sound hT hp dirfd upath fun _ path hbase =>
    counted_withAttr hp.rootsHeld hbase path true fun h => counted_chmodHandle h mode

omit hT in
theorem withSelf_sound (hp : Sound T held p) (hk : 0 < (p.fdt.heap k).refs)
    {act : Kernel (η × ℕ) (σ × Ledger) → FsCtx (η × ℕ) → OpenFile (η × ℕ) → Call Errno (σ × Ledger) Unit}
    (hact : ∀ f : OpenFile (η × ℕ), (∀ n ∈ f.handles, n ∈ p.handles T) →
      Keeps (Holds (p.handles T)) (act (countedKernel M.store (p.view M.counted) M.frame) p.fs f) fun _ => True) :
    Accounted T held p (withSelf M.counted k act) := by
  rw [withSelf]
  refine orFail_bind hp fun f hf => then_pure (vfs_sound hp (hact f fun n hn => hp.mem_handles hk ?_)) trivial
  cases hfile : p.file k with
  | opened g =>
      rw [hfile] at hf
      cases hf
      exact hn
  | pipe ino =>
      rw [hfile] at hf
      cases hf
  | console =>
      rw [hfile] at hf
      cases hf

omit hT in
theorem sysFchmod_sound (hp : Sound T held p) (fd : ℤ) (mode : UInt32) :
    Accounted T held p (sysFchmod M.counted fd mode) := by
  rw [sysFchmod]
  exact fget_bind hp fun k hk => withSelf_sound hp hk fun f hf =>
    counted_withReopened hf fun h => counted_chmodHandle h mode

omit hT in
theorem sysFchown_sound (hp : Sound T held p) (fd : ℤ) (uid gid : UInt32) :
    Accounted T held p (sysFchown M.counted fd uid gid) := by
  rw [sysFchown]
  exact fget_bind hp fun k hk => withSelf_sound hp hk fun f hf =>
    counted_withReopened hf fun h => counted_chownHandle h uid gid

theorem sysFchownat_sound (hp : Sound T held p) (dirfd : ℤ) (upath : UInt64) (uid gid flags : UInt32) :
    Accounted T held p (sysFchownat M.counted dirfd upath uid gid flags) := by
  rw [sysFchownat]
  refine orFail_bind hp fun path _ => ?_
  by_cases hflags : flags &&& ~~~(AT_SYMLINK_NOFOLLOW ||| AT_EMPTY_PATH) ≠ 0
  · rw [if_pos hflags]
    exact keepsAt_throw hp
  rw [if_neg hflags]
  refine baseOf_bind hT hp fun base hbase => ?_
  split_ifs
  · exact then_pure (vfs_sound hp (counted_withAttr hp.rootsHeld hbase path _ fun h => counted_chownHandle h uid gid))
      trivial
  · exact selfOf_bind hp fun self hself => withSelf_sound hp hself fun f hf =>
      counted_withReopened hf fun h => counted_chownHandle h uid gid
  · exact keepsAt_throw hp

omit hT in
theorem utimesIn_sound (hp : Sound T held p) (utimes : UInt64) : Accounted T held p (utimesIn M.counted utimes) := by
  rw [utimesIn]
  split_ifs
  · exact keepsAt_pure hp trivial
  · refine (copyIn_sound hp utimes 32).bind fun ts q _ hq _ => ?_
    exact (Keeps.liftExcept _).mono (fun _ _ => trivial) q hq

theorem sysUtimensat_sound (hp : Sound T held p) (dirfd : ℤ) (upath utimes : UInt64) (flags : UInt32) :
    Accounted T held p (sysUtimensat M.counted dirfd upath utimes flags) := by
  rw [sysUtimensat]
  by_cases hflags : flags &&& ~~~AT_SYMLINK_NOFOLLOW ≠ 0
  · rw [if_pos hflags]
    exact keepsAt_throw hp
  rw [if_neg hflags]
  refine (utimesIn_sound hp utimes).bind fun times q _ hq _ => ?_
  by_cases hpath : upath ≠ 0
  · rw [if_pos hpath]
    refine orFail_bind hq fun path _ => baseOf_bind hT hq fun base hbase => ?_
    split_ifs
    · exact keepsAt_throw hq
    · exact then_pure (vfs_sound hq (counted_withAttr hq.rootsHeld hbase path _ fun h =>
        onHandles_keeps (by simp) _)) trivial
  · rw [if_neg hpath]
    exact fget_bind hq fun k hk => withSelf_sound hq hk fun f hf =>
      counted_withReopened hf fun h => onHandles_keeps (by simp) _

omit hT in
theorem sysTruncate_sound (hp : Sound T held p) (upath : UInt64) (size : Int64) :
    Accounted T held p (sysTruncate M.counted upath size) := by
  rw [sysTruncate]
  refine orFail_bind hp fun path _ => ?_
  split_ifs
  · exact keepsAt_throw hp
  · have hcwd : Canonical ((none : Option Bytes).getD p.fs.cwd) := hp.cwd
    exact then_pure (vfs_sound hp (counted_vfsTruncate hp.rootsHeld hcwd path _)) trivial

omit hT in
theorem setCwd_sound (hp : Sound T held p) {cwd : Bytes} (hcwd : Canonical cwd) : Accounted T held p (setCwd cwd) :=
  change_sound (hp.setFs rfl hcwd)

omit hT in
theorem chdir_canonical (hp : Sound T held p) (path : Bytes) :
    Keeps (Holds (p.handles T)) (vfsChdir (countedKernel M.store (p.view M.counted) M.frame) p.fs none path)
      Canonical := by
  have hcwd : Canonical ((none : Option Bytes).getD p.fs.cwd) := hp.cwd
  rw [vfsChdir]
  refine (counted_walkPath hp.rootsHeld hcwd path _).bind fun loc hloc => ?_
  refine (counted_statAbs hp.rootsHeld loc.abs).bind fun st _ => ?_
  exact (Keeps.liftExcept _).bind fun _ _ => Keeps.pure hloc.1

omit hT in
theorem sysChdir_sound (hp : Sound T held p) (upath : UInt64) : Accounted T held p (sysChdir M.counted upath) := by
  rw [sysChdir]
  refine orFail_bind hp fun path _ => ?_
  refine (vfs_sound hp (chdir_canonical hp path)).bind fun cwd q _ hq hcwd => ?_
  exact then_pure (setCwd_sound hq hcwd) trivial

omit hT in
/-- What `vfs_fchdir` takes has a canonical path, even where it is not of a directory. -/
theorem fchdir_canonical {U : MountTable η} (hU : InPlace U) {d : OpenDescription η} (hmade : d.Made U) {cwd : Bytes}
    (h : vfsFchdir d = .ok cwd) : Canonical cwd := by
  obtain ⟨rfl, hkind⟩ := vfsFchdir_ok_iff.mp h
  cases d with
  | pipe ino => exact hkind.elim nofun nofun
  | console => exact hkind.elim nofun nofun
  | opened f =>
      have hsound := hmade.sound hU
      cases f with
      | host h kind kept path m =>
          refine hsound ?_
          cases kind with
          | hostdir => rfl
          | host => exact hkind.elim nofun nofun
          | symlink => exact hkind.elim nofun nofun
      | synth g kept path => cases g with
        | procDir d => exact hsound.1.canonical
        | procLink =>
            obtain ⟨cls, honproc, -⟩ := hsound
            exact honproc.canonical
        | procFile text => exact hsound.canonical
        | devDir => exact hkind.elim nofun nofun
        | devNode major minor => exact hkind.elim nofun nofun

theorem sysFchdir_sound (hp : Sound T held p) (fd : ℤ) : Accounted T held p (sysFchdir fd) := by
  rw [sysFchdir]
  refine fget_bind hp fun k hk => orFail_bind hp fun cwd hcwd => ?_
  exact then_pure (setCwd_sound hp (fchdir_canonical hT (hp.made k) hcwd)) trivial

omit hT in
theorem sysGetcwd_sound (hp : Sound T held p) (ubuf : UInt64) (cap : Int64) :
    Accounted T held p (sysGetcwd M.counted ubuf cap) := by
  rw [sysGetcwd]
  by_cases hcap : cap ≤ 0
  · rw [if_pos hcap]
    exact keepsAt_throw hp
  rw [if_neg hcap]
  refine orFail_bind hp fun cwd _ => ?_
  split_ifs
  · exact keepsAt_throw hp
  · exact then_pure (copyOut_sound hp ubuf cwd) trivial

omit hT in
theorem sysUmask_sound (hp : Sound T held p) (mask : UInt32) : Accounted T held p (sysUmask mask) := by
  rw [sysUmask]
  refine look_bind ?_
  exact then_pure (change_sound (hp.setFs rfl hp.cwd)) trivial

theorem sysOpenat_sound (hp : Sound T held p) (dirfd : ℤ) (upath : UInt64) (flags mode : UInt32) :
    Accounted T held p (sysOpenat M.counted dirfd upath flags mode) := by
  rw [sysOpenat]
  refine orFail_bind hp fun path _ => baseOf_bind hT hp fun base hbase => ?_
  split_ifs
  · exact keepsAt_throw hp
  refine onHost_bind (vfsOpen_ends hp.rootsHeld hbase path flags mode) hp.handles (fun x hx => hp.withHost hx) ?_
  intro f x hopen hx
  refine look_bind (change_bind (attempt_fds_bind (change_bind ?_)))
  have hnew : Sound T (p.fdt.next :: held) ((p.withHost x).fileNew f.made.1 f.made.2 (.opened f) 0) :=
    hp.fileNew (.opened hp.table hbase hopen) rfl hx f.made.1 f.made.2 0
  have hpos := hnew.fds.counted.pos_of_held List.mem_cons_self
  have hput := (hnew.fdInstall hpos (has flags O_CLOEXEC) 0).filePut (M := M)
  exact map_kept _ ((Keeps.liftExcept _).mono (fun _ _ => trivial) _ hput)

end Paths

end Calls

end Task

end SysvNt
