import SysvNt.TaskRuns

/-!
# System calls on the table of descriptors

On the table a system call is one of the table's own calls, or none: what it opened, whether a pipe could be
made and its numbers copied out, and where a position came to are what the table does not know. So the answers
of the process are those of the table, and what a failed call has done there is undone.
-/

namespace SysvNt

open FallibleCalls FdState FileOps

variable {η σ ν α β : Type}

namespace Task

def Leaves (view : Task η σ → ν) (m : Sys η σ α) : Prop := ∀ p, view (m.run p).2 = view p

section Leaving

variable {M : Platform η σ} {view : Task η σ → ν}

theorem Leaves.pure (a : α) : Leaves view (pure a : Sys η σ α) := fun _ => rfl

theorem Leaves.throw (e : Errno) : Leaves view (throw e : Sys η σ α) := fun _ => rfl

theorem Leaves.bind {m : Sys η σ α} {g : α → Sys η σ β} (hm : Leaves view m) (hg : ∀ a, Leaves view (g a)) :
    Leaves view (m >>= g) := by
  intro p
  have hp := hm p
  rw [run_bind]
  cases hrun : m.run p with
  | mk r q =>
      rw [hrun] at hp
      cases r with
      | error e => exact hp
      | ok a => exact (hg a q).trans hp

theorem Leaves.map {m : Sys η σ α} (f : α → β) (hm : Leaves view m) : Leaves view (f <$> m) := by
  rw [map_eq_pure_bind]
  exact hm.bind fun a => .pure (f a)

theorem Leaves.ite {c : Prop} [Decidable c] {m m' : Sys η σ α} (hm : Leaves view m) (hm' : Leaves view m') :
    Leaves view (if c then m else m') := by
  split_ifs
  · exact hm
  · exact hm'

theorem Leaves.orFail (f : Task η σ → Except Errno α) : Leaves view (Task.orFail f) := fun _ => rfl

theorem Leaves.look (f : Task η σ → α) : Leaves view (Task.look f) := fun _ => rfl

variable (hview : ∀ p x, view (p.withHost x) = view p)

include hview

theorem Leaves.onHost (m : Task η σ → Call Errno σ α) : Leaves view (Task.onHost m) := fun p => hview p _

theorem Leaves.copyOut (uaddr : UInt64) (b : Bytes) : Leaves view (Task.copyOut M uaddr b) := by
  rw [Task.copyOut]
  exact (Leaves.onHost hview _).bind fun ok => .ite (.pure _) (.throw _)

/-- A call of the host, and nothing after it. -/
theorem Leaves.done (m : Task η σ → Call Errno σ α) (b : β) : Leaves view (Task.onHost m >>= fun _ => Pure.pure b) :=
  (Leaves.onHost hview m).bind fun _ => .pure b

theorem Leaves.withPath (dirfd : ℤ) (upath : UInt64)
    (act : Kernel η σ → FsCtx η → Option Bytes → Bytes → Call Errno σ Unit) :
    Leaves view (Task.withPath M dirfd upath act) := by
  rw [Task.withPath]
  exact (Leaves.orFail _).bind fun path => (Leaves.orFail _).bind fun base => .done hview _ _

theorem Leaves.withSelf (k : ℕ) (act : Kernel η σ → FsCtx η → OpenFile η → Call Errno σ Unit) :
    Leaves view (Task.withSelf M k act) := by
  rw [Task.withSelf]
  exact (Leaves.orFail _).bind fun f => .done hview _ _

theorem sysFstatat_leaves (dirfd : ℤ) (upath ust : UInt64) (flags : UInt32) (statx : Option UInt32) :
    Leaves view (sysFstatat M dirfd upath ust flags statx) := by
  have hof (base : Option Bytes) (path : Bytes) : Leaves view (fstatatOf M dirfd base path flags) := by
    rw [fstatatOf]
    refine .ite (.onHost hview _) (.ite ?_ (.throw _))
    exact (Leaves.orFail _).bind fun self => .onHost hview _
  rw [sysFstatat, pathOrNone]
  refine (Leaves.ite (.pure _) (.orFail _)).bind fun path => (Leaves.orFail _).bind fun base => ?_
  exact (hof base path).bind fun k => (Leaves.copyOut hview _ _).bind fun _ => .pure _

theorem sysFstat_leaves (fd : ℤ) (ust : UInt64) : Leaves view (sysFstat M fd ust) := by
  rw [sysFstat]
  refine (Leaves.orFail _).bind fun self => (Leaves.onHost hview _).bind fun k => ?_
  exact (Leaves.copyOut hview _ _).bind fun _ => .pure _

theorem sysFaccessat_leaves (dirfd : ℤ) (upath : UInt64) (mode flags : UInt32) :
    Leaves view (sysFaccessat M dirfd upath mode flags) := by
  rw [sysFaccessat]
  refine (Leaves.orFail _).bind fun path => .ite (.throw _) ?_
  exact (Leaves.orFail _).bind fun base => .done hview _ _

theorem sysReadlinkat_leaves (dirfd : ℤ) (upath ubuf : UInt64) (cap : Int64) :
    Leaves view (sysReadlinkat M dirfd upath ubuf cap) := by
  rw [sysReadlinkat]
  refine (Leaves.orFail _).bind fun path => .ite (.throw _) ((Leaves.orFail _).bind fun base => .ite (.throw _) ?_)
  refine (Leaves.onHost hview _).bind fun target => ?_
  exact (Leaves.copyOut hview _ _).bind fun _ => .pure _

theorem sysSymlinkat_leaves (utarget : UInt64) (dirfd : ℤ) (upath : UInt64) :
    Leaves view (sysSymlinkat M utarget dirfd upath) := by
  rw [sysSymlinkat]
  refine (Leaves.orFail _).bind fun target => (Leaves.orFail _).bind fun path => ?_
  exact (Leaves.orFail _).bind fun base => .done hview _ _

theorem sysLinkat_leaves (odirfd : ℤ) (uold : UInt64) (ndirfd : ℤ) (unew : UInt64) (flags : UInt32) :
    Leaves view (sysLinkat M odirfd uold ndirfd unew flags) := by
  have hold (base : Option Bytes) (old : Bytes) :
      Leaves view (linkatOldOf odirfd base old flags : Sys η σ (Option Bytes × Bytes)) := by
    rw [linkatOldOf]
    refine .ite (.pure _) (.ite ?_ (.throw _))
    exact (Leaves.orFail _).bind fun self => .look _
  rw [sysLinkat]
  refine (Leaves.orFail _).bind fun old => (Leaves.orFail _).bind fun new => .ite (.throw _) ?_
  refine (Leaves.orFail _).bind fun base => (hold base old).bind fun src => ?_
  exact (Leaves.orFail _).bind fun dst => .done hview _ _

theorem sysUnlinkat_leaves (dirfd : ℤ) (upath : UInt64) (flags : UInt32) :
    Leaves view (sysUnlinkat M dirfd upath flags) := by
  rw [sysUnlinkat]
  refine (Leaves.orFail _).bind fun path => .ite (.throw _) ?_
  exact (Leaves.orFail _).bind fun base => .done hview _ _

theorem sysRenameat2_leaves (odirfd : ℤ) (uold : UInt64) (ndirfd : ℤ) (unew : UInt64) (flags : UInt32) :
    Leaves view (sysRenameat2 M odirfd uold ndirfd unew flags) := by
  rw [sysRenameat2]
  refine (Leaves.orFail _).bind fun old => (Leaves.orFail _).bind fun new => ?_
  exact (Leaves.orFail _).bind fun ob => (Leaves.orFail _).bind fun nb => .done hview _ _

theorem sysFsync_leaves (fd : ℤ) : Leaves view (sysFsync M fd) := by
  rw [sysFsync]
  exact (Leaves.orFail _).bind fun k => .done hview _ _

theorem sysFchmod_leaves (fd : ℤ) (mode : UInt32) : Leaves view (sysFchmod M fd mode) := by
  rw [sysFchmod]
  exact (Leaves.orFail _).bind fun k => .withSelf hview _ _

theorem sysFchown_leaves (fd : ℤ) (uid gid : UInt32) : Leaves view (sysFchown M fd uid gid) := by
  rw [sysFchown]
  exact (Leaves.orFail _).bind fun k => .withSelf hview _ _

theorem sysFchownat_leaves (dirfd : ℤ) (upath : UInt64) (uid gid flags : UInt32) :
    Leaves view (sysFchownat M dirfd upath uid gid flags) := by
  rw [sysFchownat]
  refine (Leaves.orFail _).bind fun path => .ite (.throw _) ((Leaves.orFail _).bind fun base => ?_)
  refine .ite (.done hview _ _) (.ite ?_ (.throw _))
  exact (Leaves.orFail _).bind fun self => .withSelf hview _ _

theorem sysUtimensat_leaves (dirfd : ℤ) (upath utimes : UInt64) (flags : UInt32) :
    Leaves view (sysUtimensat M dirfd upath utimes flags) := by
  have htimes : Leaves view (utimesIn M utimes) := by
    rw [utimesIn]
    exact .ite (.pure _) ((Leaves.onHost hview _).bind fun ts => .orFail fun _ => _)
  rw [sysUtimensat]
  refine .ite (.throw _) (htimes.bind fun times => .ite ?_ ?_)
  · refine (Leaves.orFail _).bind fun path => (Leaves.orFail _).bind fun base => .ite (.throw _) ?_
    exact .done hview _ _
  · exact (Leaves.orFail _).bind fun k => .withSelf hview _ _

theorem sysTruncate_leaves (upath : UInt64) (size : Int64) : Leaves view (sysTruncate M upath size) := by
  rw [sysTruncate]
  exact (Leaves.orFail _).bind fun path => .ite (.throw _) (.done hview _ _)

theorem sysGetcwd_leaves (ubuf : UInt64) (cap : Int64) : Leaves view (sysGetcwd M ubuf cap) := by
  rw [sysGetcwd]
  refine .ite (.throw _) ((Leaves.orFail _).bind fun cwd => .ite (.throw _) ?_)
  exact (Leaves.copyOut hview _ _).bind fun _ => .pure _

end Leaving

section Context

variable (M : Platform η σ)

variable {view : Task η σ → ν} (hview : ∀ p x, view (p.withHost x) = view p)
  (hset : ∀ (p : Task η σ) fs, view { p with fs := fs } = view p)

include hset

theorem sysUmask_leaves (mask : UInt32) : Leaves view (sysUmask mask : Sys η σ Int64) := fun p => hset p _

theorem setCwd_leaves (cwd : Bytes) : Leaves view (setCwd cwd : Sys η σ Unit) := fun p => hset p _

theorem sysFchdir_leaves (fd : ℤ) : Leaves view (sysFchdir fd : Sys η σ Int64) := by
  rw [sysFchdir]
  refine (Leaves.orFail _).bind fun k => (Leaves.orFail _).bind fun cwd => ?_
  exact (setCwd_leaves hset cwd).bind fun _ => .pure _

include hview

theorem sysChdir_leaves (upath : UInt64) : Leaves view (sysChdir M upath) := by
  rw [sysChdir]
  refine (Leaves.orFail _).bind fun path => (Leaves.onHost hview _).bind fun cwd => ?_
  exact (setCwd_leaves hset cwd).bind fun _ => .pure _

end Context

end Task

def SysCall.moves : SysCall → Option ℤ
  | .read fd _ _ | .write fd _ _ | .pread64 fd _ _ _ | .pwrite64 fd _ _ _ | .readvWritev fd _ _ _ | .lseek fd _ _
  | .getdents64 fd _ _ | .ftruncate fd _ => some fd
  | _ => none

inductive SysCall.Is : SysCall → FdCall → Prop where
  | openAt {dirfd upath flags mode made} : Is (.openat dirfd upath flags mode) (.openAt flags made)
  | close {fd} : Is (.close fd) (.close fd)
  | dup {fd} : Is (.dup fd) (.dup fd)
  | dup2 {oldfd newfd} : Is (.dup2 oldfd newfd) (.dup2 oldfd newfd)
  | dup3 {oldfd newfd flags} : Is (.dup3 oldfd newfd flags) (.dup3 oldfd newfd flags)
  | fcntl {fd cmd arg} : Is (.fcntl fd cmd arg) (.fcntl fd cmd arg.toInt)
  | pipe2 {ufds flags made copied} : Is (.pipe2 ufds flags) (.pipe2 flags made copied)
  | seek {c fd pos} (moves : c.moves = some fd) : Is c (.seek fd pos)

def SysCall.touches : SysCall → Bool
  | .openat .. | .close _ | .dup _ | .dup2 .. | .dup3 .. | .fcntl .. | .pipe2 .. => true
  | c => c.moves.isSome

def SysCall.setsFs : SysCall → Bool
  | .chdir _ | .fchdir _ | .umask _ => true
  | _ => false

namespace Task

/-- A call does to the table what the table's own does, and gives its answer. -/
def Does (p : Task η σ) (m : Sys η σ Int64) (fc : FdCall) : Prop :=
  (m.run p).1 = (p.fdt.call fc).1.map Int64.ofInt ∧ (m.run p).2.fdt = (p.fdt.call fc).2

/-- A call does no more to the table than to set the position behind a descriptor. -/
def Moves (p : Task η σ) (m : Sys η σ Int64) (fd : ℤ) : Prop :=
  ∃ pos, (m.run p).2.fdt = (p.fdt.call (.seek fd pos)).2

section Running

variable {p : Task η σ} {f : Task η σ → Except Errno α} {g : α → Sys η σ β}

theorem run_orFail_ok {a : α} (h : f p = .ok a) : (orFail f >>= g).run p = (g a).run p := by
  have hrun : (orFail f).run p = (f p, p) := rfl
  rw [run_bind, hrun, h]

theorem run_orFail_error {e : Errno} (h : f p = .error e) : (orFail f >>= g).run p = (.error e, p) := by
  have hrun : (orFail f).run p = (f p, p) := rfl
  rw [run_bind, hrun, h]

theorem run_fget_none {fd : ℤ} {g : ℕ → Sys η σ β} (h : p.fdt.fdGet fd = none) :
    (fget fd >>= g).run p = (.error .EBADF, p) := run_orFail_error (by rw [h])

theorem run_fget_some {fd : ℤ} {g : ℕ → Sys η σ β} {e : Slot × ℕ} (h : p.fdt.fdGet fd = some e) :
    (fget fd >>= g).run p = (g e.2).run p := run_orFail_ok (by rw [h])

theorem run_liftExcept (r : Except Errno α) : (liftM r : Sys η σ α).run p = (r, p) := by cases r <;> rfl

theorem run_map (f : α → β) (m : Sys η σ α) : (f <$> m).run p = ((m.run p).1.map f, (m.run p).2) := by
  rw [map_eq_pure_bind, run_bind]
  cases m.run p with
  | mk r q => cases r <;> rfl

end Running

section Moving

variable {M : Platform η σ} {p : Task η σ} {fd : ℤ}

/-- A position that is set to what it was. -/
theorem seek_still (t : FdState) (fd : ℤ) : ∃ pos, t = (t.call (.seek fd pos)).2 := by
  cases hget : t.fdGet fd with
  | none =>
      refine ⟨0, ?_⟩
      rw [FdState.call, FdState.through, hget]
  | some e =>
      have hsame : t.alter e.2 (fun d => { d with pos := (t.heap e.2).pos }) = t := by
        simp only [FdState.alter, Function.update_eq_self]
      refine ⟨(t.heap e.2).pos, ?_⟩
      rw [FdState.call, FdState.through, hget]
      exact hsame.symm

theorem Moves.throw (e : Errno) : Moves p (throw e) fd := seek_still p.fdt fd

/-- What goes through the description of a descriptor. -/
theorem Moves.fget_bind {g : ℕ → Sys η σ Int64}
    (hg : ∀ k, ∃ pos, ((g k).run p).2.fdt = p.fdt.alter k fun d => { d with pos := pos }) :
    Moves p (Task.fget fd >>= g) fd := by
  cases hget : p.fdt.fdGet fd with
  | none =>
      rw [Moves, run_fget_none hget]
      exact seek_still p.fdt fd
  | some e =>
      obtain ⟨pos, hpos⟩ := hg e.2
      refine ⟨pos, ?_⟩
      rw [run_fget_some hget, hpos, FdState.call, FdState.through, hget]

theorem throughOps_fdt (k : ℕ) (m : Table (σ × Rings) → UInt32 → Call Errno (FileOps.Live (σ × Rings)) ℕ) :
    ∃ pos, ((throughOps M k m).run p).2.fdt = p.fdt.alter k fun d => { d with pos := pos } := by
  rw [throughOps, run_map]
  exact ⟨_, rfl⟩

/-- A call that goes through a description may move it. -/
theorem perform_moves {c : SysCall} (hc : c.moves = some fd) (p : Task η σ) : Moves p (perform M c) fd := by
  cases c with
  | read fd ubuf len =>
      cases hc
      exact Moves.fget_bind fun k => throughOps_fdt k _
  | write fd ubuf len =>
      cases hc
      exact Moves.fget_bind fun k => throughOps_fdt k _
  | pread64 fd ubuf len off =>
      cases hc
      rw [perform, sysPread64]
      split_ifs
      · exact .throw _
      · exact Moves.fget_bind fun k => throughOps_fdt k _
  | pwrite64 fd ubuf len off =>
      cases hc
      rw [perform, sysPwrite64]
      split_ifs
      · exact .throw _
      · exact Moves.fget_bind fun k => throughOps_fdt k _
  | readvWritev fd uiov cnt writing =>
      cases hc
      exact Moves.fget_bind fun k => throughOps_fdt k _
  | lseek fd off whence =>
      cases hc
      exact Moves.fget_bind fun k => ⟨_, rfl⟩
  | getdents64 fd ubuf len =>
      cases hc
      exact Moves.fget_bind fun k => throughOps_fdt k _
  | ftruncate fd size =>
      cases hc
      exact Moves.fget_bind fun k => throughOps_fdt k _
  | _ => cases hc

end Moving

attribute [local irreducible] FdState.lowestFree

section Doing

variable {M : Platform η σ} {p : Task η σ}

theorem fdClose_table (M : Platform η σ) (p : Task η σ) (fd : ℤ) :
    (p.fdClose M fd).1 = (p.fdt.fdClose fd).1 ∧ (p.fdClose M fd).2.fdt = (p.fdt.fdClose fd).2 := by
  rw [Task.fdClose, FdState.fdClose]
  cases p.fdt.fdGet fd with
  | none => exact ⟨rfl, rfl⟩
  | some e => exact ⟨rfl, filePut_files M (p.unseat e.1) e.2⟩

theorem fdDup2_table (M : Platform η σ) (p : Task η σ) (oldfd newfd : ℤ) (cloexec : Bool) :
    (p.fdDup2 M oldfd newfd cloexec).1 = (p.fdt.fdDup2 oldfd newfd cloexec).1 ∧
      (p.fdDup2 M oldfd newfd cloexec).2.fdt = (p.fdt.fdDup2 oldfd newfd cloexec).2 := by
  rw [Task.fdDup2, FdState.fdDup2]
  cases p.fdt.fdGet oldfd with
  | none => exact ⟨rfl, rfl⟩
  | some e =>
      dsimp only
      cases slotOf newfd with
      | none => exact ⟨rfl, rfl⟩
      | some i =>
          dsimp only
          split_ifs
          · exact ⟨rfl, rfl⟩
          · refine ⟨rfl, ?_⟩
            rw [Task.reseat, Task.setFdt, Task.putOld]
            dsimp only [Task.setFdt]
            cases (p.fdt.fileGet e.2).files i with
            | none => rfl
            | some g =>
                dsimp only
                rw [filePut_files]

theorem onTable_answers {m : Task η σ → Except Errno ℤ × Task η σ} {t : Except Errno ℤ × FdState}
    (h : (m p).1 = t.1 ∧ (m p).2.fdt = t.2) :
    ((Int64.ofInt <$> onTable m).run p).1 = t.1.map Int64.ofInt ∧ ((Int64.ofInt <$> onTable m).run p).2.fdt = t.2 := by
  rw [run_map]
  exact ⟨congrArg (Except.map Int64.ofInt) h.1, h.2⟩

theorem onFds_does {m : FdState → Except Errno ℤ × FdState} {fc : FdCall} (h : m p.fdt = p.fdt.call fc) :
    Does p (Int64.ofInt <$> onFds m) fc := by
  rw [Does, run_map, ← h]
  exact ⟨rfl, rfl⟩

theorem sysClose_does (fd : ℤ) : Does p (sysClose M fd) (.close fd) := onTable_answers (fdClose_table M p fd)

theorem sysDup_does (fd : ℤ) : Does p (sysDup fd) (.dup fd) := onFds_does rfl

theorem sysFcntl_does (fd cmd : ℤ) (arg : Int64) : Does p (sysFcntl fd cmd arg) (.fcntl fd cmd arg.toInt) :=
  onFds_does rfl

theorem sysDup2_does (oldfd newfd : ℤ) : Does p (sysDup2 M oldfd newfd) (.dup2 oldfd newfd) := by
  rw [sysDup2]
  cases hget : p.fdt.fdGet oldfd with
  | none =>
      rw [Does, run_fget_none hget, FdState.call, FdState.sysDup2, hget]
      exact ⟨rfl, rfl⟩
  | some e =>
      rw [Does, run_fget_some hget, FdState.call, FdState.sysDup2, hget]
      dsimp only
      split_ifs
      · exact ⟨rfl, rfl⟩
      · exact onTable_answers (fdDup2_table M p oldfd newfd false)

theorem sysDup3_does (oldfd newfd : ℤ) (flags : UInt32) :
    Does p (sysDup3 M oldfd newfd flags) (.dup3 oldfd newfd flags) := by
  rw [sysDup3, Does, FdState.call, FdState.sysDup3]
  split_ifs
  · exact ⟨rfl, rfl⟩
  · exact ⟨rfl, rfl⟩
  · exact onTable_answers (fdDup2_table M p oldfd newfd (has flags O_CLOEXEC))

/-- An open, by what came of it outside of the table. -/
def Opens (p : Task η σ) (m : Sys η σ Int64) (flags : UInt32) : Prop := ∃ made, Does p m (.openAt flags made)

theorem Opens.throw (flags : UInt32) (e : Errno) : Opens p (throw e) flags := ⟨.error e, rfl, rfl⟩

theorem Opens.orFail_bind {flags : UInt32} {f : Task η σ → Except Errno α} {g : α → Sys η σ Int64}
    (hg : ∀ a, Opens p (g a) flags) : Opens p (orFail f >>= g) flags := by
  cases hf : f p with
  | error e =>
      refine ⟨.error e, ?_⟩
      rw [Does, run_orFail_error hf]
      exact ⟨rfl, rfl⟩
  | ok a =>
      obtain ⟨made, hdoes⟩ := hg a
      refine ⟨made, ?_⟩
      rw [Does, run_orFail_ok hf]
      exact hdoes

theorem Opens.onHost_bind {flags : UInt32} {m : Task η σ → Call Errno σ α} {g : α → Sys η σ Int64}
    (hg : ∀ a x, Opens (p.withHost x) (g a) flags) : Opens p (onHost m >>= g) flags := by
  have hrun : (onHost m).run p = (((m p).run p.host).1, p.withHost ((m p).run p.host).2) := rfl
  cases hm : (m p).run p.host with
  | mk r x =>
      rw [hm] at hrun
      cases r with
      | error e =>
          refine ⟨.error e, ?_⟩
          rw [Does, run_bind, hrun]
          exact ⟨rfl, rfl⟩
      | ok a =>
          obtain ⟨made, hdoes⟩ := hg a x
          refine ⟨made, ?_⟩
          rw [Does, run_bind, hrun]
          exact hdoes

theorem sysOpenat_opens (dirfd : ℤ) (upath : UInt64) (flags mode : UInt32) :
    Opens p (sysOpenat M dirfd upath flags mode) flags := by
  rw [sysOpenat]
  refine Opens.orFail_bind fun path => Opens.orFail_bind fun base => ?_
  split_ifs
  · exact .throw flags _
  refine Opens.onHost_bind fun f x => ⟨.ok f.made, ?_⟩
  let new := (p.withHost x).fileNew f.made.1 f.made.2 (.opened f) 0
  let t := new.fdt.fdInstall p.fdt.next (has flags O_CLOEXEC) 0
  change ((Int64.ofInt <$> (liftM t.1 : Sys η σ ℤ)).run ((new.setFdt t.2).filePut M p.fdt.next)).1 = _ ∧
    ((Int64.ofInt <$> (liftM t.1 : Sys η σ ℤ)).run ((new.setFdt t.2).filePut M p.fdt.next)).2.fdt = _
  rw [run_map, run_liftExcept, filePut_files]
  exact ⟨rfl, rfl⟩

/-- What is left of `sys_pipe2` on the table, after the slots. -/
theorem pipe2Answer_table (ufds : UInt64) (fd₀ fd₁ : ℤ) : ∃ copied : Bool,
    ((pipe2Answer M ufds (.ok fd₀) (.ok fd₁)).run p).1 = (if copied then .ok 0 else .error .EFAULT) ∧
      ((pipe2Answer M ufds (.ok fd₀) (.ok fd₁)).run p).2.fdt =
        if copied then p.fdt else ((p.fdt.fdClose fd₀).2.fdClose fd₁).2 := by
  have hcopy : Leaves (·.fdt) (copyOut M ufds (intBytes fd₀ ++ intBytes fd₁)) := .copyOut (fun _ _ => rfl) _ _
  have hleaves := hcopy p
  rw [pipe2Answer, run_bind, run_attempt]
  dsimp only at hleaves ⊢
  cases hok : ((copyOut M ufds (intBytes fd₀ ++ intBytes fd₁)).run p).1.isOk with
  | true =>
      refine ⟨true, ?_⟩
      rw [if_pos rfl]
      exact ⟨rfl, hleaves⟩
  | false =>
      refine ⟨false, ?_⟩
      rw [if_neg Bool.false_ne_true]
      refine ⟨rfl, ?_⟩
      rw [if_neg Bool.false_ne_true, ← hleaves]
      generalize ((copyOut M ufds (intBytes fd₀ ++ intBytes fd₁)).run p).2 = q
      change ((q.fdClose M fd₀).2.fdClose M fd₁).2.fdt = _
      rw [(fdClose_table M _ fd₁).2, (fdClose_table M q fd₀).2]

theorem pipe2Install_table (rd wr : ℕ) (ufds : UInt64) (cloexec : Bool) : ∃ copied,
    ((pipe2Install M rd wr ufds cloexec).run p).1 = ((p.fdt.pipe2Install rd wr cloexec copied).1).map Int64.ofInt ∧
      ((pipe2Install M rd wr ufds cloexec).run p).2.fdt = (p.fdt.pipe2Install rd wr cloexec copied).2 := by
  -- the table's call with the two slots asked for and the maker's references dropped
  have hput (t : FdState) : (((p.setFdt t).filePut M rd).filePut M wr).fdt = (t.filePut rd).filePut wr := by
    rw [filePut_files, filePut_files]
    rfl
  unfold pipe2Install FdState.pipe2Install
  cases hfirst : p.fdt.fdInstall rd cloexec 0 with
  | mk r₀ t₀ =>
      have hrun₀ : (attempt (onFds fun t => t.fdInstall rd cloexec 0) : Sys η σ (Except Errno ℤ)).run p =
          (.ok r₀, p.setFdt t₀) := by
        have hrun : (attempt (onFds fun t => t.fdInstall rd cloexec 0) : Sys η σ (Except Errno ℤ)).run p =
            (.ok (p.fdt.fdInstall rd cloexec 0).1, p.setFdt (p.fdt.fdInstall rd cloexec 0).2) := rfl
        rw [hrun, hfirst]
      rw [run_bind, hrun₀]
      cases r₀ with
      | error e =>
          refine ⟨true, rfl, ?_⟩
          exact hput t₀
      | ok fd₀ =>
          dsimp only
          cases hsecond : t₀.fdInstall wr cloexec 0 with
          | mk r₁ t₁ =>
              have hrun₁ : (secondSlot wr cloexec (.ok fd₀) : Sys η σ (Except Errno ℤ)).run (p.setFdt t₀) =
                  (.ok r₁, p.setFdt t₁) := by
                have hrun : (secondSlot wr cloexec (.ok fd₀) : Sys η σ (Except Errno ℤ)).run (p.setFdt t₀) =
                    (.ok (t₀.fdInstall wr cloexec 0).1, p.setFdt (t₀.fdInstall wr cloexec 0).2) := rfl
                rw [hrun, hsecond]
              rw [run_bind, hrun₁]
              let q := ((p.setFdt t₁).filePut M rd).filePut M wr
              change ∃ copied, ((pipe2Answer M ufds (.ok fd₀) r₁).run q).1 = _ ∧
                ((pipe2Answer M ufds (.ok fd₀) r₁).run q).2.fdt = _
              have hq : q.fdt = (t₁.filePut rd).filePut wr := hput t₁
              cases r₁ with
              | error e =>
                  refine ⟨true, rfl, ?_⟩
                  dsimp only
                  rw [← hq]
                  exact (fdClose_table M q fd₀).2
              | ok fd₁ =>
                  obtain ⟨copied, hret, hfdt⟩ := pipe2Answer_table (M := M) (p := q) ufds fd₀ fd₁
                  refine ⟨copied, ?_, ?_⟩
                  · rw [hret]
                    cases copied <;> rfl
                  · rw [hfdt, hq]
                    cases copied <;> rfl

theorem run_alloc (M : Platform η σ) (p : Task η σ) : (alloc M).run p =
    (if (M.store.alloc p.host).1 = true then .ok () else .error .ENOMEM, p.withHost (M.store.alloc p.host).2) := by
  have hrun : (onHost fun _ => liftM M.store.alloc : Sys η σ Bool).run p =
      (.ok (M.store.alloc p.host).1, p.withHost (M.store.alloc p.host).2) := rfl
  rw [alloc, run_bind, hrun]
  dsimp only
  split_ifs <;> rfl

def pipeMade (t : FdState) (flags : UInt32) : FdState :=
  ((t.fileNew FILE_KIND_PIPE (O_RDONLY ||| flags &&& O_NONBLOCK)).2.fileNew FILE_KIND_PIPE
    (O_WRONLY ||| flags &&& O_NONBLOCK)).2

/-- `vfs_pipe` makes both descriptions or none. -/
theorem vfsPipe_table (flags : UInt32) : ∃ q,
    ((vfsPipe M flags).run p = (.error .ENOMEM, q) ∧ q.fdt = p.fdt) ∨
      ((vfsPipe M flags).run p = (.ok (p.fdt.next, p.fdt.next + 1), q) ∧ q.fdt = pipeMade p.fdt flags) := by
  rw [vfsPipe, run_bind, run_alloc]
  by_cases hring : (M.store.alloc p.host).1 = true
  · rw [if_pos hring]
    dsimp only
    let v := (p.withHost (M.store.alloc p.host).2).ringNew
    let v₁ := v.withHost (M.store.alloc v.host).2
    let v₂ := v₁.withHost (M.store.alloc v₁.host).2
    cases hmem : !(M.store.alloc v.host).1 || !(M.store.alloc v₁.host).1 with
    | true =>
        refine ⟨v₂.ringDrop p.nextRing, .inl ⟨?_, rfl⟩⟩
        change (ite ((!(M.store.alloc v.host).1 || !(M.store.alloc v₁.host).1) = true) _ _ : Sys η σ (ℕ × ℕ)).run v₂ = _
        rw [if_pos hmem]
        rfl
    | false =>
        refine ⟨v₂.pipeEnds p.nextRing flags, .inr ⟨?_, rfl⟩⟩
        change (ite ((!(M.store.alloc v.host).1 || !(M.store.alloc v₁.host).1) = true) _ _ : Sys η σ (ℕ × ℕ)).run v₂ = _
        rw [if_neg (by rw [hmem]; decide)]
        rfl
  · rw [if_neg hring]
    exact ⟨_, .inl ⟨rfl, rfl⟩⟩

theorem sysPipe2_table (ufds : UInt64) (flags : UInt32) :
    ∃ made copied, Does p (sysPipe2 M ufds flags) (.pipe2 flags made copied) := by
  rw [sysPipe2]
  by_cases hflags : flags &&& ~~~(O_NONBLOCK ||| O_CLOEXEC) ≠ 0
  · refine ⟨true, true, ?_⟩
    rw [if_pos hflags, Does, FdState.call, FdState.sysPipe2, if_pos hflags]
    exact ⟨rfl, rfl⟩
  · rw [if_neg hflags]
    obtain ⟨q, ⟨hrun, hfdt⟩ | ⟨hrun, hfdt⟩⟩ := vfsPipe_table (M := M) (p := p) flags
    · refine ⟨false, true, ?_⟩
      rw [Does, run_bind, hrun, FdState.call, FdState.sysPipe2, if_neg hflags, if_pos rfl]
      exact ⟨rfl, hfdt⟩
    · obtain ⟨copied, hret, hinstall⟩ :=
        pipe2Install_table (M := M) (p := q) p.fdt.next (p.fdt.next + 1) ufds (has flags O_CLOEXEC)
      refine ⟨true, copied, ?_⟩
      rw [Does, run_bind, hrun, FdState.call, FdState.sysPipe2, if_neg hflags, if_neg (by decide)]
      rw [hfdt] at hret hinstall
      exact ⟨hret, hinstall⟩

/-- The system call is this call on the table, with its answer where the table has one. -/
structure OnTable (M : Platform η σ) (p : Task η σ) (c : SysCall) (fc : FdCall) : Prop where
  is : c.Is fc
  leaves : ((perform M c).run p).2.fdt = (p.fdt.call fc).2
  answers : c.moves = none → ((perform M c).run p).1 = (p.fdt.call fc).1.map Int64.ofInt

theorem Does.onTable {c : SysCall} {fc : FdCall} (h : Does p (perform M c) fc) (his : c.Is fc) : OnTable M p c fc :=
  ⟨his, h.2, fun _ => h.1⟩

/-- A system call that touches the table is one of the table's own calls there. -/
theorem perform_touches {c : SysCall} (hc : c.touches = true) (p : Task η σ) : ∃ fc, OnTable M p c fc := by
  cases hmoves : c.moves with
  | some fd =>
      obtain ⟨pos, hpos⟩ := perform_moves (M := M) hmoves p
      refine ⟨.seek fd pos, .seek hmoves, hpos, fun h => ?_⟩
      rw [hmoves] at h
      cases h
  | none =>
      cases c with
      | openat dirfd upath flags mode =>
          obtain ⟨made, h⟩ := sysOpenat_opens (M := M) (p := p) dirfd upath flags mode
          exact ⟨_, Does.onTable h .openAt⟩
      | close fd => exact ⟨_, Does.onTable (sysClose_does fd) .close⟩
      | dup fd => exact ⟨_, Does.onTable (sysDup_does fd) .dup⟩
      | dup2 oldfd newfd => exact ⟨_, Does.onTable (sysDup2_does oldfd newfd) .dup2⟩
      | dup3 oldfd newfd flags => exact ⟨_, Does.onTable (sysDup3_does oldfd newfd flags) .dup3⟩
      | fcntl fd cmd arg => exact ⟨_, Does.onTable (sysFcntl_does fd cmd arg) .fcntl⟩
      | pipe2 ufds flags =>
          obtain ⟨made, copied, h⟩ := sysPipe2_table (M := M) (p := p) ufds flags
          exact ⟨_, Does.onTable h .pipe2⟩
      | _ => cases hc <;> cases hmoves

/-- A call that neither touches the table nor sets the context works on the host, and leaves the rest. -/
theorem perform_leaves {ν : Type} {view : Task η σ → ν} (hview : ∀ p x, view (p.withHost x) = view p) {c : SysCall}
    (htouches : c.touches = false) (hsets : c.setsFs = false) : Leaves view (perform M c) := by
  cases c with
  | fstatat dirfd upath ust flags statx => exact sysFstatat_leaves hview dirfd upath ust flags statx
  | fstat fd ust => exact sysFstat_leaves hview fd ust
  | faccessat dirfd upath mode flags => exact sysFaccessat_leaves hview dirfd upath mode flags
  | fsync fd => exact sysFsync_leaves hview fd
  | truncate upath size => exact sysTruncate_leaves hview upath size
  | getcwd ubuf cap => exact sysGetcwd_leaves hview ubuf cap
  | renameat2 odirfd uold ndirfd unew flags => exact sysRenameat2_leaves hview odirfd uold ndirfd unew flags
  | mkdirat dirfd upath mode => exact .withPath hview dirfd upath _
  | unlinkat dirfd upath flags => exact sysUnlinkat_leaves hview dirfd upath flags
  | linkat odirfd uold ndirfd unew flags => exact sysLinkat_leaves hview odirfd uold ndirfd unew flags
  | symlinkat utarget dirfd upath => exact sysSymlinkat_leaves hview utarget dirfd upath
  | readlinkat dirfd upath ubuf cap => exact sysReadlinkat_leaves hview dirfd upath ubuf cap
  | fchmodat dirfd upath mode => exact .withPath hview dirfd upath _
  | fchmod fd mode => exact sysFchmod_leaves hview fd mode
  | fchownat dirfd upath uid gid flags => exact sysFchownat_leaves hview dirfd upath uid gid flags
  | fchown fd uid gid => exact sysFchown_leaves hview fd uid gid
  | utimensat dirfd upath utimes flags => exact sysUtimensat_leaves hview dirfd upath utimes flags
  | mknodat dirfd upath mode dev => exact .withPath hview dirfd upath _
  | getpid => exact .look _
  | getuid => exact .look _
  | geteuid => exact .look _
  | getgid => exact .look _
  | getegid => exact .look _
  | chdir upath => cases hsets
  | fchdir fd => cases hsets
  | umask mask => cases hsets
  | _ => cases htouches

/-- The system calls that do not touch the table leave all but the host and the context alone. -/
theorem perform_beside {view : Task η σ → ν} (hview : ∀ p x, view (p.withHost x) = view p)
    (hset : ∀ (p : Task η σ) fs, view { p with fs := fs } = view p) {c : SysCall} (hc : c.touches = false) :
    Leaves view (perform M c) := by
  cases hsets : c.setsFs with
  | false => exact perform_leaves hview hc hsets
  | true =>
      cases c with
      | chdir upath => exact sysChdir_leaves M hview hset upath
      | fchdir fd => exact sysFchdir_leaves hset fd
      | umask mask => exact sysUmask_leaves hset mask
      | _ => cases hsets

theorem perform_aside {c : SysCall} (hc : c.touches = false) : Leaves (·.fdt) (perform M c) :=
  perform_beside (fun _ _ => rfl) (fun _ _ => rfl) hc

end Doing

end Task

/-- The system call that an event is, if it is one, with its answer. -/
def TaskEvent.made (M : Platform η σ) (p : Task η σ) : TaskEvent σ → Option (SysCall × Except Errno Int64)
  | .outside _ => none
  | .call f =>
    if f.nr = NR_exit_group then none else f.call.map fun c => (c, ((Task.perform M c).run p).1)

namespace Task

def trace (M : Platform η σ) : Task η σ → List (TaskEvent σ) → List (SysCall × Except Errno Int64)
  | _, [] => []
  | p, e :: es => (e.made M p).toList ++ trace M (e.step M p) es

/-- The table's call and its answer account for the system call and its. -/
def Explains (x : SysCall × Except Errno Int64) (y : FdCall × Except Errno ℤ) : Prop :=
  x.1.Is y.1 ∧ (x.1.moves = none → x.2 = y.2.map Int64.ofInt)

section Runs

variable {M : Platform η σ}

/-- An event is a call on the table or leaves the table alone. -/
theorem step_table (M : Platform η σ) (p : Task η σ) (e : TaskEvent σ) :
    (∃ c fc, e.made M p = some (c, ((perform M c).run p).1) ∧ c.touches = true ∧ OnTable M p c fc ∧
      e.step M p = ((perform M c).run p).2) ∨
    ((e.made M p).toList.filter (fun x => x.1.touches) = [] ∧ (e.step M p).fdt = p.fdt) := by
  cases e with
  | outside change => exact .inr ⟨rfl, rfl⟩
  | call f =>
      rw [TaskEvent.made, TaskEvent.step, syscallDispatch, sysFsDispatch]
      by_cases hexit : f.nr = NR_exit_group
      · rw [if_pos hexit, if_pos hexit]
        exact .inr ⟨rfl, rfl⟩
      · rw [if_neg hexit, if_neg hexit]
        cases f.call with
        | none => exact .inr ⟨rfl, rfl⟩
        | some c =>
            cases hc : c.touches with
            | true =>
                obtain ⟨fc, hfc⟩ := perform_touches (M := M) hc p
                exact .inl ⟨c, fc, rfl, hc, hfc, rfl⟩
            | false =>
                refine .inr ⟨?_, perform_aside hc p⟩
                exact List.filter_eq_nil_iff.mpr (by simp [hc])

/-- A run of the process is, on the table, a run of the table's calls, with the answers that the process has got. -/
theorem table_explains (M : Platform η σ) (p : Task η σ) (es : List (TaskEvent σ)) :
    ∃ h : List (FdCall × Except Errno ℤ),
      ActionRuns.run (fun t fc => some (t.call fc)) p.fdt (h.map Prod.fst) = some (h, (p.after M es).fdt) ∧
        List.Forall₂ Explains ((p.trace M es).filter fun x => x.1.touches) h := by
  induction es generalizing p with
  | nil => exact ⟨[], rfl, .nil⟩
  | cons e es ih =>
      obtain ⟨h, hrun, hall⟩ := ih (e.step M p)
      rw [trace, List.filter_append]
      rcases step_table M p e with ⟨c, fc, hmade, hc, hfc, hstep⟩ | ⟨hmade, hfdt⟩
      · refine ⟨(fc, (p.fdt.call fc).1) :: h, ?_, ?_⟩
        · have hcall : some (p.fdt.call fc) = some ((p.fdt.call fc).1, (e.step M p).fdt) := by
            rw [hstep, hfc.leaves]
          exact ActionRuns.run_of_step hcall hrun
        · have hone : ((e.made M p).toList.filter fun x => x.1.touches) = [(c, ((perform M c).run p).1)] := by
            rw [hmade]
            simp [hc]
          rw [hone]
          exact .cons ⟨hfc.is, hfc.answers⟩ hall
      · rw [hmade, List.nil_append, ← hfdt]
        exact ⟨h, hrun, hall⟩

end Runs

end Task

end SysvNt
