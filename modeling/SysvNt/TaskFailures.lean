import SysvNt.SparedDescriptions

/-!
# Calls that fail

A system call that fails has opened and closed no descriptor, moved no mark and left the context of the process as
it was; a description that it has made is released again. What it may leave is behind the description that it went
through: a position, the reader of a directory, the bytes of a pipe.
-/

namespace SysvNt

open FallibleCalls FdState FileOps

variable {η σ α : Type}

/-- The table is as it was, and of the descriptions made since nothing is left. -/
structure FdState.Undone (t u : FdState) : Prop where
  files : u.files = t.files
  cloexec : u.cloexec = t.cloexec
  kept : ∀ k < t.next, u.heap k = t.heap k
  gone : ∀ k, t.next ≤ k → k < u.next → (u.heap k).Gone

namespace FdState

attribute [local irreducible] lowestFree

variable {t : FdState}

theorem Undone.refl (t : FdState) : Undone t t :=
  ⟨rfl, rfl, fun _ _ => rfl, fun _ hle hlt => absurd hlt (Nat.not_lt.mpr hle)⟩

/-- An install that fails leaves the table. -/
theorem fdInstall_failed {k : ℕ} {cloexec : Bool} {min : ℤ} {e : Errno} (h : (t.fdInstall k cloexec min).1 = .error e) :
    (t.fdInstall k cloexec min).2 = t := by
  rw [fdInstall] at h ⊢
  by_cases hmin : min < 0
  · rw [if_pos hmin]
  · rw [if_neg hmin] at h ⊢
    cases hfree : t.lowestFree min.toNat with
    | none => rfl
    | some i =>
        rw [hfree] at h
        cases h

theorem sysOpen_undone {flags : UInt32} {made : Except Errno (ℕ × UInt32)} {e : Errno}
    (h : (t.sysOpen flags made).1 = .error e) : Undone t (t.sysOpen flags made).2 := by
  cases made with
  | error e' => exact .refl t
  | ok kf =>
      have hsame := fdInstall_failed (t := (t.fileNew kf.1 kf.2).2) h
      rw [sysOpen]
      dsimp only
      rw [hsame]
      refine ⟨rfl, rfl, fun k hk => ?_, fun k hle hlt => ?_⟩
      · simp [fileNew, FdState.filePut, Function.update_of_ne hk.ne]
      · obtain rfl : k = t.next := Nat.le_antisymm (Nat.le_of_lt_succ hlt) hle
        simp [fileNew, FdState.filePut, Desc.put, Desc.Gone]

theorem sysDup_failed {fd : ℤ} {e : Errno} (h : (t.sysDup fd).1 = .error e) : (t.sysDup fd).2 = t := by
  rw [sysDup] at h ⊢
  cases hget : t.fdGet fd with
  | none => rfl
  | some x =>
      rw [hget] at h
      exact fdInstall_failed h

theorem fdDup2_failed {oldfd newfd : ℤ} {cloexec : Bool} {e : Errno} (h : (t.fdDup2 oldfd newfd cloexec).1 = .error e) :
    (t.fdDup2 oldfd newfd cloexec).2 = t := by
  rw [fdDup2] at h ⊢
  cases hget : t.fdGet oldfd with
  | none => rfl
  | some x =>
      rw [hget] at h
      dsimp only at h ⊢
      cases hslot : slotOf newfd with
      | none => rfl
      | some i =>
          rw [hslot] at h
          dsimp only at h
          split_ifs at h

theorem sysFcntl_failed {fd cmd arg : ℤ} {e : Errno} (h : (t.sysFcntl fd cmd arg).1 = .error e) :
    (t.sysFcntl fd cmd arg).2 = t := by
  rw [sysFcntl] at h ⊢
  cases hget : t.fdGet fd with
  | none => rfl
  | some x =>
      rw [hget] at h
      dsimp only at h ⊢
      by_cases hdup : cmd = F_DUPFD
      · rw [if_pos hdup] at h ⊢
        exact fdInstall_failed h
      by_cases hcloexec : cmd = F_DUPFD_CLOEXEC
      · rw [if_neg hdup, if_pos hcloexec] at h ⊢
        exact fdInstall_failed h
      rw [if_neg hdup, if_neg hcloexec] at h ⊢
      split_ifs at h ⊢
      · rfl
      · rw [fdSetCloexec, hget] at h
        cases h
      · rw [through, hget] at h
        cases h
      · rfl

/-- A pipe that is made and then not installed or not copied out is undone, as its rings show. -/
theorem sysPipe2_undone (hclear : CloexecClear t) {flags : UInt32} {made copied : Bool} {e : Errno}
    (h : (t.sysPipe2 flags made copied).1 = .error e) : Undone t (t.sysPipe2 flags made copied).2 := by
  rw [sysPipe2] at h ⊢
  by_cases hflags : flags &&& ~~~(O_NONBLOCK ||| O_CLOEXEC) ≠ 0
  · rw [if_pos hflags]
    exact .refl t
  by_cases hmade : made = false
  · rw [if_neg hflags, if_pos hmade]
    exact .refl t
  rw [if_neg hflags, if_neg hmade] at h ⊢
  let w : PipeTable := ⟨t, hclear, fun _ => none, fun _ => ringMade 0, 0, 0⟩
  let u : UserRoom := ⟨fun _ => copied, fun _ => none, fun _ _ _ => none⟩
  have hcopied : SysvNt.copyOut u.writable 0 8 = copied := by
    cases copied <;> rfl
  obtain ⟨v, c, hrun, hends, hboth, hfiles, hcloexec⟩ := vfsPipe_ends w flags
  have hv : v.fds = ((t.fileNew FILE_KIND_PIPE (O_RDONLY ||| flags &&& O_NONBLOCK)).2.fileNew FILE_KIND_PIPE
      (O_WRONLY ||| flags &&& O_NONBLOCK)).2 := (congrArg (fun r => r.2.fds) hrun).symm
  have hended : PipeEnded w u 0 flags (v.pipe2Install u 0 (has flags O_CLOEXEC) t.next (t.next + 1)) :=
    pipe2Install_ended u 0 hends hboth hfiles hcloexec
  have hundone : (v.pipe2Install u 0 (has flags O_CLOEXEC) t.next (t.next + 1)).1 = .error e →
      Undone t (v.pipe2Install u 0 (has flags O_CLOEXEC) t.next (t.next + 1)).2.1.fds := by
    intro herr
    generalize v.pipe2Install u 0 (has flags O_CLOEXEC) t.next (t.next + 1) = r at hended herr ⊢
    cases hended with
    | undone hback _ => exact ⟨hback.files, hback.cloexec, hback.counts, hback.made⟩
    | seated _ _ => cases herr
  obtain ⟨hret, hfds⟩ := v.pipe2Install_fds u 0 (has flags O_CLOEXEC) t.next (t.next + 1)
  rw [hret, hfds, hcopied, hv] at hundone
  exact hundone h

/-- A call on the table that fails is undone; if it is one through a descriptor, it does nothing. -/
theorem call_undone (hclear : CloexecClear t) {fc : FdCall} {e : Errno} (h : (t.call fc).1 = .error e) :
    Undone t (t.call fc).2 := by
  have hsame {u : FdState} (hu : u = t) : Undone t u := by
    rw [hu]
    exact .refl t
  cases fc with
  | openAt flags made => exact sysOpen_undone h
  | close fd =>
      refine hsame ?_
      rw [call, fdClose] at h ⊢
      cases hget : t.fdGet fd with
      | none => rfl
      | some x =>
          rw [hget] at h
          cases h
  | dup fd => exact hsame (sysDup_failed h)
  | dup2 oldfd newfd =>
      refine hsame ?_
      rw [call, sysDup2] at h ⊢
      cases hget : t.fdGet oldfd with
      | none => rfl
      | some x =>
          rw [hget] at h
          dsimp only at h ⊢
          split_ifs at h ⊢
          exact fdDup2_failed h
  | dup3 oldfd newfd flags =>
      refine hsame ?_
      rw [call, sysDup3] at h ⊢
      split_ifs at h ⊢
      · rfl
      · rfl
      · exact fdDup2_failed h
  | fcntl fd cmd arg => exact hsame (sysFcntl_failed h)
  | pipe2 flags made copied => exact sysPipe2_undone hclear h
  | seek fd pos =>
      refine hsame ?_
      rw [call, through] at h ⊢
      cases hget : t.fdGet fd with
      | none => rfl
      | some x =>
          rw [hget] at h
          cases h

/-- No call marks an empty slot. -/
theorem clear_of_reaches {t' : FdState} {held held' : List ℕ} (hclear : CloexecClear t)
    (h : ActionRuns.Reaches fdStep (t, held) (t', held')) : CloexecClear t' := by
  obtain ⟨ops, hist, hrun⟩ := h
  exact ActionRuns.run_invariant (P := fun t : FdState × List ℕ => CloexecClear t.1)
    (fun _ _ _ _ hc hstep => (fdStep_touches hstep).clear hc) hclear hrun

theorem call_clear (hclear : CloexecClear t) (fc : FdCall) : CloexecClear (t.call fc).2 :=
  clear_of_reaches hclear (call_expands t fc)

end FdState

/-- The calls that make descriptions. -/
def SysCall.makes : SysCall → Bool
  | .openat .. | .pipe2 .. => true
  | _ => false

namespace Task

/-- What a call may do to a process on its way, where it keeps something. -/
structure Way (M : Platform η σ) (I : Task η σ → Prop) : Prop where
  host : ∀ p x, I p → I (p.withHost x)
  install : ∀ p k cloexec min, I p → I (p.setFdt (p.fdt.fdInstall k cloexec min).2)
  put : ∀ p k, I p → I (p.filePut M k)

structure ConsoleWay (M : Platform η σ) (I : Task η σ → Prop) : Prop extends Way M I where
  console : ∀ p flags i, I p → I (p.fileNew FILE_KIND_CONSOLE flags .console i)

structure PipeWay (M : Platform η σ) (I : Task η σ → Prop) : Prop extends Way M I where
  ringNew : ∀ p, I p → I p.ringNew
  ringDrop : ∀ p r, I p → I (p.ringDrop r)
  pipeEnds : ∀ p r flags, I p → I (p.pipeEnds r flags)
  close : ∀ p fd, I p → I (p.fdClose M fd).2

section Ways

variable {M : Platform η σ} {I : Task η σ → Prop} {p : Task η σ}

theorem consoleFile_kept (hI : ConsoleWay M I) (hp : I p) (i : ℕ) : KeepsAt I p (consoleFile M i) fun _ => True := by
  rw [consoleFile]
  refine (alloc_kept hI.host hp).bind fun _ q _ hq _ => ?_
  refine look_bind (change_bind (attempt_fds_bind ⟨?_, fun _ _ => trivial⟩))
  apply hI.put
  apply hI.install
  exact hI.console q _ i hq

theorem consoleFiles_kept (hI : ConsoleWay M I) (hp : I p) : KeepsAt I p (consoleFiles M) fun _ => True := by
  rw [consoleFiles]
  refine (consoleFile_kept hI hp 0).bind fun _ q _ hq _ => ?_
  refine (consoleFile_kept hI hq 1).bind fun _ r _ hr _ => ?_
  exact consoleFile_kept hI hr 2

theorem vfsPipe_kept (hI : PipeWay M I) (hp : I p) (flags : UInt32) : KeepsAt I p (vfsPipe M flags) fun _ => True := by
  rw [vfsPipe]
  refine (alloc_kept hI.host hp).bind fun _ q _ hq _ => look_bind (change_bind (lift_bind (lift_bind ?_)))
  have hnew := hI.host _ (M.store.alloc (M.store.alloc q.host).2).2
    (hI.host _ (M.store.alloc q.host).2 (hI.ringNew q hq))
  split_ifs
  · exact change_bind (keepsAt_throw (hI.ringDrop _ _ hnew))
  · exact look_bind (change_bind (keepsAt_pure (hI.pipeEnds _ _ flags hnew) trivial))

theorem pipe2Answer_kept (hI : PipeWay M I) (hp : I p) (ufds : UInt64) (fd₀ fd₁ : Except Errno ℤ) :
    KeepsAt I p (pipe2Answer M ufds fd₀ fd₁) fun _ => True := by
  cases fd₀ with
  | error e => exact keepsAt_throw hp
  | ok fd₀ =>
      cases fd₁ with
      | error e => exact change_bind (keepsAt_throw (hI.close p fd₀ hp))
      | ok fd₁ =>
          rw [pipe2Answer]
          have hcopy : KeepsAt I p (attempt (copyOut M ufds (intBytes fd₀ ++ intBytes fd₁))) fun _ => True := by
            refine ⟨?_, fun _ _ => trivial⟩
            rw [run_attempt]
            exact (copyOut_kept hI.host hp ufds _).1
          refine hcopy.bind fun r q _ hq _ => ?_
          split_ifs
          · exact keepsAt_pure hq trivial
          · exact change_bind (change_bind (keepsAt_throw (hI.close _ fd₁ (hI.close q fd₀ hq))))

theorem sysPipe2_kept (hI : PipeWay M I) (hp : I p) (ufds : UInt64) (flags : UInt32) :
    KeepsAt I p (sysPipe2 M ufds flags) fun _ => True := by
  rw [sysPipe2]
  split_ifs
  · exact keepsAt_throw hp
  refine (vfsPipe_kept hI hp flags).bind fun ends q _ hq _ => ?_
  rw [pipe2Install]
  have hputs {v : Task η σ} (hv : I v) (fd₀ fd₁ : Except Errno ℤ) :
      KeepsAt I v (do
        change fun p => p.filePut M ends.1
        change fun p => p.filePut M ends.2
        pipe2Answer M ufds fd₀ fd₁) fun _ => True :=
    change_bind (change_bind (pipe2Answer_kept hI (hI.put _ ends.2 (hI.put v ends.1 hv)) ufds fd₀ fd₁))
  have hfirst := hI.install q ends.1 (has flags O_CLOEXEC) 0 hq
  refine attempt_fds_bind ?_
  cases (q.fdt.fdInstall ends.1 (has flags O_CLOEXEC) 0).1 with
  | error e =>
      rw [secondSlot, pure_bind]
      exact hputs hfirst _ _
  | ok fd₀ =>
      rw [secondSlot]
      exact attempt_fds_bind (hputs (hI.install _ ends.2 (has flags O_CLOEXEC) 0 hfirst) _ _)

end Ways

section Context

variable (M : Platform η σ)

/-- What is looked at is neither the host nor the table, and nothing behind a description. -/
def Lasting {ν : Type} (view : Task η σ → ν) : Prop :=
  ∀ (p : Task η σ) x t scan rings, view { p with host := x, fdt := t, scan := scan, rings := rings } = view p

section Lasting

variable {ν : Type} {view : Task η σ → ν} (hview : Lasting view)

include hview

theorem filePut_leaves (k : ℕ) : Leaves view (change fun p => p.filePut M k : Sys η σ Unit) := by
  intro p
  change view (p.filePut M k) = view p
  rw [Task.filePut]
  split_ifs
  · exact hview p p.host _ p.scan p.rings
  · rw [Task.release]
    cases p.file k with
    | opened f => exact hview p _ _ p.scan p.rings
    | pipe ino => exact hview p p.host _ p.scan _
    | console => exact hview p p.host _ p.scan p.rings

theorem fdClose_leaves (fd : ℤ) : Leaves view (onTable fun p : Task η σ => p.fdClose M fd) := by
  intro p
  change view (p.fdClose M fd).2 = view p
  rw [Task.fdClose]
  cases p.fdt.fdGet fd with
  | none => rfl
  | some e => exact (filePut_leaves M hview e.2 (p.unseat e.1)).trans (hview p p.host _ p.scan p.rings)

theorem fdDup2_leaves (oldfd newfd : ℤ) (cloexec : Bool) :
    Leaves view (onTable fun p : Task η σ => p.fdDup2 M oldfd newfd cloexec) := by
  have hset (q : Task η σ) (t : FdState) : view (q.setFdt t) = view q := hview q q.host t q.scan q.rings
  intro p
  change view (p.fdDup2 M oldfd newfd cloexec).2 = view p
  rw [Task.fdDup2]
  cases p.fdt.fdGet oldfd with
  | none => rfl
  | some e =>
      cases slotOf newfd with
      | none => rfl
      | some i =>
          dsimp only
          split_ifs
          · rfl
          · rw [Task.reseat, hset, Task.putOld]
            cases (p.setFdt (p.fdt.fileGet e.2)).fdt.files i with
            | none => exact hset p _
            | some g => exact (filePut_leaves M hview g (p.setFdt (p.fdt.fileGet e.2))).trans (hset p _)

theorem onFds_leaves (m : FdState → Except Errno α × FdState) : Leaves view (onFds m : Sys η σ α) :=
  fun p => hview p p.host _ p.scan p.rings

theorem attempt_fds_leaves (m : FdState → Except Errno ℤ × FdState) :
    Leaves view (attempt (onFds m : Sys η σ ℤ)) := fun p => hview p p.host _ p.scan p.rings

theorem throughOps_leaves (k : ℕ) (m : Table (σ × Rings) → UInt32 → Call Errno (FileOps.Live (σ × Rings)) ℕ) :
    Leaves view (throughOps M k m) := by
  rw [throughOps]
  exact .map _ fun p => hview p _ _ _ _

/-- The calls on the table that make no description. -/
theorem perform_onTable_leaves {c : SysCall} (hc : c.touches = true) (hmakes : c.makes = false) :
    Leaves view (perform M c) := by
  have hmoves (fd : ℤ) (m : ℕ → Table (σ × Rings) → UInt32 → Call Errno (FileOps.Live (σ × Rings)) ℕ) :
      Leaves view (fget fd >>= fun k => throughOps M k (m k)) :=
    (Leaves.orFail _).bind fun k => throughOps_leaves M hview k (m k)
  cases c with
  | read fd ubuf len => exact hmoves fd _
  | write fd ubuf len => exact hmoves fd _
  | pread64 fd ubuf len off => exact Leaves.ite (.throw _) (hmoves fd _)
  | pwrite64 fd ubuf len off => exact Leaves.ite (.throw _) (hmoves fd _)
  | readvWritev fd uiov cnt writing => exact hmoves fd _
  | lseek fd off whence => exact (Leaves.orFail _).bind fun k p => hview p _ _ _ _
  | getdents64 fd ubuf len => exact hmoves fd _
  | ftruncate fd size => exact hmoves fd _
  | close fd => exact .map _ (fdClose_leaves M hview fd)
  | dup fd => exact .map _ (onFds_leaves hview _)
  | dup2 oldfd newfd =>
      exact (Leaves.orFail _).bind fun k => .ite (.pure _) (.map _ (fdDup2_leaves M hview oldfd newfd false))
  | dup3 oldfd newfd flags =>
      exact .ite (.throw _) (.ite (.throw _) (.map _ (fdDup2_leaves M hview oldfd newfd _)))
  | fcntl fd cmd arg => exact .map _ (onFds_leaves hview _)
  | openat dirfd upath flags mode => cases hmakes
  | pipe2 ufds flags => cases hmakes
  | _ => cases hc

end Lasting

theorem fs_lasting : Lasting fun p : Task η σ => p.fs := fun _ _ _ _ _ => rfl

theorem change_fs (f : Task η σ → Task η σ) (hf : ∀ p, (f p).fs = p.fs) : Leaves (·.fs) (change f) := hf

theorem sysOpenat_fs (dirfd : ℤ) (upath : UInt64) (flags mode : UInt32) :
    Leaves (·.fs) (sysOpenat M dirfd upath flags mode) := by
  rw [sysOpenat]
  refine (Leaves.orFail _).bind fun path => (Leaves.orFail _).bind fun base => .ite (.throw _) ?_
  refine (Leaves.onHost (fun _ _ => rfl) _).bind fun f => (Leaves.look _).bind fun k => ?_
  refine (change_fs (fun p => p.fileNew f.made.1 f.made.2 (.opened f) 0) fun _ => rfl).bind fun _ => ?_
  refine (attempt_fds_leaves fs_lasting _).bind fun r => (filePut_leaves M fs_lasting k).bind fun _ => ?_
  exact .map _ fun p => by rw [run_liftExcept]

theorem sysPipe2_fs (ufds : UInt64) (flags : UInt32) : Leaves (·.fs) (sysPipe2 M ufds flags) := by
  intro p
  have hway : PipeWay M fun q : Task η σ => q.fs = p.fs := {
    host _ _ hq := hq
    install _ _ _ _ hq := hq
    put q k hq := (filePut_leaves M fs_lasting k q).trans hq
    ringNew _ hq := hq
    ringDrop _ _ hq := hq
    pipeEnds _ _ _ hq := hq
    close q fd hq := (fdClose_leaves M fs_lasting fd q).trans hq }
  exact (sysPipe2_kept hway rfl ufds flags).1

def Restores {ν : Type} (view : Task η σ → ν) (m : Sys η σ α) : Prop :=
  ∀ p e, (m.run p).1 = .error e → view (m.run p).2 = view p

theorem Leaves.restores {ν : Type} {view : Task η σ → ν} {m : Sys η σ α} (hm : Leaves view m) : Restores view m :=
  fun p _ _ => hm p

theorem Restores.bind {ν β : Type} {view : Task η σ → ν} {m : Sys η σ α} {g : α → Sys η σ β} (hm : Leaves view m)
    (hg : ∀ a, Restores view (g a)) : Restores view (m >>= g) := by
  intro p e h
  have hp := hm p
  rw [run_bind] at h ⊢
  cases hrun : m.run p with
  | mk r q =>
      rw [hrun] at h hp
      cases r with
      | error e => exact hp
      | ok a => exact (hg a q e h).trans hp

/-- The working directory is set last. -/
theorem setCwd_restores (cwd : Bytes) : Restores (·.fs) (setCwd cwd >>= fun _ => pure 0 : Sys η σ Int64) :=
  fun _ _ h => by cases h

/-- The calls on the table leave the context alone. -/
theorem perform_touches_fs {c : SysCall} (hc : c.touches = true) : Leaves (·.fs) (perform M c) := by
  cases hmakes : c.makes with
  | false => exact perform_onTable_leaves M fs_lasting hc hmakes
  | true =>
      cases c with
      | openat dirfd upath flags mode => exact sysOpenat_fs M dirfd upath flags mode
      | pipe2 ufds flags => exact sysPipe2_fs M ufds flags
      | _ => cases hmakes

theorem perform_fs (c : SysCall) : Restores (·.fs) (perform M c) := by
  cases htouches : c.touches with
  | true => exact (perform_touches_fs M htouches).restores
  | false =>
      cases hsets : c.setsFs with
      | false => exact (perform_leaves (fun _ _ => rfl) htouches hsets).restores
      | true =>
          have hview : ∀ (p : Task η σ) x, (p.withHost x).fs = p.fs := fun _ _ => rfl
          cases c with
          | chdir upath =>
              exact Restores.bind (.orFail _) fun path => Restores.bind (.onHost hview _) fun cwd => setCwd_restores cwd
          | fchdir fd =>
              exact Restores.bind (.orFail _) fun k => Restores.bind (.orFail _) fun cwd => setCwd_restores cwd
          | umask mask => exact fun _ _ h => by cases h
          | _ => cases hsets

end Context

section Clear

variable {M : Platform η σ} {p : Task η σ}

theorem consoleWay_clear : ConsoleWay M fun q : Task η σ => CloexecClear q.fdt where
  host _ _ hq := hq
  install q k cloexec min hq := by
    have hinstall : fdStep (q.fdt, [k]) (.install k cloexec min) =
        some ((q.fdt.fdInstall k cloexec min).1, ((q.fdt.fdInstall k cloexec min).2, [k])) :=
      fdStep_install (.inl List.mem_cons_self) cloexec min
    exact (fdStep_touches hinstall).clear hq
  put q k hq := by
    rw [filePut_files]
    exact hq
  console _ _ _ hq := hq

theorem taskInit_clear {path : Bytes} {x y : σ} (h : (taskInit M path).run x = (.ok p, y)) : CloexecClear p.fdt := by
  obtain ⟨fs, x₁, -, hrun⟩ := of_taskInit h
  have hinit : CloexecClear (Task.initial x₁ fs).fdt := fun _ _ => rfl
  have hclear := (consoleFiles_kept (M := M) consoleWay_clear hinit).1
  rw [hrun] at hclear
  exact hclear

theorem step_clear (hp : CloexecClear p.fdt) (e : TaskEvent σ) : CloexecClear (e.step M p).fdt := by
  rcases step_table M p e with ⟨c, fc, -, -, hfc, hstep⟩ | ⟨-, hfdt⟩
  · rw [hstep, hfc.leaves]
    exact call_clear hp fc
  · rw [hfdt]
    exact hp

theorem after_clear (hp : CloexecClear p.fdt) (es : List (TaskEvent σ)) : CloexecClear (p.after M es).fdt := by
  induction es generalizing p with
  | nil => exact hp
  | cons e es ih => exact ih (step_clear hp e)

end Clear

def GoesThrough (c : SysCall) (p : Task η σ) (k : ℕ) : Prop :=
  ∃ fd i, c.moves = some fd ∧ p.fdt.fdGet fd = some (i, k)

/-- What a call that fails leaves: the context, the descriptors and their marks are as before, so is what every
description is of, and, but behind the one that the call went through, its position, its directory's reader and
the ring of a pipe. What was made is released. -/
structure Failed (c : SysCall) (p q : Task η σ) : Prop where
  fs : q.fs = p.fs
  files : q.fdt.files = p.fdt.files
  cloexec : q.fdt.cloexec = p.fdt.cloexec
  described : ∀ k < p.fdt.next, q.file k = p.file k ∧ q.privI k = p.privI k
  kept : ∀ k < p.fdt.next, ∃ pos, q.fdt.heap k = { p.fdt.heap k with pos := pos }
  unmoved : ∀ k < p.fdt.next, ¬ GoesThrough c p k → q.fdt.heap k = p.fdt.heap k ∧ q.scan k = p.scan k
  rings : ∀ r < p.nextRing, (∀ k, GoesThrough c p k → (p.file k).isPipe = true → p.privI k ≠ r) →
    q.rings r = p.rings r
  gone : ∀ k, p.fdt.next ≤ k → k < q.fdt.next → (q.fdt.heap k).Gone

section Failing

variable {M : Platform η σ} {p q : Task η σ} {c : SysCall}

theorem Failed.of_spared (hfs : q.fs = p.fs) (h : FdState.Undone p.fdt q.fdt) (hspared : Spared p q) :
    Failed c p q :=
  ⟨hfs, h.files, h.cloexec, fun k hk => ⟨(hspared.same k hk).1, (hspared.same k hk).2.1⟩, fun k hk => ⟨_, h.kept k hk⟩,
    fun k hk _ => ⟨h.kept k hk, (hspared.same k hk).2.2⟩, fun r hr _ => hspared.rings r hr, h.gone⟩

/-- A call through a descriptor leaves all but what is behind it. -/
theorem Failed.of_passed (hfs : q.fs = p.fs) {fd : ℤ} (hc : c.moves = some fd) {pos : UInt64}
    (h : q.fdt = (p.fdt.call (.seek fd pos)).2) {i : Slot} {k : ℕ} (hget : p.fdt.fdGet fd = some (i, k))
    (hpassed : Passed k p q) : Failed c p q := by
  have hthrough : GoesThrough c p k := ⟨fd, i, hc, hget⟩
  rw [FdState.call, FdState.through, hget] at h
  have hheap (j : ℕ) : q.fdt.heap j = if j = k then { p.fdt.heap j with pos := pos } else p.fdt.heap j := by
    rw [h]
    by_cases hj : j = k
    · rw [if_pos hj, hj]
      exact Function.update_self ..
    · rw [if_neg hj]
      exact Function.update_of_ne hj ..
  refine ⟨hfs, by rw [h]; rfl, by rw [h]; rfl, fun j _ => ?_, fun j _ => ?_, fun j _ hother => ?_, fun r _ hr => ?_,
    fun j hle hlt => ?_⟩
  · exact ⟨congrFun hpassed.file j, congrFun hpassed.privI j⟩
  · rw [hheap]
    split_ifs
    · exact ⟨pos, rfl⟩
    · exact ⟨_, rfl⟩
  · have hj : j ≠ k := by
      rintro rfl
      exact hother hthrough
    rw [hheap, if_neg hj]
    exact ⟨rfl, hpassed.scan j hj⟩
  · exact hpassed.rings r (hr k hthrough)
  · rw [h] at hlt
    exact absurd hlt (Nat.not_lt.mpr hle)

theorem fdClose_failed {fd : ℤ} {e : Errno} (h : (p.fdClose M fd).1 = .error e) : (p.fdClose M fd).2 = p := by
  rw [Task.fdClose] at h ⊢
  cases hget : p.fdt.fdGet fd with
  | none => rfl
  | some x =>
      rw [hget] at h
      cases h

theorem fdDup2_failed {oldfd newfd : ℤ} {cloexec : Bool} {e : Errno}
    (h : (p.fdDup2 M oldfd newfd cloexec).1 = .error e) : (p.fdDup2 M oldfd newfd cloexec).2 = p := by
  rw [Task.fdDup2] at h ⊢
  cases hget : p.fdt.fdGet oldfd with
  | none => rfl
  | some x =>
      rw [hget] at h
      dsimp only at h ⊢
      cases hslot : slotOf newfd with
      | none => rfl
      | some i =>
          rw [hslot] at h
          dsimp only at h
          split_ifs at h

/-- A call on the table alone that fails as the table's does leaves the process. -/
theorem spared_of_failed {r : Except Errno ℤ} {e : Errno} (hr : ∀ e', r = .error e' → q = p)
    (herr : r.map Int64.ofInt = .error e) : Spared p q := by
  cases r with
  | ok n => cases herr
  | error e' =>
      rw [hr e' rfl]
      exact .refl p

theorem onFds_spared {m : FdState → Except Errno ℤ × FdState} {e : Errno}
    (hm : ∀ e', (m p.fdt).1 = .error e' → (m p.fdt).2 = p.fdt)
    (h : ((Int64.ofInt <$> onFds m : Sys η σ Int64).run p).1 = .error e) :
    Spared p ((Int64.ofInt <$> onFds m : Sys η σ Int64).run p).2 := by
  rw [run_map] at h ⊢
  refine spared_of_failed (fun e' he' => ?_) h
  change p.setFdt (m p.fdt).2 = p
  rw [hm e' he']
  rfl

theorem onTable_spared {m : Task η σ → Except Errno ℤ × Task η σ} {e : Errno}
    (hm : ∀ e', (m p).1 = .error e' → (m p).2 = p)
    (h : ((Int64.ofInt <$> onTable m : Sys η σ Int64).run p).1 = .error e) :
    Spared p ((Int64.ofInt <$> onTable m : Sys η σ Int64).run p).2 := by
  rw [run_map] at h ⊢
  exact spared_of_failed hm h

/-- A call on the table that is none through a descriptor leaves the descriptions that there were. -/
theorem perform_spared (hc : c.touches = true) (hmoves : c.moves = none) {e : Errno}
    (h : ((perform M c).run p).1 = .error e) : Spared p ((perform M c).run p).2 := by
  cases c with
  | openat dirfd upath flags mode => exact (sysOpenat_spared (.refl p) dirfd upath flags mode).1
  | pipe2 ufds flags => exact (sysPipe2_spared (.refl p) ufds flags).1
  | close fd => exact onTable_spared (fun _ => fdClose_failed) h
  | dup fd => exact onFds_spared (fun _ => sysDup_failed) h
  | fcntl fd cmd arg => exact onFds_spared (fun _ => sysFcntl_failed) h
  | dup2 oldfd newfd =>
      rw [perform, sysDup2] at h ⊢
      cases hget : p.fdt.fdGet oldfd with
      | none =>
          rw [run_fget_none hget]
          exact .refl p
      | some x =>
          rw [run_fget_some hget] at h ⊢
          by_cases hsame : oldfd = newfd
          · rw [if_pos hsame]
            exact .refl p
          · rw [if_neg hsame] at h ⊢
            exact onTable_spared (fun _ => fdDup2_failed) h
  | dup3 oldfd newfd flags =>
      rw [perform, sysDup3] at h ⊢
      split_ifs at h ⊢
      · exact .refl p
      · exact .refl p
      · exact onTable_spared (fun _ => fdDup2_failed) h
  | _ => cases hc <;> cases hmoves

theorem perform_failed (hp : CloexecClear p.fdt) {e : Errno} (h : (perform M c).run p = (.error e, q)) :
    Failed c p q := by
  have herr : ((perform M c).run p).1 = .error e := congrArg Prod.fst h
  obtain rfl : ((perform M c).run p).2 = q := congrArg Prod.snd h
  have hfs := perform_fs M c p e herr
  cases hc : c.touches with
  | false =>
      have hbeside : Leaves (fun q => (q.fdt, q.file, q.privI, q.scan, q.rings, q.nextRing)) (perform M c) :=
        perform_beside (fun _ _ => rfl) (fun _ _ => rfl) hc
      have hleaves := hbeside p
      simp only [Prod.mk.injEq] at hleaves
      obtain ⟨hfdt, hfile, hpriv, hscan, hrings, hnext⟩ := hleaves
      refine .of_spared hfs ?_ (.of_same hfdt hfile hpriv hscan hrings hnext)
      rw [hfdt]
      exact .refl _
  | true =>
      obtain ⟨fc, his, hleaves, hanswers⟩ := perform_touches (M := M) hc p
      cases hmoves : c.moves with
      | some fd =>
          obtain ⟨pos, hpos⟩ := perform_moves (M := M) hmoves p
          rcases perform_passes (M := M) (p := p) hmoves with hsame | ⟨i, k, hget, hpassed⟩
          · rw [hsame]
            exact .of_spared rfl (.refl _) (.refl p)
          · exact .of_passed hfs hmoves hpos hget hpassed
      | none =>
          have hspared := perform_spared hc hmoves herr
          have hanswer := hanswers hmoves
          rw [herr] at hanswer
          cases hcall : (p.fdt.call fc).1 with
          | ok n =>
              rw [hcall] at hanswer
              cases hanswer
          | error e' =>
              have hundone := call_undone hp hcall
              rw [← hleaves] at hundone
              exact .of_spared hfs hundone hspared

/-- In every run a system call that fails is undone. -/
theorem failed_call_undone {path : Bytes} {x y : σ} (hinit : (taskInit M path).run x = (.ok p, y))
    (es : List (TaskEvent σ)) {e : Errno} (hfail : (perform M c).run (p.after M es) = (.error e, q)) :
    Failed c (p.after M es) q := perform_failed (after_clear (taskInit_clear hinit) es) hfail

end Failing

/-- The numbers of a pipe cannot be copied out. -/
theorem refused_pipe_undone : ∃ p y q, (taskInit barePlatform (str "/")).run () = (.ok p, y) ∧
    (perform barePlatform (.pipe2 0 0)).run (p.after barePlatform bareEvents) = (.error .EFAULT, q) ∧ q.fdt.next = 8 ∧
      Failed (.pipe2 0 0) (p.after barePlatform bareEvents) q := by
  have hrefused {p : Task Unit Unit} {y : Unit} (hinit : (taskInit barePlatform (str "/")).run () = (.ok p, y))
      (hanswer : ((perform barePlatform (.pipe2 0 0)).run (p.after barePlatform bareEvents)).1 = .error .EFAULT)
      (hmade : ((perform barePlatform (.pipe2 0 0)).run (p.after barePlatform bareEvents)).2.fdt.next = 8) :
      ∃ q, (perform barePlatform (.pipe2 0 0)).run (p.after barePlatform bareEvents) = (.error .EFAULT, q) ∧
        q.fdt.next = 8 ∧ Failed (.pipe2 0 0) (p.after barePlatform bareEvents) q := by
    cases hrun : (perform barePlatform (.pipe2 0 0)).run (p.after barePlatform bareEvents) with
    | mk r q =>
        rw [hrun] at hanswer hmade
        cases hanswer
        exact ⟨q, rfl, hmade, failed_call_undone hinit bareEvents hrun⟩
  have hinit : (taskInit barePlatform (str "/")).run () = (.ok _, _) := rfl
  obtain ⟨q, hq⟩ := hrefused hinit (by decide +kernel) (by decide +kernel)
  exact ⟨_, _, q, hinit, hq⟩

end Task

end SysvNt
