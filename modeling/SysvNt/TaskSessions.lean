import SysvNt.DescriptorSessions
import SysvNt.TaskFailures

/-!
# A process as a session

What `openat` and `linkat` do through a descriptor is said of a session: the host, the context, the table and
the descriptions. A process is one, its calls of that name are the session's, and whatever else it does is a run
of sessions.
-/

namespace SysvNt

open FallibleCalls FdState FileOps Relation

variable {η σ α β : Type}

namespace FdState

attribute [local irreducible] lowestFree

variable (t : FdState)

theorem fdInstall_next (k : ℕ) (cloexec : Bool) (min : ℤ) : (t.fdInstall k cloexec min).2.next = t.next := by
  rw [fdInstall]
  split_ifs
  · rfl
  · cases t.lowestFree min.toNat <;> rfl

theorem fdClose_next (fd : ℤ) : (t.fdClose fd).2.next = t.next := by
  rw [fdClose]
  cases t.fdGet fd <;> rfl

theorem fdDup2_next (oldfd newfd : ℤ) (cloexec : Bool) : (t.fdDup2 oldfd newfd cloexec).2.next = t.next := by
  rw [fdDup2]
  cases t.fdGet oldfd with
  | none => rfl
  | some e =>
      cases slotOf newfd with
      | none => rfl
      | some i =>
          dsimp only
          split_ifs
          · rfl
          · cases (t.fileGet e.2).files i <;> rfl

theorem through_next (fd : ℤ) (f : Desc → Desc) : (t.through fd f).2.next = t.next := by
  rw [through]
  cases t.fdGet fd <;> rfl

theorem sysDup_next (fd : ℤ) : (t.sysDup fd).2.next = t.next := by
  rw [sysDup]
  cases t.fdGet fd with
  | none => rfl
  | some e => exact fdInstall_next t e.2 false 0

theorem sysFcntl_next (fd cmd arg : ℤ) : (t.sysFcntl fd cmd arg).2.next = t.next := by
  rw [sysFcntl]
  cases t.fdGet fd with
  | none => rfl
  | some e =>
      dsimp only
      split_ifs
      · exact fdInstall_next t e.2 false _
      · exact fdInstall_next t e.2 true _
      · rfl
      · rw [fdSetCloexec]
        cases t.fdGet fd <;> rfl
      · rfl
      · exact through_next t fd _
      · rfl

/-- The calls that make no description. -/
theorem call_next {c : SysCall} {fc : FdCall} (h : c.Is fc) (hmakes : c.makes = false) :
    (t.call fc).2.next = t.next := by
  cases h with
  | openAt => cases hmakes
  | pipe2 => cases hmakes
  | close => exact fdClose_next t _
  | dup => exact sysDup_next t _
  | @dup2 oldfd newfd =>
      rw [FdState.call, sysDup2]
      cases t.fdGet oldfd with
      | none => rfl
      | some e =>
          dsimp only
          split_ifs
          · rfl
          · exact fdDup2_next t oldfd newfd false
  | dup3 =>
      rw [FdState.call, sysDup3]
      split_ifs
      · rfl
      · rfl
      · exact fdDup2_next t _ _ _
  | fcntl => exact sysFcntl_next t _ _ _
  | seek => exact through_next t _ _

end FdState

namespace Task

attribute [local irreducible] lowestFree

/-- What a session has of a process. -/
def session (p : Task η σ) : SysvNt.Session η σ := ⟨p.host, p.fs, p.fdt, p.file⟩

section Calling

variable {M : Platform η σ} {p : Task η σ}

theorem run_onHost_ok {m : Task η σ → Call Errno σ α} {g : α → Sys η σ β} {a : α} {x : σ}
    (h : (m p).run p.host = (.ok a, x)) : (onHost m >>= g).run p = (g a).run (p.withHost x) := by
  have hrun : (onHost m).run p = (((m p).run p.host).1, p.withHost ((m p).run p.host).2) := rfl
  rw [run_bind, hrun, h]

theorem run_onHost_error {m : Task η σ → Call Errno σ α} {g : α → Sys η σ β} {e : Errno} {x : σ}
    (h : (m p).run p.host = (.error e, x)) : (onHost m >>= g).run p = (.error e, p.withHost x) := by
  have hrun : (onHost m).run p = (((m p).run p.host).1, p.withHost ((m p).run p.host).2) := rfl
  rw [run_bind, hrun, h]

/-- The process that has opened a file and has no descriptor for it yet. -/
def withOpened (p : Task η σ) (f : OpenFile η) (x : σ) : Task η σ :=
  (p.withHost x).fileNew f.made.1 f.made.2 (.opened f) 0

/-- What `fd_install` does for it. -/
def seating (p : Task η σ) (flags : UInt32) (f : OpenFile η) (x : σ) : Except Errno ℤ × FdState :=
  (p.withOpened f x).fdt.fdInstall p.fdt.next (has flags O_CLOEXEC) 0

/-- The process at the end of `sys_openat`. -/
def seated (M : Platform η σ) (p : Task η σ) (flags : UInt32) (f : OpenFile η) (x : σ) : Task η σ :=
  ((p.withOpened f x).setFdt (p.seating flags f x).2).filePut M p.fdt.next

theorem seated_fdt (M : Platform η σ) (p : Task η σ) (flags : UInt32) (f : OpenFile η) (x : σ) :
    (p.seated M flags f x).fdt = (p.fdt.sysOpen flags (.ok f.made)).2 := by
  rw [seated, filePut_files]
  rfl

theorem filePut_host_of_more {k : ℕ} (h : 1 < (p.fdt.heap k).refs) : (p.filePut M k).host = p.host := by
  rw [Task.filePut, if_pos (by omega)]

theorem filePut_host_of_last {k : ℕ} (h : (p.fdt.heap k).refs = 1) {f : OpenFile η} (hfile : p.file k = .opened f) :
    (p.filePut M k).host = (SysvNt.filePut (p.kernel M) f p.host).2 := by
  rw [Task.filePut, if_neg (by omega), Task.release, hfile]

/-- Without a descriptor the description is dropped, and its handle closed. -/
theorem seated_host (M : Platform η σ) (p : Task η σ) (flags : UInt32) (f : OpenFile η) (x : σ) :
    (p.seated M flags f x).host = (installed (p.kernel M) f x (p.fdt.sysOpen flags (.ok f.made))).2.1 := by
  have hanswer : (p.fdt.sysOpen flags (.ok f.made)).1 = (p.seating flags f x).1 := rfl
  have hmade : (p.withOpened f x).fdt.heap p.fdt.next =
      { refs := 1, kind := f.made.1, flags := f.made.2, pos := 0, releases := 0 } := Function.update_self ..
  have hrefs : ((p.withOpened f x).fdt.heap p.fdt.next).refs = 1 := by rw [hmade]
  rw [installed, hanswer, seated, seating, fdInstall, if_neg (by decide)]
  rcases (p.withOpened f x).fdt.lowestFree_cases (0 : ℤ).toNat with ⟨i, hi, -⟩ | ⟨hi, -⟩
  · rw [hi]
    refine filePut_host_of_more ?_
    have hheld : ((p.withOpened f x).fdt.fileGet p.fdt.next).heap p.fdt.next =
        { (p.withOpened f x).fdt.heap p.fdt.next with refs := ((p.withOpened f x).fdt.heap p.fdt.next).refs + 1 } :=
      Function.update_self ..
    change 1 < (((p.withOpened f x).fdt.fileGet p.fdt.next).heap p.fdt.next).refs
    rw [hheld, hrefs]
    change (1 : ℤ) < 1 + 1
    decide
  · rw [hi]
    refine (filePut_host_of_last hrefs (Function.update_self ..)).trans ?_
    rw [filePut_store ((kernel_store M _).trans (kernel_store M p).symm) f]
    rfl

/-- `sys_openat` starts where the table and the paths of the descriptions say. -/
theorem run_sysOpenat_start (dirfd : ℤ) (upath : UInt64) (flags mode : UInt32) :
    (sysOpenat M dirfd upath flags mode).run p =
      (orFail (fun p => openatPath p.fdt p.dirs dirfd (p.copied M upath)) >>= fun start => do
        let f ← vfs M fun K fs => vfsOpen K fs start.1 start.2 flags mode
        let k ← look fun p => p.fdt.next
        change fun p => p.fileNew f.made.1 f.made.2 (.opened f) 0
        let r ← attempt (onFds fun t => t.fdInstall k (has flags O_CLOEXEC) 0)
        change fun p => p.filePut M k
        Int64.ofInt <$> liftM (m := Except Errno) r).run p := by
  have hstart (path : Bytes) (hcopied : p.copied M upath = .ok path) :
      openatPath p.fdt p.dirs dirfd (p.copied M upath) = (SysvNt.baseOf p.fdt p.dirs dirfd path >>= fun base =>
        if path = [] then throw .ENOENT else pure (base, path)) := by
    rw [hcopied]
    rfl
  rw [sysOpenat]
  cases hcopied : p.copied M upath with
  | error e =>
      rw [copyPath, run_orFail_error hcopied, run_orFail_error (by rw [hcopied]; rfl)]
  | ok path =>
      rw [copyPath, run_orFail_ok hcopied]
      cases hbase : SysvNt.baseOf p.fdt p.dirs dirfd path with
      | error e =>
          rw [Task.baseOf, run_orFail_error hbase, run_orFail_error]
          rw [hstart path hcopied, hbase]
          rfl
      | ok base =>
          rw [Task.baseOf, run_orFail_ok hbase]
          split_ifs with hempty
          · rw [run_orFail_error]
            · rfl
            · rw [hstart path hcopied, hbase]
              exact if_pos hempty
          · have hok : openatPath p.fdt p.dirs dirfd (p.copied M upath) = .ok (base, path) := by
              rw [hstart path hcopied, hbase]
              exact if_neg hempty
            rw [run_orFail_ok hok]

variable {dirfd : ℤ} {upath : UInt64} {flags mode : UInt32} {base : Option Bytes} {path : Bytes} {x : σ}

theorem run_sysOpenat_unstarted {e : Errno} (h : openatPath p.fdt p.dirs dirfd (p.copied M upath) = .error e) :
    (sysOpenat M dirfd upath flags mode).run p = (.error e, p) := by
  rw [run_sysOpenat_start, run_orFail_error h]

theorem run_sysOpenat_refused {e : Errno}
    (h : openatPath p.fdt p.dirs dirfd (p.copied M upath) = .ok (base, path))
    (hopen : (SysvNt.vfsOpen (p.kernel M) p.fs base path flags mode).run p.host = (.error e, x)) :
    (sysOpenat M dirfd upath flags mode).run p = (.error e, p.withHost x) := by
  rw [run_sysOpenat_start, run_orFail_ok h, vfs, run_onHost_error hopen]

theorem run_sysOpenat_opened {f : OpenFile η}
    (h : openatPath p.fdt p.dirs dirfd (p.copied M upath) = .ok (base, path))
    (hopen : (SysvNt.vfsOpen (p.kernel M) p.fs base path flags mode).run p.host = (.ok f, x)) :
    (sysOpenat M dirfd upath flags mode).run p =
      ((p.seating flags f x).1.map Int64.ofInt, p.seated M flags f x) := by
  rw [run_sysOpenat_start, run_orFail_ok h, vfs, run_onHost_ok hopen]
  change (Int64.ofInt <$> (liftM (p.seating flags f x).1 : Sys η σ ℤ)).run (p.seated M flags f x) = _
  rw [run_map, run_liftExcept]

/-- The process's `openat` is that of the host, the context and the table. -/
theorem sysOpenat_session (M : Platform η σ) (p : Task η σ) (dirfd : ℤ) (upath : UInt64) (flags mode : UInt32) :
    let r := SysvNt.sysOpenat (p.kernel M) p.fs p.session.dirs dirfd (p.copied M upath) flags mode (p.host, p.fdt)
    ((sysOpenat M dirfd upath flags mode).run p).1 = r.1.map Int64.ofInt ∧
      ((sysOpenat M dirfd upath flags mode).run p).2.host = r.2.1 ∧
        ((sysOpenat M dirfd upath flags mode).run p).2.fdt = r.2.2 := by
  have hdirs : p.session.dirs = p.dirs := rfl
  dsimp only
  rw [SysvNt.sysOpenat, hdirs]
  cases hstart : openatPath p.fdt p.dirs dirfd (p.copied M upath) with
  | error e =>
      rw [run_sysOpenat_unstarted hstart]
      exact ⟨rfl, rfl, rfl⟩
  | ok start =>
      obtain ⟨base, path⟩ := start
      dsimp only
      cases hopen : (SysvNt.vfsOpen (p.kernel M) p.fs base path flags mode).run p.host with
      | mk r x =>
          cases r with
          | error e =>
              rw [run_sysOpenat_refused hstart hopen]
              exact ⟨rfl, rfl, rfl⟩
          | ok f =>
              rw [run_sysOpenat_opened hstart hopen]
              rw [openatEnd, seated_host, seated_fdt, installed]
              have hanswer : (p.fdt.sysOpen flags (.ok f.made)).1 = (p.seating flags f x).1 := rfl
              rw [hanswer]
              cases (p.seating flags f x).1 <;> exact ⟨rfl, rfl, rfl⟩

theorem run_selfOf {odirfd : ℤ} {old : Bytes} (hold : old = []) {k : Option ℕ} (hself : p.session.self odirfd old = k)
    {g : ℕ → Sys η σ β} :
    (selfOf odirfd >>= g).run p = k.elim (.error .ENOENT, p) fun k => (g k).run p := by
  rw [SysvNt.Session.self] at hself
  by_cases hcwd : odirfd = AT_FDCWD
  · rw [if_pos (.inr hcwd)] at hself
    subst hself
    exact run_orFail_error (if_pos hcwd)
  · rw [if_neg (not_or.mpr ⟨not_not.mpr hold, hcwd⟩)] at hself
    have htable : p.session.table = p.fdt := rfl
    rw [htable] at hself
    cases hget : p.fdt.fdGet odirfd with
    | none =>
        rw [hget] at hself
        subst hself
        refine run_orFail_error ?_
        rw [if_neg hcwd, hget]
    | some e =>
        rw [hget] at hself
        subst hself
        refine run_orFail_ok ?_
        rw [if_neg hcwd, hget]

theorem run_linkatOld (odirfd : ℤ) (old : Bytes) (flags : UInt32) (g : Option Bytes × Bytes → Sys η σ α) :
    (baseOf odirfd old >>= fun base => linkatOldOf odirfd base old flags >>= g).run p =
      (orFail (fun p => p.session.linkatOld odirfd old flags) >>= g).run p := by
  have hstart : p.session.linkatOld odirfd old flags = (SysvNt.baseOf p.fdt p.dirs odirfd old >>= fun base =>
      if old ≠ [] then .ok (base, old) else (p.session.self odirfd old).elim (.error .ENOENT) fun k =>
        if has flags AT_EMPTY_PATH then .ok (none, (p.file k).path) else .error .ENOENT) := by
    have hbind : p.session.linkatOld odirfd old flags = (SysvNt.baseOf p.fdt p.dirs odirfd old >>= fun base => _) := rfl
    rw [hbind]
    cases p.session.self odirfd old <;> rfl
  rw [baseOf]
  cases hbase : SysvNt.baseOf p.fdt p.dirs odirfd old with
  | error e =>
      rw [hbase] at hstart
      rw [run_orFail_error hbase, run_orFail_error hstart]
  | ok base =>
      rw [hbase] at hstart
      change _ = ite _ _ _ at hstart
      rw [run_orFail_ok hbase, linkatOldOf]
      by_cases hold : old ≠ []
      · rw [if_pos hold] at hstart ⊢
        rw [run_orFail_ok hstart, pure_bind]
      rw [if_neg hold] at hstart ⊢
      by_cases hat : has flags AT_EMPTY_PATH = true
      · rw [if_pos hat, bind_assoc, run_selfOf (not_not.mp hold) rfl]
        cases hself : p.session.self odirfd old with
        | none =>
            rw [hself] at hstart
            rw [run_orFail_error hstart]
            rfl
        | some k =>
            rw [hself] at hstart
            have hpath : p.session.linkatOld odirfd old flags = .ok (none, (p.file k).path) := hstart.trans (if_pos hat)
            rw [run_orFail_ok hpath]
            rfl
      · have hnone : p.session.linkatOld odirfd old flags = .error .ENOENT := by
          rw [hstart]
          cases p.session.self odirfd old with
          | none => rfl
          | some k => exact if_neg hat
        rw [if_neg hat, run_orFail_error hnone]
        rfl

/-- `sys_linkat` up to the file system is what the session's reads of the process. -/
theorem run_sysLinkat_paths (odirfd : ℤ) (uold : UInt64) (ndirfd : ℤ) (unew : UInt64) (flags : UInt32) :
    (sysLinkat M odirfd uold ndirfd unew flags).run p =
      (orFail (fun p => p.session.linkatPaths odirfd (p.copied M uold) ndirfd (p.copied M unew) flags) >>= fun r => do
        vfs M fun K fs => vfsLink K fs r.1.1 r.1.2 r.2.1 r.2.2 (has flags AT_SYMLINK_FOLLOW)
        pure 0).run p := by
  rw [sysLinkat, copyPath, copyPath]
  cases hold : p.copied M uold with
  | error e =>
      rw [run_orFail_error hold, run_orFail_error]
      rw [hold]
      rfl
  | ok old =>
      rw [run_orFail_ok hold]
      cases hnew : p.copied M unew with
      | error e =>
          rw [run_orFail_error hnew, run_orFail_error]
          rw [hold, hnew]
          rfl
      | ok new =>
          rw [run_orFail_ok hnew]
          have hpaths : p.session.linkatPaths odirfd (p.copied M uold) ndirfd (p.copied M unew) flags =
              if flags &&& ~~~(AT_SYMLINK_FOLLOW ||| AT_EMPTY_PATH) ≠ 0 then .error .EINVAL
              else p.session.linkatOld odirfd old flags >>= fun src =>
                SysvNt.baseOf p.fdt p.dirs ndirfd new >>= fun base => .ok (src, (base, new)) := by
            rw [hold, hnew]
            rfl
          by_cases hflags : flags &&& ~~~(AT_SYMLINK_FOLLOW ||| AT_EMPTY_PATH) ≠ 0
          · rw [if_pos hflags] at hpaths ⊢
            rw [run_orFail_error hpaths]
            rfl
          rw [if_neg hflags] at hpaths ⊢
          rw [run_linkatOld]
          cases hsrc : p.session.linkatOld odirfd old flags with
          | error e =>
              rw [hsrc] at hpaths
              rw [run_orFail_error hsrc, run_orFail_error hpaths]
          | ok src =>
              rw [hsrc] at hpaths
              rw [run_orFail_ok hsrc, baseOf]
              cases hdst : SysvNt.baseOf p.fdt p.dirs ndirfd new with
              | error e =>
                  rw [hdst] at hpaths
                  rw [run_orFail_error hdst, run_orFail_error hpaths]
              | ok dst =>
                  rw [hdst] at hpaths
                  rw [run_orFail_ok hdst, run_orFail_ok hpaths]

/-- The process's `linkat` is the session's. -/
theorem sysLinkat_session (M : Platform η σ) (p : Task η σ) (odirfd : ℤ) (uold : UInt64) (ndirfd : ℤ) (unew : UInt64)
    (flags : UInt32) :
    let r := (p.session.sysLinkat (p.kernel M) odirfd (p.copied M uold) ndirfd (p.copied M unew) flags).run p.host
    (sysLinkat M odirfd uold ndirfd unew flags).run p = (r.1.map fun _ => 0, p.withHost r.2) := by
  dsimp only
  rw [run_sysLinkat_paths, SysvNt.Session.sysLinkat]
  cases hpaths : p.session.linkatPaths odirfd (p.copied M uold) ndirfd (p.copied M unew) flags with
  | error e =>
      rw [run_orFail_error hpaths]
      rfl
  | ok r =>
      rw [run_orFail_ok hpaths, vfs]
      change _ = (((vfsLink (p.kernel M) p.fs r.1.1 r.1.2 r.2.1 r.2.2 (has flags AT_SYMLINK_FOLLOW)).run
        p.host).1.map fun _ => (0 : Int64), p.withHost ((vfsLink (p.kernel M) p.fs r.1.1 r.1.2 r.2.1 r.2.2
          (has flags AT_SYMLINK_FOLLOW)).run p.host).2)
      cases hlink : (vfsLink (p.kernel M) p.fs r.1.1 r.1.2 r.2.1 r.2.2 (has flags AT_SYMLINK_FOLLOW)).run p.host with
      | mk a x =>
          cases a with
          | error e => rw [run_onHost_error hlink]; rfl
          | ok u => rw [run_onHost_ok hlink]; rfl

end Calling

section Running

variable {M : Platform η σ} {K : Kernel η σ} {T : MountTable η} {a p q : Task η σ}

/-- A run of the session leads from the one process to the other. -/
def Goes (K : Kernel η σ) (a p : Task η σ) : Prop := SysvNt.Session.Run K a.session p.session

theorem described_lasting : Lasting fun p : Task η σ => (p.fs, p.file) := fun _ _ _ _ _ => rfl

namespace Goes

theorem refl (K : Kernel η σ) (p : Task η σ) : Goes K p p := ReflTransGen.refl

/-- Descriptions that stay as they are. -/
theorem kept (h : Goes K a p) (hsame : (q.fs, q.file) = (p.fs, p.file)) (hnext : q.fdt.next = p.fdt.next) :
    Goes K a q := by
  obtain ⟨hfs, hfile⟩ := Prod.mk.inj hsame
  have hend : q.session = { p.session with host := q.host, table := q.fdt } := by
    rw [session, session, hfs, hfile]
  rw [Goes, hend]
  exact (ReflTransGen.tail h (.host q.host)).tail (.descriptors q.fdt hnext)

theorem withHost (h : Goes K a p) (x : σ) : Goes K a (p.withHost x) := h.kept rfl rfl

theorem context (h : Goes K a p) {fs : FsCtx η} (htable : fs.table = p.fs.table) (hcwd : Canonical fs.cwd) :
    Goes K a { p with fs := fs } := ReflTransGen.tail h (.context fs htable hcwd)

theorem filePut (h : Goes K a p) (M : Platform η σ) (k : ℕ) : Goes K a (p.filePut M k) := by
  refine h.kept (filePut_leaves M described_lasting k p) ?_
  rw [filePut_files]
  rfl

theorem install (h : Goes K a p) (k : ℕ) (cloexec : Bool) (min : ℤ) :
    Goes K a (p.setFdt (p.fdt.fdInstall k cloexec min).2) := h.kept rfl (fdInstall_next p.fdt k cloexec min)

theorem fdClose (h : Goes K a p) (M : Platform η σ) (fd : ℤ) : Goes K a (p.fdClose M fd).2 := by
  refine h.kept (fdClose_leaves M described_lasting fd p) ?_
  rw [(fdClose_table M p fd).2]
  exact fdClose_next p.fdt fd

theorem console (h : Goes K a p) (flags : UInt32) (i : ℕ) :
    Goes K a (p.fileNew FILE_KIND_CONSOLE flags .console i) := ReflTransGen.tail h (.console _ rfl)

theorem pipeEnds (h : Goes K a p) (r : ℕ) (flags : UInt32) : Goes K a (p.pipeEnds r flags) := by
  have hdesc : (p.pipeEnds r flags).file =
      fun k => if k = p.fdt.next ∨ k = p.fdt.next + 1 then .pipe (p.rings r).p.ino else p.file k := by
    funext k
    change Function.update (Function.update p.file p.fdt.next _) (p.fdt.next + 1) _ k = _
    by_cases hwr : k = p.fdt.next + 1
    · rw [hwr, Function.update_self, if_pos (.inr rfl)]
    · rw [Function.update_of_ne hwr]
      by_cases hrd : k = p.fdt.next
      · rw [hrd, Function.update_self, if_pos (.inl rfl)]
      · rw [Function.update_of_ne hrd, if_neg (not_or.mpr ⟨hrd, hwr⟩)]
  have hend : (p.pipeEnds r flags).session = { p.session with
      table := (p.pipeEnds r flags).fdt
      desc := fun k => if k = p.fdt.next ∨ k = p.fdt.next + 1 then .pipe (p.rings r).p.ino else p.file k } := by
    rw [session, hdesc]
    rfl
  rw [Goes, hend]
  exact ReflTransGen.tail h (.pipe (p.rings r).p.ino (p.pipeEnds r flags).fdt rfl)

/-- What is opened is what the session's `openat` opens. -/
theorem opened (h : Goes K a p) (hK : K.store = M.store) {dirfd : ℤ} {upath : UInt64} {flags mode : UInt32}
    {base : Option Bytes} {path : Bytes} {f : OpenFile η} {x : σ}
    (hstart : openatPath p.fdt p.dirs dirfd (p.copied M upath) = .ok (base, path))
    (hopen : (SysvNt.vfsOpen (p.kernel M) p.fs base path flags mode).run p.host = (.ok f, x)) :
    Goes K a (p.seated M flags f x) := by
  have hleaves : ((p.seated M flags f x).fs, (p.seated M flags f x).file) =
      (p.fs, Function.update p.file p.fdt.next (.opened f)) :=
    filePut_leaves M described_lasting p.fdt.next ((p.withOpened f x).setFdt (p.seating flags f x).2)
  obtain ⟨hfs, hfile⟩ := Prod.mk.inj hleaves
  have hend : (p.seated M flags f x).session = ⟨(p.seated M flags f x).host, p.fs,
      (p.fdt.sysOpen flags (.ok f.made)).2, Function.update p.file p.fdt.next (.opened f)⟩ := by
    rw [session, hfs, hfile, seated_fdt]
  rw [Goes, hend]
  have hstore : (p.kernel M).store = K.store := (kernel_store M p).trans hK.symm
  exact (ReflTransGen.tail h (.opens hstore hstart hopen)).tail (.host _)

end Goes

variable (hK : K.store = M.store)

include hK in
theorem sysOpenat_goes (h : Goes K a p) (dirfd : ℤ) (upath : UInt64) (flags mode : UInt32) :
    Goes K a ((sysOpenat M dirfd upath flags mode).run p).2 := by
  cases hstart : openatPath p.fdt p.dirs dirfd (p.copied M upath) with
  | error e =>
      rw [run_sysOpenat_unstarted hstart]
      exact h
  | ok start =>
      obtain ⟨base, path⟩ := start
      cases hopen : (SysvNt.vfsOpen (p.kernel M) p.fs base path flags mode).run p.host with
      | mk r x =>
          cases r with
          | error e =>
              rw [run_sysOpenat_refused hstart hopen]
              exact h.withHost x
          | ok f =>
              rw [run_sysOpenat_opened hstart hopen]
              exact h.opened hK hstart hopen

theorem way_goes : Way M (Goes K a) where
  host _ x hq := hq.withHost x
  install _ k cloexec min hq := hq.install k cloexec min
  put _ k hq := hq.filePut M k

theorem consoleWay_goes : ConsoleWay M (Goes K a) where
  toWay := way_goes
  console _ flags i hq := hq.console flags i

theorem pipeWay_goes : PipeWay M (Goes K a) where
  toWay := way_goes
  ringNew _ hq := hq.kept rfl rfl
  ringDrop _ _ hq := hq.kept rfl rfl
  pipeEnds _ r flags hq := hq.pipeEnds r flags
  close _ fd hq := hq.fdClose M fd

/-- Where the working directory is set, its path is canonical. -/
theorem sysChdir_goes (h : Goes K a p) (hcwd : Canonical p.fs.cwd) (upath : UInt64) :
    KeepsAt (Goes K a) p (sysChdir M upath) fun _ => True := by
  rw [sysChdir]
  refine orFail_bind h fun path _ => ?_
  have hanyway : FallibleCalls.Ends (fun _ => True) (vfsChdir (p.kernel M) p.fs none path) (fun _ _ => True)
      fun _ => True := fun _ _ => ⟨fun _ _ _ => trivial, fun _ _ _ => trivial⟩
  refine onHost_bind hanyway trivial (fun x _ => h.withHost x) fun cwd x hrun _ => ?_
  have hfrom : Canonical ((none : Option Bytes).getD p.fs.cwd) := hcwd
  have hset : Canonical cwd := by
    change (SysvNt.walkPath (p.kernel M) p.fs none path W_MUSTDIR >>= fun loc => _).run p.host = _ at hrun
    obtain ⟨loc, y, hwalk, hrun⟩ := of_run_bind hrun
    obtain ⟨st, z, -, hrun⟩ := of_run_bind hrun
    obtain ⟨_, w, -, hrun⟩ := of_run_bind hrun
    cases hrun
    exact walkPath_canonical hfrom hwalk
  exact change_bind (keepsAt_pure ((h.withHost x).context rfl hset) trivial)

theorem sysFchdir_goes (h : Goes K a p) {T : MountTable η} (hT : InPlace T) (hp : p.session.Sound T) (fd : ℤ) :
    KeepsAt (Goes K a) p (sysFchdir fd) fun _ => True := by
  rw [sysFchdir]
  refine orFail_bind h fun k _ => orFail_bind h fun cwd hcwd => ?_
  exact change_bind (keepsAt_pure (h.context rfl (fchdir_canonical hT (hp.made k) hcwd)) trivial)

theorem sysUmask_goes (h : Goes K a p) (hcwd : Canonical p.fs.cwd) (mask : UInt32) :
    KeepsAt (Goes K a) p (sysUmask mask) fun _ => True := by
  rw [sysUmask]
  exact look_bind (change_bind (keepsAt_pure (h.context rfl hcwd) trivial))

include hK in
/-- Whatever the call, it takes the session on its way. -/
theorem perform_goes (h : Goes K a p) {T : MountTable η} (hT : InPlace T) (hp : p.session.Sound T) (c : SysCall) :
    Goes K a ((perform M c).run p).2 := by
  cases htouches : c.touches with
  | true =>
      cases hmakes : c.makes with
      | true =>
          cases c with
          | openat dirfd upath flags mode => exact sysOpenat_goes hK h dirfd upath flags mode
          | pipe2 ufds flags => exact (sysPipe2_kept pipeWay_goes h ufds flags).1
          | _ => cases hmakes
      | false =>
          obtain ⟨fc, hfc⟩ := perform_touches (M := M) htouches p
          refine h.kept (perform_onTable_leaves M described_lasting htouches hmakes p) ?_
          rw [hfc.leaves]
          exact call_next p.fdt hfc.is hmakes
  | false =>
      cases hsets : c.setsFs with
      | false =>
          have hbeside : Leaves (fun p : Task η σ => (p.fs, p.file, p.fdt)) (perform M c) :=
            perform_leaves (fun _ _ => rfl) htouches hsets
          have hleaves := hbeside p
          simp only [Prod.mk.injEq] at hleaves
          obtain ⟨hfs, hfile, hfdt⟩ := hleaves
          exact h.kept (Prod.ext hfs hfile) (congrArg FdState.next hfdt)
      | true =>
          cases c with
          | chdir upath => exact (sysChdir_goes h hp.cwd upath).1
          | fchdir fd => exact (sysFchdir_goes h hT hp fd).1
          | umask mask => exact (sysUmask_goes h hp.cwd mask).1
          | _ => cases hsets

include hK in
theorem step_goes (h : Goes K a p) {T : MountTable η} (hT : InPlace T) (hp : p.session.Sound T) (e : TaskEvent σ) :
    Goes K a (e.step M p) := by
  cases e with
  | outside change => exact h.withHost _
  | call f =>
      rw [TaskEvent.step, syscallDispatch, sysFsDispatch]
      split_ifs
      · exact h
      · cases f.call with
        | none => exact h
        | some c => exact perform_goes hK h hT hp c

include hK in
/-- A run of the process is one of the session. -/
theorem after_goes {T : MountTable η} (hT : InPlace T) (hp : p.session.Sound T) (es : List (TaskEvent σ)) :
    Goes K p (p.after M es) := by
  have hall (q : Task η σ) (hq : Goes K p q) : Goes K p (q.after M es) := by
    induction es generalizing q with
    | nil => exact hq
    | cons e es ih => exact ih _ (step_goes hK hq hT (SysvNt.Session.Run.sound hT hp hq) e)
  exact hall p (.refl K p)

theorem vfsInit_initial {path : Bytes} {x y : σ} {fs : FsCtx η} (h : (M.vfsInit path).run x = (.ok fs, y)) :
    ∃ root dev lxCapable, fs = FsCtx.initial root dev lxCapable := by
  rw [Platform.vfsInit] at h
  obtain ⟨root, _, -, h⟩ := of_run_bind h
  obtain ⟨serial, _, -, h⟩ := of_run_bind h
  obtain ⟨lxCapable, _, -, h⟩ := of_run_bind h
  obtain ⟨_, _, -, h⟩ := of_run_bind h
  cases h
  exact ⟨_, _, _, rfl⟩

/-- `task_init` makes the session that starts on the console. -/
theorem taskInit_session {path : Bytes} {x y : σ} (h : (taskInit M path).run x = (.ok p, y)) (K : Kernel η σ) :
    InPlace p.fs.table ∧
      ∃ fs x₀, fs.table = p.fs.table ∧ Canonical fs.cwd ∧ SysvNt.Session.Run K (.start fs x₀) p.session := by
  obtain ⟨fs, x₁, hinit, hrun⟩ := of_taskInit h
  obtain ⟨root, dev, lxCapable, rfl⟩ := vfsInit_initial hinit
  have hall := (consoleFiles_kept (M := M) consoleWay_goes (.refl K (.initial x₁ (FsCtx.initial root dev lxCapable)))).1
  have hT := initial_inPlace root dev lxCapable
  have hstart : (SysvNt.Session.start (FsCtx.initial root dev lxCapable) x₁).Sound
      (FsCtx.initial root dev lxCapable).table := SysvNt.Session.start_sound Canonical.root x₁
  rw [hrun] at hall
  have htable : p.fs.table = MountTable.initial root dev lxCapable := (SysvNt.Session.Run.sound hT hstart hall).table
  rw [htable]
  exact ⟨hT, _, x₁, rfl, Canonical.root, hall⟩

/-- From its start through all that it does, a process is a session. -/
theorem process_is_session {path : Bytes} {x y : σ} (hinit : (taskInit M path).run x = (.ok p, y))
    (es : List (TaskEvent σ)) (hK : K.store = M.store) : InPlace p.fs.table ∧
      ∃ fs x₀, fs.table = p.fs.table ∧ Canonical fs.cwd ∧ SysvNt.Session.Run K (.start fs x₀) p.session ∧
        SysvNt.Session.Run K p.session (p.after M es).session := by
  obtain ⟨hT, fs, x₀, htable, hcwd, hrun⟩ := taskInit_session hinit K
  have hsound : p.session.Sound p.fs.table := by
    rw [← htable] at hT ⊢
    exact SysvNt.Session.Run.sound hT (SysvNt.Session.start_sound hcwd x₀) hrun
  exact ⟨hT, fs, x₀, htable, hcwd, hrun, after_goes hK hT hsound es⟩

theorem after_session_sound {path : Bytes} {x y : σ} (hinit : (taskInit M path).run x = (.ok p, y))
    (es : List (TaskEvent σ)) : InPlace p.fs.table ∧ (p.after M es).session.Sound p.fs.table := by
  obtain ⟨hT, fs, x₀, htable, hcwd, hrun, hafter⟩ := process_is_session hinit es (kernel_store M p)
  refine ⟨hT, ?_⟩
  rw [← htable] at hT ⊢
  exact SysvNt.Session.Run.sound hT (SysvNt.Session.start_sound hcwd x₀) (hrun.trans hafter)

/-- In every run, what `linkat` of a descriptor gives another name is the object of its description, exactly if the
description's path leads to no other file; and when it fails, nothing has a new name. -/
theorem process_linkat {ι ν : Type} {V : DirectoryView η σ ι} {view : σ → ν} (hS : V.Serves M.store view)
    {path : Bytes} {x y : σ} (hinit : (taskInit M path).run x = (.ok p, y)) (hD : RootsAreDirs M.store p.fs.table)
    (es : List (TaskEvent σ)) {fd ndirfd : ℤ} {uold unew : UInt64} {flags : UInt32} {i : Slot} {k : ℕ}
    (hq : p.after M es = q) (hfd : q.fdt.fdGet fd = some (i, k)) (hempty : q.copied M uold = .ok [])
    {r : Except Errno Int64} {q' : Task η σ} (h : (sysLinkat M fd uold ndirfd unew flags).run q = (r, q')) :
    (∀ n, r = .ok n → (V.LinkedTo (q.kernel M) q.session k ndirfd (q.copied M unew) flags q'.host ↔
      ∀ o, V.LeadsToFile (q.kernel M) q.fs q.host none (q.file k).path
        (if has flags AT_SYMLINK_FOLLOW then 0 else W_NOFOLLOW) o → (q.file k).object V = some o)) ∧
      ∀ e, r = .error e → view q'.host = view q.host := by
  obtain ⟨hT, hsound⟩ := after_session_sound hinit es
  rw [hq] at hsound
  rw [← kernel_store M q] at hS hD
  rw [sysLinkat_session, hempty] at h
  obtain ⟨rfl, rfl⟩ := Prod.mk.inj h
  cases hrun : (q.session.sysLinkat (q.kernel M) fd (.ok []) ndirfd (q.copied M unew) flags).run q.host with
  | mk r x' =>
      cases r with
      | ok u => exact ⟨fun n _ => sysLinkat_linked_iff hS hD hT hsound hfd hrun, fun e he => by cases he⟩
      | error e => exact ⟨fun n hn => (by cases hn), fun _ _ => sysLinkat_refused hS hD hT hsound hfd hrun⟩

end Running

end Task

end SysvNt
