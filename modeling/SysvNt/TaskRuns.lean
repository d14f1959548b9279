import SysvNt.TaskCalls

/-!
# The life of a process

`task_init` mounts the root and opens the console three times; from then on the process makes system calls,
while others change the host, and `task_release` drops what is left. Through all of it the process holds on
the host and in its rings what its descriptions stand for, and after the release it holds nothing.
-/

namespace SysvNt

open FallibleCalls FdState FileOps Ownership RefCounting

variable {η σ : Type}

namespace Platform

variable (M : Platform η σ)

/-- The tree is to be case sensitive, where the volume can be. What the host answers is not looked at. -/
def markRoot (lxCapable : Bool) (root : η) : Call Errno σ Unit :=
  if lxCapable then attempt (M.setCaseSensitive root) >>= fun _ => pure () else pure ()

def vfsInit (path : Bytes) : Call Errno σ (FsCtx η) := do
  let root ← M.openRoot path
  let serial ← liftM (M.volumeSerial root)
  let lxCapable ← liftM (M.lxCapable root)
  M.markRoot lxCapable root
  pure (FsCtx.initial root (if serial = 0 then 0x1001 else serial) lxCapable)

end Platform

namespace Task

def initial (x : σ) (fs : FsCtx η) : Task η σ where
  pid := 1
  host := x
  fs := fs
  fdt := fdtableInit
  file _ := .console
  privI _ := 0
  scan _ := ⟨0, false, [], none⟩
  rings _ := ⟨⟨⟨fun _ => 0, 0, 0, 0⟩, 0, 0, 0⟩, 0⟩
  nextRing := 0
  nextIno := 1

variable (M : Platform η σ)

def consoleFile (i : ℕ) : Sys η σ Unit := do
  alloc M
  let k ← look fun p => p.fdt.next
  change fun p => p.fileNew FILE_KIND_CONSOLE (if i = 0 then O_RDONLY else O_WRONLY) .console i
  let _ ← attempt (onFds fun t => t.fdInstall k false i)
  change fun p => p.filePut M k

def consoleFiles : Sys η σ Unit := do
  consoleFile M 0
  consoleFile M 1
  consoleFile M 2

def taskInit (path : Bytes) : Call Errno σ (Task η σ) := do
  let fs ← M.vfsInit path
  ExceptT.mk fun x =>
    let r := (consoleFiles M).run (.initial x fs)
    (r.1.map fun _ => r.2, r.2.host)

variable (p : Task η σ)

def releaseSlot (i : Slot) : Task η σ :=
  match p.fdt.files i with
  | none => p
  | some k => (p.filePut M k).setFdt ((p.filePut M k).fdt.seat i none)

def fdtableRelease : Task η σ := (List.finRange NR_OPEN_DEFAULT).foldl (releaseSlot M) p

def closeRoot (x : σ) (m : Mount η) : σ :=
  match m.type with
  | .host root => (M.store.close root x).2
  | _ => x

def vfsRelease : Task η σ := p.withHost (p.fs.table.mounts.foldl (closeRoot M) p.host)

def taskRelease : Task η σ := (p.fdtableRelease M).vfsRelease M

end Task

/-- What `task_init` makes is what opening the console has left. -/
theorem Task.of_taskInit {M : Platform η σ} {path : Bytes} {x y : σ} {p : Task η σ}
    (h : (taskInit M path).run x = (.ok p, y)) : ∃ fs x₁, (M.vfsInit path).run x = (.ok fs, x₁) ∧
      (consoleFiles M).run (.initial x₁ fs) = (.ok (), p) := by
  rw [taskInit] at h
  obtain ⟨fs, x₁, hinit, h⟩ := of_run_bind h
  refine ⟨fs, x₁, hinit, ?_⟩
  rw [ExceptT.run_mk] at h
  cases hrun : (consoleFiles M).run (.initial x₁ fs) with
  | mk r q =>
      rw [hrun] at h
      cases r with
      | error e => cases h
      | ok u =>
          cases h
          rfl

/-- The process is in the kernel with a frame, or something else changes the host. -/
inductive TaskEvent (σ : Type) where
  | call (f : SysFrame)
  | outside (change : σ → σ)

namespace TaskEvent

/-- A run that ends with a status leaves the process as it is. -/
def step (M : Platform η σ) (p : Task η σ) : TaskEvent σ → Task η σ
  | .outside change => p.withHost (change p.host)
  | .call f => match Task.syscallDispatch M f with
    | .inl _ => p
    | .inr m => (m.run p).2

/-- What else happens does not touch the handles of the process. -/
def counted : TaskEvent σ → TaskEvent (σ × Ledger)
  | .call f => .call f
  | .outside change => .outside fun x => (change x.1, x.2)

end TaskEvent

def Task.after (M : Platform η σ) (p : Task η σ) (es : List (TaskEvent σ)) : Task η σ := es.foldl (TaskEvent.step M) p

namespace Task

section Calls

variable {M : Platform η σ} {T : MountTable (η × ℕ)} {held : List ℕ} {p : Task (η × ℕ) (σ × Ledger)}

theorem look_sound {α : Type} (hp : Sound T held p) (f : Task (η × ℕ) (σ × Ledger) → α) :
    Accounted T held p (look f) := ⟨hp, fun _ _ => trivial⟩

/-- Every system call keeps the account. -/
theorem perform_sound (hT : InPlace T) (hp : Sound T held p) (c : SysCall) :
    Accounted T held p (perform M.counted c) := by
  cases c with
  | read fd ubuf len => exact sysRead_sound hp fd ubuf len
  | write fd ubuf len => exact sysWrite_sound hp fd ubuf len
  | pread64 fd ubuf len off => exact sysPread64_sound hp fd ubuf len off
  | pwrite64 fd ubuf len off => exact sysPwrite64_sound hp fd ubuf len off
  | readvWritev fd uiov cnt writing => exact sysReadvWritev_sound hp fd uiov cnt writing
  | openat dirfd upath flags mode => exact sysOpenat_sound hT hp dirfd upath flags mode
  | close fd => exact sysClose_sound hp fd
  | fstatat dirfd upath ust flags statx => exact sysFstatat_sound hT hp dirfd upath ust flags statx
  | fstat fd ust => exact sysFstat_sound hp fd ust
  | lseek fd off whence => exact sysLseek_sound hp fd off whence
  | faccessat dirfd upath mode flags => exact sysFaccessat_sound hT hp dirfd upath mode flags
  | pipe2 ufds flags => exact sysPipe2_sound hp ufds flags
  | dup fd => exact sysDup_sound hp fd
  | dup2 oldfd newfd => exact sysDup2_sound hp oldfd newfd
  | dup3 oldfd newfd flags => exact sysDup3_sound hp oldfd newfd flags
  | fcntl fd cmd arg => exact sysFcntl_sound hp fd cmd arg
  | fsync fd => exact sysFsync_sound hp fd
  | truncate upath size => exact sysTruncate_sound hp upath size
  | ftruncate fd size => exact sysFtruncate_sound hp fd size
  | getdents64 fd ubuf len => exact sysGetdents64_sound hp fd ubuf len
  | getcwd ubuf cap => exact sysGetcwd_sound hp ubuf cap
  | chdir upath => exact sysChdir_sound hp upath
  | fchdir fd => exact sysFchdir_sound hT hp fd
  | renameat2 odirfd uold ndirfd unew flags => exact sysRenameat2_sound hT hp odirfd uold ndirfd unew flags
  | mkdirat dirfd upath mode => exact sysMkdirat_sound hT hp dirfd upath mode
  | unlinkat dirfd upath flags => exact sysUnlinkat_sound hT hp dirfd upath flags
  | linkat odirfd uold ndirfd unew flags => exact sysLinkat_sound hT hp odirfd uold ndirfd unew flags
  | symlinkat utarget dirfd upath => exact sysSymlinkat_sound hT hp utarget dirfd upath
  | readlinkat dirfd upath ubuf cap => exact sysReadlinkat_sound hT hp dirfd upath ubuf cap
  | fchmodat dirfd upath mode => exact sysFchmodat_sound hT hp dirfd upath mode
  | fchmod fd mode => exact sysFchmod_sound hp fd mode
  | fchownat dirfd upath uid gid flags => exact sysFchownat_sound hT hp dirfd upath uid gid flags
  | fchown fd uid gid => exact sysFchown_sound hp fd uid gid
  | utimensat dirfd upath utimes flags => exact sysUtimensat_sound hT hp dirfd upath utimes flags
  | mknodat dirfd upath mode dev => exact sysMknodat_sound hT hp dirfd upath mode dev
  | umask mask => exact sysUmask_sound hp mask
  | getpid => exact look_sound hp _
  | getuid => exact look_sound hp _
  | geteuid => exact look_sound hp _
  | getgid => exact look_sound hp _
  | getegid => exact look_sound hp _

theorem step_sound (hT : InPlace T) (hp : Sound T held p) (e : TaskEvent σ) :
    Sound T held (e.counted.step M.counted p) := by
  cases e with
  | outside change => exact hp.withHost hp.handles
  | call f =>
      rw [TaskEvent.counted, TaskEvent.step, syscallDispatch, sysFsDispatch]
      by_cases hexit : f.nr = NR_exit_group
      · rw [if_pos hexit]
        exact hp
      · rw [if_neg hexit]
        cases f.call with
        | none => exact hp
        | some c => exact (perform_sound hT hp c).1

theorem run_sound (hT : InPlace T) (hp : Sound T held p) (es : List (TaskEvent σ)) :
    Sound T held (p.after M.counted (es.map TaskEvent.counted)) := by
  induction es generalizing p with
  | nil => exact hp
  | cons e es ih => exact ih (step_sound hT hp e)

end Calls

section Start

variable {M : Platform η σ} {T : MountTable (η × ℕ)} {held : List ℕ} {p : Task (η × ℕ) (σ × Ledger)} {ns : List ℕ}

theorem openRoot_ends (path : Bytes) :
    FallibleCalls.Ends (Holds ns) (M.counted.openRoot path) (fun h => Holds (h.2 :: ns)) (Holds ns) := by
  intro x hx
  rw [Platform.counted, ExceptT.run_mk]
  cases (M.openRoot path).run x.1 with
  | mk r y =>
      cases r with
      | ok h =>
          refine ⟨fun a z hz => ?_, fun e z hz => by cases hz⟩
          cases hz
          exact Owns.give hx
      | error e =>
          refine ⟨fun a z hz => (by cases hz), fun e z hz => ?_⟩
          cases hz
          exact hx

theorem markRoot_keeps {root : η × ℕ} (hroot : root.2 ∈ ns) (lxCapable : Bool) :
    Keeps (Holds ns) (M.counted.markRoot lxCapable root) fun _ => True := by
  have hset : Keeps (Holds ns) (M.counted.setCaseSensitive root) fun _ => True :=
    onHandles_keeps (by simpa using hroot) _
  rw [Platform.markRoot]
  split_ifs
  · exact hset.attempt.bind fun _ _ => Keeps.pure trivial
  · exact Keeps.pure trivial

/-- `vfs_init` opens the root, and nothing else. -/
theorem vfsInit_run {path : Bytes} {x y : σ × Ledger} {fs : FsCtx (η × ℕ)} (hx : Holds [] x)
    (h : (M.counted.vfsInit path).run x = (.ok fs, y)) :
    ∃ root dev lxCapable, fs = FsCtx.initial root dev lxCapable ∧ Holds [root.2] y := by
  rw [Platform.vfsInit] at h
  obtain ⟨root, x₁, hopen, h⟩ := of_run_bind h
  have hx₁ : Holds [root.2] x₁ := (openRoot_ends path x hx).1 root x₁ hopen
  have hused : x₁.2.use root.2 = x₁.2 := Owns.use hx₁ List.mem_cons_self
  obtain ⟨serial, x₂, hserial, h⟩ := of_run_bind h
  obtain ⟨lxCapable, x₃, hcapable, h⟩ := of_run_bind h
  obtain ⟨_, x₄, hmark, h⟩ := of_run_bind h
  have hx₂ : Holds [root.2] x₂ := by
    cases hserial
    exact (congrArg (Owns [root.2]) hused).mpr hx₁
  have hx₃ : Holds [root.2] x₃ := by
    cases hcapable
    exact (congrArg (Owns [root.2]) (Owns.use hx₂ List.mem_cons_self)).mpr hx₂
  have hx₄ := ((markRoot_keeps List.mem_cons_self lxCapable).of_run hx₃ hmark).1
  cases h
  exact ⟨root, _, lxCapable, rfl, hx₄⟩

theorem initial_sound {x : σ × Ledger} {root : η × ℕ} (hx : Holds [root.2] x) (dev : UInt64) (lxCapable : Bool) :
    Sound (MountTable.initial root dev lxCapable) [] (.initial x (FsCtx.initial root dev lxCapable)) where
  table := rfl
  cwd := Canonical.root
  fds := fdtableInit_balanced
  made _ := .console
  handles := hx
  rings _ hr := absurd hr (Nat.not_lt_zero _)
  known _ hk := absurd hk List.not_mem_nil

theorem consoleFile_sound (hp : Sound T held p) (i : ℕ) : Accounted T held p (consoleFile M.counted i) := by
  rw [consoleFile]
  refine (alloc_sound hp).bind fun _ q _ hq _ => ?_
  refine look_bind (change_bind (attempt_fds_bind (change_sound ?_)))
  have hnew : Sound T (q.fdt.next :: held)
      (q.fileNew FILE_KIND_CONSOLE (if i = 0 then O_RDONLY else O_WRONLY) .console i) :=
    hq.fileNew .console rfl hq.handles _ _ _
  have hpos := hnew.fds.counted.pos_of_held List.mem_cons_self
  exact (hnew.fdInstall hpos false i).filePut

theorem consoleFiles_sound (hp : Sound T held p) : Accounted T held p (consoleFiles M.counted) := by
  rw [consoleFiles]
  refine (consoleFile_sound hp 0).bind fun _ q _ hq _ => ?_
  refine (consoleFile_sound hq 1).bind fun _ r _ hr _ => ?_
  exact consoleFile_sound hr 2

/-- The process that `task_init` makes is accounted for. -/
theorem taskInit_sound {path : Bytes} {x y : σ × Ledger} (hx : Holds [] x)
    (h : (taskInit M.counted path).run x = (.ok p, y)) : InPlace p.fs.table ∧ Sound p.fs.table [] p := by
  obtain ⟨fs, x₁, hinit, hrun⟩ := of_taskInit h
  obtain ⟨root, dev, lxCapable, rfl, hx₁⟩ := vfsInit_run hx hinit
  have hsound := (consoleFiles_sound (M := M) (initial_sound hx₁ dev lxCapable)).1
  rw [hrun] at hsound
  rw [hsound.table]
  exact ⟨initial_inPlace root dev lxCapable, hsound⟩

end Start

section Release

variable {M : Platform η σ} {T : MountTable (η × ℕ)} {held : List ℕ} {p : Task (η × ℕ) (σ × Ledger)} {ns : List ℕ}

theorem releaseSlot_eq (M : Platform η σ) (a : Task η σ) {i : Slot} {k : ℕ} (hi : a.fdt.files i = some k) :
    a.releaseSlot M i = (a.setFdt (a.fdt.seat i none)).filePut M k := by
  have hput : (a.setFdt (a.fdt.seat i none)).filePut M k = (a.filePut M k).setFdt ((a.fdt.seat i none).filePut k) :=
    filePut_setFdt M a k rfl
  rw [hput, ← FdState.filePut_seat, ← filePut_files M, Task.releaseSlot, hi]

theorem releaseSlot_files (M : Platform η σ) (a : Task η σ) (i : Slot) :
    (a.releaseSlot M i).fdt = a.fdt.releaseSlot i := by
  rw [FdState.releaseSlot]
  cases hi : a.fdt.files i with
  | none => rw [Task.releaseSlot, hi]
  | some k =>
      rw [releaseSlot_eq M a hi, filePut_files]
      exact (FdState.filePut_seat ..).symm

theorem nextRing_filePut (M : Platform η σ) (a : Task η σ) (k : ℕ) : (a.filePut M k).nextRing = a.nextRing := by
  rw [Task.filePut]
  split_ifs
  · rfl
  · rw [Task.release]
    cases a.file k <;> rfl

theorem releaseSlot_nextRing (M : Platform η σ) (a : Task η σ) (i : Slot) :
    (a.releaseSlot M i).nextRing = a.nextRing := by
  cases hi : a.fdt.files i with
  | none => rw [Task.releaseSlot, hi]
  | some k =>
      rw [releaseSlot_eq M a hi, nextRing_filePut]
      rfl

theorem Sound.releaseSlot (hp : Sound T held p) (i : Slot) : Sound T held (p.releaseSlot M.counted i) := by
  cases hi : p.fdt.files i with
  | none =>
      rw [Task.releaseSlot, hi]
      exact hp
  | some k =>
      rw [releaseSlot_eq _ p hi]
      exact (hp.setFdt (hp.fds.lift hi) (live_congr rfl fun _ => Iff.rfl) fun _ => rfl).filePut

theorem Sound.fdtableRelease (hp : Sound T held p) : Sound T held (p.fdtableRelease M.counted) ∧
    (p.fdtableRelease M.counted).fdt = p.fdt.fdtableRelease ∧ (p.fdtableRelease M.counted).nextRing = p.nextRing := by
  rw [Task.fdtableRelease, FdState.fdtableRelease]
  generalize List.finRange NR_OPEN_DEFAULT = slots
  induction slots generalizing p with
  | nil => exact ⟨hp, rfl, rfl⟩
  | cons i is ih =>
      have hone := ih (hp.releaseSlot (M := M) i)
      rw [releaseSlot_files, releaseSlot_nextRing] at hone
      exact hone

/-- Without descriptors nothing refers to a description. -/
theorem Sound.refs_eq_zero (hp : Sound T [] p) (hfiles : ∀ i, p.fdt.files i = none) (k : ℕ) :
    (p.fdt.heap k).refs = 0 := by
  have hcount := hp.fds.counted k
  rw [slotCount_eq_zero hfiles k] at hcount
  exact hcount

theorem live_eq_nil {t : FdState} (h : ∀ k, (t.heap k).refs = 0) : t.live = [] := by
  rw [FdState.live, List.filter_eq_nil_iff]
  intro k _
  rw [h k]
  decide

def rootHandle (m : Mount (η × ℕ)) : Option ℕ :=
  match m.type with
  | .host root => some root.2
  | _ => none

theorem rootHandles_eq (T : MountTable (η × ℕ)) : T.rootHandles = T.mounts.filterMap rootHandle := rfl

/-- The roots are closed, each once. -/
theorem closeRoots_holds {ms : List (Mount (η × ℕ))} {x : σ × Ledger}
    (hx : Holds (ms.filterMap rootHandle ++ ns) x) : Holds ns (ms.foldl (closeRoot M.counted) x) := by
  induction ms generalizing x with
  | nil => exact hx
  | cons m ms ih =>
      rw [List.foldl_cons]
      refine ih ?_
      rw [List.filterMap_cons, rootHandle] at hx
      rw [closeRoot]
      cases htype : m.type with
      | host root =>
          rw [htype] at hx
          exact close_holds M.store root x hx
      | proc =>
          rw [htype] at hx
          exact hx
      | dev =>
          rw [htype] at hx
          exact hx

structure Released (p q : Task (η × ℕ) (σ × Ledger)) : Prop where
  handles : Owns [] q.host.2
  descriptions : ∀ k < p.fdt.next, (q.fdt.heap k).refs = 0 ∧ (q.fdt.heap k).releases = 1
  rings : ∀ r < p.nextRing, (q.rings r).p.readers = 0 ∧ (q.rings r).p.writers = 0 ∧ (q.rings r).frees = 1

/-- The end of a process that has no descriptors any more. -/
theorem Sound.vfsRelease (hp : Sound T [] p) (hfiles : ∀ i, p.fdt.files i = none) :
    Released p (p.vfsRelease M.counted) := by
  have hrefs := hp.refs_eq_zero hfiles
  have hlive := live_eq_nil hrefs
  have hends (r : ℕ) (reading : Bool) : p.ends r reading = 0 := by
    rw [Task.ends, hlive, List.countP_nil]
  refine ⟨?_, fun k hk => ⟨hrefs k, ?_⟩, fun r hr => ?_⟩
  · have hroots := hp.handles
    rw [Task.handles, hlive, List.flatMap_nil, List.nil_append, ← hp.table, rootHandles_eq] at hroots
    rw [← List.append_nil (List.filterMap rootHandle _)] at hroots
    exact closeRoots_holds hroots
  · exact (hp.fds.settled k).dead hk (by rw [hrefs k])
  · obtain ⟨hreaders, hwriters, hfrees⟩ := hp.rings r hr
    rw [hends] at hreaders hwriters
    rw [hends, hends, if_pos ⟨rfl, rfl⟩] at hfrees
    exact ⟨hreaders, hwriters, hfrees⟩

theorem Sound.taskRelease (hp : Sound T [] p) : Released p (p.taskRelease M.counted) := by
  obtain ⟨hq, hfdt, hnext⟩ := hp.fdtableRelease (M := M)
  have hfiles : ∀ i, (p.fdtableRelease M.counted).fdt.files i = none := by
    intro i
    rw [hfdt, FdState.fdtableRelease]
    exact foldl_releaseSlot_files _ p.fdt i (.inl (List.mem_finRange i))
  obtain ⟨hhandles, hdescriptions, hrings⟩ := hq.vfsRelease (M := M) hfiles
  rw [hfdt, FdState.fdtableRelease, foldl_releaseSlot_next] at hdescriptions
  rw [hnext] at hrings
  rw [Task.taskRelease]
  exact ⟨hhandles, hdescriptions, hrings⟩

end Release

/-- A host that has given nothing out. -/
theorem holds_none (x : σ) : Holds [] (x, (⟨[], 0, false⟩ : Ledger)) := ⟨.refl _, List.nodup_nil, nofun, rfl⟩

section Files

variable {M : Platform η σ} {T : MountTable (η × ℕ)} {p : Task (η × ℕ) (σ × Ledger)}

/-- A description of a file, with the reader of its directory if it has one. -/
def liveFile (p : Task (η × ℕ) (σ × Ledger)) (k : ℕ) : Option (SysvNt.Live η) :=
  (p.file k).openFile.map fun f => ⟨f, if (p.scan k).dir.isSome then some k else none⟩

/-- What the requests of files are about, of a process. A reader has the number of its description. -/
def files (p : Task (η × ℕ) (σ × Ledger)) : Files η σ where
  host := p.host
  readers := ⟨(p.fdt.live.filterMap p.liveFile).flatMap fun x => x.reader.toList, p.fdt.next, false⟩
  live := p.fdt.live.filterMap p.liveFile

theorem liveFile_handles (p : Task (η × ℕ) (σ × Ledger)) (ks : List ℕ) :
    ((ks.filterMap p.liveFile).flatMap fun x => x.file.handles) = ks.flatMap fun k => (p.file k).handles := by
  induction ks with
  | nil => rfl
  | cons k ks ih =>
      rw [List.filterMap_cons, List.flatMap_cons, ← ih, liveFile]
      cases p.file k with
      | opened f => rfl
      | pipe ino => rfl
      | console => rfl

theorem liveFile_readers (p : Task (η × ℕ) (σ × Ledger)) (ks : List ℕ) :
    ((ks.filterMap p.liveFile).flatMap fun x => x.reader.toList).Sublist ks := by
  induction ks with
  | nil => exact .slnil
  | cons k ks ih =>
      rw [List.filterMap_cons, liveFile]
      cases (p.file k).openFile with
      | none => exact ih.cons k
      | some f =>
          change ((if (p.scan k).dir.isSome then some k else none).toList ++ _).Sublist _
          split_ifs
          · exact ih.cons_cons k
          · exact ih.cons k

/-- The account of a process has that of its files. -/
theorem Sound.files_balanced (hp : Sound T [] p) : p.files.Balanced T where
  handles := by
    rw [Files.handles, files, liveFile_handles]
    exact hp.handles
  readers := by
    have hsub := liveFile_readers p p.fdt.live
    refine ⟨.refl _, hsub.nodup (nodup_live p.fdt), fun k hk => ?_, rfl⟩
    exact List.mem_range.mp (List.mem_filter.mp (hsub.subset hk)).1

/-- In every run the files of a process are balanced, as those of the requests alone are. -/
theorem process_files_balanced {path : Bytes} {x : σ} {y : σ × Ledger}
    (hinit : (taskInit M.counted path).run (x, ⟨[], 0, false⟩) = (.ok p, y)) (es : List (TaskEvent σ)) :
    (p.after M.counted (es.map TaskEvent.counted)).files.Balanced p.fs.table := by
  obtain ⟨hT, hp⟩ := taskInit_sound (holds_none x) hinit
  exact (run_sound (M := M) hT hp es).files_balanced

end Files

/-- From `task_init` on, through system calls in any order and whatever else happens to the host, a process has open
the roots of its mounts and the handle of each description that something refers to, every ring counts the
descriptions of its ends and is freed once, after the last of them; and `task_release` leaves nothing. -/
theorem process_accounted {M : Platform η σ} {path : Bytes} {x : σ} {y : σ × Ledger} {p : Task (η × ℕ) (σ × Ledger)}
    (hinit : (taskInit M.counted path).run (x, ⟨[], 0, false⟩) = (.ok p, y)) (es : List (TaskEvent σ)) :
    let q := p.after M.counted (es.map TaskEvent.counted)
    Sound q.fs.table [] q ∧ Released q (q.taskRelease M.counted) := by
  obtain ⟨hT, hp⟩ := taskInit_sound (holds_none x) hinit
  have hq := run_sound (M := M) hT hp es
  refine ⟨?_, hq.taskRelease⟩
  rw [hq.table]
  exact hq

/-- A host with an empty root, and a user whose memory has a slash at its start and cannot be written at 0. -/
def barePlatform : Platform Unit Unit where
  store := bareHost
  io := {
    pread := fun _ _ _ => pure []
    pwrite := fun _ b _ _ => pure b.length
    directory := fun _ _ => ⟨1, [], true, true⟩
    copyOut := fun a _ => pure (a != 0)
    copyIn := fun _ _ => pure none
    bounce := pure true
    random := fun n => pure (List.replicate n 0)
    consoleRead := fun _ => pure []
    consoleWrite := fun b => pure b.length }
  fsync _ := pure ()
  consoleRead _ _ := pure []
  consoleWrite _ b := pure b.length
  user _ := ⟨fun a => some (if a = 0x1000 then slash else 0), fun _ _ => []⟩
  openRoot _ := pure ()
  volumeSerial _ := pure 7
  lxCapable _ := pure true
  setCaseSensitive _ := throw .EACCES
  exe := []
  maps := []
  frame := []
  beyond _ := 0

/-- The root is opened and its descriptor duplicated, a pipe is made and its end for reading closed. -/
def bareEvents : List (TaskEvent Unit) := [
  .call ⟨NR_open, 0x1000, 0, 0, 0, 0, 0⟩,
  .call ⟨NR_pipe2, 0x2000, 0, 0, 0, 0, 0⟩,
  .outside id,
  .call ⟨NR_dup, 3, 0, 0, 0, 0, 0⟩,
  .call ⟨NR_close, 4, 0, 0, 0, 0, 0⟩]

theorem bare_accounted : ∃ p y, (taskInit barePlatform.counted (str "/")).run ((), ⟨[], 0, false⟩) = (.ok p, y) ∧
    let q := p.after barePlatform.counted (bareEvents.map TaskEvent.counted)
    q.host.2.held = [1, 0] ∧ (q.rings 0).p.readers = 0 ∧ (q.rings 0).p.writers = 1 ∧ q.fdt.next = 6 ∧
      Sound q.fs.table [] q ∧ Released q (q.taskRelease barePlatform.counted) := by
  have hinit : (taskInit barePlatform.counted (str "/")).run ((), ⟨[], 0, false⟩) = (.ok _, _) := rfl
  exact ⟨_, _, hinit, by decide +kernel, by decide +kernel, by decide +kernel, by decide +kernel,
    process_accounted hinit bareEvents⟩

end Task

end SysvNt
