import SysvNt.OpenedRights
import SysvNt.TaskSessions

/-!
# The files that a process has opened

What a description may be used for is said of a session that has the host, the table and what was opened. The
rings are not its matter: an operation of a file works beside them, on the rest of the world. So the calls of
the process on what it has opened are the session's, and a run of them is a run of the session.
-/

namespace SysvNt

open FallibleCalls FdState

variable {η σ α β : Type}

namespace FileOps

/-- What an operation works on, beside the rings. -/
def Live.beside (R : Rings) (l : Live σ) : Live (σ × Rings) := ⟨(l.host, R), l.pos, l.scan, l.reached⟩

/-- A call on the world beside the rings, as one on both. -/
def SameBeside (m : Call Errno (Live σ) α) (m' : Call Errno (Live (σ × Rings)) α) : Prop :=
  ∀ R l, m'.run (l.beside R) = ((m.run l).1, (m.run l).2.beside R)

/-- User memory, where nothing is copied for nothing. -/
def FileIo.crossing (io : FileIo η σ) : FileIo η σ := { io with copyOut := io.crossOut, copyIn := io.crossIn }

def Table.beside (t : Table σ) : Table (σ × Rings) := t.lifted Prod.fst fun x y => (y, x.2)

section Beside

theorem SameBeside.pure (a : α) : SameBeside (pure a : Call Errno (Live σ) α) (pure a) := fun _ _ => rfl

theorem SameBeside.throw (e : Errno) : SameBeside (throw e : Call Errno (Live σ) α) (throw e) := fun _ _ => rfl

theorem SameBeside.bind {m : Call Errno (Live σ) α} {m' : Call Errno (Live (σ × Rings)) α}
    {g : α → Call Errno (Live σ) β} {g' : α → Call Errno (Live (σ × Rings)) β} (hm : SameBeside m m')
    (hg : ∀ a, SameBeside (g a) (g' a)) : SameBeside (m >>= g) (m' >>= g') := by
  intro R l
  rw [run_bind, run_bind, hm R l]
  cases m.run l with
  | mk r x => cases r with
    | error e => rfl
    | ok a => exact hg a R x

theorem sameBeside_part (m : Call Errno (Live σ) α) : SameBeside m (onHostPart m) := fun _ _ => rfl

theorem sameBeside_outside (m : StateM σ α) : SameBeside (outside m) (outside (SysvNt.besideRings m)) :=
  fun _ _ => rfl

theorem sameBeside_reach (es : List Reach) (m : StateM σ α) :
    SameBeside (reach es (liftM m : Call Errno σ α))
      (reach es (liftM (SysvNt.besideRings m) : Call Errno (σ × Rings) α)) := fun _ _ => rfl

variable (io : FileIo η σ)

theorem readTurn_beside {op : ℕ → ℕ → Call Errno (Live σ) Bytes} {op' : ℕ → ℕ → Call Errno (Live (σ × Rings)) Bytes}
    (hop : ∀ done n, SameBeside (op done n) (op' done n)) (ubuf : UInt64) (len : ℕ) (R : Rings) (x : Live σ × ℕ) :
    readTurn io.besideRings op' ubuf len (x.1.beside R, x.2) =
      (readTurn io.crossing op ubuf len x).map (fun x => (x.1.beside R, x.2)) fun r => (r.1, r.2.beside R) := by
  rw [readTurn, readTurn]
  by_cases hlen : len ≤ x.2
  · rw [if_pos hlen, if_pos hlen]
    rfl
  rw [if_neg hlen, if_neg hlen]
  dsimp only
  rw [hop x.2 (min (len - x.2) BOUNCE) R x.1]
  cases (op x.2 (min (len - x.2) BOUNCE)).run x.1 with
  | mk r l =>
      cases r with
      | error e => rfl
      | ok b =>
          dsimp only
          by_cases hb : b = []
          · rw [if_pos hb, if_pos hb]
            rfl
          rw [if_neg hb, if_neg hb]
          have hcopy : io.besideRings.copyOut (ubuf + UInt64.ofNat x.2) b (l.beside R).host =
              ((io.crossing.copyOut (ubuf + UInt64.ofNat x.2) b l.host).1,
                (io.crossing.copyOut (ubuf + UInt64.ofNat x.2) b l.host).2, R) := rfl
          rw [hcopy]
          cases io.crossing.copyOut (ubuf + UInt64.ofNat x.2) b l.host with
          | mk ok y =>
              cases ok with
              | false => rfl
              | true =>
                  dsimp only
                  split_ifs <;> rfl

theorem writeTurn_beside {op : ℕ → Bytes → Call Errno (Live σ) ℕ} {op' : ℕ → Bytes → Call Errno (Live (σ × Rings)) ℕ}
    (hop : ∀ done b, SameBeside (op done b) (op' done b)) (ubuf : UInt64) (len : ℕ) (R : Rings) (x : Live σ × ℕ) :
    writeTurn io.besideRings op' ubuf len (x.1.beside R, x.2) =
      (writeTurn io.crossing op ubuf len x).map (fun x => (x.1.beside R, x.2)) fun r => (r.1, r.2.beside R) := by
  rw [writeTurn, writeTurn]
  by_cases hlen : len ≤ x.2
  · rw [if_pos hlen, if_pos hlen]
    rfl
  rw [if_neg hlen, if_neg hlen]
  dsimp only
  have hcopy : io.besideRings.copyIn (ubuf + UInt64.ofNat x.2) (min (len - x.2) BOUNCE) (x.1.beside R).host =
      ((io.crossing.copyIn (ubuf + UInt64.ofNat x.2) (min (len - x.2) BOUNCE) x.1.host).1,
        (io.crossing.copyIn (ubuf + UInt64.ofNat x.2) (min (len - x.2) BOUNCE) x.1.host).2, R) := rfl
  rw [hcopy]
  cases io.crossing.copyIn (ubuf + UInt64.ofNat x.2) (min (len - x.2) BOUNCE) x.1.host with
  | mk b y =>
      cases b with
      | none => rfl
      | some b =>
          dsimp only
          have hwrite := hop x.2 b R { x.1 with host := y }
          change (op' x.2 b).run { x.1.beside R with host := (y, R) } = _ at hwrite
          rw [hwrite]
          cases (op x.2 b).run { x.1 with host := y } with
          | mk r l =>
              cases r with
              | error e => rfl
              | ok n =>
                  dsimp only
                  split_ifs <;> rfl

theorem readLoop_beside {op : ℕ → ℕ → Call Errno (Live σ) Bytes} {op' : ℕ → ℕ → Call Errno (Live (σ × Rings)) Bytes}
    (hop : ∀ done n, SameBeside (op done n) (op' done n)) (ubuf : UInt64) (len : ℕ) :
    SameBeside (readLoop io.crossing op ubuf len) (readLoop io.besideRings op' ubuf len) :=
  fun R l => (readBody io.crossing op ubuf len).run_embed (readBody io.besideRings op' ubuf len)
    (readTurn_beside io hop ubuf len R) (l, 0)

theorem writeLoop_beside {op : ℕ → Bytes → Call Errno (Live σ) ℕ} {op' : ℕ → Bytes → Call Errno (Live (σ × Rings)) ℕ}
    (hop : ∀ done b, SameBeside (op done b) (op' done b)) (ubuf : UInt64) (len : ℕ) :
    SameBeside (writeLoop io.crossing op ubuf len) (writeLoop io.besideRings op' ubuf len) :=
  fun R l => (writeBody io.crossing op ubuf len).run_embed (writeBody io.besideRings op' ubuf len)
    (writeTurn_beside io hop ubuf len R) (l, 0)

variable (ops : Table σ) (flags : UInt32)

theorem doRead_beside (ubuf : UInt64) (len : ℤ) (off : Option UInt64) :
    SameBeside (doRead io.crossing ops flags ubuf len off) (doRead io.besideRings ops.beside flags ubuf len off) := by
  unfold doRead
  refine (sameBeside_outside io.bounce).bind fun b => ?_
  split_ifs
  · exact .throw _
  · exact .throw _
  · exact .throw _
  · exact .throw _
  cases off with
  | none => exact readLoop_beside io (fun _ n => sameBeside_part (ops.read n)) ubuf len.toNat
  | some off =>
      have hpread : ops.beside.pread = ops.pread.map fun op n off => onHostPart (op n off) := rfl
      rw [hpread]
      cases ops.pread with
      | none => exact .throw _
      | some op => exact readLoop_beside io (fun _ _ => sameBeside_part _) ubuf len.toNat

theorem doWrite_beside (ubuf : UInt64) (len : ℤ) (off : Option UInt64) :
    SameBeside (doWrite io.crossing ops flags ubuf len off) (doWrite io.besideRings ops.beside flags ubuf len off) := by
  unfold doWrite
  refine (sameBeside_outside io.bounce).bind fun b => ?_
  split_ifs
  · exact .throw _
  · exact .throw _
  · exact .throw _
  · exact .throw _
  cases off with
  | none => exact writeLoop_beside io (fun _ b => sameBeside_part (ops.write b)) ubuf len.toNat
  | some off =>
      have hpwrite : ops.beside.pwrite = ops.pwrite.map fun op b off => onHostPart (op b off) := rfl
      rw [hpwrite]
      cases ops.pwrite with
      | none => exact .throw _
      | some op => exact writeLoop_beside io (fun _ _ => sameBeside_part _) ubuf len.toNat

theorem sysFtruncate_beside (size : ℤ) :
    SameBeside (sysFtruncate ops flags size) (sysFtruncate ops.beside flags size) := by
  rw [sysFtruncate, sysFtruncate]
  split_ifs
  · exact .throw _
  · exact .throw _
  have htruncate : ops.beside.truncate = ops.truncate.map fun op size => onHostPart (op size) := rfl
  rw [htruncate]
  cases ops.truncate with
  | none => exact .throw _
  | some op => exact (sameBeside_part _).bind fun _ => .pure _

theorem sysGetdents64_beside (ubuf : UInt64) (len : ℤ) :
    SameBeside (sysGetdents64 io.crossing ops ubuf len) (sysGetdents64 io.besideRings ops.beside ubuf len) := by
  rw [sysGetdents64, sysGetdents64]
  refine (sameBeside_outside io.bounce).bind fun b => ?_
  have hgetdents : ops.beside.getdents = ops.getdents.map fun op n => onHostPart (op n) := rfl
  rw [hgetdents]
  cases ops.getdents with
  | none => exact .throw _
  | some op =>
      dsimp only [Option.map_some]
      split_ifs
      · exact .throw _
      · exact .throw _
      refine (sameBeside_part _).bind fun records => ?_
      split_ifs
      · exact .pure _
      refine (sameBeside_reach [.entries] (io.crossOut ubuf records)).bind fun copied => ?_
      split_ifs
      · exact .pure _
      · exact .throw _


end Beside

end FileOps

open FileOps

/-- The calls of a process on what it has opened. -/
def SysCall.onFile : SysCall → Option FileOps.FileCall
  | .dup fd => some (.dup fd)
  | .fcntl fd cmd arg => some (.fcntl fd cmd arg.toInt)
  | .read fd ubuf len => some (.read fd ubuf len.toInt)
  | .write fd ubuf len => some (.write fd ubuf len.toInt)
  | .pread64 fd ubuf len off => some (.pread fd ubuf len.toInt off.toInt)
  | .pwrite64 fd ubuf len off => some (.pwrite fd ubuf len.toInt off.toInt)
  | .ftruncate fd size => some (.ftruncate fd size.toInt)
  | .getdents64 fd ubuf len => some (.getdents64 fd ubuf len.toInt)
  | _ => none

namespace Task

/-- What a session of open files has of a process. A description is asked for what its file was made for. -/
def openFiles (p : Task η σ) : FileOps.Session η σ where
  host := p.host
  table := p.fdt
  made k := (p.file k).openFile.map fun f => ⟨f, f.made.2, p.scan k⟩

section Calls

variable {M : Platform η σ} {p : Task η σ} {a : FileOps.Answer} {s' : FileOps.Session η σ}

theorem opsOf_crossing (H : HostStore η σ) (io : FileIo η σ) (flags : UInt32) (f : OpenFile η) :
    FileOps.opsOf H io.crossing flags f = FileOps.opsOf H io flags f := by
  cases f with
  | host h kind fl path m => cases kind <;> rfl
  | synth f fl path => cases f <;> rfl

theorem openFiles_made {k : ℕ} {d : Made η} (h : p.openFiles.made k = some d) :
    ∃ f, p.file k = .opened f ∧ d = ⟨f, f.made.2, p.scan k⟩ := by
  obtain ⟨f, hf, rfl⟩ := Option.map_eq_some_iff.mp h
  cases hfile : p.file k with
  | opened g =>
      rw [hfile] at hf
      obtain rfl : g = f := Option.some.inj hf
      exact ⟨g, rfl, rfl⟩
  | pipe ino =>
      rw [hfile] at hf
      cases hf
  | console =>
      rw [hfile] at hf
      cases hf

/-- The session after an operation on a file that is open. -/
theorem withLive_openFiles {k : ℕ} {f : OpenFile η} (hfile : p.file k = .opened f) (l : FileOps.Live σ) :
    (p.withLive k (l.beside p.rings)).openFiles = ⟨l.host, p.fdt.alter k fun c => { c with pos := l.pos },
      Function.update p.openFiles.made k (some ⟨f, f.made.2, l.scan⟩)⟩ := by
  have hscan (j : ℕ) : (p.withLive k (l.beside p.rings)).openFiles.made j =
      (p.file j).openFile.map fun f => ⟨f, f.made.2, Function.update p.scan k l.scan j⟩ := rfl
  refine congrArg (FileOps.Session.mk _ _) (funext fun j => (hscan j).trans ?_)
  by_cases hj : j = k
  · rw [hj, Function.update_self, Function.update_self, hfile]
    rfl
  · rw [Function.update_of_ne hj, Function.update_of_ne hj]
    rfl

theorem throughOps_openFiles {fd : ℤ} {i : Slot} {k : ℕ} (hget : p.fdt.fdGet fd = some (i, k))
    {act : Table σ → UInt32 → Call Errno (FileOps.Live σ) ℕ}
    {act' : Table (σ × Rings) → UInt32 → Call Errno (FileOps.Live (σ × Rings)) ℕ}
    (hact : ∀ ops flags, SameBeside (act ops flags) (act' ops.beside flags))
    (h : p.openFiles.through (p.kernel M) M.io.crossing fd act = some (a, s')) :
    ((throughOps M k act').run p).1 = a.ret.map Int64.ofInt ∧ ((throughOps M k act').run p).2.openFiles = s' := by
  have htable : p.openFiles.table = p.fdt := rfl
  have hhost : p.openFiles.host = p.host := rfl
  rw [FileOps.Session.through, htable, hget] at h
  obtain ⟨d, hd, h⟩ := Option.map_eq_some_iff.mp h
  obtain ⟨f, hfile, rfl⟩ := openFiles_made hd
  dsimp only at h
  rw [opsOf_crossing, kernel_store, hhost] at h
  let ops := FileOps.opsOf M.store M.io (p.fdt.heap k).flags f
  let l : FileOps.Live σ := ⟨p.host, (p.fdt.heap k).pos, p.scan k, []⟩
  have hops : M.opsOf (p.fdt.heap k).flags (p.privI k) (p.file k) = ops.beside := by
    rw [hfile]
    rfl
  have hthrough : (throughOps M k act').run p =
      (((act' ops.beside (p.fdt.heap k).flags).run (l.beside p.rings)).1.map Int64.ofNat,
        p.withLive k ((act' ops.beside (p.fdt.heap k).flags).run (l.beside p.rings)).2) := by
    rw [throughOps, run_map, ← hops]
    rfl
  rw [hthrough, hact ops (p.fdt.heap k).flags p.rings l, withLive_openFiles hfile]
  generalize (act ops (p.fdt.heap k).flags).run l = r at h ⊢
  obtain ⟨r, l'⟩ := r
  cases r with
  | error e =>
      cases h
      exact ⟨rfl, rfl⟩
  | ok n =>
      cases h
      exact ⟨congrArg Except.ok Int64.ofInt_eq_ofNat.symm, rfl⟩

/-- A call through a descriptor on its description, as the session makes it. -/
theorem fget_openFiles {fd : ℤ} {act : Table σ → UInt32 → Call Errno (FileOps.Live σ) ℕ}
    {act' : Table (σ × Rings) → UInt32 → Call Errno (FileOps.Live (σ × Rings)) ℕ}
    (hact : ∀ ops flags, SameBeside (act ops flags) (act' ops.beside flags))
    (h : p.openFiles.through (p.kernel M) M.io.crossing fd act = some (a, s')) :
    ((fget fd >>= fun k => throughOps M k act').run p).1 = a.ret.map Int64.ofInt ∧
      ((fget fd >>= fun k => throughOps M k act').run p).2.openFiles = s' := by
  cases hget : p.fdt.fdGet fd with
  | none =>
      have htable : p.openFiles.table.fdGet fd = none := hget
      rw [FileOps.Session.through, htable] at h
      cases h
      rw [run_fget_none hget]
      exact ⟨rfl, rfl⟩
  | some e =>
      rw [run_fget_some hget]
      exact throughOps_openFiles hget hact h

theorem dirPath_openFiles (p : Task η σ) : p.openFiles.dirPath = p.dirs := by
  funext k
  rw [FileOps.Session.dirPath, openFiles, dirs]
  dsimp only
  cases p.file k with
  | pipe ino => rfl
  | console => rfl
  | opened f =>
      cases f with
      | host h kind fl path m => cases kind <;> rfl
      | synth f fl path => cases f <;> rfl

/-- What the process opens, the session opens. -/
theorem sysOpenat_openFiles (M : Platform η σ) (p : Task η σ) (dirfd : ℤ) (upath : UInt64) (flags mode : UInt32) :
    let r := p.openFiles.openat (p.kernel M) p.fs dirfd (p.copied M upath) flags mode
    ((sysOpenat M dirfd upath flags mode).run p).1 = r.1.ret.map Int64.ofInt ∧
      ((sysOpenat M dirfd upath flags mode).run p).2.host = r.2.host ∧
        ((sysOpenat M dirfd upath flags mode).run p).2.fdt = r.2.table := by
  have hcall := sysOpenat_session M p dirfd upath flags mode
  have hdirs : p.session.dirs = p.openFiles.dirPath := (dirPath_openFiles p).symm
  have hstate : (p.host, p.fdt) = (p.openFiles.host, p.openFiles.table) := rfl
  dsimp only at hcall ⊢
  rw [hdirs, hstate, FileOps.Session.openat_eq] at hcall
  exact hcall

theorem toUInt64_of_nonneg {off : Int64} (h : ¬ off < 0) : UInt64.ofNat off.toInt.toNat = off.toUInt64 := by
  have hle : 0 ≤ off := Int64.not_lt.mp h
  have hnat : off.toUInt64.toNat = off.toInt.toNat := Int64.toNat_toUInt64_of_le hle
  rw [← hnat, UInt64.ofNat_toNat]

theorem toInt_neg_iff (off : Int64) : off.toInt < 0 ↔ off < 0 := by
  rw [Int64.lt_iff_toInt_lt, Int64.toInt_zero]

/-- A call at an offset, which is not to be negative. -/
theorem positional_openFiles {off : Int64} {fd : ℤ} {act : Table σ → UInt32 → Call Errno (FileOps.Live σ) ℕ}
    {act' : Table (σ × Rings) → UInt32 → Call Errno (FileOps.Live (σ × Rings)) ℕ}
    (hact : ¬ off < 0 → ∀ ops flags, SameBeside (act ops flags) (act' ops.beside flags))
    (h : (if off.toInt < 0 then some (⟨.error .EINVAL, []⟩, p.openFiles) else
      p.openFiles.through (p.kernel M) M.io.crossing fd act) = some (a, s')) :
    (((if off < 0 then throw .EINVAL else fget fd >>= fun k => throughOps M k act') : Sys η σ Int64).run p).1 =
        a.ret.map Int64.ofInt ∧
      (((if off < 0 then throw .EINVAL else fget fd >>= fun k => throughOps M k act') :
        Sys η σ Int64).run p).2.openFiles = s' := by
  by_cases hoff : off < 0
  · rw [if_pos ((toInt_neg_iff off).mpr hoff)] at h
    rw [if_pos hoff]
    cases h
    exact ⟨rfl, rfl⟩
  · rw [if_neg (mt (toInt_neg_iff off).mp hoff)] at h
    rw [if_neg hoff]
    exact fget_openFiles (hact hoff) h

/-- A call of the process on what it has opened is the session's call. -/
theorem perform_onFile {c : SysCall} {fc : FileOps.FileCall} (hfc : c.onFile = some fc)
    (h : p.openFiles.step (p.kernel M) M.io.crossing p.fs fc = some (a, s')) :
    ((perform M c).run p).1 = a.ret.map Int64.ofInt ∧ ((perform M c).run p).2.openFiles = s' := by
  cases c with
  | dup fd =>
      have hrun : (perform M (.dup fd)).run p =
          ((p.fdt.sysDup fd).1.map Int64.ofInt, p.setFdt (p.fdt.sysDup fd).2) := run_map _ _
      cases hfc
      cases h
      rw [hrun]
      exact ⟨rfl, rfl⟩
  | fcntl fd cmd arg =>
      have hrun : (perform M (.fcntl fd cmd arg)).run p =
          ((p.fdt.sysFcntl fd cmd arg.toInt).1.map Int64.ofInt, p.setFdt (p.fdt.sysFcntl fd cmd arg.toInt).2) :=
        run_map _ _
      cases hfc
      cases h
      rw [hrun]
      exact ⟨rfl, rfl⟩
  | read fd ubuf len =>
      cases hfc
      exact fget_openFiles (fun ops flags => doRead_beside M.io ops flags ubuf len.toInt none) h
  | write fd ubuf len =>
      cases hfc
      exact fget_openFiles (fun ops flags => doWrite_beside M.io ops flags ubuf len.toInt none) h
  | pread64 fd ubuf len off =>
      cases hfc
      rw [FileOps.Session.step] at h
      rw [perform, sysPread64]
      refine positional_openFiles (fun hoff ops flags => ?_) h
      rw [toUInt64_of_nonneg hoff]
      exact doRead_beside M.io ops flags ubuf len.toInt (some off.toUInt64)
  | pwrite64 fd ubuf len off =>
      cases hfc
      rw [FileOps.Session.step] at h
      rw [perform, sysPwrite64]
      refine positional_openFiles (fun hoff ops flags => ?_) h
      rw [toUInt64_of_nonneg hoff]
      exact doWrite_beside M.io ops flags ubuf len.toInt (some off.toUInt64)
  | ftruncate fd size =>
      cases hfc
      exact fget_openFiles (fun ops flags => sysFtruncate_beside ops flags size.toInt) h
  | getdents64 fd ubuf len =>
      cases hfc
      exact fget_openFiles (fun ops _ => sysGetdents64_beside M.io ops ubuf len.toInt) h
  | _ => cases hfc

end Calls

end Task

namespace FdState

attribute [local irreducible] lowestFree

variable (t : FdState)

theorem flags_fdClose (fd : ℤ) (g : ℕ) : ((t.fdClose fd).2.heap g).flags = (t.heap g).flags := by
  rw [fdClose]
  cases t.fdGet fd with
  | none => rfl
  | some e => exact flags_filePut _ e.2 g

theorem flags_fileGet (f g : ℕ) : ((t.fileGet f).heap g).flags = (t.heap g).flags := by
  by_cases hg : g = f
  · subst hg
    simp [fileGet]
  · simp [fileGet, hg]

theorem flags_fdDup2 (oldfd newfd : ℤ) (cloexec : Bool) (g : ℕ) :
    ((t.fdDup2 oldfd newfd cloexec).2.heap g).flags = (t.heap g).flags := by
  rw [fdDup2]
  cases t.fdGet oldfd with
  | none => rfl
  | some e =>
      cases slotOf newfd with
      | none => rfl
      | some i =>
          dsimp only
          split_ifs
          · rfl
          · cases (t.fileGet e.2).files i with
            | none => exact flags_fileGet t e.2 g
            | some f => exact (flags_filePut _ f g).trans (flags_fileGet t e.2 g)

theorem flags_through (fd : ℤ) (pos : UInt64) (g : ℕ) :
    ((t.through fd fun d => { d with pos := pos }).2.heap g).flags = (t.heap g).flags := by
  rw [through]
  cases t.fdGet fd with
  | none => rfl
  | some e =>
      by_cases hg : g = e.2
      · subst hg
        simp [alter]
      · simp [alter, hg]

/-- Of the calls that make no description none changes what one is for. -/
theorem rights_call {c : SysCall} {fc : FdCall} (h : c.Is fc) (hmakes : c.makes = false) (g : ℕ) :
    rights ((t.call fc).2.heap g).flags = rights (t.heap g).flags := by
  cases h with
  | openAt => cases hmakes
  | pipe2 => cases hmakes
  | @close fd => exact congrArg rights (flags_fdClose t fd g)
  | @dup fd => exact congrArg rights (flags_sysDup t fd g)
  | @dup2 oldfd newfd =>
      rw [FdState.call, sysDup2]
      cases t.fdGet oldfd with
      | none => rfl
      | some e =>
          dsimp only
          split_ifs
          · rfl
          · exact congrArg rights (flags_fdDup2 t oldfd newfd false g)
  | dup3 =>
      rw [FdState.call, sysDup3]
      split_ifs
      · rfl
      · rfl
      · exact congrArg rights (flags_fdDup2 t _ _ _ g)
  | fcntl => exact rights_sysFcntl t _ _ _ g
  | seek => exact congrArg rights (flags_through t _ _ g)

end FdState

namespace Task

section Runs

variable {M : Platform η σ} {p q : Task η σ}

/-- A description is for what its file was made for. -/
def AsMade (p : Task η σ) : Prop := ∀ k f, p.file k = .opened f → rights (p.fdt.heap k).flags = rights f.made.2

theorem AsMade.of_same (hp : AsMade p) (hfile : q.file = p.file)
    (hflags : ∀ k, rights (q.fdt.heap k).flags = rights (p.fdt.heap k).flags) : AsMade q := by
  intro k f hf
  rw [hfile] at hf
  rw [hflags]
  exact hp k f hf

theorem asMade_way : Way M (AsMade (η := η) (σ := σ)) where
  host _ _ hq := hq
  install q k cloexec min hq := hq.of_same rfl fun g => congrArg rights (flags_fdInstall q.fdt k cloexec min g)
  put q k hq := by
    refine hq.of_same (congrArg Prod.snd (filePut_leaves M described_lasting k q)) fun g => ?_
    rw [filePut_files]
    exact congrArg rights (flags_filePut q.fdt k g)

/-- A new description keeps that, if it is for what its own file was made for. -/
theorem AsMade.fileNew (hp : AsMade p) {kind : ℕ} {flags : UInt32} {d : OpenDescription η} {i : ℕ}
    (hd : ∀ f, d = .opened f → rights flags = rights f.made.2) : AsMade (p.fileNew kind flags d i) := by
  intro k f hf
  by_cases hk : k = p.fdt.next
  · subst hk
    have hfile : (p.fileNew kind flags d i).file p.fdt.next = d := Function.update_self ..
    have hheap : (p.fileNew kind flags d i).fdt.heap p.fdt.next =
        { refs := 1, kind := kind, flags := flags, pos := 0, releases := 0 } := Function.update_self ..
    rw [hheap]
    exact hd f (hfile.symm.trans hf)
  · have hfile : (p.fileNew kind flags d i).file k = p.file k := Function.update_of_ne hk ..
    have hheap : (p.fileNew kind flags d i).fdt.heap k = p.fdt.heap k := Function.update_of_ne hk ..
    rw [hheap]
    exact hp k f (hfile.symm.trans hf)

theorem asMade_consoleWay : ConsoleWay M (AsMade (η := η) (σ := σ)) where
  toWay := asMade_way
  console _ _ _ hq := hq.fileNew fun _ hf => by cases hf

theorem asMade_pipeWay : PipeWay M (AsMade (η := η) (σ := σ)) where
  toWay := asMade_way
  ringNew _ hq := hq.of_same rfl fun _ => rfl
  ringDrop _ _ hq := hq.of_same rfl fun _ => rfl
  pipeEnds q r flags hq := by
    let rd := q.fileNew FILE_KIND_PIPE (O_RDONLY ||| flags &&& O_NONBLOCK) (.pipe (q.rings r).p.ino) r
    have hread : AsMade rd := hq.fileNew fun _ hf => by cases hf
    have hends : AsMade
        (rd.fileNew FILE_KIND_PIPE (O_WRONLY ||| flags &&& O_NONBLOCK) (.pipe (q.rings r).p.ino) r) :=
      hread.fileNew fun _ hf => by cases hf
    exact hends.of_same rfl fun _ => rfl
  close q fd hq := by
    refine hq.of_same (congrArg Prod.snd (fdClose_leaves M described_lasting fd q)) fun g => ?_
    rw [(fdClose_table M q fd).2]
    exact congrArg rights (flags_fdClose q.fdt fd g)

theorem sysOpenat_asMade (hp : AsMade p) (dirfd : ℤ) (upath : UInt64) (flags mode : UInt32) :
    AsMade ((sysOpenat M dirfd upath flags mode).run p).2 := by
  cases hstart : openatPath p.fdt p.dirs dirfd (p.copied M upath) with
  | error e =>
      rw [run_sysOpenat_unstarted hstart]
      exact hp
  | ok start =>
      obtain ⟨base, path⟩ := start
      cases hopen : (SysvNt.vfsOpen (p.kernel M) p.fs base path flags mode).run p.host with
      | mk r x =>
          cases r with
          | error e =>
              rw [run_sysOpenat_refused hstart hopen]
              exact hp
          | ok f =>
              rw [run_sysOpenat_opened hstart hopen]
              have hnew : AsMade (p.withOpened f x) := by
                refine AsMade.fileNew (p := p.withHost x) hp fun g hg => ?_
                obtain rfl : f = g := OpenDescription.opened.inj hg
                rfl
              have hseated := asMade_way.install (M := M) _ p.fdt.next (has flags O_CLOEXEC) 0 hnew
              exact asMade_way.put _ p.fdt.next hseated

theorem perform_asMade (hp : AsMade p) (c : SysCall) : AsMade ((perform M c).run p).2 := by
  cases htouches : c.touches with
  | true =>
      cases hmakes : c.makes with
      | true =>
          cases c with
          | openat dirfd upath flags mode => exact sysOpenat_asMade hp dirfd upath flags mode
          | pipe2 ufds flags => exact (sysPipe2_kept asMade_pipeWay hp ufds flags).1
          | _ => cases hmakes
      | false =>
          obtain ⟨fc, hfc⟩ := perform_touches (M := M) htouches p
          refine hp.of_same (congrArg Prod.snd (perform_onTable_leaves M described_lasting htouches hmakes p)) ?_
          rw [hfc.leaves]
          exact rights_call p.fdt hfc.is hmakes
  | false =>
      have hbeside : Leaves (fun p : Task η σ => (p.file, p.fdt)) (perform M c) :=
        perform_beside (fun _ _ => rfl) (fun _ _ => rfl) htouches
      obtain ⟨hfile, hfdt⟩ := Prod.mk.inj (hbeside p)
      exact hp.of_same hfile fun g => by rw [hfdt]

theorem step_asMade (hp : AsMade p) (e : TaskEvent σ) : AsMade (e.step M p) := by
  cases e with
  | outside change => exact hp
  | call f =>
      rw [TaskEvent.step, syscallDispatch, sysFsDispatch]
      split_ifs
      · exact hp
      · cases f.call with
        | none => exact hp
        | some c => exact perform_asMade hp c

theorem after_asMade (hp : AsMade p) (es : List (TaskEvent σ)) : AsMade (p.after M es) := by
  induction es generalizing p with
  | nil => exact hp
  | cons e es ih => exact ih (step_asMade hp e)

theorem taskInit_asMade {path : Bytes} {x y : σ} (h : (taskInit M path).run x = (.ok p, y)) : AsMade p := by
  obtain ⟨fs, x₁, -, hrun⟩ := of_taskInit h
  have hinit : AsMade (Task.initial x₁ fs) := fun _ _ hf => by cases hf
  have hall := (consoleFiles_kept (M := M) asMade_consoleWay hinit).1
  rw [hrun] at hall
  exact hall

/-- In every run the files that the process has open make a sound session. -/
theorem after_openFiles_sound {path : Bytes} {x y : σ} (hinit : (taskInit M path).run x = (.ok p, y))
    (es : List (TaskEvent σ)) : (p.after M es).openFiles.Sound p.fs.table := by
  obtain ⟨hT, hsound⟩ := after_session_sound hinit es
  refine ⟨fun k d hd => ?_, fun k d hd => ?_⟩
  · obtain ⟨f, hfile, rfl⟩ := openFiles_made hd
    exact after_asMade (taskInit_asMade hinit) es k f hfile
  · obtain ⟨f, hfile, rfl⟩ := openFiles_made hd
    have hmade : ((p.after M es).file k).Made p.fs.table := hsound.made k
    rw [hfile] at hmade
    exact hmade.sound hT

/-- In every run, a call on what the process has opened is the session's, and it does no more than the file of the
description was made for, if the calls that check less are made with care. -/
theorem process_only_as_opened {path : Bytes} {x y : σ} (hinit : (taskInit M path).run x = (.ok p, y))
    (es : List (TaskEvent σ)) (hq : p.after M es = q) {c : SysCall} {fc : FileOps.FileCall}
    (hfc : c.onFile = some fc) {a : FileOps.Answer} {s' : FileOps.Session η σ}
    (h : q.openFiles.step (q.kernel M) M.io.crossing q.fs fc = some (a, s'))
    (hcare : FileOps.Careful (q.kernel M) q.fs q.openFiles fc) :
    (((perform M c).run q).1 = a.ret.map Int64.ofInt ∧ ((perform M c).run q).2.openFiles = s') ∧
      ∀ e ∈ a.reached, ∃ fd i k f, fc.fd = some fd ∧ q.fdt.fdGet fd = some (i, k) ∧ q.file k = .opened f ∧
        Allowed (rights f.made.2) e := by
  obtain ⟨hT, hsession⟩ := after_session_sound hinit es
  have hsound := after_openFiles_sound hinit es
  rw [hq] at hsession hsound
  have htable : q.fs.table = p.fs.table := hsession.table
  rw [← htable] at hT hsound
  refine ⟨perform_onFile hfc h, fun e he => ?_⟩
  obtain ⟨fd, d, hfd, hbehind, hallowed⟩ := (FileOps.step_spec hT hsession.cwd hsound hcare h).1 e he
  obtain ⟨⟨i, k⟩, hget, hmade⟩ := Option.bind_eq_some_iff.mp hbehind
  obtain ⟨f, hfile, rfl⟩ := openFiles_made hmade
  exact ⟨fd, i, k, f, hfd, hget, hfile, hallowed⟩

end Runs

end Task

end SysvNt
