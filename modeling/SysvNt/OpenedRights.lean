import SysvNt.DescriptorStats
import SysvNt.FileOps

/-!
# What a description was opened for

The flags of an open say what may be done with the description, by whatever descriptor, whatever
`F_SETFL` makes of the other flags. `do_read` and `do_write` check this for every kind of file;
`sys_ftruncate` looks at `O_RDONLY` alone, and `sys_getdents64` at nothing.
-/

namespace SysvNt.FileOps

open FallibleCalls

variable {η σ ν : Type}

/-- The part of the flags that says what a description is for. -/
def rights (flags : UInt32) : UInt32 × Bool := (flags &&& O_ACCMODE, has flags O_PATH)

def Allowed (r : UInt32 × Bool) : Reach → Prop
  | .pread => r.2 = false ∧ (r.1 = O_RDONLY ∨ r.1 = O_RDWR)
  | .pwrite | .truncate => r.2 = false ∧ (r.1 = O_WRONLY ∨ r.1 = O_RDWR)
  | .entries => r.2 = false

theorem rights_setfl (flags arg : UInt32) : rights (setfl flags arg) = rights flags := by
  have hkeep : ~~~setflMask &&& O_PATH = O_PATH := by decide
  have hpath : setfl flags arg &&& O_PATH = flags &&& O_PATH := by
    rw [setfl, or_masked_and (by decide), UInt32.and_assoc, hkeep]
  rw [rights, rights, setfl_accmode, has, has, hpath]

theorem rights_keptFlags (flags : UInt32) : rights (keptFlags flags) = rights flags := by
  have hacc : ~~~(O_CREAT ||| O_EXCL ||| O_NOCTTY ||| O_TRUNC ||| O_CLOEXEC) &&& O_ACCMODE = O_ACCMODE := by
    decide
  have hpath : ~~~(O_CREAT ||| O_EXCL ||| O_NOCTTY ||| O_TRUNC ||| O_CLOEXEC) &&& O_PATH = O_PATH := by
    decide
  rw [rights, rights, keptFlags, has, has, UInt32.and_assoc, UInt32.and_assoc, hacc, hpath]

theorem accmode_cases (flags : UInt32) :
    flags &&& O_ACCMODE = O_RDONLY ∨ flags &&& O_ACCMODE = O_WRONLY ∨ flags &&& O_ACCMODE = O_RDWR ∨
      flags &&& O_ACCMODE = 3 := by
  have hmod : (flags &&& O_ACCMODE).toNat = flags.toNat % 4 := by
    rw [UInt32.toNat_and]
    exact Nat.and_two_pow_sub_one_eq_mod flags.toNat 2
  have hlt : (flags &&& O_ACCMODE).toNat < 4 := by
    rw [hmod]
    omega
  generalize flags &&& O_ACCMODE = acc at hlt
  rw [← UInt32.toNat_inj, ← UInt32.toNat_inj, ← UInt32.toNat_inj, ← UInt32.toNat_inj]
  have h0 : O_RDONLY.toNat = 0 := rfl
  have h1 : O_WRONLY.toNat = 1 := rfl
  have h2 : O_RDWR.toNat = 2 := rfl
  have h3 : (3 : UInt32).toNat = 3 := rfl
  omega

section Reaching

variable {P : Reach → Prop} {H : HostStore η σ} {io : FileIo η σ}

def Within (P : Reach → Prop) (l : Live σ) : Prop := ∀ e ∈ l.reached, P e

theorem reach_within {α : Type} {es : List Reach} (hes : ∀ e ∈ es, P e) (m : Call Errno σ α) :
    Keeps (Within P) (reach es m) (fun _ => True) := by
  intro l hl
  refine ⟨fun e he => ?_, fun _ _ => trivial⟩
  rcases List.mem_append.mp he with he | he
  · exact hl e he
  · exact hes e he

theorem reach_nil_within {α : Type} (m : Call Errno σ α) :
    Keeps (Within P) (reach [] m) (fun _ => True) := reach_within (by simp) m

theorem reach_one_within {α : Type} {e : Reach} (he : P e) (m : Call Errno σ α) :
    Keeps (Within P) (reach [e] m) (fun _ => True) := by
  apply reach_within
  intro e' he'
  rw [List.mem_singleton.mp he']
  exact he

theorem position_within : Keeps (Within P) (position : Call Errno (Live σ) UInt64) (fun _ => True) :=
  fun _ hl => ⟨hl, fun _ _ => trivial⟩

theorem setPosition_within (pos : UInt64) :
    Keeps (Within P) (setPosition pos : Call Errno (Live σ) Unit) (fun _ => True) :=
  fun _ hl => ⟨hl, fun _ _ => trivial⟩

/-- The operations of a table reach no more than their names say. -/
structure Table.Confined (P : Reach → Prop) (ops : Table σ) : Prop where
  read : P .pread → ∀ n, Keeps (Within P) (ops.read n) (fun _ => True)
  write : P .pwrite → ∀ b, Keeps (Within P) (ops.write b) (fun _ => True)
  pread : P .pread → ∀ op, ops.pread = some op → ∀ n off, Keeps (Within P) (op n off) (fun _ => True)
  pwrite : P .pwrite → ∀ op, ops.pwrite = some op → ∀ b off, Keeps (Within P) (op b off) (fun _ => True)
  getdents : ∀ op, ops.getdents = some op → ∀ cap, Keeps (Within P) (op cap) (fun _ => True)
  truncate : P .truncate → ∀ op, ops.truncate = some op → ∀ size, Keeps (Within P) (op size) (fun _ => True)

theorem hostfileRead_within (hP : P .pread) (h : η) (n : ℕ) :
    Keeps (Within P) (hostfileRead io h n) (fun _ => True) := by
  rw [hostfileRead]
  refine position_within.bind fun pos _ => (reach_one_within hP _).bind fun b _ => ?_
  exact (setPosition_within _).bind fun _ _ => Keeps.pure trivial

theorem hostfileWrite_within (hP : P .pwrite) (h : η) (flags : UInt32) (b : Bytes) :
    Keeps (Within P) (hostfileWrite H io h flags b) (fun _ => True) := by
  rw [hostfileWrite]
  refine position_within.bind fun pos _ => ?_
  split_ifs
  · refine (reach_one_within hP _).bind fun n _ => ?_
    split_ifs
    · refine (reach_nil_within _).attempt.bind fun r _ => ?_
      cases r with
      | ok hs => exact (setPosition_within _).bind fun _ _ => Keeps.pure trivial
      | error e => exact Keeps.pure trivial
    · exact Keeps.pure trivial
  · refine (reach_one_within hP _).bind fun n _ => ?_
    exact (setPosition_within _).bind fun _ _ => Keeps.pure trivial

theorem hostfileOps_confined (h : η) (flags : UInt32) : (hostfileOps H io h flags).Confined P where
  read hP n := hostfileRead_within hP h n
  write hP b := hostfileWrite_within hP h flags b
  pread hP op hop n off := by
    cases hop
    exact reach_one_within hP _
  pwrite hP op hop b off := by
    cases hop
    exact reach_one_within hP _
  getdents op hop cap := by cases hop
  truncate hP op hop size := by
    cases hop
    exact reach_one_within hP _

theorem hostdirOps_confined (h : η) : (hostdirOps io h).Confined P where
  read _ _ := Keeps.throw
  write _ _ := Keeps.throw
  pread _ op hop := by cases hop
  pwrite _ op hop := by cases hop
  getdents op hop cap := by
    cases hop
    exact fun _ hl => ⟨hl, fun _ _ => trivial⟩
  truncate _ op hop := by cases hop

theorem snapOps_confined (text : Bytes) : (snapOps text : Table σ).Confined P where
  read _ n := by
    change Keeps (Within P) (snapRead text n) _
    rw [snapRead]
    refine position_within.bind fun pos _ => ?_
    rw [snapPread, pure_bind]
    exact (setPosition_within _).bind fun _ _ => Keeps.pure trivial
  write _ _ := Keeps.throw
  pread _ op hop n off := by
    cases hop
    exact Keeps.pure trivial
  pwrite _ op hop := by cases hop
  getdents op hop cap := by cases hop
  truncate _ op hop := by cases hop

theorem listOps_confined (getdents : ℕ → ℕ → Except Errno Bytes × ℕ) :
    (listOps getdents : Table σ).Confined P where
  read _ _ := Keeps.throw
  write _ _ := Keeps.throw
  pread _ op hop := by cases hop
  pwrite _ op hop := by cases hop
  getdents op hop cap := by
    cases hop
    exact fun _ hl => ⟨hl, fun _ _ => trivial⟩
  truncate _ op hop := by cases hop

theorem devOps_confined (minor : UInt32) : (devOps io minor).Confined P where
  read _ n := by
    change Keeps (Within P) (devRead io minor n) _
    rw [devRead]
    split_ifs
    · exact Keeps.pure trivial
    · exact Keeps.pure trivial
    · exact reach_nil_within _
    · exact reach_nil_within _
    · exact Keeps.throw
  write _ b := by
    change Keeps (Within P) (devWrite io minor b) _
    rw [devWrite]
    split_ifs
    · exact Keeps.pure trivial
    · exact Keeps.throw
    · exact reach_nil_within _
    · exact Keeps.throw
  pread _ op hop := by cases hop
  pwrite _ op hop := by cases hop
  getdents op hop cap := by cases hop
  truncate _ op hop := by cases hop

theorem opsOf_confined (flags : UInt32) (f : OpenFile η) : (opsOf H io flags f).Confined P := by
  cases f with
  | host h kind fl path m =>
      cases kind with
      | hostdir => exact hostdirOps_confined h
      | symlink => exact hostfileOps_confined h flags
      | host => exact hostfileOps_confined h flags
  | synth f fl path =>
      cases f with
      | procLink => exact snapOps_confined []
      | procDir d => exact listOps_confined _
      | procFile text => exact snapOps_confined text
      | devDir => exact listOps_confined _
      | devNode major minor => exact devOps_confined minor

section Loops

variable {I : Live σ → Prop} (hhost : ∀ l y, I l → I { l with host := y })

def afterTurn : (Live σ × ℕ) ⊕ (Except Errno ℕ × Live σ) → Live σ
  | .inl x => x.1
  | .inr r => r.2

theorem transfer_keeps {L : BoundedLoop.Body (Live σ × ℕ) (Except Errno ℕ × Live σ)}
    (h : ∀ x, I x.1 → I (afterTurn (L.step x))) :
    Keeps I (ExceptT.mk fun l => L.run (l, 0) : Call Errno (Live σ) ℕ) (fun _ => True) := by
  intro l hl
  refine ⟨?_, fun _ _ => trivial⟩
  apply L.run_invariant (P := fun x => I x.1) (Q := fun r => I r.2) _ _ (l, 0) hl
  · intro x x' hx hs
    have hnext := h x hx
    rw [hs] at hnext
    exact hnext
  · intro x r hx hs
    have hnext := h x hx
    rw [hs] at hnext
    exact hnext

include hhost

theorem readLoop_keeps {op : ℕ → ℕ → Call Errno (Live σ) Bytes}
    (hop : ∀ done n, Keeps I (op done n) (fun _ => True)) (ubuf : UInt64) (len : ℕ) :
    Keeps I (readLoop io op ubuf len) (fun _ => True) := by
  refine transfer_keeps (L := readBody io op ubuf len) fun x hx => ?_
  change I (afterTurn (readTurn io op ubuf len x))
  have hkeep := (hop x.2 (min (len - x.2) BOUNCE) x.1 hx).1
  rw [readTurn]
  split_ifs
  · exact hx
  dsimp only
  generalize (op x.2 (min (len - x.2) BOUNCE)).run x.1 = t at hkeep
  obtain ⟨r, l⟩ := t
  cases r with
  | error e => exact hkeep
  | ok b =>
      dsimp only
      by_cases hb : b = []
      · rw [if_pos hb]
        exact hkeep
      · rw [if_neg hb]
        cases io.copyOut (ubuf + UInt64.ofNat x.2) b l.host with
        | mk ok y =>
            have hcopied := hhost l y hkeep
            cases ok with
            | false => exact hcopied
            | true =>
                dsimp only
                split_ifs
                · exact hcopied
                · exact hcopied

theorem writeLoop_keeps {op : ℕ → Bytes → Call Errno (Live σ) ℕ}
    (hop : ∀ done b, Keeps I (op done b) (fun _ => True)) (ubuf : UInt64) (len : ℕ) :
    Keeps I (writeLoop io op ubuf len) (fun _ => True) := by
  refine transfer_keeps (L := writeBody io op ubuf len) fun x hx => ?_
  change I (afterTurn (writeTurn io op ubuf len x))
  rw [writeTurn]
  split_ifs
  · exact hx
  dsimp only
  cases io.copyIn (ubuf + UInt64.ofNat x.2) (min (len - x.2) BOUNCE) x.1.host with
  | mk copied y =>
      have hcopied := hhost x.1 y hx
      cases copied with
      | none => exact hcopied
      | some b =>
          have hkeep := (hop x.2 b { x.1 with host := y } hcopied).1
          dsimp only
          generalize (op x.2 b).run { x.1 with host := y } = t at hkeep
          obtain ⟨r, l⟩ := t
          cases r with
          | error e => exact hkeep
          | ok n =>
              dsimp only
              split_ifs
              · exact hkeep
              · exact hkeep

end Loops

theorem within_host (l : Live σ) (y : σ) (hl : Within P l) : Within P { l with host := y } := hl

variable {ops : Table σ} (hops : ops.Confined P) {flags : UInt32}

include hops

/-- `do_read` comes to an operation only through its checks. -/
theorem doRead_within (hP : Allowed (rights flags) .pread → P .pread) (ubuf : UInt64) (len : ℤ)
    (off : Option UInt64) : Keeps (Within P) (doRead io ops flags ubuf len off) (fun _ => True) := by
  unfold doRead
  refine (reach_nil_within _).bind fun b _ => ?_
  split_ifs with hlen hb hacc hpath
  · exact Keeps.throw
  · exact Keeps.throw
  · exact Keeps.throw
  · exact Keeps.throw
  · have hread : P .pread := by
      apply hP
      refine ⟨Bool.eq_false_iff.mpr hpath, ?_⟩
      rcases accmode_cases flags with h | h | h | h
      · exact .inl h
      · exact absurd (.inl h) hacc
      · exact .inr h
      · exact absurd (.inr h) hacc
    cases off with
    | none => exact readLoop_keeps within_host (fun _ n => hops.read hread n) ubuf _
    | some off =>
        cases hop : ops.pread with
        | none => exact Keeps.throw
        | some op => exact readLoop_keeps within_host (fun _ n => hops.pread hread op hop n _) ubuf _

theorem doWrite_within (hP : Allowed (rights flags) .pwrite → P .pwrite) (ubuf : UInt64) (len : ℤ)
    (off : Option UInt64) : Keeps (Within P) (doWrite io ops flags ubuf len off) (fun _ => True) := by
  unfold doWrite
  refine (reach_nil_within _).bind fun b _ => ?_
  split_ifs with hlen hb hacc hpath
  · exact Keeps.throw
  · exact Keeps.throw
  · exact Keeps.throw
  · exact Keeps.throw
  · have hwrite : P .pwrite := by
      apply hP
      refine ⟨Bool.eq_false_iff.mpr hpath, ?_⟩
      rcases accmode_cases flags with h | h | h | h
      · exact absurd (.inl h) hacc
      · exact .inl h
      · exact .inr h
      · exact absurd (.inr h) hacc
    cases off with
    | none => exact writeLoop_keeps within_host (fun _ b => hops.write hwrite b) ubuf _
    | some off =>
        cases hop : ops.pwrite with
        | none => exact Keeps.throw
        | some op => exact writeLoop_keeps within_host (fun _ b => hops.pwrite hwrite op hop b _) ubuf _

/-- Whether `sys_ftruncate` may come to the operation is left to who calls it. -/
theorem sysFtruncate_within {size : ℤ}
    (hP : 0 ≤ size → flags &&& O_ACCMODE ≠ O_RDONLY → ops.truncate ≠ none → P .truncate) :
    Keeps (Within P) (sysFtruncate ops flags size) (fun _ => True) := by
  rw [sysFtruncate]
  split_ifs with hsize hacc
  · exact Keeps.throw
  · exact Keeps.throw
  · cases hop : ops.truncate with
    | none => exact Keeps.throw
    | some op =>
        have htruncate := hP (by omega) hacc (by rw [hop]; nofun)
        exact (hops.truncate htruncate op hop _).bind fun _ _ => Keeps.pure trivial

theorem sysGetdents64_within (hP : ops.getdents ≠ none → P .entries) (ubuf : UInt64) (len : ℤ) :
    Keeps (Within P) (sysGetdents64 io ops ubuf len) (fun _ => True) := by
  rw [sysGetdents64]
  refine (reach_nil_within _).bind fun b _ => ?_
  cases hop : ops.getdents with
  | none => exact Keeps.throw
  | some op =>
      have hentries := hP (by rw [hop]; nofun)
      dsimp only
      split_ifs
      · exact Keeps.throw
      · exact Keeps.throw
      · refine (hops.getdents op hop _).bind fun records _ => ?_
        split_ifs
        · exact Keeps.pure trivial
        · refine (reach_one_within hentries _).bind fun copied _ => ?_
          split_ifs
          · exact Keeps.pure trivial
          · exact Keeps.throw

end Reaching

/-- A description that `vfs_open` has made, with the flags that it was asked for. -/
structure Made (η : Type) where
  file : OpenFile η
  asked : UInt32
  scan : HostDir

def isListed : OpenFile η → Bool
  | .host _ kind _ _ _ => kind = .hostdir
  | .synth f _ _ => match f with
    | .procDir _ | .devDir => true
    | _ => false

def isSized : OpenFile η → Bool
  | .host _ kind _ _ _ => kind ≠ .hostdir
  | .synth _ _ _ => false

theorem getdents_of_listed {H : HostStore η σ} {io : FileIo η σ} {flags : UInt32} {f : OpenFile η}
    (h : (opsOf H io flags f).getdents ≠ none) : isListed f = true := by
  cases f with
  | host h' kind fl path m =>
      cases kind with
      | hostdir => rfl
      | symlink => exact absurd rfl h
      | host => exact absurd rfl h
  | synth f fl path =>
      cases f with
      | procDir d => rfl
      | devDir => rfl
      | procLink => exact absurd rfl h
      | procFile text => exact absurd rfl h
      | devNode major minor => exact absurd rfl h

theorem truncate_of_sized {H : HostStore η σ} {io : FileIo η σ} {flags : UInt32} {f : OpenFile η}
    (h : (opsOf H io flags f).truncate ≠ none) : isSized f = true := by
  cases f with
  | host h' kind fl path m =>
      cases kind with
      | hostdir => exact absurd rfl h
      | symlink => rfl
      | host => rfl
  | synth f fl path => cases f <;> exact absurd rfl h

/-- A process: the world around it, its descriptors, and what is behind those that it opened. -/
structure Session (η σ : Type) where
  host : σ
  table : FdState
  made : ℕ → Option (Made η)

structure Answer where
  ret : Except Errno ℤ
  reached : List Reach

inductive FileCall where
  | openat (proc : ProcView) (dirfd : ℤ) (copied : Except Errno Bytes) (flags mode : UInt32)
  | dup (fd : ℤ)
  | fcntl (fd cmd arg : ℤ)
  | read (fd : ℤ) (ubuf : UInt64) (len : ℤ)
  | write (fd : ℤ) (ubuf : UInt64) (len : ℤ)
  | pread (fd : ℤ) (ubuf : UInt64) (len off : ℤ)
  | pwrite (fd : ℤ) (ubuf : UInt64) (len off : ℤ)
  | ftruncate (fd size : ℤ)
  | getdents64 (fd : ℤ) (ubuf : UInt64) (len : ℤ)

def FileCall.fd : FileCall → Option ℤ
  | .openat .. => none
  | .dup fd | .fcntl fd _ _ | .read fd _ _ | .write fd _ _ | .pread fd _ _ _ | .pwrite fd _ _ _
  | .ftruncate fd _ | .getdents64 fd _ _ => some fd

namespace Session

variable (s : Session η σ)

def dirPath (f : ℕ) : Option Bytes :=
  (s.made f).bind fun d => if isListed d.file then some d.file.path else none

def behind (fd : ℤ) : Option (Made η) := (s.table.fdGet fd).bind fun p => s.made p.2

variable (K : Kernel η σ) (io : FileIo η σ) (fs : FsCtx η)

/-- The end of `sys_openat`, which keeps in mind what was opened. -/
def opened (flags : UInt32) : Except Errno (OpenFile η) × σ → Answer × Session η σ
  | (.error e, x) => (⟨.error e, []⟩, { s with host := x })
  | (.ok f, x) =>
    let r := installed K f x (s.table.sysOpen flags (.ok f.made))
    (⟨r.1, []⟩,
      { host := r.2.1
        table := r.2.2
        made := Function.update s.made s.table.next (some ⟨f, flags, ⟨0, false, [], none⟩⟩) })

def openat (dirfd : ℤ) (copied : Except Errno Bytes) (flags mode : UInt32) : Answer × Session η σ :=
  match openatPath s.table s.dirPath dirfd copied with
  | .error e => (⟨.error e, []⟩, s)
  | .ok (base, path) => s.opened K flags ((vfsOpen K fs base path flags mode).run s.host)

/-- A call on the table of a descriptor's kind, with the flags that its description has now. What was
not opened, a pipe or the console, is not this session's matter. -/
def through (fd : ℤ) (act : Table σ → UInt32 → Call Errno (Live σ) ℕ) : Option (Answer × Session η σ) :=
  match s.table.fdGet fd with
  | none => some (⟨.error .EBADF, []⟩, s)
  | some (_, f) => (s.made f).map fun d =>
    let c := s.table.heap f
    let r := (act (opsOf K.store io c.flags d.file) c.flags).run ⟨s.host, c.pos, d.scan, []⟩
    (⟨r.1.map fun n => (n : ℤ), r.2.reached⟩,
      { host := r.2.host
        table := s.table.alter f fun c => { c with pos := r.2.pos }
        made := Function.update s.made f (some { d with scan := r.2.scan }) })

def step : FileCall → Option (Answer × Session η σ)
  | .openat proc dirfd copied flags mode =>
    some (s.openat { K with proc := proc } fs dirfd copied flags mode)
  | .dup fd => some (⟨(s.table.sysDup fd).1, []⟩, { s with table := (s.table.sysDup fd).2 })
  | .fcntl fd cmd arg =>
    some (⟨(s.table.sysFcntl fd cmd arg).1, []⟩, { s with table := (s.table.sysFcntl fd cmd arg).2 })
  | .read fd ubuf len => s.through K io fd fun ops flags => doRead io ops flags ubuf len none
  | .write fd ubuf len => s.through K io fd fun ops flags => doWrite io ops flags ubuf len none
  | .pread fd ubuf len off =>
    if off < 0 then some (⟨.error .EINVAL, []⟩, s)
    else s.through K io fd fun ops flags => doRead io ops flags ubuf len (some (UInt64.ofNat off.toNat))
  | .pwrite fd ubuf len off =>
    if off < 0 then some (⟨.error .EINVAL, []⟩, s)
    else s.through K io fd fun ops flags => doWrite io ops flags ubuf len (some (UInt64.ofNat off.toNat))
  | .ftruncate fd size => s.through K io fd fun ops flags => sysFtruncate ops flags size
  | .getdents64 fd ubuf len => s.through K io fd fun ops _ => sysGetdents64 io ops ubuf len

/-- The part of `openat` that the table and the world see is `sys_openat`. -/
theorem openat_eq (dirfd : ℤ) (copied : Except Errno Bytes) (flags mode : UInt32) :
    sysOpenat K fs s.dirPath dirfd copied flags mode (s.host, s.table) =
      ((s.openat K fs dirfd copied flags mode).1.ret,
        ((s.openat K fs dirfd copied flags mode).2.host, (s.openat K fs dirfd copied flags mode).2.table)) := by
  rw [sysOpenat, openat]
  cases openatPath s.table s.dirPath dirfd copied with
  | error e => rfl
  | ok start =>
      dsimp only
      cases (vfsOpen K fs start.1 start.2 flags mode).run s.host with
      | mk r x =>
          cases r with
          | error e => rfl
          | ok f => simp only [openatEnd, opened, Prod.mk.eta]

end Session

section Flags

theorem Desc.put_flags (d : Desc) : d.put.flags = d.flags := by
  rw [Desc.put]
  split_ifs
  · rfl
  · rfl

theorem flags_filePut (t : FdState) (f g : ℕ) : ((t.filePut f).heap g).flags = (t.heap g).flags := by
  by_cases hg : g = f
  · subst hg
    simp [FdState.filePut, Desc.put_flags]
  · simp [FdState.filePut, hg]

theorem flags_fdInstall (t : FdState) (f : ℕ) (cloexec : Bool) (min : ℤ) (g : ℕ) :
    ((t.fdInstall f cloexec min).2.heap g).flags = (t.heap g).flags := by
  rw [FdState.fdInstall]
  split_ifs
  · rfl
  · cases t.lowestFree min.toNat with
    | none => rfl
    | some i =>
        by_cases hg : g = f
        · subst hg
          simp [FdState.mark, FdState.seat, FdState.fileGet]
        · simp [FdState.mark, FdState.seat, FdState.fileGet, hg]

theorem flags_sysOpen (t : FdState) (flags : UInt32) (made : ℕ × UInt32) (g : ℕ) :
    ((t.sysOpen flags (.ok made)).2.heap g).flags = if g = t.next then made.2 else (t.heap g).flags := by
  rw [FdState.sysOpen]
  dsimp only
  rw [flags_filePut, flags_fdInstall]
  by_cases hg : g = t.next
  · subst hg
    simp [FdState.fileNew]
  · simp [FdState.fileNew, hg]

theorem flags_sysDup (t : FdState) (fd : ℤ) (g : ℕ) :
    ((t.sysDup fd).2.heap g).flags = (t.heap g).flags := by
  rw [FdState.sysDup]
  cases t.fdGet fd with
  | none => rfl
  | some p =>
      dsimp only
      rw [flags_fdInstall]

/-- Whatever `fcntl` does to a description, it is open for the same things after. -/
theorem rights_sysFcntl (t : FdState) (fd cmd arg : ℤ) (g : ℕ) :
    rights ((t.sysFcntl fd cmd arg).2.heap g).flags = rights (t.heap g).flags := by
  rw [FdState.sysFcntl]
  cases hget : t.fdGet fd with
  | none => rfl
  | some p =>
      dsimp only
      split_ifs
      · rw [flags_fdInstall]
      · rw [flags_fdInstall]
      · rfl
      · rw [FdState.fdSetCloexec, hget]
        rfl
      · rfl
      · rw [FdState.through, hget]
        by_cases hg : g = p.2
        · subst hg
          simp [FdState.alter, rights_setfl]
        · simp [FdState.alter, hg]
      · rfl

theorem keeps_anything {α : Type} (m : Call Errno σ α) : Keeps (fun _ => True) m (fun _ => True) :=
  fun _ _ => ⟨trivial, fun _ _ => trivial⟩

variable (K : Kernel η σ) (fs : FsCtx η)

theorem newHostFile_rights (o : Opened η) (flags : UInt32) (m : Mount η) (path : Bytes) :
    Keeps (fun _ => True) (newHostFile K o flags m path) (fun f => rights f.made.2 = rights flags) := by
  rw [newHostFile]
  refine (keeps_anything _).bind fun a _ => ?_
  split_ifs
  · apply Keeps.pure
    cases fileKindOf o.st.kind with
    | hostdir => exact rights_keptFlags flags
    | symlink => exact rights_keptFlags flags
    | host => exact rights_keptFlags flags
  · exact Keeps.throw.closing fun _ _ => trivial

theorem synth_rights (f : SynthFile) (flags : UInt32) (path : Bytes) :
    rights (OpenFile.synth f flags path : OpenFile η).made.2 = rights flags := by
  cases f <;> rfl

theorem openExisting_rights (loc : VfsLoc η) (flags : UInt32) :
    Keeps (fun _ => True) (openExisting K fs loc flags) (fun f => rights f.made.2 = rights flags) := by
  rw [openExisting]
  cases loc.m.type with
  | proc => exact (keeps_anything _).bind fun f _ => Keeps.pure (synth_rights f.1 flags f.2)
  | dev => exact (keeps_anything _).bind fun f _ => Keeps.pure (synth_rights f.1 flags f.2)
  | host root =>
      dsimp only
      rw [openExistingHost]
      refine (keeps_anything _).bind fun st _ => (keeps_anything _).bind fun u _ =>
        (keeps_anything _).bind fun o _ => ?_
      split_ifs
      · exact Keeps.throw.closing fun _ _ => trivial
      · exact Keeps.throw.closing fun _ _ => trivial
      · exact newHostFile_rights K o flags _ _

theorem openCreate_rights (root : η) (loc : VfsLoc η) (flags mode : UInt32) :
    Keeps (fun _ => True) (openCreate K fs root loc flags mode)
      (fun r => ∀ f, r = .inl f → rights f.made.2 = rights flags) := by
  rw [openCreate]
  refine (keeps_anything _).bind fun d _ => (keeps_anything _).bind fun o _ => ?_
  rw [createdOrLink]
  split_ifs
  · exact Keeps.throw.closing fun _ _ => trivial
  · exact Keeps.throw.closing fun _ _ => trivial
  · refine (keeps_anything _).bind fun r _ => (keeps_anything _).bind fun t _ => Keeps.pure ?_
    exact fun f hf => by cases hf
  · exact Keeps.throw.closing fun _ _ => trivial
  · refine (newHostFile_rights K o flags _ _).bind fun f hf => Keeps.pure fun g hg => ?_
    cases hg
    exact hf

theorem openCreating_rights (flags mode : UInt32) (n : ℕ) (base : Option Bytes) (path : Bytes) :
    Keeps (fun _ => True) (openCreating K fs flags mode n base path)
      (fun f => rights f.made.2 = rights flags) := by
  induction n generalizing base path with
  | zero => exact Keeps.throw
  | succ n ih =>
      rw [openCreating]
      refine (keeps_anything _).bind fun r _ => ?_
      cases r with
      | error e =>
          dsimp only
          split_ifs
          · exact (keeps_anything _).bind fun loc _ => openExisting_rights K fs loc flags
          · exact Keeps.throw
      | ok loc =>
          dsimp only
          cases loc.m.type with
          | proc => exact Keeps.throw
          | dev => exact Keeps.throw
          | host root =>
              refine (openCreate_rights K fs root loc flags mode).bind fun r hr => ?_
              cases r with
              | inl f => exact Keeps.pure (hr f rfl)
              | inr t => exact ih (some loc.abs) t

/-- A new description is for what the flags of its open say. -/
theorem vfsOpen_rights (base : Option Bytes) (path : Bytes) (flags mode : UInt32) :
    Keeps (fun _ => True) (vfsOpen K fs base path flags mode) (fun f => rights f.made.2 = rights flags) := by
  rw [vfsOpen]
  split_ifs
  · exact openCreating_rights K fs flags mode 41 base path
  · exact (keeps_anything _).bind fun loc _ => openExisting_rights K fs loc flags
  · exact (keeps_anything _).bind fun loc _ => openExisting_rights K fs loc flags

end Flags

section Runs

variable {nt : Nt η σ} {rest : HostStore η σ} {view : σ → ν} {K : Kernel η σ} {io : FileIo η σ}
  {fs : FsCtx η}

/-- The call does no more than the open of its description was for, and if it is an open with `O_PATH`
itself, the host shows what it showed. -/
structure OnlyAsOpened (K : Kernel η σ) (io : FileIo η σ) (fs : FsCtx η) (view : σ → ν)
    (s : Session η σ) (c : FileCall) : Prop where
  reached : ∀ r s', s.step K io fs c = some (r, s') → ∀ e ∈ r.reached,
    ∃ fd d, c.fd = some fd ∧ s.behind fd = some d ∧ Allowed (rights d.asked) e
  unmodified : ∀ proc dirfd copied flags mode, c = .openat proc dirfd copied flags mode →
    has flags O_PATH = true → ∀ r s', s.step K io fs c = some (r, s') → view s'.host = view s.host

def Session.reachedBy (K : Kernel η σ) (io : FileIo η σ) (fs : FsCtx η) (s : Session η σ) (c : FileCall) :
    List Reach :=
  match s.step K io fs c with
  | none => []
  | some p => p.1.reached

theorem OnlyAsOpened.allowed {s : Session η σ} {c : FileCall} (h : OnlyAsOpened K io fs view s c) {fd : ℤ}
    (hfd : c.fd = some fd) (asked : UInt32) (hasked : (s.behind fd).map Made.asked = some asked) (e : Reach)
    (he : e ∈ s.reachedBy K io fs c) : Allowed (rights asked) e := by
  rw [Session.reachedBy] at he
  cases hstep : s.step K io fs c with
  | none =>
      rw [hstep] at he
      cases he
  | some p =>
      rw [hstep] at he
      obtain ⟨fd', d, hfd', hd, hallowed⟩ := h.reached p.1 p.2 hstep e he
      rw [hfd] at hfd'
      cases hfd'
      rw [hd] at hasked
      cases hasked
      exact hallowed

/-- What the source leaves to its callers: an open with `O_PATH` asks the host to make or empty nothing,
a file is not resized and a directory not listed through a description that is not open for it. -/
def Careful (K : Kernel η σ) (fs : FsCtx η) (s : Session η σ) : FileCall → Prop
  | .openat proc dirfd copied flags mode => has flags O_PATH = true →
    ∀ base path, openatPath s.table s.dirPath dirfd copied = .ok (base, path) →
      ∀ q z, VfsAsks { K with proc := proc } fs flags mode base path s.host q z → mayChange q.hflags = false
  | .ftruncate fd size => ∀ d, s.behind fd = some d → isSized d.file = true → 0 ≤ size →
    d.asked &&& O_ACCMODE ≠ O_RDONLY → has d.asked O_PATH = false ∧ d.asked &&& O_ACCMODE ≠ 3
  | .getdents64 fd _ _ => ∀ d, s.behind fd = some d → isListed d.file = true → has d.asked O_PATH = false
  | _ => True

structure Session.Sound (T : MountTable η) (s : Session η σ) : Prop where
  rights : ∀ f d, s.made f = some d → rights (s.table.heap f).flags = rights d.asked
  file : ∀ f d, s.made f = some d → d.file.Sound T

theorem listed_path {T : MountTable η} {f : OpenFile η} (hf : f.Sound T)
    (hl : isListed f = true) : Canonical f.path := by
  cases f with
  | host h kind fl path m => exact hf (by simpa [isListed] using hl)
  | synth f fl path =>
      cases f with
      | procDir d => exact hf.1.canonical
      | devDir =>
          have hpath : path = str "/dev" := hf.1
          subst hpath
          exact Canonical.single (n := str "dev") (by decide) (by decide)
      | procLink => cases hl
      | procFile text => cases hl
      | devNode major minor => cases hl

theorem Session.Sound.dirPath {T : MountTable η} {s : Session η σ} (hs : s.Sound T) {f : ℕ} {p : Bytes}
    (h : s.dirPath f = some p) : Canonical p := by
  rw [Session.dirPath] at h
  obtain ⟨d, hd, h⟩ := Option.bind_eq_some_iff.mp h
  split_ifs at h with hl
  cases h
  exact listed_path (hs.file f d hd) hl

/-- A call through a descriptor reaches what its operation does, and leaves every description's flags
and file. -/
theorem Session.Sound.through {T : MountTable η} {s s' : Session η σ} (hs : s.Sound T) {fd : ℤ}
    {act : Table σ → UInt32 → Call Errno (Live σ) ℕ} {r : Answer}
    (h : s.through K io fd act = some (r, s')) {P : Made η → Reach → Prop}
    (hact : ∀ d, s.behind fd = some d → ∀ flags, SysvNt.FileOps.rights flags = SysvNt.FileOps.rights d.asked →
      Keeps (Within (P d)) (act (opsOf K.store io flags d.file) flags) (fun _ => True)) :
    (∀ e ∈ r.reached, ∃ d, s.behind fd = some d ∧ P d e) ∧ s'.Sound T := by
  rw [Session.through] at h
  cases hget : s.table.fdGet fd with
  | none =>
      rw [hget] at h
      cases h
      exact ⟨fun e he => (nomatch he), hs⟩
  | some p =>
      obtain ⟨i, f⟩ := p
      rw [hget] at h
      dsimp only at h
      obtain ⟨d, hd, h⟩ := Option.map_eq_some_iff.mp h
      have hbehind : s.behind fd = some d := by
        rw [Session.behind, hget]
        exact hd
      have hrights := hs.rights f d hd
      have hkeep := (hact d hbehind _ hrights ⟨s.host, (s.table.heap f).pos, d.scan, []⟩ (by nofun)).1
      cases h
      refine ⟨fun e he => ⟨d, hbehind, hkeep e he⟩, fun g d' hd' => ?_, fun g d' hd' => ?_⟩
      · by_cases hg : g = f
        · subst hg
          dsimp only at hd' ⊢
          rw [Function.update_self] at hd'
          cases hd'
          simpa [FdState.alter] using hrights
        · dsimp only at hd' ⊢
          rw [Function.update_of_ne hg] at hd'
          simpa [FdState.alter, hg] using hs.rights g d' hd'
      · by_cases hg : g = f
        · subst hg
          dsimp only at hd'
          rw [Function.update_self] at hd'
          cases hd'
          exact hs.file g d hd
        · dsimp only at hd'
          rw [Function.update_of_ne hg] at hd'
          exact hs.file g d' hd'

/-- An open leaves the descriptions that there are as they were, and the new one is for what its flags
say. -/
theorem Session.Sound.openat {s : Session η σ} (hs : s.Sound fs.table) (hT : InPlace fs.table)
    (hcwd : Canonical fs.cwd) (dirfd : ℤ) (copied : Except Errno Bytes) (flags mode : UInt32) :
    (s.openat K fs dirfd copied flags mode).2.Sound fs.table := by
  rw [Session.openat]
  cases hpath : openatPath s.table s.dirPath dirfd copied with
  | error e => exact hs
  | ok start =>
      obtain ⟨base, path⟩ := start
      have hbase : Canonical (base.getD fs.cwd) := openatPath_based hcwd (fun f p => hs.dirPath) hpath
      have hrights := (vfsOpen_rights K fs base path flags mode s.host trivial).2
      dsimp only
      cases hopen : (vfsOpen K fs base path flags mode).run s.host with
      | mk r x =>
          rw [hopen] at hrights
          cases r with
          | error e => exact ⟨hs.rights, hs.file⟩
          | ok f =>
              have htable : (installed K f x (s.table.sysOpen flags (.ok f.made))).2.2 =
                  (s.table.sysOpen flags (.ok f.made)).2 := by
                rw [installed]
                cases (s.table.sysOpen flags (.ok f.made)).1 <;> rfl
              refine ⟨fun g d hd => ?_, fun g d hd => ?_⟩
              · dsimp only [Session.opened] at hd ⊢
                rw [htable, flags_sysOpen]
                by_cases hg : g = s.table.next
                · rw [hg, Function.update_self] at hd
                  cases hd
                  rw [if_pos hg]
                  exact hrights f rfl
                · rw [Function.update_of_ne hg] at hd
                  rw [if_neg hg]
                  exact hs.rights g d hd
              · dsimp only [Session.opened] at hd
                by_cases hg : g = s.table.next
                · rw [hg, Function.update_self] at hd
                  cases hd
                  exact vfsOpen_sound hT hbase hopen
                · rw [Function.update_of_ne hg] at hd
                  exact hs.file g d hd

theorem Allowed.of_rights {a b : UInt32} {e : Reach} (h : rights a = rights b) (ha : Allowed (rights a) e) :
    Allowed (rights b) e := h ▸ ha

/-- An open that asks the host to make or empty nothing leaves it as it was. -/
theorem openat_view (hQ : Quiet K.store view) {s : Session η σ} (hs : s.Sound fs.table)
    (hcwd : Canonical fs.cwd) {dirfd : ℤ} {copied : Except Errno Bytes} {flags mode : UInt32}
    (hasks : ∀ base path, openatPath s.table s.dirPath dirfd copied = .ok (base, path) →
      ∀ q z, VfsAsks K fs flags mode base path s.host q z → mayChange q.hflags = false) :
    view (s.openat K fs dirfd copied flags mode).2.host = view s.host := by
  rw [Session.openat]
  cases hpath : openatPath s.table s.dirPath dirfd copied with
  | error e => rfl
  | ok start =>
      obtain ⟨base, path⟩ := start
      have hbase : Canonical (base.getD fs.cwd) := openatPath_based hcwd (fun f p => hs.dirPath) hpath
      have hclean : Clean view False (vfsOpen K fs base path flags mode) s.host := by
        apply (vfsOpen_clean_iff hQ hbase path s.host).mpr
        intro q z hq
        have hask := hasks base path hpath q z hq
        exact .inl ((hQ.guarded (view z)).openat q.dir [] q.name q.hflags q.mode q.uid q.gid true trivial
          hask z rfl).1
      have hview := hclean.resolve_left fun h => h.1
      dsimp only
      cases hopen : (vfsOpen K fs base path flags mode).run s.host with
      | mk r x =>
          rw [hopen] at hview
          cases r with
          | error e => exact hview
          | ok f =>
              refine Eq.trans ?_ hview
              dsimp only [Session.opened]
              rw [installed]
              cases (s.table.sysOpen flags (.ok f.made)).1 with
              | ok fd => rfl
              | error e =>
                  cases f with
                  | host h kind fl p m => exact close_quiet hQ h x
                  | synth f fl p => rfl

theorem openat_reached (s : Session η σ) (dirfd : ℤ) (copied : Except Errno Bytes) (flags mode : UInt32) :
    (s.openat K fs dirfd copied flags mode).1.reached = [] := by
  rw [Session.openat]
  cases openatPath s.table s.dirPath dirfd copied with
  | error e => rfl
  | ok start =>
      dsimp only
      cases (vfsOpen K fs start.1 start.2 flags mode).run s.host with
      | mk r x => cases r <;> rfl

/-- What one call reaches, and what it leaves. -/
theorem step_spec (hT : InPlace fs.table) (hcwd : Canonical fs.cwd) {s s' : Session η σ}
    (hs : s.Sound fs.table) {c : FileCall} (hcare : Careful K fs s c) {r : Answer}
    (h : s.step K io fs c = some (r, s')) :
    (∀ e ∈ r.reached, ∃ fd d, c.fd = some fd ∧ s.behind fd = some d ∧ Allowed (rights d.asked) e) ∧
      s'.Sound fs.table := by
  have hthrough : ∀ fd (act : Table σ → UInt32 → Call Errno (Live σ) ℕ), c.fd = some fd →
      s.through K io fd act = some (r, s') →
      (∀ d, s.behind fd = some d → ∀ flags, rights flags = rights d.asked →
        Keeps (Within (Allowed (rights d.asked))) (act (opsOf K.store io flags d.file) flags) (fun _ => True)) →
      (∀ e ∈ r.reached, ∃ fd d, c.fd = some fd ∧ s.behind fd = some d ∧ Allowed (rights d.asked) e) ∧
        s'.Sound fs.table := by
    intro fd act hfd hrun hact
    obtain ⟨hreached, hnext⟩ := hs.through (P := fun d => Allowed (rights d.asked)) hrun hact
    refine ⟨fun e he => ?_, hnext⟩
    obtain ⟨d, hd, hallowed⟩ := hreached e he
    exact ⟨fd, d, hfd, hd, hallowed⟩
  have hquiet : ∀ t : Session η σ, t.Sound fs.table → ∀ ret, (⟨ret, []⟩, t) = (r, s') →
      (∀ e ∈ r.reached, ∃ fd d, c.fd = some fd ∧ s.behind fd = some d ∧ Allowed (rights d.asked) e) ∧
        s'.Sound fs.table := by
    intro t ht ret hrun
    cases hrun
    exact ⟨fun e he => (nomatch he), ht⟩
  cases c with
  | openat proc dirfd copied flags mode =>
      have hrun : s.openat { K with proc := proc } fs dirfd copied flags mode = (r, s') := Option.some.inj h
      have hreached : (s.openat { K with proc := proc } fs dirfd copied flags mode).1.reached = [] :=
        openat_reached s dirfd copied flags mode
      have hnext := hs.openat (K := { K with proc := proc }) hT hcwd dirfd copied flags mode
      rw [hrun] at hreached hnext
      refine ⟨fun e he => ?_, hnext⟩
      rw [hreached] at he
      cases he
  | dup fd =>
      rw [Session.step] at h
      refine hquiet _ ?_ _ (Option.some.inj h)
      refine ⟨fun f d hd => ?_, hs.file⟩
      rw [flags_sysDup]
      exact hs.rights f d hd
  | fcntl fd cmd arg =>
      rw [Session.step] at h
      refine hquiet _ ?_ _ (Option.some.inj h)
      refine ⟨fun f d hd => ?_, hs.file⟩
      rw [rights_sysFcntl]
      exact hs.rights f d hd
  | read fd ubuf len =>
      rw [Session.step] at h
      apply hthrough fd _ rfl h
      intro d _ flags hflags
      exact doRead_within (opsOf_confined flags d.file) (Allowed.of_rights hflags) ubuf len none
  | write fd ubuf len =>
      rw [Session.step] at h
      apply hthrough fd _ rfl h
      intro d _ flags hflags
      exact doWrite_within (opsOf_confined flags d.file) (Allowed.of_rights hflags) ubuf len none
  | pread fd ubuf len off =>
      rw [Session.step] at h
      split_ifs at h
      · exact hquiet s hs _ (Option.some.inj h)
      · apply hthrough fd _ rfl h
        intro d _ flags hflags
        exact doRead_within (opsOf_confined flags d.file) (Allowed.of_rights hflags) ubuf len _
  | pwrite fd ubuf len off =>
      rw [Session.step] at h
      split_ifs at h
      · exact hquiet s hs _ (Option.some.inj h)
      · apply hthrough fd _ rfl h
        intro d _ flags hflags
        exact doWrite_within (opsOf_confined flags d.file) (Allowed.of_rights hflags) ubuf len _
  | ftruncate fd size =>
      rw [Session.step] at h
      apply hthrough fd _ rfl h
      intro d hd flags hflags
      apply sysFtruncate_within (opsOf_confined flags d.file)
      intro hsize hacc hop
      have haccmode : flags &&& O_ACCMODE = d.asked &&& O_ACCMODE := congrArg Prod.fst hflags
      rw [haccmode] at hacc
      obtain ⟨hpath, hthree⟩ := hcare d hd (truncate_of_sized hop) hsize hacc
      refine ⟨hpath, ?_⟩
      rcases accmode_cases d.asked with hmode | hmode | hmode | hmode
      · exact absurd hmode hacc
      · exact .inl hmode
      · exact .inr hmode
      · exact absurd hmode hthree
  | getdents64 fd ubuf len =>
      rw [Session.step] at h
      apply hthrough fd _ rfl h
      intro d hd flags _
      apply sysGetdents64_within (opsOf_confined flags d.file)
      intro hop
      exact hcare d hd (getdents_of_listed hop)

/-- Over every run of opens and calls, a description does only what it was opened for and an open with
`O_PATH` modifies nothing, if the calls that check less are made with care. -/
theorem descriptions_only_as_opened (hK : K.store = nt.store rest) (hN : nt.Quiet rest view)
    (hT : InPlace fs.table) (hcwd : Canonical fs.cwd) {s : Session η σ} (hs : ∀ f, s.made f = none)
    {calls : List FileCall}
    (hc : ActionRuns.EachMeets (fun s c => s.step K io fs c) (Careful K fs) s calls) :
    ActionRuns.EachMeets (fun s c => s.step K io fs c) (OnlyAsOpened K io fs view) s calls := by
  have hsound : s.Sound fs.table := by
    refine ⟨fun f d hd => ?_, fun f d hd => ?_⟩
    · rw [hs f] at hd
      cases hd
    · rw [hs f] at hd
      cases hd
  refine hc.imp (I := fun s => s.Sound fs.table) (fun s c hs hcare => ?_) hsound
  refine ⟨⟨fun r s' h => (step_spec hT hcwd hs hcare h).1, ?_⟩, fun r s' h => (step_spec hT hcwd hs hcare h).2⟩
  intro proc dirfd copied flags mode hcall hpath r s' h
  subst hcall
  have hQ : Quiet ({ K with proc := proc } : Kernel η σ).store view := by
    change Quiet K.store view
    rw [hK]
    exact hN.store
  have hrun : s.openat { K with proc := proc } fs dirfd copied flags mode = (r, s') := Option.some.inj h
  have hview := openat_view hQ hs hcwd (hcare hpath)
  rw [hrun] at hview
  exact hview

end Runs

/-- Opens that ask for neither creation nor truncation ask nothing of the kind of the host. -/
theorem vfsAsks_plain {K : Kernel η σ} {fs : FsCtx η} {flags mode : UInt32} {base : Option Bytes}
    {path : Bytes} {x z : σ} {q : Ask η} (hcreat : has flags O_CREAT = false)
    (htrunc : has flags O_TRUNC = false) (h : VfsAsks K fs flags mode base path x q z) :
    mayChange q.hflags = false := by
  rw [VfsAsks, hcreat, if_neg Bool.false_ne_true] at h
  obtain ⟨loc, y, _, hask⟩ := h
  cases hask with
  | @below root st y z d mounted found allowed named parent =>
      change mayChange (existingFlags st flags) = false
      rw [existingFlags, hostFlags, htrunc, if_neg Bool.false_ne_true]
      split_ifs <;> decide

/-- A world whose files hold the byte given, over the host with room for one name. -/
def oneNameIo : FileIo Bool Bool where
  pread _ len _ := pure (List.replicate (min len 1) 0x61)
  pwrite _ b _ _ := pure b.length
  directory _ _ := ⟨1, [], true, true⟩
  copyOut _ _ := pure true
  copyIn _ n := pure (some (List.replicate n 0x61))
  bounce := pure true
  random n := pure (List.replicate n 0)
  consoleRead _ := pure []
  consoleWrite b := pure b.length

/-- A process that has opened nothing yet, on the host with or without the file `f`. -/
def fresh (present : Bool) : Session Bool Bool := ⟨present, fdtableInit, fun _ => none⟩

def oneNameFs : FsCtx Bool := FsCtx.initial false 1 true

def openCall (path : Bytes) (flags : UInt32) : FileCall :=
  .openat oneNameKernel.proc AT_FDCWD (.ok path) flags 0o644

def oneNameStep (s : Session Bool Bool) (c : FileCall) : Option (Answer × Session Bool Bool) :=
  s.step oneNameKernel oneNameIo oneNameFs c

/-- Through a description opened with `O_PATH` a file is resized and a directory listed, and the open
itself makes a file. -/
theorem path_description_resizes_and_lists :
    ¬ ActionRuns.EachMeets oneNameStep (OnlyAsOpened oneNameKernel oneNameIo oneNameFs id) (fresh true)
      [openCall (str "/f") (O_PATH ||| O_RDWR), .ftruncate 0 0] ∧
    ¬ ActionRuns.EachMeets oneNameStep (OnlyAsOpened oneNameKernel oneNameIo oneNameFs id) (fresh true)
      [openCall (str "/") O_PATH, .getdents64 0 0x1000 0x1000] ∧
    ¬ ActionRuns.EachMeets oneNameStep (OnlyAsOpened oneNameKernel oneNameIo oneNameFs id) (fresh true)
      [openCall (str "/f") 3, .ftruncate 0 0] ∧
    ¬ ActionRuns.EachMeets oneNameStep (OnlyAsOpened oneNameKernel oneNameIo oneNameFs id) (fresh false)
      [openCall (str "/f") (O_PATH ||| O_CREAT ||| O_EXCL)] := by
  refine ⟨fun h => ?_, fun h => ?_, fun h => ?_, fun h => ?_⟩
  · have hallowed := (h.2 _ _ rfl).1.allowed rfl (O_PATH ||| O_RDWR) (by decide +kernel) .truncate
      (by decide +kernel)
    exact absurd hallowed.1 (by decide)
  · have hallowed := (h.2 _ _ rfl).1.allowed rfl O_PATH (by decide +kernel) .entries (by decide +kernel)
    have hpath : has O_PATH O_PATH = false := hallowed
    exact absurd hpath (by decide)
  · have hallowed := (h.2 _ _ rfl).1.allowed rfl 3 (by decide +kernel) .truncate (by decide +kernel)
    exact absurd hallowed.2 (by decide)
  · have hview := h.1.unmodified _ _ _ _ _ rfl (by decide) _ _ rfl
    exact absurd hview (by decide +kernel)

def Session.after (s : Session Bool Bool) (c : FileCall) : Session Bool Bool :=
  match oneNameStep s c with
  | none => s
  | some p => p.2

theorem eachMeets_after {C : Session Bool Bool → FileCall → Prop} {s : Session Bool Bool} {c : FileCall}
    {cs : List FileCall} (hc : C s c) (h : ActionRuns.EachMeets oneNameStep C (s.after c) cs) :
    ActionRuns.EachMeets oneNameStep C s (c :: cs) := by
  refine ⟨hc, fun r s' hs => ?_⟩
  rw [Session.after, hs] at h
  exact h

theorem behind_made {α : Type} (g : Made Bool → α) {s : Session Bool Bool} {fd : ℤ} (a : α)
    (h : (s.behind fd).map g = some a) {d : Made Bool} (hd : s.behind fd = some d) : g d = a := by
  rw [hd] at h
  exact Option.some.inj h

/-- A file that is opened, written through a second descriptor, resized, and opened again with `O_PATH`. -/
theorem write_then_path_only_as_opened :
    ActionRuns.EachMeets oneNameStep (OnlyAsOpened oneNameKernel oneNameIo oneNameFs id) (fresh false)
      [openCall (str "/f") (O_RDWR ||| O_CREAT ||| O_EXCL), .dup 0, .fcntl 1 F_SETFL O_APPEND.toNat,
        .write 1 0x1000 5, .pread 0 0x1000 5 0, .ftruncate 1 0, openCall (str "/f") (O_PATH ||| O_RDWR),
        .read 2 0x1000 5, .getdents64 2 0x1000 0x1000] := by
  refine descriptions_only_as_opened rfl oneNameNt_quiet (initial_inPlace false 1 true) Canonical.root
    (fun _ => rfl) ?_
  apply eachMeets_after
  · intro hpath
    cases hpath
  apply eachMeets_after trivial
  apply eachMeets_after trivial
  apply eachMeets_after trivial
  apply eachMeets_after trivial
  apply eachMeets_after
  · intro d hd _ _ _
    rw [behind_made Made.asked (O_RDWR ||| O_CREAT ||| O_EXCL) (by decide +kernel) hd]
    decide
  apply eachMeets_after
  · intro _ base path _ q z hq
    exact vfsAsks_plain (by decide) (by decide) hq
  apply eachMeets_after trivial
  apply eachMeets_after
  · intro d hd hl
    rw [behind_made (fun d => isListed d.file) false (by decide +kernel) hd] at hl
    cases hl
  · trivial

end SysvNt.FileOps
