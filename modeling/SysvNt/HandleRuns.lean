import SysvNt.HandleBalance
import SysvNt.MountRuns

/-!
# Runs of the calls on files

Processes open paths, ask about them and change them, use the descriptions they hold, list
directories and close. Over every such run the open handles of the host are the mount roots and
one for each live description of an object on the host, and the directory readers are those of
the live descriptions.
-/

namespace SysvNt

open FallibleCalls Ownership

variable {η σ : Type}

structure Live (η : Type) where
  file : OpenFile (η × ℕ)
  reader : Option ℕ

/-- The host with its open handles, the open directory readers, and the live descriptions. -/
structure Files (η σ : Type) where
  host : σ × Ledger
  readers : Ledger
  live : List (Live η)

/-- A call on a path or on a live description. `io` stands for what reads, writes, seeks, truncates
and syncs do on the host through the description's handle. -/
inductive FileCall (η σ : Type) where
  | path (op : PathOp)
  | access (base : Option Bytes) (path : Bytes) (mode : UInt32) (effective : Bool)
  | readlink (base : Option Bytes) (path : Bytes)
  | chdir (base : Option Bytes) (path : Bytes)
  | fchmod (i : ℕ) (mode : UInt32)
  | fchown (i : ℕ) (uid gid : UInt32)
  | futimens (i : ℕ) (atime mtime : Int64)
  | io (i : ℕ) (act : η → StateM σ Unit)
  | getdents (i : ℕ) (room dirOk : Bool)
  | rewind (i : ℕ)
  | close (i : ℕ)

def FileCall.bases : FileCall η σ → List (Option Bytes)
  | path op => op.bases
  | access base _ _ _ => [base]
  | readlink base _ => [base]
  | chdir base _ => [base]
  | _ => []

/-- A call and the process that makes it. Directories are held by their canonical paths. -/
structure FileRequest (η σ : Type) where
  call : FileCall η σ
  cwd : Bytes
  umask : UInt32
  uid : UInt32
  gid : UInt32
  euid : UInt32
  egid : UInt32
  proc : ProcView
  stack : Bytes
  based : ∀ base ∈ call.bases, Canonical (base.getD cwd)

namespace Files

def ask {α : Type} (s : Files η σ) (m : Call Errno (σ × Ledger) α) : Files η σ :=
  { s with host := (m.run s.host).2 }

def keep (s : Files η σ) (m : Call Errno (σ × Ledger) (OpenFile (η × ℕ))) : Files η σ :=
  match m.run s.host with
  | (.ok f, host) => { s with host := host, live := ⟨f, none⟩ :: s.live }
  | (.error _, host) => { s with host := host }

def through (s : Files η σ) (i : ℕ) (m : OpenFile (η × ℕ) → Call Errno (σ × Ledger) Unit) :
    Files η σ :=
  match s.live[i]? with
  | some x => s.ask (m x.file)
  | none => s

end Files

def OpenFile.io (act : η → StateM σ Unit) : OpenFile (η × ℕ) → Call Errno (σ × Ledger) Unit
  | .host h _ _ _ _ => onHandles [h.2] (liftM (act h.1))
  | .synth _ _ _ => pure ()

/-- Use the reader of a description, or open one; `hfs_dir_open` may find no memory. -/
def Live.read (x : Live η) (dirOk : Bool) (l : Ledger) : Live η × Ledger :=
  match x.reader with
  | some r => (x, l.use r)
  | none => if dirOk then ({ x with reader := some l.next }, l.give.use l.next) else (x, l)

def Live.shut (x : Live η) (l : Ledger) : Live η × Ledger :=
  ({ x with reader := none }, x.reader.elim l l.handBack)

namespace Files

/-- `hostdir_getdents`, the reader's part of it; `room` says whether the call comes to the reader,
past the allocation of the held entries and the two dots. -/
def getdents (s : Files η σ) (i : ℕ) (room dirOk : Bool) : Files η σ :=
  match s.live[i]? with
  | some x => match x.file with
    | .host h .hostdir _ _ _ =>
      if room then
        { s.ask (onHandles [h.2] (pure ())) with
          readers := (x.read dirOk s.readers).2
          live := s.live.set i (x.read dirOk s.readers).1 }
      else s.ask (onHandles [h.2] (pure ()))
    | _ => s
  | none => s

def rewind (s : Files η σ) (i : ℕ) : Files η σ :=
  match s.live[i]? with
  | some x => { s with readers := (x.shut s.readers).2, live := s.live.set i (x.shut s.readers).1 }
  | none => s

/-- Drop the last reference to a description: its reader is closed, then its handle. -/
def close (K : Kernel (η × ℕ) (σ × Ledger)) (s : Files η σ) (i : ℕ) : Files η σ :=
  match s.live[i]? with
  | some x => ⟨(filePut K x.file s.host).2, (x.shut s.readers).2, s.live.eraseIdx i⟩
  | none => s

/-- A call on a path; the description that an open makes stays live. -/
def perform (K : Kernel (η × ℕ) (σ × Ledger)) (fs : FsCtx (η × ℕ)) (s : Files η σ) :
    PathOp → Files η σ
  | .open base path flags mode => s.keep (vfsOpen K fs base path flags mode)
  | op => s.ask (op.perform K fs)

end Files

namespace FileRequest

variable (H : HostStore η σ) (T : MountTable (η × ℕ))

def kernel (r : FileRequest η σ) : Kernel (η × ℕ) (σ × Ledger) := countedKernel H r.proc r.stack

def ctx (r : FileRequest η σ) : FsCtx (η × ℕ) where
  table := T
  cwd := r.cwd
  umask := r.umask
  uid := r.uid
  gid := r.gid
  euid := r.euid
  egid := r.egid

def step (s : Files η σ) (r : FileRequest η σ) : Files η σ :=
  let K := r.kernel H
  let fs := r.ctx T
  match r.call with
  | .path op => s.perform K fs op
  | .access base path mode effective => s.ask (vfsAccess K fs base path mode effective)
  | .readlink base path => s.ask (vfsReadlink K fs base path)
  | .chdir base path => s.ask (vfsChdir K fs base path)
  | .fchmod i mode => s.through i fun f => vfsFchmod K fs f mode
  | .fchown i uid gid => s.through i fun f => vfsFchown K fs f uid gid
  | .futimens i atime mtime => s.through i fun f => vfsFutimens K f atime mtime
  | .io i act => s.through i (OpenFile.io act)
  | .getdents i room dirOk => s.getdents i room dirOk
  | .rewind i => s.rewind i
  | .close i => s.close K i

end FileRequest

def MountTable.rootHandles (T : MountTable (η × ℕ)) : List ℕ :=
  T.mounts.filterMap fun m => match m.type with
    | .host root => some root.2
    | _ => none

def Files.handles (T : MountTable (η × ℕ)) (s : Files η σ) : List ℕ :=
  s.live.flatMap (fun x => x.file.handles) ++ T.rootHandles

/-- Open are the handles of the mount roots and of the live descriptions, each once, and the
readers of the live descriptions; nothing was used or closed that was not open. -/
structure Files.Balanced (T : MountTable (η × ℕ)) (s : Files η σ) : Prop where
  handles : Owns (s.handles T) s.host.2
  readers : Owns (s.live.flatMap fun x => x.reader.toList) s.readers

section Steps

variable {H : HostStore η σ} {T : MountTable (η × ℕ)} {s : Files η σ}

theorem rootsHeld_handles (T : MountTable (η × ℕ)) (ns : List ℕ) : RootsHeld T (ns ++ T.rootHandles) := by
  intro m hm root hroot
  refine List.mem_append_right _ (List.mem_filterMap.mpr ⟨m, hm, ?_⟩)
  rw [hroot]

theorem mem_handles {i : ℕ} {x : Live η} (hx : s.live[i]? = some x) {n : ℕ} (hn : n ∈ x.file.handles) :
    n ∈ s.handles T :=
  List.mem_append_left _ (List.mem_flatMap.mpr ⟨x, List.mem_of_getElem? hx, hn⟩)

theorem Files.Balanced.ask {α : Type} (hs : s.Balanced T) {m : Call Errno (σ × Ledger) α} {Q : α → Prop}
    (hm : Keeps (Holds (s.handles T)) m Q) : (s.ask m).Balanced T :=
  ⟨(hm s.host hs.handles).1, hs.readers⟩

theorem Files.Balanced.keep (hs : s.Balanced T) {m : Call Errno (σ × Ledger) (OpenFile (η × ℕ))}
    (hm : Ends (Holds (s.handles T)) m (fun f => Holds (f.handles ++ s.handles T)) (Holds (s.handles T))) :
    (s.keep m).Balanced T := by
  rw [Files.keep]
  cases hrun : m.run s.host with
  | mk r host =>
      cases r with
      | ok f =>
          refine ⟨?_, hs.readers⟩
          rw [Files.handles, List.flatMap_cons, List.append_assoc]
          exact (hm s.host hs.handles).1 f host hrun
      | error e => exact ⟨(hm s.host hs.handles).2 e host hrun, hs.readers⟩

theorem Files.Balanced.through (hs : s.Balanced T) (i : ℕ)
    {m : OpenFile (η × ℕ) → Call Errno (σ × Ledger) Unit}
    (hm : ∀ f : OpenFile (η × ℕ), (∀ n ∈ f.handles, n ∈ s.handles T) →
      Keeps (Holds (s.handles T)) (m f) (fun _ => True)) : (s.through i m).Balanced T := by
  rw [Files.through]
  cases hx : s.live[i]? with
  | none => exact hs
  | some x => exact hs.ask (hm x.file fun n hn => mem_handles hx hn)

/-- Taking a live description out of the list. -/
theorem flatMap_perm_eraseIdx {α β : Type} (f : α → List β) {l : List α} {i : ℕ} {x : α}
    (hx : l[i]? = some x) : (l.flatMap f).Perm (f x ++ (l.eraseIdx i).flatMap f) := by
  obtain ⟨hi, rfl⟩ := List.getElem?_eq_some_iff.mp hx
  exact (List.getElem_cons_eraseIdx_perm hi).symm.flatMap_right f

/-- Changing a live description in the list. -/
theorem flatMap_set_perm {α β : Type} (f : α → List β) {l : List α} {i : ℕ} {x : α}
    (hx : l[i]? = some x) (y : α) :
    ((l.set i y).flatMap f).Perm (f y ++ (l.eraseIdx i).flatMap f) := by
  obtain ⟨hi, -⟩ := List.getElem?_eq_some_iff.mp hx
  exact (List.set_perm_cons_eraseIdx hi y).flatMap_right f

theorem flatMap_set_of_eq {α β : Type} (f : α → List β) {l : List α} {i : ℕ} {x y : α}
    (hx : l[i]? = some x) (hxy : f y = f x) : (l.set i y).flatMap f = l.flatMap f := by
  obtain ⟨hi, rfl⟩ := List.getElem?_eq_some_iff.mp hx
  have hset : (l.map f).set i (f l[i]) = l.map f := by
    rw [← List.map_set, List.set_getElem_self]
  rw [List.flatMap_def, List.flatMap_def, List.map_set, hxy, hset]

variable {ns : List ℕ} {l : Ledger} {x : Live η}

theorem Live.read_owns (dirOk : Bool) (h : Owns (x.reader.toList ++ ns) l) :
    Owns ((x.read dirOk l).1.reader.toList ++ ns) (x.read dirOk l).2 := by
  rw [Live.read]
  cases hr : x.reader with
  | some r =>
      rw [hr] at h
      dsimp only
      rw [h.use List.mem_cons_self, hr]
      exact h
  | none =>
      rw [hr] at h
      cases dirOk with
      | true =>
          have hgive : Owns (l.next :: ns) l.give := h.give
          change Owns (l.next :: ns) (l.give.use l.next)
          rw [hgive.use List.mem_cons_self]
          exact hgive
      | false =>
          change Owns (x.reader.toList ++ ns) l
          rw [hr]
          exact h

theorem Live.shut_owns (h : Owns (x.reader.toList ++ ns) l) : Owns ns (x.shut l).2 := by
  rw [Live.shut]
  cases hr : x.reader with
  | some r =>
      rw [hr] at h
      exact h.handBack
  | none =>
      rw [hr] at h
      exact h

theorem Live.read_file (dirOk : Bool) (l : Ledger) : (x.read dirOk l).1.file = x.file := by
  rw [Live.read]
  cases x.reader with
  | some r => rfl
  | none => cases dirOk <;> rfl

/-- A live description that changes its reader. -/
theorem Files.Balanced.set (hs : s.Balanced T) {i : ℕ} {y : Live η} (hx : s.live[i]? = some x)
    (hfile : y.file = x.file)
    (hreader : ∀ ns, Owns (x.reader.toList ++ ns) s.readers → Owns (y.reader.toList ++ ns) l) :
    Files.Balanced T { s with readers := l, live := s.live.set i y } := by
  refine ⟨?_, ?_⟩
  · have hlive := flatMap_set_of_eq (fun x : Live η => x.file.handles) hx (congrArg OpenFile.handles hfile)
    rw [Files.handles, hlive]
    exact hs.handles
  · have hread := hreader _
      (hs.readers.perm (flatMap_perm_eraseIdx (fun x : Live η => x.reader.toList) hx))
    exact hread.perm (flatMap_set_perm (fun x : Live η => x.reader.toList) hx y).symm

theorem Files.Balanced.getdents (hs : s.Balanced T) (i : ℕ) (room dirOk : Bool) :
    (s.getdents i room dirOk).Balanced T := by
  rw [Files.getdents]
  cases hx : s.live[i]? with
  | none => exact hs
  | some x =>
      obtain ⟨file, reader⟩ := x
      rcases file with ⟨h, kind, flags, path, mnt⟩ | ⟨f, flags, path⟩
      · cases kind with
        | hostdir =>
            have hasked := hs.ask (onHandles_keeps (fun n hn => mem_handles hx hn)
              (pure () : Call Errno σ Unit))
            cases room with
            | false => exact hasked
            | true =>
                exact hasked.set hx (Live.read_file dirOk s.readers)
                  fun ns hns => Live.read_owns dirOk hns
        | symlink => exact hs
        | host => exact hs
      · exact hs

theorem Files.Balanced.rewind (hs : s.Balanced T) (i : ℕ) : (s.rewind i).Balanced T := by
  rw [Files.rewind]
  cases hx : s.live[i]? with
  | none => exact hs
  | some x =>
      exact hs.set hx rfl fun ns hns => Live.shut_owns hns

theorem Files.Balanced.close (hs : s.Balanced T) {proc : ProcView} {stack : Bytes} (i : ℕ) :
    (s.close (countedKernel H proc stack) i).Balanced T := by
  rw [Files.close]
  cases hx : s.live[i]? with
  | none => exact hs
  | some x =>
      have hhandles : Holds (x.file.handles ++
          ((s.live.eraseIdx i).flatMap (fun x => x.file.handles) ++ T.rootHandles)) s.host := by
        rw [← List.append_assoc]
        exact hs.handles.perm ((flatMap_perm_eraseIdx _ hx).append_right _)
      refine ⟨filePut_holds x.file s.host hhandles, ?_⟩
      exact Live.shut_owns
        (hs.readers.perm (flatMap_perm_eraseIdx (fun x : Live η => x.reader.toList) hx))

theorem OpenFile.io_keeps (act : η → StateM σ Unit) {f : OpenFile (η × ℕ)}
    (hf : ∀ n ∈ f.handles, n ∈ ns) : Keeps (Holds ns) (f.io act) (fun _ => True) := by
  cases f with
  | host h kind flags path mnt => exact onHandles_keeps hf _
  | synth f flags path => exact Keeps.pure trivial

section Context

variable {K : Kernel (η × ℕ) (σ × Ledger)} {proc : ProcView} {stack : Bytes} {fs : FsCtx (η × ℕ)}
  (hroots : RootsHeld fs.table ns)

include hroots

theorem counted_vfsAccess {base : Option Bytes} (hbase : Canonical (base.getD fs.cwd)) (p : Bytes)
    (mode : UInt32) (effective : Bool) :
    Keeps (Holds ns) (vfsAccess (countedKernel H proc stack) fs base p mode effective) (fun _ => True) := by
  rw [vfsAccess]
  refine (counted_vfsStat hroots hbase p true).bind fun st _ => ?_
  split_ifs
  · exact Keeps.pure trivial
  · exact (Keeps.liftExcept _).mono fun _ _ => trivial

theorem counted_vfsReadlink {base : Option Bytes} (hbase : Canonical (base.getD fs.cwd)) (p : Bytes) :
    Keeps (Holds ns) (vfsReadlink (countedKernel H proc stack) fs base p) (fun _ => True) := by
  rw [vfsReadlink]
  refine (counted_walkPath hroots hbase p _).bind fun loc _ => ?_
  refine (counted_statAbs hroots loc.abs).bind fun st _ => ?_
  split_ifs
  · exact counted_readlinkAbs hroots loc.abs
  · exact Keeps.throw

theorem counted_vfsChdir {base : Option Bytes} (hbase : Canonical (base.getD fs.cwd)) (p : Bytes) :
    Keeps (Holds ns) (vfsChdir (countedKernel H proc stack) fs base p) (fun _ => True) := by
  rw [vfsChdir]
  refine (counted_walkPath hroots hbase p _).bind fun loc _ => ?_
  refine (counted_statAbs hroots loc.abs).bind fun st _ => ?_
  exact (Keeps.liftExcept _).bind fun _ _ => Keeps.pure trivial

omit hroots in
theorem counted_withReopened {f : OpenFile (η × ℕ)} (hf : ∀ n ∈ f.handles, n ∈ ns)
    {act : η × ℕ → Call Errno (σ × Ledger) Unit}
    (hact : ∀ h, Keeps (Holds (h.2 :: ns)) (act h) (fun _ => True)) :
    Keeps (Holds ns) (withReopened (countedKernel H proc stack) f act) (fun _ => True) := by
  have hreopen : Ends (Holds ns) (reopenAttr (countedKernel H proc stack) f)
      (fun h => Holds (h.2 :: ns)) (Holds ns) := by
    cases f with
    | host h kind flags path mnt =>
        exact (reopen_ends (hf h.2 List.mem_cons_self) _ false).bind fun o => Ends.pure fun _ hx => hx
    | synth f flags path => exact Ends.throw fun _ hx => hx
  rw [withReopened]
  exact Ends.keeps (hreopen.bind fun h => closing_first_keeps (hact h))

/-- An operation on paths leaves the handles as they were; an open adds its description's. -/
theorem counted_perform {op : PathOp} (hbases : ∀ base ∈ op.bases, Canonical (base.getD fs.cwd))
    (hop : ∀ base p flags mode, op ≠ .open base p flags mode) :
    Keeps (Holds ns) (op.perform (countedKernel H proc stack) fs) (fun _ => True) := by
  have hbase : ∀ base bs, op.bases = base :: bs → Canonical (base.getD fs.cwd) :=
    fun base bs h => hbases base (h ▸ List.mem_cons_self)
  cases op with
  | «open» base p flags mode => exact absurd rfl (hop base p flags mode)
  | mkdir base p mode => exact counted_vfsMkdir hroots (hbase _ _ rfl) p mode
  | mknod base p mode major minor => exact counted_vfsMknod hroots (hbase _ _ rfl) p mode major minor
  | symlink target base p => exact counted_vfsSymlink hroots target (hbase _ _ rfl) p
  | link oldBase oldPath newBase newPath follow =>
      exact counted_vfsLink hroots (hbase _ _ rfl) (hbases newBase (by simp [PathOp.bases])) _ _ follow
  | unlink base p rmdir => exact counted_vfsUnlink hroots (hbase _ _ rfl) p rmdir
  | rename oldBase oldPath newBase newPath flags =>
      exact counted_vfsRename hroots (hbase _ _ rfl) (hbases newBase (by simp [PathOp.bases])) _ _ flags
  | stat base p follow =>
      exact (counted_vfsStat hroots (hbase _ _ rfl) p follow).bind fun _ _ => Keeps.pure trivial
  | chmod base p mode =>
      exact counted_withAttr hroots (hbase _ _ rfl) p true fun h => counted_chmodHandle h mode
  | chown base p uid gid follow =>
      exact counted_withAttr hroots (hbase _ _ rfl) p follow fun h => counted_chownHandle h uid gid
  | utimens base p atime mtime follow =>
      exact counted_withAttr hroots (hbase _ _ rfl) p follow fun h => onHandles_keeps (by simp) _
  | truncate base p size => exact counted_vfsTruncate hroots (hbase _ _ rfl) p size

end Context

/-- One call keeps the balance, whatever the host answers it. -/
theorem FileRequest.step_balanced (r : FileRequest η σ) (hs : s.Balanced T) :
    (r.step H T s).Balanced T := by
  obtain ⟨call, cwd, umask, uid, gid, euid, egid, proc, stack, hbased⟩ := r
  have hroots : RootsHeld T (s.handles T) := rootsHeld_handles T _
  rw [FileRequest.step]
  cases call with
  | path op =>
      cases op with
      | «open» base p flags mode =>
          exact hs.keep (vfsOpen_ends hroots (hbased base List.mem_cons_self) p flags mode)
      | _ => exact hs.ask (counted_perform hroots hbased fun _ _ _ _ => PathOp.noConfusion)
  | access base p mode effective =>
      exact hs.ask (counted_vfsAccess hroots (hbased base List.mem_cons_self) p mode effective)
  | readlink base p => exact hs.ask (counted_vfsReadlink hroots (hbased base List.mem_cons_self) p)
  | chdir base p => exact hs.ask (counted_vfsChdir hroots (hbased base List.mem_cons_self) p)
  | fchmod i mode =>
      exact hs.through i fun f hf => counted_withReopened hf fun h => counted_chmodHandle h mode
  | fchown i uid gid =>
      exact hs.through i fun f hf => counted_withReopened hf fun h => counted_chownHandle h uid gid
  | futimens i atime mtime =>
      exact hs.through i fun f hf => counted_withReopened hf fun h => onHandles_keeps (by simp) _
  | io i act => exact hs.through i fun f hf => OpenFile.io_keeps act hf
  | getdents i room dirOk => exact hs.getdents i room dirOk
  | rewind i => exact hs.rewind i
  | close i => exact hs.close i

/-- After every run of calls the handles are in balance. -/
theorem run_balanced (rs : List (FileRequest η σ)) (hs : s.Balanced T) :
    (rs.foldl (fun s r => r.step H T s) s).Balanced T := by
  induction rs generalizing s with
  | nil => exact hs
  | cons r rs ih => exact ih (r.step_balanced hs)

end Steps

def rootCall (call : FileCall Unit Unit) (hbases : ∀ base ∈ call.bases, base = none) :
    FileRequest Unit Unit where
  call := call
  cwd := str "/"
  umask := 0o22
  uid := 0
  gid := 0
  euid := 0
  egid := 0
  proc := { fds := fun _ => none, exe := [], maps := [] }
  stack := []
  based := by
    intro base hbase
    rw [hbases base hbase]
    exact Canonical.root

/-- A host whose root is seated and of which nothing else is open. -/
def seatedFiles : Files Unit Unit := ⟨((), ⟨[0], 1, false⟩), ⟨[], 0, false⟩, []⟩

def seatedTable : MountTable (Unit × ℕ) := MountTable.initial ((), 0) 1 true

def listRoot : List (FileRequest Unit Unit) :=
  [rootCall (.path (.open none (str "/") O_RDONLY 0)) (by decide), rootCall (.getdents 0 true true) (by decide)]

theorem listRoot_balanced :
    let s := listRoot.foldl (fun s r => r.step bareHost seatedTable s) seatedFiles
    s.host.2.held = [1, 0] ∧ s.readers.held = [0] ∧ s.Balanced seatedTable := by
  have hstart : seatedFiles.Balanced seatedTable :=
    ⟨⟨List.Perm.refl _, by decide, by decide, rfl⟩, ⟨List.Perm.refl _, by decide, by decide, rfl⟩⟩
  exact ⟨by decide +kernel, by decide +kernel, run_balanced listRoot hstart⟩

end SysvNt
