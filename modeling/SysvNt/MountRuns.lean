import SysvNt.ActionRuns
import SysvNt.MountCrossing

/-!
# Runs that stay clear of the mount points

`traced` is a host store that also writes down the place of every name it is asked to open,
make, remove, rename or link. A request is an operation with the process it is made by. It is
free when the name it would create on the host, if there is one, is no mount point; the store
then never hears of one, and a request that would create at a mount point elsewhere is refused.
-/

namespace SysvNt

open ActionRuns FallibleCalls

variable {η σ α : Type}

section Tracing

def logged (calls : List HostCall) (m : Call Errno σ α) : Call Errno (σ × List HostCall) α :=
  ExceptT.mk fun s => ((m.run s.1).1, (m.run s.1).2, s.2 ++ calls)

def unlogged (m : StateM σ α) : StateM (σ × List HostCall) α :=
  fun s => ((m s.1).1, (m s.1).2, s.2)

def Opened.marked (o : Opened η) (place : List Bytes) : Opened (η × List Bytes) where
  h := (o.h, place)
  st := o.st
  reparse := o.reparse

/-- The store with its handles marked and its calls on names written down. -/
def HostStore.traced (H : HostStore η σ) : HostStore (η × List Bytes) (σ × List HostCall) where
  openat d n fl mode uid gid st := do
    let o ← logged [⟨d.2, n, mayChange fl⟩] (H.openat d.1 n fl mode uid gid st)
    pure (o.marked (d.2 ++ [n]))
  reopen h fl st := do
    let o ← logged [] (H.reopen h.1 fl st)
    pure (o.marked h.2)
  stat h := logged [] (H.stat h.1)
  readlink h := logged [] (H.readlink h.1)
  mkdir d n mode uid gid cs := logged [⟨d.2, n, true⟩] (H.mkdir d.1 n mode uid gid cs)
  mknod d n k mode uid gid ma mi := logged [⟨d.2, n, true⟩] (H.mknod d.1 n k mode uid gid ma mi)
  symlink d n t uid gid := logged [⟨d.2, n, true⟩] (H.symlink d.1 n t uid gid)
  link h d n := logged [⟨d.2, n, true⟩] (H.link h.1 d.1 n)
  unlink d n rmdir := logged [⟨d.2, n, true⟩] (H.unlink d.1 n rmdir)
  rename d n d' n' nr := logged [⟨d.2, n, true⟩, ⟨d'.2, n', true⟩] (H.rename d.1 n d'.1 n' nr)
  setLx h w uid gid mode ma mi := logged [] (H.setLx h.1 w uid gid mode ma mi)
  setTimes h a m := logged [] (H.setTimes h.1 a m)
  truncate h size := logged [] (H.truncate h.1 size)
  close h := unlogged (H.close h.1)
  now := unlogged H.now
  alloc := unlogged H.alloc

/-- The mount with its root marked with the place it is mounted at. -/
def Mount.marked (m : Mount η) : Mount (η × List Bytes) where
  type := match m.type with
    | .host root => .host (root, namesOf m.point)
    | .proc => .proc
    | .dev => .dev
  point := m.point
  dev := m.dev
  lxCapable := m.lxCapable
  defaultUid := m.defaultUid
  defaultGid := m.defaultGid

def MountTable.marked (T : MountTable η) : MountTable (η × List Bytes) where
  mounts := T.mounts.map Mount.marked
  canonical := by
    intro m' hm'
    obtain ⟨m, hm, rfl⟩ := List.mem_map.mp hm'
    exact T.canonical m hm
  rooted := by
    obtain ⟨m, hm, hp⟩ := T.rooted
    exact ⟨m.marked, List.mem_map_of_mem hm, hp⟩

variable {J : List HostCall → Prop} {Safe : HostCall → Prop}

theorem logged_keeps {calls : List HostCall} {m : Call Errno σ α}
    (h : ∀ log, J log → J (log ++ calls)) :
    Keeps (fun s => J s.2) (logged calls m) (fun a => ∃ x, (m.run x).1 = .ok a) := by
  intro s hs
  exact ⟨h s.2 hs, fun a ha => ⟨s.1, ha⟩⟩

theorem logged_nil_keeps (m : Call Errno σ α) :
    Keeps (fun s => J s.2) (logged [] m) (fun _ => True) :=
  (logged_keeps fun log h => by rwa [List.append_nil]).mono fun _ _ => trivial

/-- A property of the log that safe calls keep is kept by the traced store. -/
theorem traced_guarded (H : HostStore η σ) (hJ : ∀ log c, J log → Safe c → J (log ++ [c])) :
    Guarded H.traced (fun h ps => h.2 = ps) (fun s => J s.2) Safe := by
  refine ⟨?_, ?_, fun h => logged_nil_keeps _, fun h => logged_nil_keeps _, fun h s hs => hs,
    fun s hs => hs, fun s hs => hs⟩
  · rintro d ps n fl mode uid gid st rfl hc
    exact (logged_keeps fun log h => hJ log _ h hc).bind fun o _ => Keeps.pure rfl
  · rintro h ps fl st rfl
    exact (logged_nil_keeps _).bind fun o _ => Keeps.pure rfl

theorem traced_changes (H : HostStore η σ) (hJ : ∀ log c, J log → Safe c → J (log ++ [c])) :
    GuardedChanges H.traced (fun h ps => h.2 = ps) (fun s => J s.2) Safe := by
  have hone : ∀ (c : HostCall) (m : Call Errno σ Unit), Safe c →
      Keeps (fun s => J s.2) (logged [c] m) (fun _ => True) := fun c m hc =>
    (logged_keeps fun log h => hJ log c h hc).mono fun _ _ => trivial
  refine ⟨?_, ?_, ?_, ?_, ?_, ?_, fun h w uid gid mode ma mi => logged_nil_keeps _,
    fun h a m => logged_nil_keeps _, fun h size => logged_nil_keeps _⟩
  · rintro d ps n mode uid gid cs rfl hc
    exact hone _ _ hc
  · rintro d ps n k mode uid gid ma mi rfl hc
    exact hone _ _ hc
  · rintro d ps n t uid gid rfl hc
    exact hone _ _ hc
  · rintro h d ps n rfl hc
    exact hone _ _ hc
  · rintro d ps n rmdir rfl hc
    exact hone _ _ hc
  · rintro d ps n d' ps' n' nr rfl hc rfl hc'
    refine (logged_keeps fun log h => ?_).mono fun _ _ => trivial
    have h' := hJ _ _ (hJ log _ h hc) hc'
    rwa [List.append_assoc] at h'

theorem marked_host {m : Mount η} {root : η × List Bytes} (h : m.marked.type = .host root) :
    m.type = .host root.1 ∧ root.2 = namesOf m.point := by
  rw [Mount.marked] at h
  cases ht : m.type with
  | proc => rw [ht] at h; cases h
  | dev => rw [ht] at h; cases h
  | host r =>
      rw [ht] at h
      cases h
      exact ⟨rfl, rfl⟩

theorem marked_seated (T : MountTable η)
    (hread : ∀ d n, Uncrossed T.marked d n → Safe ⟨d, n, false⟩) :
    Seated T.marked (fun h ps => h.2 = ps) Safe := by
  refine ⟨hread, ?_⟩
  intro m' hm' root h
  obtain ⟨m, _, rfl⟩ := List.mem_map.mp hm'
  exact (marked_host h).2

theorem traced_rootsAreDirs {H : HostStore η σ} {T : MountTable η} (hD : RootsAreDirs H T) :
    RootsAreDirs H.traced T.marked := by
  intro m' hm' root h s hs hrun
  obtain ⟨m, hm, rfl⟩ := List.mem_map.mp hm'
  exact hD m hm root.1 (marked_host h).1 s.1 hs hrun

theorem uncrossed_marked (T : MountTable η) (dir : List Bytes) (name : Bytes) :
    Uncrossed T.marked dir name ↔ Uncrossed T dir name := by
  constructor
  · intro h m hm
    exact h m.marked (List.mem_map_of_mem hm)
  · intro h m' hm'
    obtain ⟨m, hm, rfl⟩ := List.mem_map.mp hm'
    exact h m hm

end Tracing

section Requests

variable (K : Kernel η σ) (fs : FsCtx η)

/-- From a state of the host, an operation creates no name on it that is a mount point, and the
paths it joins fit their buffers. -/
def PathOp.Free : PathOp → σ → Prop
  | .open base p flags mode, x => has flags O_CREAT = true → CreateFree K fs flags mode base p x
  | .mkdir base p _, x | .symlink _ base p, x => ParentFree K fs base p x
  | .mknod base p mode _ _, x =>
      (mode &&& S_IFMT = 0 ∨ mode &&& S_IFMT = S_IFREG →
        CreateFree K fs (O_CREAT ||| O_EXCL ||| O_WRONLY) (mode &&& 0o7777) base p x) ∧
      (¬ (mode &&& S_IFMT = 0 ∨ mode &&& S_IFMT = S_IFREG) → ParentFree K fs base p x)
  | .link oldBase oldPath newBase newPath follow, x =>
      ∀ src x', (linkSource K fs oldBase oldPath follow).run x = (.ok src, x') →
        ParentFree K fs newBase newPath x'
  | .unlink base p _, x => JoinFits K fs base p x
  | .rename oldBase oldPath newBase newPath _, x => JoinFits K fs oldBase oldPath x ∧
      ∀ oloc x', (busyParent K fs oldBase oldPath).run x = (.ok oloc, x') →
        JoinFits K fs newBase newPath x'
  | _, _ => True

/-- The name that an operation is to create: its parent and itself. -/
def PathOp.created : PathOp → σ → Option (VfsLoc η)
  | .open base p flags _, x =>
      if has flags O_CREAT then ((walkPath K fs base p W_PARENT).run x).1.toOption else none
  | .mkdir base p _, x | .mknod base p _ _ _, x | .symlink _ base p, x =>
      ((walkPath K fs base p W_PARENT).run x).1.toOption
  | .link oldBase oldPath newBase newPath follow, x =>
      match (linkSource K fs oldBase oldPath follow).run x with
      | (.ok _, x') => ((walkPath K fs newBase newPath W_PARENT).run x').1.toOption
      | (.error _, _) => none
  | _, _ => none

variable {K fs}

theorem perform_keeps {At : η → List Bytes → Prop} {I : σ → Prop}
    (hC : GuardedChanges K.store At I (HostCall.Clear fs.table))
    (hG : Guarded K.store At I (HostCall.Clear fs.table))
    (hS : Seated fs.table At (HostCall.Clear fs.table)) (hD : RootsAreDirs K.store fs.table) {op : PathOp}
    (hbases : ∀ base ∈ op.bases, Canonical (base.getD fs.cwd)) {x : σ} (hx : I x)
    (hfree : op.Free K fs x) : KeepsAt I x (op.perform K fs) (fun _ => True) := by
  have hbase : ∀ base rest, op.bases = base :: rest → Canonical (base.getD fs.cwd) :=
    fun base rest h => hbases base (by rw [h]; exact List.mem_cons_self)
  cases op with
  | «open» base p flags mode =>
      exact (vfsOpen_keeps hG hS (hbase _ _ rfl) p flags mode x hx hfree).bind
        fun _ x' _ hx' _ => Keeps.pure trivial x' hx'
  | mkdir base p mode => exact vfsMkdir_keeps hC hG hS (hbase _ _ rfl) mode hx hfree
  | mknod base p mode major minor =>
      exact vfsMknod_keeps hC hG hS (hbase _ _ rfl) mode major minor hx hfree.1 hfree.2
  | symlink target base p => exact vfsSymlink_keeps hC hG hS target (hbase _ _ rfl) hx hfree
  | link oldBase oldPath newBase newPath follow =>
      exact vfsLink_keeps hC hG hS hD (hbase _ _ rfl) (hbases newBase (by simp [PathOp.bases])) hx hfree
  | unlink base p rmdir => exact vfsUnlink_keeps hC hG hS (hbase _ _ rfl) rmdir hx hfree
  | rename oldBase oldPath newBase newPath flags =>
      exact vfsRename_keeps hC hG hS (hbase _ _ rfl) (hbases newBase (by simp [PathOp.bases])) flags hx
        hfree.1 hfree.2
  | stat base p follow =>
      exact ((vfsStat_keeps hG hS (hbase _ _ rfl) p follow).bind fun _ _ => Keeps.pure trivial) x hx
  | chmod base p mode =>
      exact withAttr_keeps hG hS (hbase _ _ rfl) p true (fun h => chmodHandle_keeps hC hG h mode) x hx
  | chown base p uid gid follow =>
      exact withAttr_keeps hG hS (hbase _ _ rfl) p follow (fun h => chownHandle_keeps hC hG h uid gid) x hx
  | utimens base p atime mtime follow =>
      exact withAttr_keeps hG hS (hbase _ _ rfl) p follow (fun h => hC.setTimes h atime mtime) x hx
  | truncate base p size => exact vfsTruncate_keeps hC hG hS (hbase _ _ rfl) p size x hx

section Refused

variable {base : Option Bytes} {p : Bytes} {loc : VfsLoc η} {x x' : σ}
  (hrun : (walkPath K fs base p W_PARENT).run x = (.ok loc, x'))
  (hno : ∀ root, loc.m.type ≠ .host root)

include hrun hno

theorem vfsMkdir_refused (mode : UInt32) :
    (vfsMkdir K fs base p mode).run x = (.error .EACCES, x') := by
  rw [vfsMkdir, run_bind, hrun]
  dsimp only
  cases htype : loc.m.type with
  | proc => rfl
  | dev => rfl
  | host root => exact absurd htype (hno root)

theorem hostParent_refused : (hostParent K fs base p).run x = (.error .EACCES, x') := by
  rw [hostParent, run_bind, hrun]
  dsimp only
  cases htype : loc.m.type with
  | proc => rfl
  | dev => rfl
  | host root => exact absurd htype (hno root)

theorem openCreating_refused (flags mode : UInt32) (n : ℕ) :
    (openCreating K fs flags mode (n + 1) base p).run x = (.error .EACCES, x') := by
  rw [openCreating, run_bind, run_attempt, hrun]
  dsimp only
  cases htype : loc.m.type with
  | proc => rfl
  | dev => rfl
  | host root => exact absurd htype (hno root)

theorem vfsOpen_refused {flags : UInt32} (hc : has flags O_CREAT = true) (mode : UInt32) :
    (vfsOpen K fs base p flags mode).run x = (.error .EACCES, x') := by
  rw [vfsOpen, if_pos hc]
  exact openCreating_refused hrun hno flags mode 40

theorem vfsSymlink_refused (target : Bytes) :
    ∃ e, (vfsSymlink K fs target base p).run x = (.error e, x) ∨
      (vfsSymlink K fs target base p).run x = (.error e, x') := by
  rw [vfsSymlink]
  split_ifs
  · exact ⟨_, .inl rfl⟩
  · exact ⟨.EACCES, .inr (by rw [run_bind, hostParent_refused hrun hno])⟩

theorem vfsMknod_refused (mode major minor : UInt32) :
    ∃ e, (vfsMknod K fs base p mode major minor).run x = (.error e, x) ∨
      (vfsMknod K fs base p mode major minor).run x = (.error e, x') := by
  rw [vfsMknod]
  split_ifs
  · exact ⟨.EACCES, .inr (by rw [run_bind, vfsOpen_refused hrun hno (by decide)])⟩
  · cases specialKind mode with
    | none => exact ⟨_, .inl rfl⟩
    | some kind => exact ⟨.EACCES, .inr (by dsimp only; rw [run_bind, hostParent_refused hrun hno])⟩

end Refused

theorem run_of_toOption {m : Call Errno σ α} {x : σ} {a : α} (h : (m.run x).1.toOption = some a) :
    m.run x = (.ok a, (m.run x).2) := by
  cases hr : (m.run x).1 with
  | error e =>
      rw [hr] at h
      cases h
  | ok b =>
      rw [hr] at h
      cases h
      exact Prod.ext hr rfl

/-- An operation that is to create a name outside the host fails, and has only walked. -/
theorem perform_refused {At : η → List Bytes → Prop} {I : σ → Prop} {Safe : HostCall → Prop}
    (hG : Guarded K.store At I Safe) (hS : Seated fs.table At Safe)
    (hD : RootsAreDirs K.store fs.table) {op : PathOp}
    (hbases : ∀ base ∈ op.bases, Canonical (base.getD fs.cwd)) {x : σ} (hx : I x)
    {loc : VfsLoc η} (hloc : op.created K fs x = some loc) (hno : ∀ root, loc.m.type ≠ .host root) :
    ∃ e, ((op.perform K fs).run x).1 = .error e ∧ I ((op.perform K fs).run x).2 := by
  have hwalk : ∀ {base : Option Bytes} {p : Bytes} {x : σ}, base ∈ op.bases → I x →
      I ((walkPath K fs base p W_PARENT).run x).2 := fun hb hx =>
    (walkPath_keeps hG hS (hbases _ hb) _ _ _ hx).1
  cases op with
  | «open» base p flags mode =>
      rw [PathOp.created] at hloc
      split_ifs at hloc with hc
      refine ⟨.EACCES, ?_⟩
      rw [PathOp.perform, run_bind, vfsOpen_refused (run_of_toOption hloc) hno hc]
      exact ⟨rfl, hwalk List.mem_cons_self hx⟩
  | mkdir base p mode =>
      refine ⟨.EACCES, ?_⟩
      rw [PathOp.perform, vfsMkdir_refused (run_of_toOption hloc) hno]
      exact ⟨rfl, hwalk List.mem_cons_self hx⟩
  | mknod base p mode major minor =>
      obtain ⟨e, he | he⟩ := vfsMknod_refused (run_of_toOption hloc) hno mode major minor
      · rw [PathOp.perform, he]
        exact ⟨e, rfl, hx⟩
      · rw [PathOp.perform, he]
        exact ⟨e, rfl, hwalk List.mem_cons_self hx⟩
  | symlink target base p =>
      obtain ⟨e, he | he⟩ := vfsSymlink_refused (run_of_toOption hloc) hno target
      · rw [PathOp.perform, he]
        exact ⟨e, rfl, hx⟩
      · rw [PathOp.perform, he]
        exact ⟨e, rfl, hwalk List.mem_cons_self hx⟩
  | link oldBase oldPath newBase newPath follow =>
      have hsource :=
        (linkSource_keeps hG hS hD (hbases oldBase List.mem_cons_self) oldPath follow x hx).1
      rw [PathOp.created] at hloc
      rw [PathOp.perform, vfsLink, run_bind]
      cases hsrc : (linkSource K fs oldBase oldPath follow).run x with
      | mk r x' =>
          rw [hsrc] at hloc hsource
          cases r with
          | error e => cases hloc
          | ok src =>
              refine ⟨.EACCES, ?_⟩
              dsimp only at hloc ⊢
              rw [run_bind, hostParent_refused (run_of_toOption hloc) hno]
              exact ⟨rfl, hwalk (by simp [PathOp.bases]) hsource⟩
  | _ => cases hloc

/-- The name that a free operation is to create on the host is no mount point. -/
theorem created_free {op : PathOp} {x : σ} (hfree : op.Free K fs x) {loc : VfsLoc η}
    (hloc : op.created K fs x = some loc) : NameFree fs loc := by
  cases op with
  | «open» base p flags mode =>
      rw [PathOp.created] at hloc
      split_ifs at hloc with hc
      exact (hfree hc).1 loc (congrArg Prod.fst (run_of_toOption hloc))
  | mkdir base p mode => exact hfree loc _ (run_of_toOption hloc)
  | mknod base p mode major minor =>
      by_cases hreg : mode &&& S_IFMT = 0 ∨ mode &&& S_IFMT = S_IFREG
      · exact (hfree.1 hreg).1 loc (congrArg Prod.fst (run_of_toOption hloc))
      · exact hfree.2 hreg loc _ (run_of_toOption hloc)
  | symlink target base p => exact hfree loc _ (run_of_toOption hloc)
  | link oldBase oldPath newBase newPath follow =>
      rw [PathOp.created] at hloc
      cases hsrc : (linkSource K fs oldBase oldPath follow).run x with
      | mk r x' =>
          rw [hsrc] at hloc
          cases r with
          | error e => cases hloc
          | ok src => exact hfree src x' hsrc loc _ (run_of_toOption hloc)
  | _ => cases hloc

end Requests

section Runs

/-- An operation and the process that asks for it. Directories are held by their canonical
paths. -/
structure Request where
  op : PathOp
  cwd : Bytes
  umask : UInt32
  uid : UInt32
  gid : UInt32
  euid : UInt32
  egid : UInt32
  proc : ProcView
  stack : Bytes
  based : ∀ base ∈ op.bases, Canonical (base.getD cwd)

variable (H : HostStore η σ) (T : MountTable η)

namespace Request

def kernel (r : Request) : Kernel (η × List Bytes) (σ × List HostCall) where
  store := H.traced
  proc := r.proc
  stack := r.stack

def ctx (r : Request) : FsCtx (η × List Bytes) where
  table := T.marked
  cwd := r.cwd
  umask := r.umask
  uid := r.uid
  gid := r.gid
  euid := r.euid
  egid := r.egid

def perform (r : Request) : Call Errno (σ × List HostCall) Unit :=
  r.op.perform (r.kernel H) (r.ctx T)

def step (s : σ × List HostCall) (r : Request) : σ × List HostCall := ((r.perform H T).run s).2

def Free (s : σ × List HostCall) (r : Request) : Prop := r.op.Free (r.kernel H) (r.ctx T) s

/-- If the request is to create a name that is a mount point, it fails and asks the host for no
change. -/
def Refused (s : σ × List HostCall) (r : Request) : Prop :=
  ∀ loc, r.op.created (r.kernel H) (r.ctx T) s = some loc →
    ¬ Uncrossed T (namesOf loc.abs) loc.last →
    ∃ e, ((r.perform H T).run s).1 = .error e ∧
      (step H T s r).2.filter (·.changes) = s.2.filter (·.changes)

variable {H T}

theorem clear_of_free (hroots : RootsAreDirs H T) {s : σ × List HostCall} {r : Request}
    (hs : ∀ c ∈ s.2, c.Clear T.marked) (hfree : r.Free H T s) :
    ∀ c ∈ (step H T s r).2, c.Clear T.marked := by
  have hlog : ∀ log c, (∀ c' ∈ log, HostCall.Clear T.marked c') → c.Clear T.marked →
      ∀ c' ∈ log ++ [c], c'.Clear T.marked := by
    intro log c h hc c' hc'
    rcases List.mem_append.mp hc' with hc' | hc'
    · exact h c' hc'
    · rw [List.mem_singleton.mp hc']
      exact hc
  have hdirs : RootsAreDirs (r.kernel H).store (r.ctx T).table := traced_rootsAreDirs hroots
  exact (perform_keeps (traced_changes H hlog) (traced_guarded H hlog)
    (marked_seated T fun _ _ h => h) hdirs r.based hs hfree).1

theorem refused_of_free (hroots : RootsAreDirs H T) {s : σ × List HostCall} {r : Request}
    (hfree : r.Free H T s) : r.Refused H T s := by
  intro loc hloc hpoint
  have hno : ∀ root, loc.m.type ≠ .host root := by
    intro root hroot
    exact hpoint ((uncrossed_marked T _ _).mp (created_free hfree hloc root hroot))
  have hlog : ∀ log c, List.filter (·.changes) log = s.2.filter (·.changes) → c.changes = false →
      (log ++ [c]).filter (·.changes) = s.2.filter (·.changes) := by
    intro log c h hc
    rw [List.filter_append, h, List.filter_cons_of_neg (by simp [hc]), List.filter_nil,
      List.append_nil]
  have hdirs : RootsAreDirs (r.kernel H).store (r.ctx T).table := traced_rootsAreDirs hroots
  have hseated : Seated T.marked (fun h ps => h.2 = ps) (fun c => c.changes = false) :=
    marked_seated T fun _ _ _ => rfl
  exact perform_refused (I := fun t => t.2.filter (·.changes) = s.2.filter (·.changes))
    (traced_guarded H hlog) hseated hdirs r.based rfl hloc hno

end Request

variable {H T}

/-- In every run whose requests are all free, no call on the host is at a mount point, and every
request that is to create a name at one is refused. -/
theorem free_run_never_crosses (hroots : RootsAreDirs H T) (rs : List Request) (x : σ)
    (hfree : Along (Request.step H T) (Request.Free H T) (x, []) rs) :
    (∀ c ∈ (rs.foldl (Request.step H T) (x, [])).2, Uncrossed T c.dir c.name) ∧
      Along (Request.step H T) (Request.Refused H T) (x, []) rs := by
  have hrun := along_invariant (I := fun s => ∀ c ∈ s.2, HostCall.Clear T.marked c)
    (fun s r hs hfree => ⟨Request.clear_of_free hroots hs hfree, Request.refused_of_free hroots hfree⟩)
    rs (List.forall_mem_nil _) hfree
  exact ⟨fun c hc => (uncrossed_marked T _ _).mp (hrun.1 c hc), hrun.2⟩

/-- A host with an empty root directory, in which a directory can be made. -/
def bareHost : HostStore Unit Unit where
  openat _ _ _ _ _ _ _ := throw .ENOENT
  reopen _ _ _ := pure ⟨(), { kind := .dir }, false⟩
  stat _ := pure { kind := .dir }
  readlink _ := throw .EINVAL
  mkdir _ _ _ _ _ _ := pure ()
  mknod _ _ _ _ _ _ _ _ := throw .EACCES
  symlink _ _ _ _ _ := throw .EACCES
  link _ _ _ := throw .EACCES
  unlink _ _ _ := throw .ENOENT
  rename _ _ _ _ _ := throw .ENOENT
  setLx _ _ _ _ _ _ _ := throw .EACCES
  setTimes _ _ _ := throw .EACCES
  truncate _ _ := throw .EACCES
  close _ := pure ()
  now := pure 0
  alloc := pure true

def rootMkdir (path : Bytes) : Request where
  op := .mkdir none path 0o755
  cwd := str "/"
  umask := 0o22
  uid := 0
  gid := 0
  euid := 0
  egid := 0
  proc := { fds := fun _ => none, exe := [], maps := [] }
  stack := []
  based := by
    intro base hbase
    rw [List.mem_singleton.mp hbase]
    exact Canonical.root

/-- `mkdir "/proc"` is carried out on the host, behind the mount. -/
theorem mkdir_proc_crosses :
    ((rootMkdir (str "/proc")).perform bareHost (MountTable.initial () 1 true)).run ((), []) =
        (.ok (), (), [⟨[], str "proc", true⟩]) ∧
      ¬ Uncrossed (MountTable.initial () 1 true) [] (str "proc") := by
  refine ⟨rfl, fun h => ?_⟩
  exact h _ (List.mem_cons_of_mem _ List.mem_cons_self) (by decide)

theorem mkdir_tmp_never_crosses :
    RootsAreDirs bareHost (MountTable.initial () 1 true) ∧
      ∀ c ∈ ([rootMkdir (str "/tmp")].foldl (Request.step bareHost (MountTable.initial () 1 true))
        ((), [])).2, Uncrossed (MountTable.initial () 1 true) c.dir c.name := by
  have hroots : RootsAreDirs bareHost (MountTable.initial () 1 true) := by
    intro m _ root _ x hs h
    cases h
    rfl
  refine ⟨hroots, (free_run_never_crosses hroots [rootMkdir (str "/tmp")] () ⟨?_, trivial⟩).1⟩
  intro loc x' hrun
  cases hrun
  intro root _
  exact (by decide : ∀ m ∈ (MountTable.initial () 1 true).marked.mounts, m.point ≠ str "/tmp")

end Runs

end SysvNt
