import SysvNt.DescriptorObjects
import SysvNt.Renames
import SysvNt.WorkingDirectory

/-!
# Calls through a descriptor

A process opens objects, and whatever it and others do to the names of the host since, a descriptor
keeps its description. `linkat` of an empty path and `openat` of a name below a descriptor take the
path that the description has. They are right about its object as long as that path is.
-/

namespace SysvNt

open FallibleCalls NameTrees StateCalls Relation

variable {η σ ι ν : Type}

instance : (f : OpenDescription η) → Decidable f.OfDirectory
  | .opened (.host _ kind _ _ _) => inferInstanceAs (Decidable (kind = .hostdir))
  | .opened (.synth (.procDir _) _ _) => inferInstanceAs (Decidable True)
  | .opened (.synth .devDir _ _) => inferInstanceAs (Decidable True)
  | .opened (.synth .procLink _ _) => inferInstanceAs (Decidable False)
  | .opened (.synth (.procFile _) _ _) => inferInstanceAs (Decidable False)
  | .opened (.synth (.devNode _ _) _ _) => inferInstanceAs (Decidable False)
  | .pipe _ => inferInstanceAs (Decidable False)
  | .console => inferInstanceAs (Decidable False)

/-- The object of the host that a description is open on, if it is one, with its device. -/
def OpenDescription.object (V : DirectoryView η σ ι) : OpenDescription η → Option (UInt64 × ι)
  | .opened (.host h _ _ _ m) => some (m.dev, V.obj h)
  | _ => none

/-- The host, a process on it, and what its descriptions are of. -/
structure Session (η σ : Type) where
  host : σ
  fs : FsCtx η
  table : FdState
  desc : ℕ → OpenDescription η

namespace Session

variable (s : Session η σ)

def dirs (k : ℕ) : Option Bytes := if (s.desc k).OfDirectory then some (s.desc k).path else none

/-- The description that `base_of` gives for an empty path. -/
def self (dirfd : ℤ) (path : Bytes) : Option ℕ :=
  if path ≠ [] ∨ dirfd = AT_FDCWD then none else (s.table.fdGet dirfd).map Prod.snd

/-- Where the old path of `linkat` starts, and the path: for an empty one, that of the description. -/
def linkatOld (odirfd : ℤ) (old : Bytes) (flags : UInt32) : Except Errno (Option Bytes × Bytes) := do
  let base ← baseOf s.table s.dirs odirfd old
  if old ≠ [] then pure (base, old)
  else match s.self odirfd old with
    | none => throw .ENOENT
    | some k => if has flags AT_EMPTY_PATH then pure (none, (s.desc k).path) else throw .ENOENT

/-- The start of `sys_linkat`, from what `copy_path` answers. -/
def linkatPaths (odirfd : ℤ) (old : Except Errno Bytes) (ndirfd : ℤ) (new : Except Errno Bytes)
    (flags : UInt32) : Except Errno ((Option Bytes × Bytes) × (Option Bytes × Bytes)) := do
  let old ← old
  let new ← new
  if flags &&& ~~~(AT_SYMLINK_FOLLOW ||| AT_EMPTY_PATH) ≠ 0 then throw .EINVAL
  else do
    let src ← s.linkatOld odirfd old flags
    let base ← baseOf s.table s.dirs ndirfd new
    pure (src, (base, new))

def sysLinkat (K : Kernel η σ) (odirfd : ℤ) (old : Except Errno Bytes) (ndirfd : ℤ) (new : Except Errno Bytes)
    (flags : UInt32) : Call Errno σ Unit := do
  let r ← liftM (m := Except Errno) (s.linkatPaths odirfd old ndirfd new flags)
  vfsLink K s.fs r.1.1 r.1.2 r.2.1 r.2.2 (has flags AT_SYMLINK_FOLLOW)

/-- What happens to a process and the host. The host may change in any way: names are renamed,
unlinked and made by this and other processes. What `/proc` shows of the process is another thing at each open. -/
inductive Step (K : Kernel η σ) (s : Session η σ) : Session η σ → Prop where
  | host (x : σ) : Step K s { s with host := x }
  | context (fs : FsCtx η) (table : fs.table = s.fs.table) (cwd : Canonical fs.cwd) :
      Step K s { s with fs := fs }
  | descriptors (t : FdState) (next : t.next = s.table.next) : Step K s { s with table := t }
  | pipe (ino : UInt64) (t : FdState) (next : t.next = s.table.next + 2) : Step K s { s with
      table := t
      desc := fun k => if k = s.table.next ∨ k = s.table.next + 1 then .pipe ino else s.desc k }
  | console (t : FdState) (next : t.next = s.table.next + 1) : Step K s { s with
      table := t
      desc := Function.update s.desc s.table.next .console }
  | opens {L : Kernel η σ} (store : L.store = K.store) {dirfd : ℤ} {copied : Except Errno Bytes}
      {base : Option Bytes} {path : Bytes} {flags mode : UInt32} {f : OpenFile η} {x : σ}
      (start : openatPath s.table s.dirs dirfd copied = .ok (base, path))
      (answer : (vfsOpen L s.fs base path flags mode).run s.host = (.ok f, x)) : Step K s { s with
        host := x
        table := (s.table.sysOpen flags (.ok f.made)).2
        desc := Function.update s.desc s.table.next (.opened f) }

abbrev Run (K : Kernel η σ) : Session η σ → Session η σ → Prop := ReflTransGen (Step K)

/-- A process with the console for every description. -/
def start (fs : FsCtx η) (x : σ) : Session η σ := ⟨x, fs, fdtableInit, fun _ => .console⟩

structure Sound (T : MountTable η) (s : Session η σ) : Prop where
  table : s.fs.table = T
  cwd : Canonical s.fs.cwd
  made : ∀ k, (s.desc k).Made T

variable {K : Kernel η σ} {T : MountTable η} {s : Session η σ} {t : Session η σ}

theorem dirs_canonical (hT : InPlace T) (hs : s.Sound T) {k : ℕ} {p : Bytes} (h : s.dirs k = some p) :
    Canonical p := by
  rw [dirs] at h
  split_ifs at h with hdir
  cases h
  have hmade := hs.made k
  cases hf : s.desc k with
  | pipe ino => rw [hf] at hdir; cases hdir
  | console => rw [hf] at hdir; cases hdir
  | opened f =>
      rw [hf] at hdir hmade
      have hsound := hmade.sound hT
      cases f with
      | host h kind kept path m => exact hsound hdir
      | synth g kept path => cases g with
        | procDir d => exact hsound.1.canonical
        | devDir =>
            obtain ⟨rfl, htype, -⟩ := hsound
            have hmem := (T.mountOf_best (str "/dev")).mem
            rw [← (hT _ hmem).2 htype]
            exact T.canonical _ hmem
        | procLink => cases hdir
        | procFile text => cases hdir
        | devNode major minor => cases hdir

theorem sysOpen_next (t : FdState) (flags : UInt32) (made : ℕ × UInt32) :
    (t.sysOpen flags (.ok made)).2.next = t.next + 1 := by
  rw [FdState.sysOpen, FdState.fdInstall, if_neg (by decide)]
  cases (t.fileNew made.1 made.2).2.lowestFree (0 : ℤ).toNat <;> rfl

theorem Step.sound (hT : InPlace T) (hs : s.Sound T) (h : Step K s t) : t.Sound T := by
  cases h with
  | host x => exact ⟨hs.table, hs.cwd, hs.made⟩
  | context fs table cwd => exact ⟨table.trans hs.table, cwd, hs.made⟩
  | descriptors t next => exact ⟨hs.table, hs.cwd, hs.made⟩
  | pipe ino t next =>
      refine ⟨hs.table, hs.cwd, fun k => ?_⟩
      dsimp only
      split_ifs
      · exact .pipe ino
      · exact hs.made k
  | console t next =>
      refine ⟨hs.table, hs.cwd, fun k => ?_⟩
      dsimp only
      by_cases hk : k = s.table.next
      · rw [hk, Function.update_self]
        exact .console
      · rw [Function.update_of_ne hk]
        exact hs.made k
  | opens store opened answer =>
      refine ⟨hs.table, hs.cwd, fun k => ?_⟩
      dsimp only
      by_cases hk : k = s.table.next
      · subst hk
        rw [Function.update_self]
        exact .opened hs.table (openatPath_based hs.cwd (fun _ _ => dirs_canonical hT hs) opened) answer
      · rw [Function.update_of_ne hk]
        exact hs.made k

/-- A description that has been made stays. -/
theorem Step.keeps (h : Step K s t) : s.table.next ≤ t.table.next ∧
    ∀ k < s.table.next, t.desc k = s.desc k := by
  cases h with
  | host x => exact ⟨le_rfl, fun _ _ => rfl⟩
  | context fs table cwd => exact ⟨le_rfl, fun _ _ => rfl⟩
  | descriptors t next => exact ⟨next.ge, fun _ _ => rfl⟩
  | pipe ino t next =>
      refine ⟨by dsimp only; omega, fun k hk => ?_⟩
      dsimp only
      rw [if_neg (by omega)]
  | console t next =>
      refine ⟨by dsimp only; omega, fun k hk => ?_⟩
      dsimp only
      rw [Function.update_of_ne (by omega)]
  | opens store opened answer =>
      refine ⟨?_, fun k hk => ?_⟩
      · dsimp only
        rw [sysOpen_next]
        omega
      · dsimp only
        rw [Function.update_of_ne (by omega)]

theorem Run.sound (hT : InPlace T) (hs : s.Sound T) (h : Run K s t) : t.Sound T := by
  induction h with
  | refl => exact hs
  | tail _ hstep ih => exact hstep.sound hT ih

theorem Run.keeps (h : Run K s t) : s.table.next ≤ t.table.next ∧
    ∀ k < s.table.next, t.desc k = s.desc k := by
  induction h with
  | refl => exact ⟨le_rfl, fun _ _ => rfl⟩
  | tail _ hstep ih =>
      obtain ⟨hle, hkept⟩ := hstep.keeps
      exact ⟨ih.1.trans hle, fun k hk => (hkept k (by omega)).trans (ih.2 k hk)⟩

theorem start_sound {fs : FsCtx η} (hcwd : Canonical fs.cwd) (x : σ) : (start fs x).Sound fs.table :=
  ⟨rfl, hcwd, fun _ => .console⟩

theorem linkatOld_self {i : Slot} {k : ℕ} {fd : ℤ} (hfd : s.table.fdGet fd = some (i, k)) {flags : UInt32}
    {src : Option Bytes × Bytes} (h : s.linkatOld fd [] flags = .ok src) : src = (none, (s.desc k).path) := by
  have hbase : baseOf s.table s.dirs fd [] = .ok none := by
    rw [baseOf, hfd]
    simp
  rw [linkatOld, hbase] at h
  change (match s.self fd [] with | none => throw Errno.ENOENT | some k => _) = Except.ok src at h
  by_cases hcwd : fd = AT_FDCWD
  · rw [self, if_pos (.inr hcwd)] at h
    cases h
  · rw [self, if_neg (by simpa using hcwd), hfd] at h
    dsimp only [Option.map_some] at h
    split_ifs at h
    cases h
    rfl

/-- The call through a descriptor links what the path of its description leads to. -/
theorem linkatPaths_self {i : Slot} {k : ℕ} {fd ndirfd : ℤ} (hfd : s.table.fdGet fd = some (i, k))
    {new : Except Errno Bytes} {flags : UInt32} {src dst : Option Bytes × Bytes}
    (h : s.linkatPaths fd (.ok []) ndirfd new flags = .ok (src, dst)) :
    src = (none, (s.desc k).path) ∧ new = .ok dst.2 ∧ baseOf s.table s.dirs ndirfd dst.2 = .ok dst.1 := by
  rw [linkatPaths] at h
  change (new >>= fun new => _) = _ at h
  cases new with
  | error e => cases h
  | ok np =>
      change (if _ then _ else _) = _ at h
      split_ifs at h
      cases hold : s.linkatOld fd [] flags with
      | error e =>
          rw [hold] at h
          cases h
      | ok from' =>
          rw [hold] at h
          change (baseOf s.table s.dirs ndirfd np >>= fun nb => _) = _ at h
          cases hnb : baseOf s.table s.dirs ndirfd np with
          | error e =>
              rw [hnb] at h
              cases h
          | ok nb =>
              rw [hnb] at h
              cases h
              exact ⟨linkatOld_self hfd hold, rfl, hnb⟩

/-- A call that the paths are in order for is that of `vfs_link`. -/
theorem sysLinkat_run {odirfd ndirfd : ℤ} {old new : Except Errno Bytes} {flags : UInt32} {x' : σ}
    {r : Except Errno Unit} (h : (s.sysLinkat K odirfd old ndirfd new flags).run s.host = (r, x')) :
    (∃ e, s.linkatPaths odirfd old ndirfd new flags = .error e ∧ r = .error e ∧ x' = s.host) ∨
      ∃ src dst, s.linkatPaths odirfd old ndirfd new flags = .ok (src, dst) ∧
        (vfsLink K s.fs src.1 src.2 dst.1 dst.2 (has flags AT_SYMLINK_FOLLOW)).run s.host = (r, x') := by
  rw [sysLinkat] at h
  cases hpaths : s.linkatPaths odirfd old ndirfd new flags with
  | error e =>
      rw [hpaths] at h
      cases h
      exact .inl ⟨e, rfl, rfl, rfl⟩
  | ok p =>
      rw [hpaths] at h
      exact .inr ⟨p.1, p.2, rfl, h⟩

end Session

def DirectoryView.LinkedTo (V : DirectoryView η σ ι) (K : Kernel η σ) (s : Session η σ) (k : ℕ) (ndirfd : ℤ)
    (new : Except Errno Bytes) (flags : UInt32) (x' : σ) : Prop :=
  ∃ base np src y loc d z i, new = .ok np ∧ baseOf s.table s.dirs ndirfd np = .ok base ∧
    (linkSource K s.fs none (s.desc k).path (has flags AT_SYMLINK_FOLLOW)).run s.host = (.ok src, y) ∧
    (hostParent K s.fs base np).run y = (.ok (loc, d), z) ∧
    Puts (V.names s.host) (V.names x') (V.obj d) loc.last i ∧ (s.desc k).object V = some (loc.m.dev, i)

section Link

variable {V : DirectoryView η σ ι} {K : Kernel η σ} {view : σ → ν} (hS : V.Serves K.store view)
  {T : MountTable η} (hD : RootsAreDirs K.store T) (hT : InPlace T) {s : Session η σ} (hs : s.Sound T)
  {i : Slot} {k : ℕ} {fd : ℤ} (hfd : s.table.fdGet fd = some (i, k))

include hS hD hT hs hfd

/-- What `linkat` of a descriptor gives another name is the object of the description, exactly if the
description's path leads to no other file. -/
theorem sysLinkat_linked_iff {ndirfd : ℤ} {new : Except Errno Bytes} {flags : UInt32} {x' : σ}
    (h : (s.sysLinkat K fd (.ok []) ndirfd new flags).run s.host = (.ok (), x')) :
    V.LinkedTo K s k ndirfd new flags x' ↔
      ∀ o, V.LeadsToFile K s.fs s.host none (s.desc k).path (if has flags AT_SYMLINK_FOLLOW then 0 else W_NOFOLLOW)
        o → (s.desc k).object V = some o := by
  rcases s.sysLinkat_run h with ⟨e, -, he, -⟩ | ⟨src, dst, hpaths, h⟩
  · cases he
  obtain ⟨rfl, hnew, hbase⟩ := Session.linkatPaths_self hfd hpaths
  have hnb : Canonical (dst.1.getD s.fs.cwd) :=
    baseOf_based hs.cwd (fun _ _ => Session.dirs_canonical hT hs) hbase
  have hob : Canonical ((none : Option Bytes).getD s.fs.cwd) := hs.cwd
  obtain ⟨j, src, y, loc, d, z, hleads, hsrc, hparent, hputs⟩ :=
    vfsLink_puts hS (hs.table.symm ▸ hD) hob hnb h
  constructor
  · rintro ⟨base, np, src', y', loc', d', z', j', hnew', hbase', hsrc', hparent', hputs', hobj⟩ o ho
    obtain rfl := Except.ok.inj (hnew.symm.trans hnew')
    obtain rfl := Except.ok.inj (hbase.symm.trans hbase')
    obtain rfl := congrArg Prod.snd (hsrc.symm.trans hsrc')
    obtain rfl := congrArg Prod.fst (Except.ok.inj (congrArg Prod.fst (hparent.symm.trans hparent')))
    rw [hputs'.unique hputs] at hobj
    rw [hobj, ho.unique hleads]
  · intro hfaithful
    exact ⟨dst.1, dst.2, src, y, loc, d, z, j, hnew, hbase, hsrc, hparent, hputs, hfaithful _ hleads⟩

theorem sysLinkat_refused {ndirfd : ℤ} {new : Except Errno Bytes} {flags : UInt32} {e : Errno} {x' : σ}
    (h : (s.sysLinkat K fd (.ok []) ndirfd new flags).run s.host = (.error e, x')) : view x' = view s.host := by
  rcases s.sysLinkat_run h with ⟨e, -, -, rfl⟩ | ⟨src, dst, hpaths, h⟩
  · rfl
  · obtain ⟨rfl, -, hbase⟩ := Session.linkatPaths_self hfd hpaths
    have hnb : Canonical (dst.1.getD s.fs.cwd) :=
      baseOf_based hs.cwd (fun _ _ => Session.dirs_canonical hT hs) hbase
    have hob : Canonical ((none : Option Bytes).getD s.fs.cwd) := hs.cwd
    exact vfsLink_refused hS (hs.table.symm ▸ hD) hob hnb h

end Link

section InKernel

variable {V : DirectoryView η σ ι} {K : Kernel η σ} {fs : FsCtx η} {view : σ → ν}

def MountType.InKernel : MountType η → Prop
  | .host _ => False
  | .proc | .dev => True

/-- An open of one name below a directory of `/proc` or `/dev`: of what is mounted there, of the object of
that name, or of what a link of that name leads to. -/
inductive OpensInKernel (V : DirectoryView η σ ι) (K : Kernel η σ) (fs : FsCtx η) (view : σ → ν) (flags : UInt32)
    (p n : Bytes) (x : σ) (f : OpenFile η) : Prop
  | mount {cand : Bytes} (place : pathJoin PATH_MAX p n = .ok cand)
      (mounted : (mountAt fs.table.mounts cand).isSome = true) (there : V.IsAt fs x cand f) :
      OpensInKernel V K fs view flags p n x f
  | object (place : pathJoin PATH_MAX p n = .ok f.path) : OpensInKernel V K fs view flags p n x f
  | followed {cand : Bytes} {st : KStat} {y z : σ} (place : pathJoin PATH_MAX p n = .ok cand)
      (seen : view y = view x) (found : (statAbs K fs cand).run y = (.ok st, z)) (link : isLnk st.mode = true)
      (asked : has flags O_NOFOLLOW = false ∨ has flags O_CREAT = true) (leads : V.LeadsTo K fs view (some p) n x f) :
      OpensInKernel V K fs view flags p n x f

variable (hS : V.Serves K.store view) (hT : InPlace fs.table) {p n : Bytes} (hp : Canonical p) (hn : OrdinaryName n)
  (htype : (fs.table.mountOf p).type.InKernel)

include hS hT hp hn htype

theorem walked_inKernel {wflags flags : UInt32} (hpar : has wflags W_PARENT = false)
    (hdir : has wflags W_MUSTDIR = false) (hasked : has wflags W_NOFOLLOW = false →
      wflags = 0 ∧ (has flags O_NOFOLLOW = false ∨ has flags O_CREAT = true))
    {x y y' x' : σ} (hy : view y = view x) {loc : VfsLoc η} {f : OpenFile η}
    (hwalk : (walkPath K fs (some p) n wflags).run y = (.ok loc, y'))
    (h : (openExisting K fs loc flags).run y' = (.ok f, x')) : OpensInKernel V K fs view flags p n x f := by
  have hbase : Canonical ((some p).getD fs.cwd) := hp
  have hy' : view y' = view x := by
    have hquiet := walkPath_quiet hS.quiet hbase n wflags y
    rw [hwalk] at hquiet
    exact hquiet.trans hy
  have hgood : GoodLoc fs wflags loc := walk_good hbase hwalk
  obtain ⟨hat, -⟩ := openExisting_isAt hS hT hgood.canonical hgood.m_eq hgood.rel_eq h
  replace hat := hat.congr hS hy'
  obtain ⟨cand, hj, hfound⟩ := walk_name hp hn hpar hdir hwalk
  cases hfound with
  | mount hm => exact .mount hj hm hat
  | link st hm hst hl hf =>
      obtain ⟨rfl, hfollows⟩ := hasked hf
      exact .followed hj hy (Prod.ext hst rfl) hl hfollows (openWalked_leads hS hT hbase hy hwalk h).1
  | object hm =>
      obtain ⟨-, -, hmount, -⟩ := place_below hp hn.valid hj hm
      cases f with
      | host o kind kept path m =>
          obtain ⟨rfl, ⟨root, hroot, -⟩ | ⟨-, root, -, hroot, -⟩⟩ := hat
          · change (fs.table.mountOf cand).type = _ at hroot
            rw [← hmount, hroot] at htype
            cases htype
          · change (fs.table.mountOf cand).type = _ at hroot
            rw [← hmount, hroot] at htype
            cases htype
      | synth g kept path =>
          obtain ⟨-, rfl⟩ := hat
          exact .object hj

/-- What `vfs_open` opens for one name below a directory that the kernel fills. -/
theorem vfsOpen_inKernel {flags mode : UInt32} {x x' : σ} {f : OpenFile η}
    (h : (vfsOpen K fs (some p) n flags mode).run x = (.ok f, x')) : OpensInKernel V K fs view flags p n x f := by
  rw [vfsOpen] at h
  by_cases hc : has flags O_CREAT = true
  · rw [if_pos hc, openCreating] at h
    obtain ⟨r, y, hwalk, h⟩ := of_run_bind h
    have hwalk := of_run_attempt hwalk
    have hbase : Canonical ((some p).getD fs.cwd) := hp
    have hy : view y = view x := by
      have hquiet := walkPath_quiet hS.quiet hbase n W_PARENT x
      rwa [hwalk] at hquiet
    cases r with
    | error e =>
        dsimp only at h
        split_ifs at h
        · obtain ⟨loc, z, hagain, h⟩ := of_run_bind h
          exact walked_inKernel hS hT hp hn htype (by decide) (by decide) (fun _ => ⟨rfl, .inr hc⟩) hy hagain h
        · cases h
    | ok loc =>
        obtain ⟨rfl, -⟩ := walk_parent hp hn hwalk
        dsimp only at h
        have hm : (locAt fs p n).m.type = (fs.table.mountOf p).type := rfl
        rw [hm] at h
        cases hcase : (fs.table.mountOf p).type with
        | host root =>
            rw [hcase] at htype
            cases htype
        | proc =>
            rw [hcase] at h
            cases h
        | dev =>
            rw [hcase] at h
            cases h
  · rw [if_neg hc] at h
    obtain ⟨loc, y, hwalk, h⟩ := of_run_bind h
    by_cases hnf : has flags O_NOFOLLOW = true
    · rw [if_pos hnf] at hwalk
      exact walked_inKernel hS hT hp hn htype (by decide) (by decide) (fun hw => absurd hw (by decide)) rfl hwalk h
    · rw [if_neg hnf] at hwalk
      exact walked_inKernel hS hT hp hn htype (by decide) (by decide) (fun _ => ⟨rfl, .inl (by simpa using hnf)⟩) rfl
        hwalk h

end InKernel

/-- Where an open of one name below a description goes: to what is mounted there or in the directory that the
description is of. -/
def DirectoryView.OpensAt (V : DirectoryView η σ ι) (K : Kernel η σ) (view : σ → ν) (s : Session η σ) (k : ℕ)
    (n : Bytes) (flags : UInt32) (x' : σ) (g : OpenFile η) : Prop :=
  match (s.desc k).object V with
  | some o => (∃ cand, pathJoin PATH_MAX (s.desc k).path n = .ok cand ∧
      (mountAt s.fs.table.mounts cand).isSome = true ∧ V.IsAt s.fs s.host cand g) ∨
        V.OpenedIn K s.fs view flags (s.desc k).path n o.2 s.host x' g
  | none => OpensInKernel V K s.fs view flags (s.desc k).path n s.host g

section Open

variable {V : DirectoryView η σ ι} {K : Kernel η σ} {view : σ → ν} (hS : V.Serves K.store view)
  {T : MountTable η} (hT : InPlace T) {s : Session η σ} (hs : s.Sound T) {i : Slot} {k : ℕ} {fd : ℤ}
  (hfd : s.table.fdGet fd = some (i, k)) {n : Bytes} (hn : OrdinaryName n)

include hfd hn in
theorem openatPath_below : openatPath s.table s.dirs fd (.ok n) =
    (s.dirs k).elim (.error .ENOTDIR) fun p => .ok (some p, n) := by
  have hat : fd ≠ AT_FDCWD := by
    rintro rfl
    cases hfd
  have hbase : baseOf s.table s.dirs fd n = (s.dirs k).elim (.error .ENOTDIR) fun p => .ok (some p) := by
    rw [baseOf, if_neg hn.head_ne_slash, if_neg hat, hfd]
    dsimp only
    rw [if_neg hn.valid.ne_nil]
    cases s.dirs k <;> rfl
  change (baseOf s.table s.dirs fd n >>= fun base => _) = _
  rw [hbase]
  cases s.dirs k with
  | none => rfl
  | some p => exact if_neg hn.valid.ne_nil

include hS hT hs hn in
/-- An open below a description whose path leads to no directory but its own. -/
theorem vfsOpen_at (hfaithful : ∀ e, V.LeadsToDir s.fs s.host (s.desc k).path e →
      ((s.desc k).object V).map Prod.snd = some e) {p : Bytes} (hp : s.dirs k = some p) {flags mode : UInt32}
    {x' : σ} {g : OpenFile η} (h : (vfsOpen K s.fs (some p) n flags mode).run s.host = (.ok g, x')) :
    V.OpensAt K view s k n flags x' g := by
  have hcanon := Session.dirs_canonical hT hs hp
  have hT' : InPlace s.fs.table := hs.table.symm ▸ hT
  have hmade := hs.made k
  rw [Session.dirs] at hp
  split_ifs at hp with hdir
  cases hp
  rw [DirectoryView.OpensAt]
  cases hf : s.desc k with
  | pipe ino => rw [hf] at hdir; cases hdir
  | console => rw [hf] at hdir; cases hdir
  | opened f =>
      rw [hf] at hdir hmade hcanon hfaithful h
      have hsound := hmade.sound hT
      cases f with
      | host d kind kept path m =>
          cases hdir
          obtain ⟨root, hroot⟩ : ∃ root, (s.fs.table.mountOf path).type = .host root := by
            rw [hs.table]
            cases hmade with
            | opened table start opens => exact table ▸ vfsOpen_hostdir start opens
          rcases vfsOpen_opens hS hT' hcanon hn hroot h with hm | ⟨e, hleads, hopened⟩
          · exact .inl hm
          · refine .inr ?_
            rwa [← Option.some.inj (hfaithful e hleads)] at hopened
      | synth f kept path =>
          refine vfsOpen_inKernel hS hT' hcanon hn ?_ h
          rw [hs.table]
          change (T.mountOf path).type.InKernel
          cases f with
          | procDir d =>
              rw [hsound.1.mount]
              trivial
          | devDir =>
              rw [hsound.2.1]
              trivial
          | procLink => cases hdir
          | procFile text => cases hdir
          | devNode major minor => cases hdir

include hfd hn in
/-- An `openat` that succeeds is the open of the name below the description's path. -/
theorem sysOpenat_opened {flags mode : UInt32} {newfd : ℤ} {s' : σ × FdState}
    (h : sysOpenat K s.fs s.dirs fd (.ok n) flags mode (s.host, s.table) = (.ok newfd, s')) :
    ∃ p g, s.dirs k = some p ∧ (vfsOpen K s.fs (some p) n flags mode).run s.host = (.ok g, s'.1) ∧
      s'.2 = (s.table.sysOpen flags (.ok g.made)).2 := by
  rw [sysOpenat, openatPath_below hfd hn] at h
  cases hp : s.dirs k with
  | none =>
      rw [hp] at h
      cases h
  | some p =>
      rw [hp, Option.elim_some] at h
      dsimp only at h
      cases hrun : (vfsOpen K s.fs (some p) n flags mode).run s.host with
      | mk r x =>
          rw [hrun] at h
          cases r with
          | error e => cases h
          | ok g =>
              rw [openatEnd, installed] at h
              cases hopen : (s.table.sysOpen flags (.ok g.made)).1 with
              | error e =>
                  rw [hopen] at h
                  cases h
              | ok newfd' =>
                  rw [hopen] at h
                  cases h
                  exact ⟨p, g, rfl, hrun, rfl⟩

include hS hT hs hfd hn in
/-- An `openat` that fails changes nothing, exactly if each open that it asks the host for is
harmless. -/
theorem sysOpenat_untouched_iff {flags mode : UInt32} :
    (∀ e s', sysOpenat K s.fs s.dirs fd (.ok n) flags mode (s.host, s.table) = (.error e, s') →
      Untouched view (s.host, s.table) s') ↔
    ∀ p, s.dirs k = some p → ∀ q z, VfsAsks K s.fs flags mode (some p) n s.host q z →
      q.Harmless K.store view (∃ i, s.table.files i = none) flags z := by
  rw [sysOpenat, openatPath_below hfd hn]
  cases hp : s.dirs k with
  | none =>
      refine iff_of_true (fun e s' h => ?_) fun p h => by cases h
      cases h
      exact ⟨rfl, rfl, rfl, fun _ => .inl rfl⟩
  | some p =>
      have hbase : Canonical ((some p).getD s.fs.cwd) := Session.dirs_canonical hT hs hp
      have hclean : Clean view (∃ i, s.table.files i = none) (vfsOpen K s.fs (some p) n flags mode) s.host ↔ _ :=
        vfsOpen_clean_iff hS.quiet hbase n s.host
      refine ((openatEnd_untouched_iff (close_quiet hS.quiet)).trans hclean).trans
        ⟨fun h p' hp' => ?_, fun h => h p rfl⟩
      cases hp'
      exact h

end Open

def addName (T : Names ℕ Bytes) (d : ℕ) (n : Bytes) (i : ℕ) : Names ℕ Bytes := fun e m =>
  if (e, m) = (d, n) then some i else T e m

/-- A host whose state is the tree, where files can have several names. -/
def namesStore (kind : ℕ → HfsKind) : HostStore ℕ (Names ℕ Bytes) where
  __ := treeStore kind
  link h d n := ExceptT.mk fun T =>
    if (T d n).isSome = true then (.error .EEXIST, T) else (.ok (), addName T d n h)

def namesView (kind : ℕ → HfsKind) : DirectoryView ℕ (Names ℕ Bytes) ℕ where
  __ := treeView kind
  enters := id
  follows _ _ := none
  text _ _ := none

theorem namesStore_serves (kind : ℕ → HfsKind) : (namesView kind).Serves (namesStore kind) id := by
  have hC := treeStore_contract kind
  have hopened : ∀ (T : Names ℕ Bytes) d n fl mode uid gid st o T',
      ((namesStore kind).openat d n fl mode uid gid st).run T = (.ok o, T') →
        T' = T ∧ T d n = some o.h ∧ o.reparse = false := by
    intro T d n fl mode uid gid st o T' h
    obtain rfl : T = T' := congrArg Prod.snd h
    have hrun : treeOpen kind T d n fl = .ok o := congrArg Prod.fst h
    obtain ⟨hi, -, hdir⟩ := treeOpen_ok hrun
    rw [treeOpen_some hi hdir] at hrun
    exact ⟨rfl, hi, congrArg Opened.reparse (Except.ok.inj hrun).symm⟩
  refine ⟨⟨fun T => ?_, fun d n fl mode uid gid st T o T' h _ => (hopened _ _ _ _ _ _ _ _ _ _ h).1⟩,
    fun T U hTU => ?_, hC.looked, ?_, ?_, ?_, ?_, ?_, ?_, ?_⟩
  · have hG := hC.reads T
    exact ⟨hG.openat, hG.reopen, hG.stat, hG.readlink, hG.close, hG.now, hG.alloc⟩
  · obtain rfl : T = U := hTU
    exact ⟨rfl, rfl, rfl, rfl⟩
  · exact fun T d n o T' h _ => (hopened _ _ _ _ _ _ _ _ _ _ h).2.1
  · intro T h fl st o T' hrun
    change ((if has fl HFS_O_DIR = true ∧ kind h ≠ .dir then throw .ENOTDIR
      else pure ⟨h, { kind := kind h }, false⟩ : Call Errno (Names ℕ Bytes) (Opened ℕ)).run T) = _ at hrun
    split_ifs at hrun
    · cases hrun
    · cases hrun
      rfl
  · intro T d n fl st o T' _ h
    obtain ⟨rfl, hi, -⟩ := hopened _ _ _ _ _ _ _ _ _ _ h
    exact ⟨rfl, o.h, hi, fun _ => rfl⟩
  · intro T d n fl mode uid gid o T' _ h
    obtain ⟨rfl, hi, hre⟩ := hopened _ _ _ _ _ _ _ _ _ _ h
    exact .inl ⟨hre, .existing hi rfl⟩
  · intro T h t T' hrun
    cases hrun
  · intro T h d n T' hrun
    change (if (T d n).isSome = true then (Except.error Errno.EEXIST, T) else (.ok (), addName T d n h)) =
      (Except.ok (), T') at hrun
    split_ifs at hrun with hfree
    · cases hrun
    · cases hrun
      exact ⟨Option.not_isSome_iff_eq_none.mp hfree, if_pos rfl, fun e m hne => if_neg hne⟩
  · intro T h d n e T' hrun
    change (if (T d n).isSome = true then (Except.error Errno.EEXIST, T) else (.ok (), addName T d n h)) =
      (Except.error e, T') at hrun
    split_ifs at hrun
    · cases hrun
      rfl
    · cases hrun

def namesKernel : Kernel ℕ (Names ℕ Bytes) := { smallKernel with store := namesStore smallKind }

theorem namesKernel_roots : RootsAreDirs namesKernel.store smallCtx.table := by
  intro m hm root hroot T hs h
  obtain rfl : { kind := smallKind root } = hs := Except.ok.inj h
  have hzero : root = 0 := by
    rcases List.mem_cons.mp hm with rfl | hm
    · exact (MountType.host.inj hroot).symm
    rcases List.mem_cons.mp hm with rfl | hm
    · cases hroot
    · rw [List.mem_singleton.mp hm] at hroot
      cases hroot
  rw [hzero]
  rfl

def openFileA : OpenFile ℕ := .host 1 .host 0 (str "/a") (smallCtx.table.mountOf (str "/a"))

def openedA : Session ℕ (Names ℕ Bytes) where
  host := smallTree
  fs := smallCtx
  table := (fdtableInit.sysOpen 0 (.ok openFileA.made)).2
  desc := Function.update (fun _ => .console) 0 (.opened openFileA)

theorem openedA_run : Session.Run namesKernel (.start smallCtx smallTree) openedA := by
  have hstart : openatPath fdtableInit (Session.start smallCtx smallTree).dirs AT_FDCWD (.ok (str "/a")) =
      .ok (none, str "/a") := rfl
  have hopen : (vfsOpen namesKernel smallCtx none (str "/a") 0 0).run smallTree = (.ok openFileA, smallTree) := rfl
  exact .single (.opens rfl hstart hopen)

/-- `/b` is renamed over `/a`. -/
def replacedA : Session ℕ (Names ℕ Bytes) :=
  { openedA with host := move smallTree 0 (str "b") 0 (str "a") 2 }

theorem replacedA_run : Session.Run namesKernel openedA replacedA := .single (.host _)

end SysvNt
