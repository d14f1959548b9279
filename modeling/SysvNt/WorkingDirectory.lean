import SysvNt.ActionRuns
import SysvNt.DescriptorStats
import SysvNt.NameChecks
import SysvNt.Queries

/-!
# The working directory

`chdir` walks to a directory and asks for search permission; `fchdir` takes the path that the
description was opened by, and its kind decides whether that is a directory. Each call of a run
finds a tree of its own, which does not change while the call lasts. Both leave a canonical path.
The path `chdir` leaves names a directory; what `fchdir` leaves does so if the description is of
a directory, and a directory of `/dev` it refuses.
-/

namespace SysvNt

open FallibleCalls ActionRuns

variable {η σ : Type}

def vfsFchdir (f : OpenDescription η) : Except Errno Bytes :=
  if f.kind ≠ FILE_KIND_HOSTDIR ∧ ¬ (f.kind = FILE_KIND_PROC ∧ f.path ≠ []) then .error .ENOTDIR
  else .ok f.path

def sysFchdir : Option (OpenDescription η) → Except Errno Bytes
  | none => .error .EBADF
  | some f => vfsFchdir f

/-- A call that may change the working directory, with the tree that it finds. -/
inductive Move (η : Type) where
  | chdir (K : Kernel η Unit) (path : Bytes)
  | fchdir (K : Kernel η Unit) (fd : Option (OpenDescription η))

def Move.tree : Move η → Kernel η Unit
  | .chdir K _ | .fchdir K _ => K

def Move.perform (fs : FsCtx η) : Move η → Except Errno Bytes
  | .chdir K path => ((vfsChdir K fs none path).run ()).1
  | .fchdir _ fd => sysFchdir fd

def Move.next (fs : FsCtx η) (m : Move η) : FsCtx η :=
  match m.perform fs with
  | .ok cwd => { fs with cwd := cwd }
  | .error _ => fs

def statIn (K : Kernel η Unit) (fs : FsCtx η) (abs : Bytes) : Except Errno KStat :=
  ((statAbs K fs abs).run ()).1

def OpenDescription.OfDirectory : OpenDescription η → Prop
  | .opened (.host _ kind _ _ _) => kind = .hostdir
  | .opened (.synth f _ _) => match f with
    | .procDir _ | .devDir => True
    | _ => False
  | .pipe _ | .console => False

/-- The caller may search what the descriptor is open on. -/
def Searchable (K : Kernel η Unit) (fs : FsCtx η) (f : OpenDescription η) : Prop :=
  ∃ st, ((vfsFstat K f).run ()).1 = .ok st ∧ may fs st X_OK true = .ok ()

/-- The call leaves a canonical path, of a directory if it set it; `fchdir` succeeds on directories
alone, and on each that may be searched. -/
structure Move.Right (fs : FsCtx η) (m : Move η) : Prop where
  canonical : Canonical (m.next fs).cwd
  directory : ∀ cwd, m.perform fs = .ok cwd → NamesDir (statIn m.tree fs) cwd
  only : ∀ K fd cwd, m = .fchdir K fd → m.perform fs = .ok cwd → ∃ f, fd = some f ∧ f.OfDirectory
  each : ∀ K f, m = .fchdir K (some f) → f.OfDirectory → Searchable K fs f → ∃ cwd, m.perform fs = .ok cwd

/-- Neither a file or link of `/proc` nor the directory of `/dev`. -/
def SynthFile.Judged : SynthFile → Prop
  | .procLink | .procFile _ | .devDir => False
  | .procDir _ | .devNode _ _ => True

/-- An `fchdir` is not on a file or link of `/proc` and not on the directory of `/dev`, and a
directory of the host is still where it was opened. -/
def Move.Settled (fs : FsCtx η) : Move η → Prop
  | .chdir _ _ => True
  | .fchdir K fd => ∀ f, fd = some (.opened f) → match f with
    | .host _ kind _ path _ => kind = .hostdir → NamesDir (statIn K fs) path
    | .synth f _ _ => f.Judged

def Move.Made (T : MountTable η) : Move η → Prop
  | .chdir _ _ => True
  | .fchdir _ fd => ∀ f, fd = some f → f.Made T

section Chdir

variable {K : Kernel η Unit} {fs : FsCtx η}

theorem walk_mustdir {A : AbsStore Unit} {base : Option Bytes} {path : Bytes} {wflags : UInt32}
    (hdir : has wflags W_MUSTDIR = true) (hpar : has wflags W_PARENT = false) {loc : VfsLoc η}
    (h : walk A fs base path wflags () = (.ok loc, ())) :
    ∃ st, (A.statAbs loc.abs ()).1 = .ok st ∧ isDir st.mode = true := by
  unfold walk at h
  dsimp only at h
  split_ifs at h with h0 hmax
  · cases h
  · cases h
  · have hrun := (walkBody A fs wflags (hasTrailing (cstr path))).run_invariant (P := fun _ => True)
      (Q := fun r => ∀ loc, r.1 = .ok loc → ∃ st, (A.statAbs loc.abs ()).1 = .ok st ∧ isDir st.mode = true)
      (fun _ _ _ _ => trivial)
      (by
        intro w r _ hs loc hr
        have hfound := walkBody_stop.mp hs
        rw [hr] at hfound
        cases walkStep_found hfound with
        | object hp hpar hd => exact hd (.inl hdir)
        | parent st hp hlen hdot hdotdot hlast hpar' hst hd =>
            rw [hpar] at hpar'
            cases hpar')
      (walkInit fs base (cstr path), ()) trivial
    exact hrun loc (by rw [h])

theorem vfsChdir_ok {base : Option Bytes} (hbase : Canonical (base.getD fs.cwd)) {path cwd : Bytes}
    (h : ((vfsChdir K fs base path).run ()).1 = .ok cwd) :
    Canonical cwd ∧ NamesDir (statIn K fs) cwd := by
  have hrun : (vfsChdir K fs base path).run () = (.ok cwd, ()) := Prod.ext h rfl
  rw [vfsChdir] at hrun
  obtain ⟨loc, u, hwalk, hrun⟩ := of_run_bind hrun
  obtain ⟨st, u, -, hrun⟩ := of_run_bind hrun
  obtain ⟨_, u, -, hrun⟩ := of_run_bind hrun
  cases hrun
  exact ⟨(walk_good hbase hwalk).canonical, walk_mustdir (by decide) (by decide) hwalk⟩

end Chdir

section Fchdir

variable {fs : FsCtx η}

/-- A directory of `/proc` is one to every process. -/
theorem procClassify_of_isDir {pv : ProcView} {rel : Bytes} {cls : ProcClass}
    (h : procClassify pv rel = some cls) (hdir : isDir (procMode cls) = true) (pv' : ProcView) :
    procClassify pv' rel = some cls := by
  have hself : ∀ p, classifySelf pv p = some cls → classifySelf pv' p = some cls := by
    intro p hp
    unfold classifySelf at hp ⊢
    split_ifs at hp ⊢ with h1 h2 h3 h4 h5
    · exact hp
    · exact hp
    · exact hp
    · exact hp
    · cases hn : strtolWhole (p.drop 3) with
      | none =>
          rw [hn] at hp
          cases hp
      | some n =>
          rw [hn] at hp
          dsimp only at hp
          split_ifs at hp
          cases hp
          exact absurd hdir (by decide : ¬ isDir (S_IFLNK ||| 0o777) = true)
  unfold procClassify at h ⊢
  split_ifs at h ⊢ with h1 h2 h3 h4 h5
  · exact h
  · exact h
  · exact hself _ h
  · exact h
  · exact hself _ h

theorem procfsStat_mode {H : HostStore η σ} {pv : ProcView} {rel : Bytes} {cls : ProcClass}
    (h : procClassify pv rel = some cls) (x : σ) :
    ∃ st, ((procfsStat H pv rel).run x).1 = .ok st ∧ st.mode = procMode cls := by
  rw [procfsStat, h]
  dsimp only
  split_ifs
  · exact ⟨_, rfl, rfl⟩
  · exact ⟨_, rfl, rfl⟩

theorem OnProc.namesDir {path : Bytes} {cls : ProcClass} (h : OnProc fs.table path cls)
    (hdir : isDir (procMode cls) = true) (K : Kernel η Unit) : NamesDir (statIn K fs) path := by
  obtain ⟨-, hmount, pv, hcls⟩ := h
  obtain ⟨st, hst, hmode⟩ := procfsStat_mode (H := K.store) (procClassify_of_isDir hcls hdir K.proc) ()
  refine ⟨st, ?_, hmode ▸ hdir⟩
  rw [statIn, statAbs, hmount]
  exact hst

theorem OnProc.path_ne_nil {T : MountTable η} {path : Bytes} {cls : ProcClass} (h : OnProc T path cls) :
    path ≠ [] := by
  obtain ⟨ns, -, rfl, -⟩ := h.canonical
  intro hnil
  have hhead := render_head ns
  rw [hnil] at hhead
  cases hhead

/-- A directory of mode 0755 is searched by anyone. -/
theorem may_search {st : KStat} (hmode : st.mode = S_IFDIR ||| 0o755) : may fs st X_OK true = .ok () := by
  unfold may
  simp only [hmode, ↓reduceIte]
  by_cases huid : fs.euid = 0
  · rw [if_pos huid]
    rfl
  · rw [if_neg huid]
    apply if_pos
    split_ifs
    · decide
    · decide
    · decide

theorem devDir_searchable (K : Kernel η Unit) (flags : UInt32) (path : Bytes) :
    Searchable K fs (.opened (.synth .devDir flags path)) := ⟨_, rfl, may_search rfl⟩

/-- What `vfs_fchdir` takes for a directory. -/
theorem vfsFchdir_ok_iff {f : OpenDescription η} {cwd : Bytes} :
    vfsFchdir f = .ok cwd ↔
      cwd = f.path ∧ (f.kind = FILE_KIND_HOSTDIR ∨ f.kind = FILE_KIND_PROC ∧ f.path ≠ []) := by
  rw [vfsFchdir]
  by_cases h : f.kind ≠ FILE_KIND_HOSTDIR ∧ ¬ (f.kind = FILE_KIND_PROC ∧ f.path ≠ [])
  · rw [if_pos h]
    refine ⟨fun he => ?_, fun hc => ?_⟩
    · cases he
    rcases hc.2 with hk | hk
    · exact absurd hk h.1
    · exact absurd hk h.2
  · rw [if_neg h]
    refine ⟨fun he => ⟨(Except.ok.inj he).symm, ?_⟩, fun hc => by rw [hc.1]⟩
    by_contra hn
    exact h ⟨fun hk => hn (.inl hk), fun hk => hn (.inr hk)⟩

theorem Move.next_cwd {m : Move η} {cwd : Bytes} (h : m.perform fs = .ok cwd) : (m.next fs).cwd = cwd := by
  rw [Move.next, h]

theorem Move.next_of_error {m : Move η} {e : Errno} (h : m.perform fs = .error e) : m.next fs = fs := by
  rw [Move.next, h]

@[simp] theorem Move.next_table (m : Move η) : (m.next fs).table = fs.table := by
  unfold Move.next
  split
  · rfl
  · rfl

/-- A refused call of `fchdir` is right if it is not on a directory. -/
theorem Move.right_of_refused (hcwd : Canonical fs.cwd) {K : Kernel η Unit} {fd : Option (OpenDescription η)}
    {e : Errno} (he : (Move.fchdir K fd).perform fs = .error e) (hfd : ∀ f, fd = some f → ¬ f.OfDirectory) :
    (Move.fchdir K fd).Right fs where
  canonical := by
    rw [Move.next_of_error he]
    exact hcwd
  directory cwd h := by
    rw [he] at h
    cases h
  only _ _ cwd _ h := by
    rw [he] at h
    cases h
  each K' f hm hdir := by
    cases hm
    exact absurd hdir (hfd f rfl)

/-- A call of `fchdir` on a directory is right if it takes a canonical path of one. -/
theorem Move.right_of_taken {K : Kernel η Unit} {f : OpenDescription η}
    (h : (Move.fchdir K (some f)).perform fs = .ok f.path) (hdir : f.OfDirectory)
    (hpath : Canonical f.path) (hnames : NamesDir (statIn K fs) f.path) :
    (Move.fchdir K (some f)).Right fs where
  canonical := by
    rw [Move.next_cwd h]
    exact hpath
  directory cwd hc := by
    rw [h] at hc
    cases hc
    exact hnames
  only K' fd cwd hm _ := by
    cases hm
    exact ⟨f, rfl, hdir⟩
  each K' g hm _ _ := ⟨_, h⟩

theorem Move.chdir_right (hcwd : Canonical fs.cwd) (K : Kernel η Unit) (path : Bytes) :
    (Move.chdir K path).Right fs where
  canonical := by
    cases h : (Move.chdir K path).perform fs with
    | error e =>
        rw [Move.next_of_error h]
        exact hcwd
    | ok cwd =>
        rw [Move.next_cwd h]
        have hbase : Canonical ((none : Option Bytes).getD fs.cwd) := hcwd
        exact (vfsChdir_ok hbase h).1
  directory cwd h := by
    have hbase : Canonical ((none : Option Bytes).getD fs.cwd) := hcwd
    exact (vfsChdir_ok hbase h).2
  only _ _ _ hm := by cases hm
  each _ _ hm := by cases hm

/-- The descriptions of the host: one of a directory is taken, any other refused. -/
theorem Move.host_right_iff (hcwd : Canonical fs.cwd) (K : Kernel η Unit) {h : η} {kind : HostFileKind}
    {flags : UInt32} {path : Bytes} {m : Mount η} (hsound : kind = .hostdir → Canonical path) :
    (Move.fchdir K (some (.opened (.host h kind flags path m)))).Right fs ↔
      (kind = .hostdir → NamesDir (statIn K fs) path) := by
  cases kind with
  | hostdir =>
      have htaken : (Move.fchdir K (some (.opened (.host h .hostdir flags path m)))).perform fs = .ok path :=
        (vfsFchdir_ok_iff (f := .opened (.host h .hostdir flags path m))).mpr ⟨rfl, .inl rfl⟩
      constructor
      · intro hright _
        exact hright.directory path htaken
      · intro hnames
        exact right_of_taken htaken rfl (hsound rfl) (hnames rfl)
  | symlink =>
      refine iff_of_true (right_of_refused hcwd rfl ?_) (fun hk => by cases hk)
      intro f hf hdir
      cases hf
      cases hdir
  | host =>
      refine iff_of_true (right_of_refused hcwd rfl ?_) (fun hk => by cases hk)
      intro f hf hdir
      cases hf
      cases hdir

/-- Any description of `/proc` is taken, of a directory or not. -/
theorem Move.proc_taken {T : MountTable η} (K : Kernel η Unit) {f : SynthFile} {flags : UInt32}
    {path : Bytes} {cls : ProcClass} (hproc : OnProc T path cls)
    (hkind : (OpenFile.synth (η := η) f flags path).made.1 = FILE_KIND_PROC) :
    (Move.fchdir K (some (.opened (.synth f flags path)))).perform fs = .ok path :=
  vfsFchdir_ok_iff.mpr ⟨rfl, .inr ⟨hkind, hproc.path_ne_nil⟩⟩

theorem Move.not_right_of_taken {K : Kernel η Unit} {f : OpenDescription η} {cwd : Bytes}
    (h : (Move.fchdir K (some f)).perform fs = .ok cwd) (hdir : ¬ f.OfDirectory) :
    ¬ (Move.fchdir K (some f)).Right fs := by
  intro hright
  obtain ⟨g, hg, hgdir⟩ := hright.only K (some f) cwd rfl h
  cases hg
  exact hdir hgdir

theorem Move.synth_right_iff (hcwd : Canonical fs.cwd) (K : Kernel η Unit) {f : SynthFile}
    {flags : UInt32} {path : Bytes} (hsound : (OpenFile.synth (η := η) f flags path).Sound fs.table) :
    (Move.fchdir K (some (.opened (.synth f flags path)))).Right fs ↔ f.Judged := by
  cases f with
  | procLink =>
      obtain ⟨cls, hproc, -⟩ := hsound
      exact iff_of_false (not_right_of_taken (proc_taken K hproc rfl) id) id
  | procFile text =>
      exact iff_of_false (not_right_of_taken (proc_taken K hsound rfl) id) id
  | procDir d =>
      obtain ⟨hproc, hdir⟩ := hsound
      have htaken : (Move.fchdir K (some (.opened (.synth (.procDir d) flags path)))).perform fs = .ok path :=
        proc_taken K hproc rfl
      exact iff_of_true (right_of_taken htaken trivial hproc.canonical (hproc.namesDir hdir K)) trivial
  | devDir =>
      refine iff_of_false (fun hright => ?_) id
      obtain ⟨cwd, hok⟩ := hright.each K _ rfl trivial (devDir_searchable K flags path)
      cases hok
  | devNode major minor =>
      refine iff_of_true (right_of_refused hcwd rfl ?_) trivial
      intro f hf hdir
      cases hf
      exact hdir

theorem Move.right_iff (hT : InPlace fs.table) (hcwd : Canonical fs.cwd) {m : Move η}
    (hmade : m.Made fs.table) : m.Right fs ↔ m.Settled fs := by
  cases m with
  | chdir K path => exact iff_of_true (chdir_right hcwd K path) trivial
  | fchdir K fd =>
      cases fd with
      | none =>
          refine iff_of_true (right_of_refused hcwd rfl ?_) ?_
          · intro f hf
            cases hf
          · intro f hf
            cases hf
      | some f =>
          cases f with
          | pipe ino =>
              refine iff_of_true (right_of_refused hcwd rfl ?_) ?_
              · intro f hf hdir
                cases hf
                exact hdir
              · intro f hf
                cases hf
          | console =>
              refine iff_of_true (right_of_refused hcwd rfl ?_) ?_
              · intro f hf hdir
                cases hf
                exact hdir
              · intro f hf
                cases hf
          | opened f =>
              have hsound := (hmade _ rfl).sound hT
              have hsettled : ∀ P : OpenFile η → Prop,
                  (∀ g, some (OpenDescription.opened f) = some (.opened g) → P g) ↔ P f := by
                intro P
                constructor
                · intro h
                  exact h f rfl
                · intro h g hg
                  cases hg
                  exact h
              refine Iff.trans ?_ (hsettled _).symm
              cases f with
              | host h kind flags path mnt => exact host_right_iff hcwd K hsound
              | synth f flags path => exact synth_right_iff hcwd K hsound

end Fchdir

/-- Every call of a run is right if and only if each `fchdir` is on a settled description. -/
theorem moves_right_iff {fs : FsCtx η} (hT : InPlace fs.table) (hcwd : Canonical fs.cwd)
    (ms : List (Move η)) (hmade : ∀ m ∈ ms, m.Made fs.table) :
    Along Move.next Move.Right fs ms ↔ Along Move.next Move.Settled fs ms := by
  induction ms generalizing fs with
  | nil => exact Iff.rfl
  | cons m ms ih =>
      have hm := hmade m List.mem_cons_self
      have hrest : ∀ m' ∈ ms, m'.Made (m.next fs).table := by
        intro m' hm'
        rw [Move.next_table]
        exact hmade m' (List.mem_cons_of_mem m hm')
      have hT' : InPlace (m.next fs).table := by
        rw [Move.next_table]
        exact hT
      rw [Along, Along, Move.right_iff hT hcwd hm]
      constructor
      · rintro ⟨hset, halong⟩
        have hright := (Move.right_iff hT hcwd hm).mpr hset
        exact ⟨hset, (ih hT' hright.canonical hrest).mp halong⟩
      · rintro ⟨hset, halong⟩
        have hright := (Move.right_iff hT hcwd hm).mpr hset
        exact ⟨hset, (ih hT' hright.canonical hrest).mpr halong⟩

/-- What `vfs_init` leaves, on a host mount. -/
def initialFs : FsCtx Unit := FsCtx.initial () 1 true

theorem initialFs_inPlace : InPlace initialFs.table := initial_inPlace () 1 true

/-- To a directory by its path, and to one by a descriptor. -/
theorem chdir_then_fchdir_right :
    ∃ f, (vfsOpen allDirsKernel initialFs none (str "/proc/1") O_RDONLY 0).run () = (.ok f, ()) ∧
      Along Move.next Move.Right initialFs
        [.chdir allDirsKernel (str "/a/b"), .fchdir allDirsKernel (some (.opened f))] := by
  have hopens : (vfsOpen allDirsKernel initialFs none (str "/proc/1") O_RDONLY 0).run () =
      (.ok (.synth (.procDir ⟨.self, procNames allDirsKernel.proc .self⟩) O_RDONLY (str "/proc/1")), ()) := rfl
  refine ⟨_, hopens, (moves_right_iff initialFs_inPlace Canonical.root _ ?_).mpr ?_⟩
  · intro m hm
    rcases List.mem_cons.mp hm with rfl | hm
    · trivial
    rcases List.mem_cons.mp hm with rfl | hm
    · intro f hf
      cases hf
      have hstart : Canonical ((none : Option Bytes).getD initialFs.cwd) := Canonical.root
      exact .opened rfl hstart hopens
    · cases hm
  · refine ⟨trivial, ?_, trivial⟩
    intro f hf
    cases hf
    trivial

/-- After `open("/proc/self/maps")`, `fchdir` makes a file the working directory; after
`open("/dev")`, it refuses a directory. -/
theorem fchdir_takes_file_refuses_directory :
    (∃ f, (vfsOpen allDirsKernel initialFs none (str "/proc/self/maps") O_RDONLY 0).run () = (.ok f, ()) ∧
      ¬ Along Move.next Move.Right initialFs [.fchdir allDirsKernel (some (.opened f))]) ∧
    ∃ f, (vfsOpen allDirsKernel initialFs none (str "/dev") O_RDONLY 0).run () = (.ok f, ()) ∧
      ¬ Along Move.next Move.Right initialFs [.fchdir allDirsKernel (some (.opened f))] := by
  refine ⟨⟨_, rfl, ?_⟩, _, rfl, ?_⟩
  · intro h
    obtain ⟨g, hg, hdir⟩ := h.1.only _ _ _ rfl rfl
    cases hg
    exact hdir
  · intro h
    obtain ⟨cwd, hok⟩ := h.1.each _ _ rfl trivial (devDir_searchable _ _ _)
    cases hok

end SysvNt
