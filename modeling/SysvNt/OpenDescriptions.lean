import SysvNt.MountCrossing
import SysvNt.OpenFailure

/-!
# What a description was opened on

A description keeps the path that it was opened by, its flags and a kind. `Sound` says what the
opener guarantees of the path: that of a directory on the host is the place that the walk came to,
and that of an object of `/proc` or `/dev` lies on its mount and names an object of its class.
-/

namespace SysvNt

open FallibleCalls

variable {η σ : Type}

inductive OpenDescription (η : Type) where
  | opened (f : OpenFile η)
  | pipe (ino : UInt64)
  | console

/-- The mounts that are not the host's are where `vfs_init` puts them. -/
def InPlace (T : MountTable η) : Prop :=
  ∀ m ∈ T.mounts, (m.type = .proc → m.point = str "/proc") ∧ (m.type = .dev → m.point = str "/dev")

theorem initial_inPlace (root : η) (dev : UInt64) (lxCapable : Bool) :
    InPlace (MountTable.initial root dev lxCapable) := by
  intro m hm
  rcases List.mem_cons.mp hm with rfl | hm
  · exact ⟨nofun, nofun⟩
  rcases List.mem_cons.mp hm with rfl | hm
  · exact ⟨fun _ => rfl, nofun⟩
  rcases List.mem_cons.mp hm with rfl | hm
  · exact ⟨nofun, fun _ => rfl⟩
  · cases hm

/-- A path on the mount of `/proc`, naming an object of the class to some process. -/
structure OnProc (T : MountTable η) (path : Bytes) (cls : ProcClass) : Prop where
  canonical : Canonical path
  mount : (T.mountOf path).type = .proc
  classified : ∃ pv, procClassify pv (pathRel (T.mountOf path) path) = some cls

def OpenFile.Sound (T : MountTable η) : OpenFile η → Prop
  | .host _ kind _ path _ => kind = .hostdir → Canonical path
  | .synth f _ path => match f with
    | .procDir d => OnProc T path d.cls ∧ isDir (procMode d.cls) = true
    | .procLink => ∃ cls, OnProc T path cls ∧ isLnk (procMode cls) = true
    | .procFile _ => OnProc T path .maps
    | .devDir => path = str "/dev" ∧ (T.mountOf path).type = .dev ∧ pathRel (T.mountOf path) path = []
    | .devNode _ _ => True

section Synthetic

variable {T : MountTable η}

/-- On a mount other than the root's, the point, a slash and the rest make up the path. -/
theorem path_of_rel {abs point : Bytes} (habs : Canonical abs) (hpoint : (T.mountOf abs).point = point)
    (hroot : point ≠ [slash]) :
    abs = point ++ (if pathRel (T.mountOf abs) abs = [] then [] else [slash]) ++ pathRel (T.mountOf abs) abs := by
  obtain ⟨hv, hrender⟩ := habs.names
  have hm := mountOf_mounted T hv
  rw [hrender] at hm
  obtain ⟨hps, -⟩ := (T.canonical _ hm.mem).names
  generalize T.mountOf abs = m at *
  obtain ⟨rest, hrest⟩ := hm.below
  have hne : namesOf m.point ≠ [] := by
    intro h
    have hmpoint := hm.point
    rw [h, hpoint] at hmpoint
    exact hroot hmpoint
  have habs : abs = render (namesOf m.point ++ rest) := by rw [hrest, hrender]
  have hrel : pathRel m abs = relText rest := habs ▸ pathRel_render hm.point hps
  rw [hrel, ← hpoint]
  conv_rhs => rw [hm.point]
  rw [habs, render_append hne]
  cases rest with
  | nil => simp [relText]
  | cons n rest =>
      have hn : n ≠ [] := by
        have hvn := hv n (by rw [← hrest]; simp)
        exact hvn.ne_nil
      have htext : relText (n :: rest) ≠ [] := by
        rw [relText]
        exact fun h => hn (List.append_eq_nil_iff.mp h).1
      rw [if_neg htext]
      simp [relText]

theorem maps_of_procMode {cls : ProcClass} (hl : ¬ isLnk (procMode cls) = true)
    (hd : ¬ isDir (procMode cls) = true) : cls = .maps := by
  cases cls with
  | maps => rfl
  | root => exact absurd (by decide) hd
  | self => exact absurd (by decide) hd
  | fd => exact absurd (by decide) hd
  | exe => exact absurd (by decide) hl
  | cwd => exact absurd (by decide) hl
  | selflink => exact absurd (by decide) hl
  | fdn n => exact absurd (by decide : isLnk (S_IFLNK ||| 0o777) = true) hl

/-- A description of `/proc` keeps the path that it was opened by. -/
theorem procfsOpen_path (hT : InPlace T) {H : HostStore η σ} {pv : ProcView} {abs : Bytes}
    (habs : Canonical abs) (htype : (T.mountOf abs).type = .proc) {flags : UInt32} {f : SynthFile}
    {path : Bytes} {x x' : σ}
    (h : (procfsOpen H pv (pathRel (T.mountOf abs) abs) flags).run x = (.ok (f, path), x')) : path = abs := by
  have hpoint := (hT _ (T.mountOf_best abs).mem).1 htype
  have hpath := path_of_rel habs hpoint (by decide)
  have hbelow : ∀ cls, procClassify pv (pathRel (T.mountOf abs) abs) = some cls →
      isDir (procMode cls) = false → str "/proc/" ++ pathRel (T.mountOf abs) abs = abs := by
    intro cls hcls hd
    have hne : pathRel (T.mountOf abs) abs ≠ [] := by
      intro hnil
      rw [hnil] at hcls
      cases hcls
      exact absurd hd (by decide)
    conv_rhs => rw [hpath, if_neg hne]
    rfl
  rw [procfsOpen] at h
  cases hcls : procClassify pv (pathRel (T.mountOf abs) abs) with
  | none =>
      rw [hcls] at h
      cases h
  | some cls =>
      rw [hcls] at h
      dsimp only at h
      split_ifs at h with hl hpath' hd hacc
      · obtain ⟨_, y, -, h⟩ := of_run_bind h
        cases h
        refine hbelow cls hcls ?_
        by_contra hd
        rw [isLnk_eq_false_of_isDir (by simpa using hd)] at hl
        cases hl
      · cases h
      · cases h
      · obtain ⟨_, y, -, h⟩ := of_run_bind h
        obtain ⟨_, z, -, h⟩ := of_run_bind h
        cases h
        conv_rhs => rw [hpath, if_pos ‹_›]
      · obtain ⟨_, y, -, h⟩ := of_run_bind h
        obtain ⟨_, z, -, h⟩ := of_run_bind h
        cases h
        conv_rhs => rw [hpath, if_neg ‹_›]
      · obtain ⟨_, y, -, h⟩ := of_run_bind h
        obtain ⟨_, z, -, h⟩ := of_run_bind h
        cases h
        exact hbelow cls hcls (by simpa using hd)

theorem procfsOpen_sound (hT : InPlace T) {H : HostStore η σ} {pv : ProcView} {abs : Bytes}
    (habs : Canonical abs) (htype : (T.mountOf abs).type = .proc) {flags : UInt32} {f : SynthFile}
    {path : Bytes} {x x' : σ}
    (h : (procfsOpen H pv (pathRel (T.mountOf abs) abs) flags).run x = (.ok (f, path), x')) :
    (OpenFile.synth f flags path).Sound T := by
  have hpath := procfsOpen_path hT habs htype h
  have honproc : ∀ cls, procClassify pv (pathRel (T.mountOf abs) abs) = some cls → OnProc T abs cls :=
    fun cls hcls => ⟨habs, htype, pv, hcls⟩
  rw [procfsOpen] at h
  cases hcls : procClassify pv (pathRel (T.mountOf abs) abs) with
  | none =>
      rw [hcls] at h
      cases h
  | some cls =>
      rw [hcls] at h
      dsimp only at h
      split_ifs at h with hl hpath' hd hacc
      · obtain ⟨_, y, -, h⟩ := of_run_bind h
        cases h
        rw [hpath]
        exact ⟨cls, honproc cls hcls, hl⟩
      · cases h
      · cases h
      · obtain ⟨_, y, -, h⟩ := of_run_bind h
        obtain ⟨_, z, -, h⟩ := of_run_bind h
        cases h
        rw [hpath]
        exact ⟨honproc cls hcls, hd⟩
      · obtain ⟨_, y, -, h⟩ := of_run_bind h
        obtain ⟨_, z, -, h⟩ := of_run_bind h
        cases h
        rw [hpath]
        exact ⟨honproc cls hcls, hd⟩
      · obtain ⟨_, y, -, h⟩ := of_run_bind h
        obtain ⟨_, z, -, h⟩ := of_run_bind h
        cases h
        have hsound := honproc cls hcls
        rw [maps_of_procMode hl hd] at hsound
        rw [hpath]
        exact hsound

/-- A description of `/dev` keeps the path that it was opened by. -/
theorem devfsOpen_path (hT : InPlace T) {H : HostStore η σ} {abs : Bytes}
    (habs : Canonical abs) (htype : (T.mountOf abs).type = .dev) {flags : UInt32} {f : SynthFile}
    {path : Bytes} {x x' : σ}
    (h : (devfsOpen H (pathRel (T.mountOf abs) abs) flags).run x = (.ok (f, path), x')) : path = abs := by
  have hpoint := (hT _ (T.mountOf_best abs).mem).2 htype
  have hpath := path_of_rel habs hpoint (by decide)
  rw [devfsOpen] at h
  by_cases hrel : pathRel (T.mountOf abs) abs = []
  · rw [if_pos hrel] at h
    split_ifs at h
    · cases h
    · obtain ⟨_, y, -, h⟩ := of_run_bind h
      cases h
      conv_rhs => rw [hpath, if_pos hrel, hrel]
      rfl
  · rw [if_neg hrel] at h
    cases hd : devFind (pathRel (T.mountOf abs) abs) with
    | none =>
        rw [hd] at h
        cases h
    | some d =>
        rw [hd] at h
        dsimp only at h
        split_ifs at h
        · cases h
        · cases h
        · cases h
        · obtain ⟨_, y, -, h⟩ := of_run_bind h
          cases h
          conv_rhs => rw [hpath, if_neg hrel]
          rfl

theorem devfsOpen_sound (hT : InPlace T) {H : HostStore η σ} {abs : Bytes}
    (habs : Canonical abs) (htype : (T.mountOf abs).type = .dev) {flags : UInt32} {f : SynthFile}
    {path : Bytes} {x x' : σ}
    (h : (devfsOpen H (pathRel (T.mountOf abs) abs) flags).run x = (.ok (f, path), x')) :
    (OpenFile.synth f flags path).Sound T := by
  have hpath := devfsOpen_path hT habs htype h
  rw [devfsOpen] at h
  by_cases hrel : pathRel (T.mountOf abs) abs = []
  · rw [if_pos hrel] at h
    split_ifs at h
    · cases h
    · obtain ⟨_, y, -, h⟩ := of_run_bind h
      cases h
      rw [← hpath] at htype hrel
      exact ⟨rfl, htype, hrel⟩
  · rw [if_neg hrel] at h
    cases hd : devFind (pathRel (T.mountOf abs) abs) with
    | none =>
        rw [hd] at h
        cases h
    | some d =>
        rw [hd] at h
        dsimp only at h
        split_ifs at h
        · cases h
        · cases h
        · cases h
        · obtain ⟨_, y, -, h⟩ := of_run_bind h
          cases h
          trivial

end Synthetic

section Open

variable {K : Kernel η σ} {fs : FsCtx η}

theorem newHostFile_host {o : Opened η} {flags : UInt32} {m : Mount η} {path : Bytes} {x x' : σ}
    {f : OpenFile η} (h : (newHostFile K o flags m path).run x = (.ok f, x')) :
    f = .host o.h (fileKindOf o.st.kind) (keptFlags flags) path m := by
  rw [newHostFile] at h
  obtain ⟨a, y, -, h⟩ := of_run_bind h
  split_ifs at h
  · cases h
    rfl
  · cases h

/-- What is opened of an object of the host goes by the place that the walk came to. -/
theorem openExistingHost_host {root : η} {loc : VfsLoc η} {flags : UInt32} {x x' : σ} {f : OpenFile η}
    (h : (openExistingHost K fs root loc flags).run x = (.ok f, x')) :
    ∃ k kind kept, f = .host k kind kept loc.abs loc.m := by
  rw [openExistingHost] at h
  obtain ⟨st, y₁, -, h⟩ := of_run_bind h
  obtain ⟨u, y₂, -, h⟩ := of_run_bind h
  obtain ⟨o, y₃, -, h⟩ := of_run_bind h
  split_ifs at h
  · cases h
  · cases h
  · exact ⟨_, _, _, newHostFile_host h⟩

theorem openExisting_sound (hT : InPlace fs.table) {wflags : UInt32} {loc : VfsLoc η}
    (hl : GoodLoc fs wflags loc) {flags : UInt32} {x x' : σ} {f : OpenFile η}
    (h : (openExisting K fs loc flags).run x = (.ok f, x')) : f.Sound fs.table := by
  have hrel : loc.rel = pathRel (fs.table.mountOf loc.abs) loc.abs := hl.m_eq ▸ hl.rel_eq
  rw [openExisting, hl.m_eq, hrel] at h
  cases htype : (fs.table.mountOf loc.abs).type with
  | proc =>
      rw [htype] at h
      obtain ⟨⟨g, path⟩, y, hopen, h⟩ := of_run_bind h
      cases h
      exact procfsOpen_sound hT hl.canonical htype hopen
  | dev =>
      rw [htype] at h
      obtain ⟨⟨g, path⟩, y, hopen, h⟩ := of_run_bind h
      cases h
      exact devfsOpen_sound hT hl.canonical htype hopen
  | host root =>
      rw [htype] at h
      obtain ⟨k, kind, kept, rfl⟩ := openExistingHost_host h
      exact fun _ => hl.canonical

/-- What the creating branch makes is not of a directory. -/
theorem createdOrLink_plain {loc : VfsLoc η} {flags : UInt32} {o : Opened η} {x x' : σ} {f : OpenFile η}
    (h : (createdOrLink K loc flags o).run x = (.ok (.inl f), x')) :
    ∃ k kind kept path m, f = .host k kind kept path m ∧ kind ≠ .hostdir := by
  rw [createdOrLink] at h
  split_ifs at h with hre hex hlx hd
  · cases h
  · cases h
  · obtain ⟨r, y, -, h⟩ := of_run_bind h
    obtain ⟨t, z, -, h⟩ := of_run_bind h
    cases h
  · cases h
  · obtain ⟨g, y, hg, h⟩ := of_run_bind h
    cases h
    refine ⟨_, _, _, _, _, newHostFile_host hg, fun hkind => ?_⟩
    cases hk : o.st.kind <;> rw [hk] at hkind hd
    · cases hkind
    · exact absurd rfl hd
    all_goals cases hkind

section Opened

variable {P : OpenFile η → Prop}
  (hexisting : ∀ {wflags : UInt32} {loc : VfsLoc η} {flags : UInt32} {x x' : σ} {f : OpenFile η},
    GoodLoc fs wflags loc → (openExisting K fs loc flags).run x = (.ok f, x') → P f)
  (hplain : ∀ {k : η} {kind : HostFileKind} {kept : UInt32} {path : Bytes} {m : Mount η},
    kind ≠ .hostdir → P (.host k kind kept path m))

include hexisting hplain

theorem openCreating_holds {flags mode : UInt32} (n : ℕ) {base : Option Bytes}
    (hbase : Canonical (base.getD fs.cwd)) {path : Bytes} {x x' : σ} {f : OpenFile η}
    (h : (openCreating K fs flags mode n base path).run x = (.ok f, x')) : P f := by
  induction n generalizing base path x with
  | zero => cases h
  | succ n ih =>
      rw [openCreating] at h
      obtain ⟨r, y, hr, h⟩ := of_run_bind h
      have hwalk := of_run_attempt hr
      cases r with
      | error e =>
          dsimp only at h
          split_ifs at h
          · obtain ⟨loc, z, hloc, h⟩ := of_run_bind h
            exact hexisting (walk_good hbase hloc) h
          · cases h
      | ok loc =>
          have hl : GoodLoc fs W_PARENT loc := walk_good hbase hwalk
          dsimp only at h
          cases htype : loc.m.type with
          | proc => rw [htype] at h; cases h
          | dev => rw [htype] at h; cases h
          | host root =>
              rw [htype] at h
              obtain ⟨r, z, hcreate, h⟩ := of_run_bind h
              cases r with
              | inl g =>
                  cases h
                  rw [openCreate] at hcreate
                  obtain ⟨d, z₁, -, hcreate⟩ := of_run_bind hcreate
                  obtain ⟨o, z₂, -, hcreate⟩ := of_run_bind hcreate
                  obtain ⟨k, kind, kept, p, m, rfl, hkind⟩ := createdOrLink_plain hcreate
                  exact hplain hkind
              | inr t =>
                  have hnext : Canonical ((some loc.abs).getD fs.cwd) := hl.canonical
                  exact ih hnext h

/-- A property of what is opened at a place, and of all but the directories of the host, is one of
whatever `vfs_open` answers. -/
theorem vfsOpen_holds {base : Option Bytes} (hbase : Canonical (base.getD fs.cwd)) {path : Bytes}
    {flags mode : UInt32} {x x' : σ} {f : OpenFile η}
    (h : (vfsOpen K fs base path flags mode).run x = (.ok f, x')) : P f := by
  rw [vfsOpen] at h
  split_ifs at h
  · exact openCreating_holds hexisting hplain 41 hbase h
  · obtain ⟨loc, y, hloc, h⟩ := of_run_bind h
    exact hexisting (walk_good hbase hloc) h
  · obtain ⟨loc, y, hloc, h⟩ := of_run_bind h
    exact hexisting (walk_good hbase hloc) h

end Opened

/-- What `vfs_open` answers is sound. -/
theorem vfsOpen_sound (hT : InPlace fs.table) {base : Option Bytes} (hbase : Canonical (base.getD fs.cwd))
    {path : Bytes} {flags mode : UInt32} {x x' : σ} {f : OpenFile η}
    (h : (vfsOpen K fs base path flags mode).run x = (.ok f, x')) : f.Sound fs.table :=
  vfsOpen_holds (fun hl h => openExisting_sound hT hl h) (fun hkind hdir => absurd hdir hkind) hbase h

/-- The place of a directory on the host is below the mount that the description has. -/
theorem vfsOpen_hostdir {base : Option Bytes} (hbase : Canonical (base.getD fs.cwd)) {path : Bytes}
    {flags mode : UInt32} {x x' : σ} {k : η} {kept : UInt32} {place : Bytes} {m : Mount η}
    (h : (vfsOpen K fs base path flags mode).run x = (.ok (.host k .hostdir kept place m), x')) :
    ∃ root, (fs.table.mountOf place).type = .host root := by
  refine vfsOpen_holds (K := K) (P := fun f => ∀ k kept place m, f = .host k .hostdir kept place m →
    ∃ root, (fs.table.mountOf place).type = .host root) ?_ ?_ hbase h k kept place m rfl
  · intro wflags loc flags x x' f hl h k kept place m hf
    subst hf
    rw [openExisting] at h
    cases htype : loc.m.type with
    | proc =>
        rw [htype] at h
        obtain ⟨g, y, -, h⟩ := of_run_bind h
        cases h
    | dev =>
        rw [htype] at h
        obtain ⟨g, y, -, h⟩ := of_run_bind h
        cases h
    | host root =>
        rw [htype] at h
        obtain ⟨_, _, _, hf⟩ := openExistingHost_host h
        cases hf
        exact ⟨root, hl.m_eq ▸ htype⟩
  · intro k kind kept path m hkind k' kept' place m' hf
    cases hf
    exact absurd rfl hkind

end Open

end SysvNt
