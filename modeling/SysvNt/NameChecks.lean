import SysvNt.CreateExclusive
import SysvNt.MountCrossing
import SysvNt.WalkReference

/-!
# The name checked and the name acted on

`vfs_unlink` and `vfs_rename` join the parent that the walk found with the last name, test the
joined path, and act on the name in the parent; an open that creates joins the two for the new
description. None of them looks at whether the join succeeded. Where the joined path fits its
buffer, what is tested and stored is the name acted on; where it does not, the buffer holds
whatever it held, and no call answers that the name is too long.
-/

namespace SysvNt

open FallibleCalls

variable {η σ ν : Type}

def childPath (dir name : Bytes) : Bytes := if dir = [slash] then slash :: name else dir ++ slash :: name

/-- A resolved parent and name whose path fits a path buffer. -/
def VfsLoc.Fits (loc : VfsLoc η) : Prop := (childPath loc.abs loc.last).length < PATH_MAX

theorem pathJoin_childPath {dir name : Bytes} (hdir : Canonical dir) (hname : name.length ≤ NAME_MAX) :
    pathJoin PATH_MAX dir name =
      if PATH_MAX ≤ (childPath dir name).length then .error .ENAMETOOLONG else .ok (childPath dir name) := by
  obtain ⟨ns, hv, rfl, -⟩ := hdir
  have hchild : childPath (render ns) name = render (ns ++ [name]) := by
    rw [childPath]
    cases ns with
    | nil => rw [if_pos render_nil, List.nil_append, render_singleton]
    | cons n ns =>
        have hne : render (n :: ns) ≠ [slash] := by
          intro h
          exact absurd (render_injective hv ValidNames.nil h) (by simp)
        rw [if_neg hne, render_append (by simp)]
        simp
  rw [pathJoin_render hv hname, hchild]

def Kernel.withStack (K : Kernel η σ) (stack : Bytes) : Kernel η σ := { K with stack := stack }

/-- Where the paths fit the call does as it should with them; where they do not, the outcome is that the name is
too long, and nothing is changed. -/
structure ActsOnNamed {α : Type} (view : σ → ν) (x : σ) (fits acts : Prop) (outcome : Except Errno α × σ) :
    Prop where
  exact : fits → acts
  refused : ¬ fits → outcome.1 = .error .ENAMETOOLONG ∧ view outcome.2 = view x

/-- The calls that act on a last name in a parent. -/
inductive NameCall where
  | unlink (base : Option Bytes) (path : Bytes) (rmdir : Bool)
  | rename (oldBase : Option Bytes) (oldPath : Bytes) (newBase : Option Bytes) (newPath : Bytes)
      (flags : UInt32)
  | create (base : Option Bytes) (path : Bytes) (flags mode : UInt32)

def NameCall.bases : NameCall → List (Option Bytes)
  | .unlink base _ _ => [base]
  | .rename oldBase _ newBase _ _ => [oldBase, newBase]
  | .create base _ _ _ => [base]

section Calls

variable (K : Kernel η σ) (fs : FsCtx η)

/-- Open the parent and have the host remove the last name from it. -/
def removeIn (root : η) (loc : VfsLoc η) (rmdir : Bool) : Call Errno σ Unit := do
  let d ← openHostDir K.store root loc.m loc.abs
  closing (K.store.close d) (K.store.unlink d loc.last rmdir)

def unlinkRefusal (st : KStat) (rmdir : Bool) : Option Errno :=
  if rmdir = true ∧ isDir st.mode = false then some .ENOTDIR
  else if rmdir = false ∧ isDir st.mode = true then some .EISDIR
  else none

/-- The outcome of an unlink that tests the path `p` with `mount_at` and `stat_abs`, in the state `y`, and acts on
the last name in the parent. -/
structure UnlinksTested (p : Bytes) (root : η) (loc : VfsLoc η) (rmdir : Bool) (y : σ)
    (outcome : Except Errno Unit × σ) : Prop where
  mounted : (mountAt fs.table.mounts p).isSome = true → outcome = (.error .EBUSY, y)
  missing : (mountAt fs.table.mounts p).isSome = false → ∀ e z, (statAbs K fs p).run y = (.error e, z) →
    outcome = (.error e, z)
  found : (mountAt fs.table.mounts p).isSome = false → ∀ st z, (statAbs K fs p).run y = (.ok st, z) →
    outcome = (unlinkRefusal st rmdir).elim ((removeIn K root loc rmdir).run z) fun e => (.error e, z)

/-- The parents and names that a renaming comes to, with the state in which it goes on. -/
def RenameTests (oldBase : Option Bytes) (oldPath : Bytes) (newBase : Option Bytes) (newPath : Bytes)
    (flags : UInt32) (x : σ) (oloc nloc : VfsLoc η) (oroot nroot : η) (y : σ) : Prop :=
  flags &&& ~~~RENAME_NOREPLACE = 0 ∧ oloc.m.type = .host oroot ∧ nloc.m.type = .host nroot ∧
    oloc.m.point = nloc.m.point ∧ ∃ x₁, (busyParent K fs oldBase oldPath).run x = (.ok oloc, x₁) ∧
      (busyParent K fs newBase newPath).run x₁ = (.ok nloc, y)

/-- The same of a renaming: it tests `op` and `np` and has the host move the one last name to the other. -/
structure RenamesTested (op np : Bytes) (oroot nroot : η) (oloc nloc : VfsLoc η) (noreplace : Bool) (y : σ)
    (outcome : Except Errno Unit × σ) : Prop where
  mounted : (mountAt fs.table.mounts op).isSome = true ∨ (mountAt fs.table.mounts np).isSome = true →
    outcome = (.error .EBUSY, y)
  missing : (mountAt fs.table.mounts op).isSome = false → (mountAt fs.table.mounts np).isSome = false →
    ∀ e z, (statAbs K fs op).run y = (.error e, z) → outcome = (.error e, z)
  found : (mountAt fs.table.mounts op).isSome = false → (mountAt fs.table.mounts np).isSome = false →
    ∀ ost z nst w, (statAbs K fs op).run y = (.ok ost, z) → (statAbs K fs np).run z = (nst, w) →
      outcome = if op = np then (.ok (), w) else match renameCheck op np ost nst noreplace with
        | .error e => (.error e, w)
        | .ok _ => (renameOnHost K oroot nroot oloc nloc noreplace nst).run w

/-- `P` holds of each parent and name at which an open that creates asks the host, through every
link that it goes on with: the number is how many more links it may take, and the state that in which
the parent has been opened. -/
def EachCreation (flags mode : UInt32) (P : ℕ → VfsLoc η → η → σ → Prop) : ℕ → Option Bytes → Bytes → σ → Prop
  | 0, _, _, _ => True
  | n + 1, base, path, x =>
    ∀ loc x₁ root d x₂, (walkPath K fs base path W_PARENT).run x = (.ok loc, x₁) →
      loc.m.type = .host root → (openHostDir K.store root loc.m loc.abs).run x₁ = (.ok d, x₂) →
        P n loc d x₂ ∧ ∀ t x₃, (openCreate K fs root loc flags mode).run x₁ = (.ok (.inr t), x₃) →
          EachCreation flags mode P n (some loc.abs) t x₃

/-- The host's answer at a parent and name, and what is made of it. -/
def createAt (flags mode : UInt32) (loc : VfsLoc η) (d : η) : Call Errno σ (OpenFile η ⊕ Bytes) := do
  let o ← closing (K.store.close d) (K.store.openat d loc.last (createFlags flags)
    (mode &&& 0o7777 &&& ~~~fs.umask) fs.euid fs.egid true)
  createdOrLink K loc flags o

def createRest (flags mode : UInt32) (n : ℕ) (loc : VfsLoc η) (d : η) : Call Errno σ (OpenFile η) := do
  let r ← createAt K fs flags mode loc d
  match r with
  | .inl f => pure f
  | .inr t => openCreating K fs flags mode n (some loc.abs) t

variable (view : σ → ν)

/-- The name checked is the name acted on, whatever the buffers held. -/
def NameCall.ActsOnChecked (x : σ) : NameCall → Prop
  | .unlink base path rmdir =>
    ∀ loc y root, (walkPath K fs base path W_PARENT).run x = (.ok loc, y) → loc.m.type = .host root →
      ∀ stack, ActsOnNamed view x loc.Fits
        (UnlinksTested K fs (childPath loc.abs loc.last) root loc rmdir y
          ((vfsUnlink (K.withStack stack) fs base path rmdir).run x))
        ((vfsUnlink (K.withStack stack) fs base path rmdir).run x)
  | .rename oldBase oldPath newBase newPath flags =>
    ∀ oloc nloc oroot nroot y, RenameTests K fs oldBase oldPath newBase newPath flags x oloc nloc oroot nroot y →
      ∀ stack, ActsOnNamed view x (oloc.Fits ∧ nloc.Fits)
        (RenamesTested K fs (childPath oloc.abs oloc.last) (childPath nloc.abs nloc.last) oroot nroot oloc nloc
          (has flags RENAME_NOREPLACE) y
          ((vfsRename (K.withStack stack) fs oldBase oldPath newBase newPath flags).run x))
        ((vfsRename (K.withStack stack) fs oldBase oldPath newBase newPath flags).run x)
  | .create base path flags mode =>
    has flags O_CREAT = true → EachCreation K fs flags mode (fun n loc d y =>
      (vfsOpen K fs base path flags mode).run x = (createRest K fs flags mode n loc d).run y ∧
      ActsOnNamed view y loc.Fits
        (∀ f z, (createAt K fs flags mode loc d).run y = (.ok (.inl f), z) → f.path = childPath loc.abs loc.last)
        ((createAt K fs flags mode loc d).run y)) 41 base path x

/-- Every path that the call would join fits. -/
def NameCall.Fits (x : σ) : NameCall → Prop
  | .unlink base path _ =>
    ∀ loc y root, (walkPath K fs base path W_PARENT).run x = (.ok loc, y) → loc.m.type = .host root →
      loc.Fits
  | .rename oldBase oldPath newBase newPath flags =>
    ∀ oloc nloc oroot nroot y, RenameTests K fs oldBase oldPath newBase newPath flags x oloc nloc oroot nroot y →
      oloc.Fits ∧ nloc.Fits
  | .create base path flags mode =>
    has flags O_CREAT = true → EachCreation K fs flags mode (fun _ loc _ _ => loc.Fits) 41 base path x

end Calls

/-- The host finds no name too long that fits in a component. -/
def HostStore.NamesFit (H : HostStore η σ) : Prop :=
  ∀ d w flags mode uid gid stat, w.length ≤ NAME_MAX →
    Avoids .ENAMETOOLONG (H.openat d w flags mode uid gid stat)

section Iff

variable {K : Kernel η σ} {fs : FsCtx η} {view : σ → ν} {x : σ}

theorem join_exact_iff {loc : VfsLoc η} (hl : GoodLoc fs W_PARENT loc) :
    loc.Fits ↔ pathJoin PATH_MAX loc.abs loc.last = .ok (childPath loc.abs loc.last) := by
  rw [pathJoin_childPath hl.canonical (hl.last_valid (by decide)).2, VfsLoc.Fits]
  split_ifs with h
  · simpa using h
  · simpa using h

theorem joinUnchecked_fits {loc : VfsLoc η} (hl : GoodLoc fs W_PARENT loc) (h : loc.Fits) :
    joinUnchecked K loc.abs loc.last = childPath loc.abs loc.last := by
  rw [joinUnchecked, (join_exact_iff hl).mp h]

theorem joinUnchecked_unfit {loc : VfsLoc η} (hl : GoodLoc fs W_PARENT loc) (h : ¬ loc.Fits) (stack : Bytes) :
    joinUnchecked (K.withStack stack) loc.abs loc.last = stack := by
  have hjoin := pathJoin_childPath hl.canonical (hl.last_valid (by decide)).2
  rw [if_pos (by simpa [VfsLoc.Fits] using h)] at hjoin
  rw [joinUnchecked, hjoin]
  rfl

theorem walkPath_good {base : Option Bytes} {path : Bytes} {wflags : UInt32} {loc : VfsLoc η} {x₁ : σ}
    (hbase : Canonical (base.getD fs.cwd)) (hrun : (walkPath K fs base path wflags).run x = (.ok loc, x₁)) :
    GoodLoc fs wflags loc := walk_good hbase hrun

theorem mountAt_root (T : MountTable η) : (mountAt T.mounts [slash]).isSome = true := by
  obtain ⟨m, hm, hpoint⟩ := T.rooted
  exact List.find?_isSome.mpr ⟨m, hm, by simpa using hpoint⟩

/-- With the root's path in its buffer, an unlink whose path does not fit is refused as of a mount
point. -/
theorem unlink_unfit_busy {base : Option Bytes} {path : Bytes} {rmdir : Bool} {loc : VfsLoc η} {x₁ : σ}
    {root : η} (hrun : (walkPath K fs base path W_PARENT).run x = (.ok loc, x₁))
    (hl : GoodLoc fs W_PARENT loc) (hhost : loc.m.type = .host root) (h : ¬ loc.Fits) :
    (vfsUnlink (K.withStack [slash]) fs base path rmdir).run x = (.error .EBUSY, x₁) := by
  have hwalk : (walkPath (K.withStack [slash]) fs base path W_PARENT).run x = (.ok loc, x₁) := hrun
  have hlast := (hl.last_valid (by decide)).1
  rw [vfsUnlink, run_bind, run_attempt, hwalk]
  dsimp only
  rw [hhost]
  dsimp only
  rw [if_neg hlast.ne_dot, if_neg hlast.ne_dotdot, joinUnchecked_unfit hl h,
    if_pos (mountAt_root fs.table), run_throw]

theorem busyParent_good {base : Option Bytes} {path : Bytes} {loc : VfsLoc η} {x₁ : σ}
    (hbase : Canonical (base.getD fs.cwd)) (hrun : (busyParent K fs base path).run x = (.ok loc, x₁)) :
    GoodLoc fs W_PARENT loc := by
  rw [busyParent] at hrun
  obtain ⟨r, y, hwalk, hrest⟩ := of_run_bind hrun
  cases r with
  | error e => cases hrest
  | ok loc' =>
      cases hrest
      exact walkPath_good hbase (of_run_attempt hwalk)

/-- The last names of a renaming are no dots. -/
theorem lasts_not_dots {oloc nloc : VfsLoc η} (ho : GoodLoc fs W_PARENT oloc) (hn : GoodLoc fs W_PARENT nloc) :
    ¬ (oloc.last = dot ∨ oloc.last = dotdot ∨ nloc.last = dot ∨ nloc.last = dotdot) := by
  have holast := (ho.last_valid (by decide)).1
  have hnlast := (hn.last_valid (by decide)).1
  rintro (h | h | h | h)
  · exact holast.ne_dot h
  · exact holast.ne_dotdot h
  · exact hnlast.ne_dot h
  · exact hnlast.ne_dotdot h

section Renaming

variable {oldBase newBase : Option Bytes} {oldPath newPath : Bytes} {flags : UInt32} {oloc nloc : VfsLoc η}
  {oroot nroot : η} {y : σ}

/-- A renaming from where its tests begin. -/
theorem vfsRename_run (h : RenameTests K fs oldBase oldPath newBase newPath flags x oloc nloc oroot nroot y)
    (ho : GoodLoc fs W_PARENT oloc) (hn : GoodLoc fs W_PARENT nloc) (stack : Bytes) :
    (vfsRename (K.withStack stack) fs oldBase oldPath newBase newPath flags).run x =
      (let ocand := joinUnchecked (K.withStack stack) oloc.abs oloc.last
       let ncand := joinUnchecked (K.withStack stack) nloc.abs nloc.last
       if (mountAt fs.table.mounts ocand).isSome ∨ (mountAt fs.table.mounts ncand).isSome then throw .EBUSY
       else do
         let ost ← statAbs K fs ocand
         let nst ← attempt (statAbs K fs ncand)
         if ocand = ncand then pure ()
         else do
           let _ ← liftM (m := Except Errno) (renameCheck ocand ncand ost nst (has flags RENAME_NOREPLACE))
           renameOnHost K oroot nroot oloc nloc (has flags RENAME_NOREPLACE) nst : Call Errno σ Unit).run y := by
  obtain ⟨hflags, hohost, hnhost, hpoint, x₁, horun, hnrun⟩ := h
  have horun' : (busyParent (K.withStack stack) fs oldBase oldPath).run x = (.ok oloc, x₁) := horun
  have hnrun' : (busyParent (K.withStack stack) fs newBase newPath).run x₁ = (.ok nloc, y) := hnrun
  rw [vfsRename, if_neg (not_not_intro hflags), run_bind, horun']
  dsimp only
  rw [run_bind, hnrun']
  dsimp only
  rw [hohost, hnhost]
  dsimp only
  rw [if_neg (not_not_intro hpoint), if_neg (lasts_not_dots ho hn)]
  rfl

/-- With the root's path in its buffers, a renaming is refused where either path does not fit. -/
theorem rename_unfit_busy (h : RenameTests K fs oldBase oldPath newBase newPath flags x oloc nloc oroot nroot y)
    (ho : GoodLoc fs W_PARENT oloc) (hn : GoodLoc fs W_PARENT nloc) (hunfit : ¬ (oloc.Fits ∧ nloc.Fits)) :
    (vfsRename (K.withStack [slash]) fs oldBase oldPath newBase newPath flags).run x = (.error .EBUSY, y) := by
  have hroot := mountAt_root fs.table
  have hat : (mountAt fs.table.mounts (joinUnchecked (K.withStack [slash]) oloc.abs oloc.last)).isSome = true ∨
      (mountAt fs.table.mounts (joinUnchecked (K.withStack [slash]) nloc.abs nloc.last)).isSome = true := by
    rcases not_and_or.mp hunfit with h | h
    · exact Or.inl (by rw [joinUnchecked_unfit ho h]; exact hroot)
    · exact Or.inr (by rw [joinUnchecked_unfit hn h]; exact hroot)
  rw [vfsRename_run h ho hn]
  dsimp only
  rw [if_pos hat, run_throw]

/-- Where both paths fit, they are what a renaming tests. -/
theorem rename_tests (h : RenameTests K fs oldBase oldPath newBase newPath flags x oloc nloc oroot nroot y)
    (ho : GoodLoc fs W_PARENT oloc) (hn : GoodLoc fs W_PARENT nloc) (hofits : oloc.Fits) (hnfits : nloc.Fits)
    (stack : Bytes) :
    RenamesTested K fs (childPath oloc.abs oloc.last) (childPath nloc.abs nloc.last) oroot nroot oloc nloc
      (has flags RENAME_NOREPLACE) y
      ((vfsRename (K.withStack stack) fs oldBase oldPath newBase newPath flags).run x) := by
  rw [vfsRename_run h ho hn]
  dsimp only
  rw [joinUnchecked_fits ho hofits, joinUnchecked_fits hn hnfits]
  constructor
  · intro hm
    rw [if_pos hm, run_throw]
  · intro hom hnm e z hstat
    rw [if_neg (by simp [hom, hnm]), run_bind, hstat]
  · intro hom hnm ost z nst w hostat hnstat
    rw [if_neg (by simp [hom, hnm]), run_bind, hostat]
    dsimp only
    rw [run_bind, run_attempt, hnstat]
    dsimp only
    by_cases hsame : childPath oloc.abs oloc.last = childPath nloc.abs nloc.last
    · rw [if_pos hsame, if_pos hsame]
      rfl
    · rw [if_neg hsame, if_neg hsame, run_bind]
      cases renameCheck (childPath oloc.abs oloc.last) (childPath nloc.abs nloc.last) ost nst
        (has flags RENAME_NOREPLACE) with
      | error e => rfl
      | ok u => rfl

end Renaming

/-- Where the path fits, it is what an unlink tests. -/
theorem unlink_tests {base : Option Bytes} {path : Bytes} {rmdir : Bool} {loc : VfsLoc η} {y : σ} {root : η}
    (hrun : (walkPath K fs base path W_PARENT).run x = (.ok loc, y)) (hl : GoodLoc fs W_PARENT loc)
    (hhost : loc.m.type = .host root) (h : loc.Fits) (stack : Bytes) :
    UnlinksTested K fs (childPath loc.abs loc.last) root loc rmdir y
      ((vfsUnlink (K.withStack stack) fs base path rmdir).run x) := by
  have hwalk : (walkPath (K.withStack stack) fs base path W_PARENT).run x = (.ok loc, y) := hrun
  have hlast := (hl.last_valid (by decide)).1
  have hstat : statAbs (K.withStack stack) fs = statAbs K fs := rfl
  rw [vfsUnlink, run_bind, run_attempt, hwalk]
  dsimp only
  rw [hhost]
  dsimp only
  rw [if_neg hlast.ne_dot, if_neg hlast.ne_dotdot, joinUnchecked_fits hl h, hstat]
  constructor
  · intro hm
    rw [if_pos hm, run_throw]
  · intro hm e z hst
    rw [if_neg (by simp [hm]), run_bind, hst]
  · intro hm st z hst
    rw [if_neg (by simp [hm]), run_bind, hst, unlinkRefusal]
    dsimp only
    by_cases hnot : rmdir = true ∧ isDir st.mode = false
    · rw [if_pos hnot, if_pos hnot]
      rfl
    · rw [if_neg hnot, if_neg hnot]
      by_cases his : rmdir = false ∧ isDir st.mode = true
      · rw [if_pos his, if_pos his]
        rfl
      · rw [if_neg his, if_neg his]
        rfl

/-- The answers of an open that creates, once its parent is open: a description of the joined path,
a link's target, or a failure other than that the name is too long. -/
theorem createAt_avoids (hlong : K.store.NamesFit) {flags mode : UInt32} {loc : VfsLoc η}
    (hl : GoodLoc fs W_PARENT loc) (d : η) : Avoids .ENAMETOOLONG (createAt K fs flags mode loc d) := by
  have htarget : ∀ r, createTarget r ≠ .error .ENAMETOOLONG := by
    intro r
    unfold createTarget
    cases r with
    | error e => exact fun h => by cases h
    | ok t =>
        dsimp only
        split_ifs
        · exact fun h => by cases h
        · exact fun h => by cases h
  rw [createAt]
  apply (hlong _ _ _ _ _ _ _ (hl.last_valid (by decide)).2).closing.bind
  intro o
  rw [createdOrLink]
  split_ifs
  · exact (Avoids.throw (by decide)).closing
  · exact (Avoids.throw (by decide)).closing
  · apply (Avoids.attempt _).closing.bind
    intro r
    exact (Avoids.liftExcept (htarget r)).bind fun t => Avoids.pure _
  · exact (Avoids.throw (by decide)).closing
  · apply Avoids.bind
    · rw [newHostFile]
      apply (Avoids.lift _).bind
      intro a
      split_ifs
      · exact Avoids.pure _
      · exact (Avoids.throw (by decide)).closing
    · exact fun f => Avoids.pure _

theorem createAt_path {flags mode : UInt32} {loc : VfsLoc η} {d : η} {y z : σ} {f : OpenFile η}
    (h : (createAt K fs flags mode loc d).run y = (.ok (.inl f), z)) :
    f.path = (pathJoin PATH_MAX loc.abs loc.last).toOption.getD [] := by
  rw [createAt] at h
  obtain ⟨o, y', -, h⟩ := of_run_bind h
  rw [createdOrLink] at h
  split_ifs at h
  · cases h
  · cases h
  · obtain ⟨r, y'', -, h⟩ := of_run_bind h
    obtain ⟨t, y₃, -, h⟩ := of_run_bind h
    cases h
  · cases h
  · obtain ⟨g, y'', hg, h⟩ := of_run_bind h
    cases h
    rw [newHostFile] at hg
    obtain ⟨a, y₃, -, hg⟩ := of_run_bind hg
    split_ifs at hg
    · cases hg
      rfl
    · cases hg

/-- What follows at each parent and name that the walks come to follows for the open. -/
theorem eachCreation_map₂ {P P' Q : ℕ → VfsLoc η → η → σ → Prop} {flags mode : UInt32}
    (h : ∀ m loc d y, GoodLoc fs W_PARENT loc → P m loc d y → P' m loc d y → Q m loc d y) (n : ℕ)
    {base : Option Bytes} (hbase : Canonical (base.getD fs.cwd)) {path : Bytes} {x : σ}
    (hP : EachCreation K fs flags mode P n base path x) (hP' : EachCreation K fs flags mode P' n base path x) :
    EachCreation K fs flags mode Q n base path x := by
  induction n generalizing base path x with
  | zero => trivial
  | succ n ih =>
      intro loc x₁ root d x₂ hrun hhost hopen
      have hl : GoodLoc fs W_PARENT loc := walkPath_good hbase hrun
      have hnext : Canonical ((some loc.abs).getD fs.cwd) := hl.canonical
      obtain ⟨hp, hrest⟩ := hP loc x₁ root d x₂ hrun hhost hopen
      obtain ⟨hp', hrest'⟩ := hP' loc x₁ root d x₂ hrun hhost hopen
      exact ⟨h n loc d x₂ hl hp hp', fun t x₃ hlink => ih hnext (hrest t x₃ hlink) (hrest' t x₃ hlink)⟩

/-- At each parent and name the open is what the rest makes of it. -/
theorem eachCreation_rest {flags mode : UInt32} {out : Except Errno (OpenFile η) × σ} (n : ℕ) {base : Option Bytes}
    {path : Bytes} {x : σ} (hout : out = (openCreating K fs flags mode n base path).run x) :
    EachCreation K fs flags mode (fun m loc d y => out = (createRest K fs flags mode m loc d).run y) n base path x := by
  induction n generalizing base path x with
  | zero => trivial
  | succ n ih =>
      intro loc x₁ root d x₂ hrun hhost hopen
      rw [openCreating, run_bind, run_attempt, hrun] at hout
      dsimp only at hout
      rw [hhost] at hout
      dsimp only at hout
      have hcreate : (openCreate K fs root loc flags mode).run x₁ = (createAt K fs flags mode loc d).run x₂ := by
        rw [openCreate, run_bind, hopen]
        rfl
      refine ⟨?_, fun t x₃ hlink => ih ?_⟩
      · exact hout.trans (run_bind_congr hcreate)
      · rw [hout, run_bind, hlink]

end Iff

def allDirs : HostStore Unit Unit where
  __ := HostStore.idle
  openat _ _ _ _ _ _ _ := pure ⟨(), { kind := .dir }, false⟩
  reopen _ _ _ := pure ⟨(), { kind := .dir }, false⟩
  stat _ := pure { kind := .dir }

def allDirsKernel : Kernel Unit Unit := ⟨allDirs, oneNameKernel.proc, []⟩

def rootMount : Mount Unit := ⟨.host (), [slash], 1, true, 0, 0⟩

def rootOnly : MountTable Unit where
  mounts := [rootMount]
  canonical m hm := by
    rw [List.mem_singleton.mp hm]
    exact Canonical.root
  rooted := ⟨_, List.mem_singleton_self _, rfl⟩

def rootOnlyFs : FsCtx Unit := { FsCtx.initial () 1 true with table := rootOnly }

theorem allDirs_namesFit : allDirs.NamesFit := fun _ _ _ _ _ _ _ _ => Avoids.pure _

theorem rootOnly_mountOf (abs : Bytes) : rootOnly.mountOf abs = rootMount :=
  List.mem_singleton.mp (rootOnly.mountOf_best abs).mem

theorem allDirs_openChain {comps : List Bytes} (h : ∀ c ∈ comps, c.length ≤ NAME_MAX) (owned : Bool) :
    ∃ o, (openChain allDirs () owned comps).run () = (.ok ((), o), ()) := by
  induction comps generalizing owned with
  | nil => exact ⟨owned, rfl⟩
  | cons c comps ih =>
      obtain ⟨o, ho⟩ := ih (fun c' hc' => h c' (List.mem_cons_of_mem _ hc')) true
      have hc := h c List.mem_cons_self
      refine ⟨o, ?_⟩
      rw [openChain, if_neg (Nat.not_lt.mpr hc)]
      exact ho

theorem allDirs_statAbs {ns : List Bytes} (hv : ValidNames ns) (hlen : ∀ n ∈ ns, n.length ≤ NAME_MAX) :
    ∃ st, (statAbs allDirsKernel rootOnlyFs (render ns)).run () = (.ok st, ()) ∧ isDir st.mode = true := by
  have hrel : ∀ ms, pathRel (rootOnly.mountOf (render ms)) (render ms) = relText ms := by
    intro ms
    rw [rootOnly_mountOf, pathRel, if_pos (by rfl), render_drop_one]
  have hm : rootOnlyFs.table.mountOf (render ns) = rootMount := rootOnly_mountOf _
  have htype : rootMount.type = .host () := rfl
  rw [statAbs, hm, htype]
  dsimp only
  split_ifs
  · exact ⟨kstatOf rootMount { kind := .dir } none, rfl, isDir_kstatOf _ _ rfl⟩
  · have hopen : ∃ d, (openHostDir allDirs () rootMount
        (pathParent (render ns))).run () = (.ok d, ()) := by
      have hcomps : relComponents (pathRel rootMount (pathParent (render ns))) =
          ns.dropLast := by
        rw [pathParent_render hv, ← rootOnly_mountOf (render ns.dropLast), hrel,
          relComponents_relText hv.dropLast]
      obtain ⟨o, ho⟩ := allDirs_openChain (fun c hc => hlen c (List.mem_of_mem_dropLast hc)) false
      rw [openHostDir, hcomps, run_bind, ho]
      cases o <;> exact ⟨_, rfl⟩
    obtain ⟨d, hd⟩ := hopen
    refine ⟨kstatOf rootMount { kind := .dir } (some (lastName (render ns))), ?_, isDir_kstatOf _ _ rfl⟩
    rw [run_bind]
    have hd' : (openHostDir allDirsKernel.store () rootMount
        (pathParent (render ns))).run () = (.ok d, ()) := hd
    rw [hd']
    rfl

/-- There the walk to the parent of a name in a directory ends at the two. -/
theorem allDirs_walk {ns : List Bytes} (hv : ValidNames ns) (hlen : ∀ n ∈ ns, n.length ≤ NAME_MAX)
    (hfits : (render ns).length < PATH_MAX) :
    (walkPath allDirsKernel rootOnlyFs (some (render ns)) (str "x") W_PARENT).run () =
      (.ok (locAt rootOnlyFs (render ns) (str "x")), ()) := by
  obtain ⟨st, hst, hdir⟩ := allDirs_statAbs hv hlen
  have hstart : walkInit rootOnlyFs (some (render ns)) (str "x") = ⟨render ns, str "x", 0⟩ := by
    have htake : (render ns).take (PATH_MAX - 1) = render ns := List.take_of_length_le (by omega)
    rw [walkInit, walkStart, if_neg (by decide), Option.getD_some, htake]
  have hdemand : demandDir (absStore allDirsKernel rootOnlyFs) (render ns)
      (locAt rootOnlyFs (render ns) (str "x")) () = (.ok (locAt rootOnlyFs (render ns) (str "x")), ()) := by
    have hstat : (absStore allDirsKernel rootOnlyFs).statAbs (render ns) () = (.ok st, ()) := hst
    rw [demandDir, StateCalls.bind_apply, hstat]
    dsimp only
    rw [if_pos hdir]
    rfl
  have hstep : walkStep (absStore allDirsKernel rootOnlyFs) rootOnlyFs W_PARENT false
      ⟨render ns, str "x", 0⟩ () = (.inr (.ok (locAt rootOnlyFs (render ns) (str "x"))), ()) := by
    have hx : skipSlashes (str "x") = str "x" ∧ component (str "x") = str "x" ∧ afterComponent (str "x") = [] := by
      decide
    rw [walkStep]
    dsimp only
    rw [hx.1, hx.2.1, hx.2.2, if_neg (by decide), if_neg (by decide), if_neg (by decide), if_neg (by decide),
      if_pos (by decide), StateCalls.bind_apply, hdemand]
    rfl
  have hwalk : walk (absStore allDirsKernel rootOnlyFs) rootOnlyFs (some (render ns)) (str "x") W_PARENT () =
      (.ok (locAt rootOnlyFs (render ns) (str "x")), ()) := by
    have hcstr : cstr (str "x") = str "x" := by decide
    rw [walk, hcstr, if_neg (by decide), if_neg (by decide), hstart]
    apply (walkBody _ _ _ _).run_of_stop
    rw [walkBody_stop]
    exact hstep
  exact hwalk

def deepNames : List Bytes := List.replicate 15 (List.replicate 255 0x61) ++ [List.replicate 254 0x61]

theorem letters_valid {n : ℕ} (hn : 2 < n) : ValidName (List.replicate n 0x61) where
  ne_nil := by
    intro h
    have := congrArg List.length h
    simp at this
    omega
  slash_not_mem := by
    intro h
    exact absurd (List.eq_of_mem_replicate h) (by decide)
  ne_dot := by
    intro h
    have := congrArg List.length h
    simp [dot] at this
    omega
  ne_dotdot := by
    intro h
    have := congrArg List.length h
    simp [dotdot] at this
    omega

theorem deepNames_valid : ValidNames deepNames := by
  intro n hn
  rcases List.mem_append.mp hn with hn | hn
  · rw [List.eq_of_mem_replicate hn]
    exact letters_valid (by decide)
  · rw [List.mem_singleton.mp hn]
    exact letters_valid (by decide)

theorem deepNames_length : ∀ n ∈ deepNames, n.length ≤ NAME_MAX := by
  intro n hn
  rcases List.mem_append.mp hn with hn | hn
  · rw [List.eq_of_mem_replicate hn, List.length_replicate]
    decide
  · rw [List.mem_singleton.mp hn, List.length_replicate]
    decide

theorem length_render_deepNames : (render deepNames).length = 4095 := by
  have hne : deepNames ≠ [] := List.append_ne_nil_of_right_ne_nil _ (List.cons_ne_nil _ _)
  have hflat : render deepNames = deepNames.flatMap (slash :: ·) := by
    cases h : deepNames with
    | nil => exact absurd h hne
    | cons n ns => rfl
  rw [hflat, List.length_flatMap, deepNames, List.map_append, List.map_replicate, List.sum_append,
    List.sum_replicate, List.map_singleton, List.sum_singleton, List.length_cons, List.length_cons,
    List.length_replicate, List.length_replicate]
  rfl

theorem deepNames_unfit : ¬ (locAt rootOnlyFs (render deepNames) (str "x")).Fits := by
  have hne : render deepNames ≠ [slash] := by
    intro h
    have := congrArg List.length h
    rw [length_render_deepNames] at this
    cases this
  have hx : (str "x").length = 1 := by decide
  rw [VfsLoc.Fits, locAt, childPath, if_neg hne, List.length_append, List.length_cons,
    length_render_deepNames, hx]
  decide

theorem deepNames_canonical : Canonical (render deepNames) :=
  ⟨deepNames, deepNames_valid, rfl, by rw [length_render_deepNames]; decide⟩

end SysvNt
