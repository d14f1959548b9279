import SysvNt.HostObjects
import SysvNt.Queries
import SysvNt.SetTimes

/-!
# What chmod and chown change

`chmod_h` and `chown_h` write extended attributes, and `kstat_of` reports those that are there and
fills in the rest by itself: the owner from the mount, the permissions from the kind and the name.
What the setters write beside what they were asked for has to agree with that.
-/

namespace SysvNt

open FallibleCalls

variable {η σ : Type}

inductive Named (η : Type) where
  | path (base : Option Bytes) (p : Bytes)
  | file (f : OpenFile η)

section

variable (K : Kernel η σ) (fs : FsCtx η)

def Named.chmod (mode : UInt32) : Named η → Call Errno σ Unit
  | .path base p => vfsChmod K fs base p mode
  | .file f => vfsFchmod K fs f mode

def Named.chown (uid gid : UInt32) (follow : Bool) : Named η → Call Errno σ Unit
  | .path base p => vfsChown K fs base p uid gid follow
  | .file f => vfsFchown K fs f uid gid

/-- The handle that the attributes are changed through. -/
def Named.find (follow : Bool) : Named η → Call Errno σ η
  | .path base p => do
    let loc ← walkPath K fs base p (if follow then 0 else W_NOFOLLOW)
    openAttr K fs loc.abs
  | .file f => reopenAttr K f

end

def Named.Based (fs : FsCtx η) : Named η → Prop
  | .path base _ => Canonical (base.getD fs.cwd)
  | .file _ => True

def LxEa.applied (i : NtInfo) : LxEa → NtInfo
  | .uid v => { i with lxFlags := i.lxFlags ||| HFS_LX_UID, lxUid := v }
  | .gid v => { i with lxFlags := i.lxFlags ||| HFS_LX_GID, lxGid := v }
  | .mod v => { i with lxFlags := i.lxFlags ||| HFS_LX_MODE, lxMode := v }
  | .dev major minor => { i with
      lxFlags := i.lxFlags ||| HFS_LX_DEV
      lxDeviceIdMajor := major
      lxDeviceIdMinor := minor }

variable {ι : Type} [DecidableEq ι]

/-- The host's objects: a query tells of the handle's object, and attributes that are set change that
object, its change time included. -/
structure SetsAttributes (nt₀ : Nt η σ) (nt : NtObjects η σ) (info : σ → ι → Option NtInfo)
    (object : η → ι) : Prop where
  query : ∀ x h i y, (nt₀.queryStat h).run x = (.ok i, y) → info x (object h) = some i
  setEa : ∀ x h eas y, (nt.setEa h eas).run x = (.ok (), y) → ∃ t, info y =
    Function.update (info x) (object h)
      ((info x (object h)).map fun i => { eas.foldl LxEa.applied i with changeTime := t })

/-- A kernel that asks for and sets attributes through NT. -/
def attrKernel (nt₀ : Nt η σ) (nt : NtObjects η σ) (K : Kernel η σ) : Kernel η σ :=
  { K with store := { K.store with stat := statHandle nt₀, setLx := hfsSetLx nt } }

/-- The call came to an object, and changed it alone, in this way. -/
def Changes (info : σ → ι → Option NtInfo) (object : η → ι) (find : Call Errno σ η) (x y : σ)
    (R : NtInfo → NtInfo → Prop) : Prop :=
  ∃ h z before after, find.run x = (.ok h, z) ∧ info x (object h) = some before ∧
    info y (object h) = some after ∧ R before after ∧ ∀ j ≠ object h, info y j = info x j

/-- A mount as `vfs_mount_host` seats it: objects without an owner are root's. -/
def RootOwned (m : Mount η) : Prop := m.defaultUid = 0 ∧ m.defaultGid = 0

structure ReportsChmod (mode : UInt32) (a b : KStat) : Prop where
  mode : b.mode = a.mode &&& S_IFMT ||| mode &&& 0o7777
  uid : b.uid = a.uid
  gid : b.gid = a.gid
  rdev : b.rdevMajor = a.rdevMajor ∧ b.rdevMinor = a.rdevMinor

structure ReportsChown (uid gid : UInt32) (a b : KStat) : Prop where
  mode : b.mode = a.mode
  uid : b.uid = if uid = 0xffffffff then a.uid else uid
  gid : b.gid = if gid = 0xffffffff then a.gid else gid
  rdev : b.rdevMajor = a.rdevMajor ∧ b.rdevMinor = a.rdevMinor

/-- When `chown` leaves the mode alone: it writes none, or the one it writes is the one that was
reported, for a link whatever it is. -/
def ModeKept (uid gid : UInt32) (i : NtInfo) (name : Option Bytes) : Prop :=
  (uid = 0xffffffff ∧ gid = 0xffffffff) ∨ has i.lxFlags HFS_LX_MODE = true ∨
    typeOf i.kind = S_IFLNK ∨ i.kind = .dir ∨ (name.map namesProgram).getD false = false

/-- What attributes written with a mask leave of the host's object. -/
structure Written (which uid gid mode : UInt32) (i j : NtInfo) : Prop where
  hasUid : has j.lxFlags HFS_LX_UID = (has i.lxFlags HFS_LX_UID || has which HFS_LX_UID)
  hasGid : has j.lxFlags HFS_LX_GID = (has i.lxFlags HFS_LX_GID || has which HFS_LX_GID)
  hasMode : has j.lxFlags HFS_LX_MODE = (has i.lxFlags HFS_LX_MODE || has which HFS_LX_MODE)
  hasDev : has j.lxFlags HFS_LX_DEV = has i.lxFlags HFS_LX_DEV
  uid : j.lxUid = if has which HFS_LX_UID then uid else i.lxUid
  gid : j.lxGid = if has which HFS_LX_GID then gid else i.lxGid
  mode : j.lxMode = if has which HFS_LX_MODE then mode else i.lxMode
  dev : j.lxDeviceIdMajor = i.lxDeviceIdMajor ∧ j.lxDeviceIdMinor = i.lxDeviceIdMinor
  kind : j.kind = i.kind

/-- The bits of the attributes are apart. -/
theorem lxBits : (has HFS_LX_UID HFS_LX_UID = true ∧ has HFS_LX_UID HFS_LX_GID = false ∧
      has HFS_LX_UID HFS_LX_MODE = false ∧ has HFS_LX_UID HFS_LX_DEV = false) ∧
    (has HFS_LX_GID HFS_LX_UID = false ∧ has HFS_LX_GID HFS_LX_GID = true ∧
      has HFS_LX_GID HFS_LX_MODE = false ∧ has HFS_LX_GID HFS_LX_DEV = false) ∧
    (has HFS_LX_MODE HFS_LX_UID = false ∧ has HFS_LX_MODE HFS_LX_GID = false ∧
      has HFS_LX_MODE HFS_LX_MODE = true ∧ has HFS_LX_MODE HFS_LX_DEV = false) := by decide

theorem written_of_buildLxEas {which : UInt32} (hdev : has which HFS_LX_DEV = false)
    (uid gid mode : UInt32) (i : NtInfo) (t : Int64) :
    Written which uid gid mode i
      { (buildLxEas which uid gid mode 0 0).foldl LxEa.applied i with changeTime := t } := by
  rw [buildLxEas, hdev]
  cases hu : has which HFS_LX_UID <;> cases hg : has which HFS_LX_GID <;>
    cases hm : has which HFS_LX_MODE <;>
    constructor <;> simp [LxEa.applied, has_or, hu, hg, hm, NtInfo.kind, lxBits]

section Reports

variable (m : Mount η) (i : NtInfo) (name : Option Bytes)

/-- The mask of `stat_of` leaves each attribute's bit. -/
theorem has_statOf {bit : UInt32} (h : (HFS_LX_UID ||| HFS_LX_GID ||| HFS_LX_MODE ||| HFS_LX_DEV |||
    HFS_LX_CASE) &&& bit = bit) : has (statOf i).lxflags bit = has i.lxFlags bit := by
  have hand : (i.lxFlags &&& (HFS_LX_UID ||| HFS_LX_GID ||| HFS_LX_MODE ||| HFS_LX_DEV ||| HFS_LX_CASE)) &&&
      bit = i.lxFlags &&& bit := by
    rw [UInt32.and_assoc, h]
  rw [has, has]
  change decide ((i.lxFlags &&& (HFS_LX_UID ||| HFS_LX_GID ||| HFS_LX_MODE ||| HFS_LX_DEV ||| HFS_LX_CASE)) &&&
      bit ≠ 0) = _
  rw [hand]

def defaultPerm (i : NtInfo) (name : Option Bytes) : UInt32 :=
  if i.kind = .dir then 0o755 else if (name.map namesProgram).getD false then 0o755 else 0o644

theorem typeOf_eq_dir {k : HfsKind} : typeOf k = S_IFDIR ↔ k = .dir := by
  cases k <;> decide

/-- What is reported of an object, in terms of the host's attributes. -/
theorem reported_mode : (kstatOf m (statOf i) name).mode =
    if typeOf i.kind = S_IFLNK then S_IFLNK ||| 0o777
    else typeOf i.kind ||| (if has i.lxFlags HFS_LX_MODE then i.lxMode &&& 0o7777 else defaultPerm i name) := by
  change modeOf (statOf i) name = _
  rw [modeOf, has_statOf i (by decide), defaultPerm]
  change (if typeOf i.kind = S_IFLNK then S_IFLNK ||| 0o777
    else if has i.lxFlags HFS_LX_MODE then typeOf i.kind ||| i.lxMode &&& 0o7777
    else if typeOf i.kind = S_IFDIR then typeOf i.kind ||| 0o755
    else typeOf i.kind ||| (if (name.map namesProgram).getD false then 0o755 else 0o644)) = _
  simp only [typeOf_eq_dir]
  split_ifs <;> rfl

theorem reported_uid : (kstatOf m (statOf i) name).uid =
    if has i.lxFlags HFS_LX_UID then i.lxUid else m.defaultUid := by
  change (if has (statOf i).lxflags HFS_LX_UID then _ else _) = _
  rw [has_statOf i (by decide)]
  rfl

theorem reported_gid : (kstatOf m (statOf i) name).gid =
    if has i.lxFlags HFS_LX_GID then i.lxGid else m.defaultGid := by
  change (if has (statOf i).lxflags HFS_LX_GID then _ else _) = _
  rw [has_statOf i (by decide)]
  rfl

theorem reported_rdev : (kstatOf m (statOf i) name).rdevMajor =
      (if has i.lxFlags HFS_LX_DEV then i.lxDeviceIdMajor else 0) ∧
    (kstatOf m (statOf i) name).rdevMinor =
      (if has i.lxFlags HFS_LX_DEV then i.lxDeviceIdMinor else 0) := by
  change (if has (statOf i).lxflags HFS_LX_DEV then _ else _) = _ ∧
    (if has (statOf i).lxflags HFS_LX_DEV then _ else _) = _
  rw [has_statOf i (by decide)]
  exact ⟨rfl, rfl⟩

variable {i} {j : NtInfo} {which uid gid mode : UInt32}

theorem Written.reported_rdev (h : Written which uid gid mode i j) :
    (kstatOf m (statOf j) name).rdevMajor = (kstatOf m (statOf i) name).rdevMajor ∧
      (kstatOf m (statOf j) name).rdevMinor = (kstatOf m (statOf i) name).rdevMinor := by
  obtain ⟨hmajor, hminor⟩ := SysvNt.reported_rdev m i name
  obtain ⟨hmajor', hminor'⟩ := SysvNt.reported_rdev m j name
  rw [hmajor, hminor, hmajor', hminor', h.hasDev, h.dev.1, h.dev.2]
  exact ⟨rfl, rfl⟩

/-- A mode that is written is reported, but of a link. -/
theorem Written.reported_mode (h : Written which uid gid mode i j)
    (hwhich : has which HFS_LX_MODE = true) : (kstatOf m (statOf j) name).mode =
      if typeOf i.kind = S_IFLNK then S_IFLNK ||| 0o777 else typeOf i.kind ||| mode &&& 0o7777 := by
  rw [SysvNt.reported_mode, h.hasMode, hwhich, Bool.or_true, if_pos rfl, h.kind, h.mode, if_pos hwhich]

theorem Written.reported_mode_kept (h : Written which uid gid mode i j)
    (hwhich : has which HFS_LX_MODE = false) :
    (kstatOf m (statOf j) name).mode = (kstatOf m (statOf i) name).mode := by
  have hperm : defaultPerm j name = defaultPerm i name := by rw [defaultPerm, defaultPerm, h.kind]
  have hmode : j.lxMode = i.lxMode := by
    rw [h.mode, hwhich]
    rfl
  rw [SysvNt.reported_mode, SysvNt.reported_mode, h.hasMode, hwhich, Bool.or_false, h.kind, hmode, hperm]

theorem Written.reported_uid (h : Written which uid gid mode i j) :
    (kstatOf m (statOf j) name).uid = if has which HFS_LX_UID then uid
      else (kstatOf m (statOf i) name).uid := by
  rw [SysvNt.reported_uid, SysvNt.reported_uid, h.hasUid, h.uid]
  cases has which HFS_LX_UID <;> cases has i.lxFlags HFS_LX_UID <;> rfl

theorem Written.reported_gid (h : Written which uid gid mode i j) :
    (kstatOf m (statOf j) name).gid = if has which HFS_LX_GID then gid
      else (kstatOf m (statOf i) name).gid := by
  rw [SysvNt.reported_gid, SysvNt.reported_gid, h.hasGid, h.gid]
  cases has which HFS_LX_GID <;> cases has i.lxFlags HFS_LX_GID <;> rfl

end Reports

theorem reported_type (m : Mount η) (i : NtInfo) (name : Option Bytes) :
    (kstatOf m (statOf i) name).mode &&& S_IFMT = typeOf i.kind := modeOf_type (statOf i) name

def chmodMask (i : NtInfo) : UInt32 :=
  HFS_LX_MODE ||| (if has i.lxFlags HFS_LX_UID then 0 else HFS_LX_UID) |||
    (if has i.lxFlags HFS_LX_GID then 0 else HFS_LX_GID)

theorem chmodMask_has (i : NtInfo) : has (chmodMask i) HFS_LX_MODE = true ∧
    has (chmodMask i) HFS_LX_UID = !has i.lxFlags HFS_LX_UID ∧
    has (chmodMask i) HFS_LX_GID = !has i.lxFlags HFS_LX_GID ∧ has (chmodMask i) HFS_LX_DEV = false := by
  rw [chmodMask]
  cases has i.lxFlags HFS_LX_UID <;> cases has i.lxFlags HFS_LX_GID <;> decide

/-- What `chmod_h` writes shows up in stat as it should, a link apart. -/
theorem reportsChmod_of_written {i j : NtInfo} {mode : UInt32}
    (h : Written (chmodMask i) (if has i.lxFlags HFS_LX_UID then i.lxUid else 0)
      (if has i.lxFlags HFS_LX_GID then i.lxGid else 0) (typeOf i.kind ||| mode &&& 0o7777) i j)
    (hlnk : typeOf i.kind ≠ S_IFLNK) {m : Mount η} (hm : RootOwned m) (name : Option Bytes) :
    ReportsChmod mode (kstatOf m (statOf i) name) (kstatOf m (statOf j) name) := by
  obtain ⟨hmode, huid, hgid, _⟩ := chmodMask_has i
  refine ⟨?_, ?_, ?_, h.reported_rdev m name⟩
  · rw [h.reported_mode m name hmode, if_neg hlnk, reported_type, (type_perm i.kind mode).2]
  · rw [h.reported_uid, huid, reported_uid, hm.1]
    cases has i.lxFlags HFS_LX_UID <;> rfl
  · rw [h.reported_gid, hgid, reported_gid, hm.2]
    cases has i.lxFlags HFS_LX_GID <;> rfl

def chownMask (uid gid : UInt32) : UInt32 :=
  (if uid = 0xffffffff then 0 else HFS_LX_UID) ||| (if gid = 0xffffffff then 0 else HFS_LX_GID)

def chownMode (i : NtInfo) : UInt32 :=
  if has i.lxFlags HFS_LX_MODE then i.lxMode
  else if i.kind = .dir then S_IFDIR ||| 0o755
  else S_IFREG ||| 0o644

theorem chownMask_has (uid gid : UInt32) (b : Bool) :
    has (if b then chownMask uid gid else chownMask uid gid ||| HFS_LX_MODE) HFS_LX_MODE = !b ∧
      has (if b then chownMask uid gid else chownMask uid gid ||| HFS_LX_MODE) HFS_LX_UID =
        !decide (uid = 0xffffffff) ∧
      has (if b then chownMask uid gid else chownMask uid gid ||| HFS_LX_MODE) HFS_LX_GID =
        !decide (gid = 0xffffffff) ∧
      has (if b then chownMask uid gid else chownMask uid gid ||| HFS_LX_MODE) HFS_LX_DEV = false := by
  rw [chownMask]
  by_cases hu : uid = 0xffffffff <;> by_cases hg : gid = 0xffffffff <;> simp only [hu, hg] <;>
    cases b <;> decide

theorem chownMask_eq_zero_iff {uid gid : UInt32} :
    chownMask uid gid = 0 ↔ uid = 0xffffffff ∧ gid = 0xffffffff := by
  rw [chownMask]
  by_cases hu : uid = 0xffffffff <;> by_cases hg : gid = 0xffffffff <;> simp only [hu, hg] <;> decide

/-- The mode that `chown_h` writes for want of one is the one that was reported, but for a program's
name. -/
theorem chownMode_eq_default_iff {i : NtInfo} {name : Option Bytes}
    (hmode : has i.lxFlags HFS_LX_MODE = false) :
    typeOf i.kind ||| chownMode i &&& 0o7777 = typeOf i.kind ||| defaultPerm i name ↔
      i.kind = .dir ∨ (name.map namesProgram).getD false = false := by
  rw [chownMode, hmode, if_neg Bool.false_ne_true, defaultPerm]
  by_cases hdir : i.kind = .dir
  · rw [if_pos hdir, if_pos hdir]
    exact iff_of_true (by rw [hdir]; decide) (.inl hdir)
  · rw [if_neg hdir, if_neg hdir]
    cases (name.map namesProgram).getD false with
    | false => exact iff_of_true (by cases i.kind <;> decide) (.inr rfl)
    | true =>
        refine iff_of_false ?_ (by simp [hdir])
        cases i.kind <;> decide

/-- What `chown_h` writes shows up in stat as it should, exactly if the mode is kept. -/
theorem reportsChown_iff_of_written {i j : NtInfo} {uid gid : UInt32}
    (hwhich : chownMask uid gid ≠ 0)
    (h : Written (if has i.lxFlags HFS_LX_MODE then chownMask uid gid else chownMask uid gid ||| HFS_LX_MODE)
      uid gid (chownMode i) i j) (m : Mount η) (name : Option Bytes) :
    ReportsChown uid gid (kstatOf m (statOf i) name) (kstatOf m (statOf j) name) ↔
      ModeKept uid gid i name := by
  obtain ⟨hmode, huid, hgid, _⟩ := chownMask_has uid gid (has i.lxFlags HFS_LX_MODE)
  have hrest : ReportsChown uid gid (kstatOf m (statOf i) name) (kstatOf m (statOf j) name) ↔
      (kstatOf m (statOf j) name).mode = (kstatOf m (statOf i) name).mode := by
    refine ⟨fun hr => hr.mode, fun hm => ⟨hm, ?_, ?_, h.reported_rdev m name⟩⟩
    · rw [h.reported_uid, huid]
      by_cases hu : uid = 0xffffffff <;> simp [hu]
    · rw [h.reported_gid, hgid]
      by_cases hg : gid = 0xffffffff <;> simp [hg]
  rw [hrest, ModeKept, or_iff_right (mt chownMask_eq_zero_iff.mpr hwhich)]
  cases hhas : has i.lxFlags HFS_LX_MODE with
  | true =>
      rw [hhas] at hmode h
      exact iff_of_true (h.reported_mode_kept m name hmode) (.inl rfl)
  | false =>
      rw [hhas] at hmode h
      rw [h.reported_mode m name hmode, reported_mode, hhas, or_iff_right Bool.false_ne_true]
      by_cases hlnk : typeOf i.kind = S_IFLNK
      · rw [if_pos hlnk, if_pos hlnk]
        exact iff_of_true rfl (.inl hlnk)
      · rw [if_neg hlnk, if_neg hlnk, or_iff_right hlnk, if_neg Bool.false_ne_true]
        exact chownMode_eq_default_iff hhas

section Setters

variable (nt₀ : Nt η σ) (nt : NtObjects η σ) {K : Kernel η σ} {fs : FsCtx η}
  (hstat : K.store.stat = statHandle nt₀) (hset : K.store.setLx = hfsSetLx nt) (h : η)

include hstat hset

theorem chmodHandle_eq (mode : UInt32) : chmodHandle K fs h mode = (do
    let i ← withErrno (nt₀.queryStat h)
    if fs.euid ≠ 0 ∧ has i.lxFlags HFS_LX_UID = true ∧ i.lxUid ≠ fs.euid then throw .EPERM
    else
      hfsSetLx nt h (chmodMask i) (if has i.lxFlags HFS_LX_UID then i.lxUid else 0)
        (if has i.lxFlags HFS_LX_GID then i.lxGid else 0) (typeOf i.kind ||| mode &&& 0o7777) 0 0) := by
  rw [chmodHandle, hstat, hset, statHandle, bind_assoc]
  simp only [pure_bind]
  congr 1
  funext i
  rw [has_statOf i (by decide), has_statOf i (by decide)]
  rfl

theorem chownHandle_eq (uid gid : UInt32) : chownHandle K fs h uid gid = (do
    let i ← withErrno (nt₀.queryStat h)
    if fs.euid ≠ 0 then throw .EPERM
    else if chownMask uid gid = 0 then pure ()
    else
      hfsSetLx nt h
        (if has i.lxFlags HFS_LX_MODE then chownMask uid gid else chownMask uid gid ||| HFS_LX_MODE)
        uid gid (chownMode i) 0 0) := by
  rw [chownHandle, hstat, hset, statHandle, bind_assoc]
  simp only [pure_bind]
  congr 1
  funext i
  rw [has_statOf i (by decide)]
  rfl

end Setters

section Calls

variable {nt₀ : Nt η σ} {nt : NtObjects η σ} {K : Kernel η σ} {fs : FsCtx η}
  {info : σ → ι → Option NtInfo} {object : η → ι} (hS : SetsAttributes nt₀ nt info object)

include hS

/-- Attributes that were set without an error are written. -/
theorem hfsSetLx_written {h : η} {which uid gid mode : UInt32} (hdev : has which HFS_LX_DEV = false)
    {x y : σ} {i : NtInfo} (hi : info x (object h) = some i)
    (hrun : (hfsSetLx nt h which uid gid mode 0 0).run x = (.ok (), y)) :
    ∃ j, info y = Function.update (info x) (object h) (some j) ∧ Written which uid gid mode i j := by
  rw [hfsSetLx] at hrun
  by_cases hnone : buildLxEas which uid gid mode 0 0 = []
  · rw [if_pos hnone] at hrun
    cases hrun
  · rw [if_neg hnone] at hrun
    obtain ⟨t, ht⟩ := hS.setEa x h _ y (of_run_withErrno hrun)
    rw [hi, Option.map_some] at ht
    exact ⟨_, ht, written_of_buildLxEas hdev uid gid mode i t⟩

theorem chmodHandle_written (hquiet : ∀ h x, info ((nt₀.queryStat h).run x).2 = info x) {h : η}
    {mode : UInt32} {x y : σ} (hrun : (chmodHandle (attrKernel nt₀ nt K) fs h mode).run x = (.ok (), y)) :
    ∃ i j, info x (object h) = some i ∧ info y = Function.update (info x) (object h) (some j) ∧
      Written (chmodMask i) (if has i.lxFlags HFS_LX_UID then i.lxUid else 0)
        (if has i.lxFlags HFS_LX_GID then i.lxGid else 0) (typeOf i.kind ||| mode &&& 0o7777) i j := by
  rw [chmodHandle_eq nt₀ nt rfl rfl] at hrun
  obtain ⟨i, z, hstat, hset⟩ := of_run_bind hrun
  have hquery := of_run_withErrno hstat
  have hi := hS.query x h i z hquery
  have hz : info z = info x := by
    have hkept := hquiet h x
    rwa [hquery] at hkept
  have hiz : info z (object h) = some i := by rw [hz, hi]
  by_cases hperm : fs.euid ≠ 0 ∧ has i.lxFlags HFS_LX_UID = true ∧ i.lxUid ≠ fs.euid
  · rw [if_pos hperm] at hset
    cases hset
  · rw [if_neg hperm] at hset
    obtain ⟨j, hj, hwritten⟩ := hfsSetLx_written hS (chmodMask_has i).2.2.2 hiz hset
    rw [hz] at hj
    exact ⟨i, j, hi, hj, hwritten⟩

theorem chownHandle_written (hquiet : ∀ h x, info ((nt₀.queryStat h).run x).2 = info x) {h : η}
    {uid gid : UInt32} {x y : σ}
    (hrun : (chownHandle (attrKernel nt₀ nt K) fs h uid gid).run x = (.ok (), y)) :
    ∃ i, info x (object h) = some i ∧ ((chownMask uid gid = 0 ∧ info y = info x) ∨
      chownMask uid gid ≠ 0 ∧ ∃ j, info y = Function.update (info x) (object h) (some j) ∧
        Written (if has i.lxFlags HFS_LX_MODE then chownMask uid gid else chownMask uid gid ||| HFS_LX_MODE)
          uid gid (chownMode i) i j) := by
  rw [chownHandle_eq nt₀ nt rfl rfl] at hrun
  obtain ⟨i, z, hstat, hset⟩ := of_run_bind hrun
  have hquery := of_run_withErrno hstat
  have hi := hS.query x h i z hquery
  have hz : info z = info x := by
    have hkept := hquiet h x
    rwa [hquery] at hkept
  have hiz : info z (object h) = some i := by rw [hz, hi]
  by_cases hroot : fs.euid ≠ 0
  · rw [if_pos hroot] at hset
    cases hset
  · rw [if_neg hroot] at hset
    by_cases hnone : chownMask uid gid = 0
    · rw [if_pos hnone] at hset
      cases hset
      exact ⟨i, hi, .inl ⟨hnone, hz⟩⟩
    · rw [if_neg hnone] at hset
      have hmask := chownMask_has uid gid (has i.lxFlags HFS_LX_MODE)
      obtain ⟨j, hj, hwritten⟩ := hfsSetLx_written hS hmask.2.2.2 hiz hset
      rw [hz] at hj
      exact ⟨i, hi, .inr ⟨hnone, j, hj, hwritten⟩⟩

omit hS in
theorem Named.chmod_eq (n : Named η) (mode : UInt32) : n.chmod K fs mode = (do
    let h ← n.find K fs true
    closing (K.store.close h) (chmodHandle K fs h mode)) := by
  cases n with
  | path base p => simp only [Named.chmod, Named.find, vfsChmod, withAttr, bind_assoc]
  | file f => rfl

omit hS in
theorem Named.chown_eq (n : Named η) (uid gid : UInt32) (follow : Bool) : n.chown K fs uid gid follow = (do
    let h ← n.find K fs follow
    closing (K.store.close h) (chownHandle K fs h uid gid)) := by
  cases n with
  | path base p => simp only [Named.chown, Named.find, vfsChown, withAttr, bind_assoc]
  | file f => rfl

omit hS [DecidableEq ι] in
/-- Coming to an object only reads. -/
theorem Named.find_keeps {I : σ → Prop}
    (hG : Guarded K.store (fun _ _ => True) I (fun c => c.changes = false)) {n : Named η}
    (hn : n.Based fs) (follow : Bool) : Keeps I (n.find K fs follow) (fun _ => True) := by
  cases n with
  | path base p =>
      refine (walkPath_keeps hG (seated_anywhere fs.table) hn p _).bind fun loc hl => ?_
      exact openAttr_keeps hG (seated_anywhere fs.table) hl.canonical
  | file f =>
      cases f with
      | synth made path m => exact Keeps.throw
      | host h kind fl path m => exact (hG.reopen h [] _ false trivial).bind fun _ _ => Keeps.pure trivial

omit hS [DecidableEq ι] in
theorem Named.find_quiet (hQ : Quiet K.store info) {n : Named η} (hn : n.Based fs) (follow : Bool) (x : σ) :
    info ((n.find K fs follow).run x).2 = info x :=
  Keeps.view_eq (fun v => Named.find_keeps (hQ.guarded v) hn follow) x

variable (hQ : Quiet (attrKernel nt₀ nt K).store info)

include hQ

omit hS [DecidableEq ι] in
theorem query_quiet (h : η) (x : σ) : info ((nt₀.queryStat h).run x).2 = info x := by
  have hkept : info ((statHandle nt₀ h).run x).2 = info x := Keeps.view_eq (fun v => (hQ.guarded v).stat h) x
  rw [statHandle, run_bind, run_withErrno] at hkept
  cases hrun : (nt₀.queryStat h).run x with
  | mk r y =>
      rw [hrun] at hkept
      cases r <;> exact hkept

omit hS [DecidableEq ι] in
/-- A call that succeeds comes to an object as it was and leaves it as the change leaves it. -/
theorem of_find_closing {n : Named η} (hn : n.Based fs) {follow : Bool} {act : η → Call Errno σ Unit}
    {x y : σ} (hrun : (n.find (attrKernel nt₀ nt K) fs follow >>= fun h =>
      closing ((attrKernel nt₀ nt K).store.close h) (act h)).run x = (.ok (), y)) :
    ∃ h z w, (n.find (attrKernel nt₀ nt K) fs follow).run x = (.ok h, z) ∧ info z = info x ∧
      (act h).run z = (.ok (), w) ∧ info y = info w := by
  obtain ⟨h, z, hfind, hact⟩ := of_run_bind hrun
  obtain ⟨w, hw, rfl⟩ := of_run_closing hact
  have hquiet := Named.find_quiet hQ hn follow x
  rw [hfind] at hquiet
  exact ⟨h, z, w, hfind, hquiet, hw, close_quiet hQ h w⟩

omit hS hQ in
theorem changes_of_update {find : Call Errno σ η} {x y z : σ} {h : η} {i j : NtInfo}
    {R : NtInfo → NtInfo → Prop} (hfind : find.run x = (.ok h, z)) (hi : info x (object h) = some i)
    (hj : info y = Function.update (info x) (object h) (some j)) (hR : R i j) :
    Changes info object find x y R := by
  refine ⟨h, z, i, j, hfind, hi, ?_, hR, fun k hk => ?_⟩
  · rw [hj, Function.update_self]
  · rw [hj, Function.update_of_ne hk]

/-- Each call changes the object it comes to and no other. `chmod` reports as asked of all but links,
and `chown` reports as asked exactly where it leaves the mode alone. -/
theorem attributes_change_as_asked_iff {n : Named η} (hn : n.Based fs) (x y : σ) :
    (∀ mode, (n.chmod (attrKernel nt₀ nt K) fs mode).run x = (.ok (), y) →
      Changes info object (n.find (attrKernel nt₀ nt K) fs true) x y fun before after =>
        typeOf before.kind ≠ S_IFLNK → ∀ m name, RootOwned m →
          ReportsChmod mode (kstatOf (η := η) m (statOf before) name) (kstatOf m (statOf after) name)) ∧
    ∀ uid gid follow, (n.chown (attrKernel nt₀ nt K) fs uid gid follow).run x = (.ok (), y) →
      Changes info object (n.find (attrKernel nt₀ nt K) fs follow) x y fun before after =>
        ∀ m name, ReportsChown uid gid (kstatOf (η := η) m (statOf before) name)
          (kstatOf m (statOf after) name) ↔ ModeKept uid gid before name := by
  refine ⟨fun mode hrun => ?_, fun uid gid follow hrun => ?_⟩
  · rw [Named.chmod_eq] at hrun
    obtain ⟨h, z, w, hfind, hz, hw, hy⟩ := of_find_closing hQ hn hrun
    obtain ⟨i, j, hi, hj, hwritten⟩ := chmodHandle_written hS (query_quiet hQ) hw
    rw [hz] at hi hj
    refine changes_of_update hfind hi (hy.trans hj) fun hlnk m name hm => ?_
    exact reportsChmod_of_written hwritten hlnk hm name
  · rw [Named.chown_eq] at hrun
    obtain ⟨h, z, w, hfind, hz, hw, hy⟩ := of_find_closing hQ hn hrun
    obtain ⟨i, hi, hcases⟩ := chownHandle_written hS (query_quiet hQ) hw
    rw [hz] at hi hcases
    rcases hcases with ⟨hnone, hsame⟩ | ⟨hsome, j, hj, hwritten⟩
    · obtain ⟨hu, hg⟩ := chownMask_eq_zero_iff.mp hnone
      have hj : info y = Function.update (info x) (object h) (some i) := by
        rw [hy, hsame, ← hi, Function.update_eq_self]
      refine changes_of_update hfind hi hj fun m name => ?_
      refine iff_of_true ⟨rfl, ?_, ?_, rfl, rfl⟩ (.inl ⟨hu, hg⟩)
      · rw [if_pos hu]
      · rw [if_pos hg]
    · refine changes_of_update hfind hi (hy.trans hj) fun m name => ?_
      exact reportsChown_iff_of_written hsome hwritten m name

end Calls

/-- A host with one object, of which the state is what it tells. -/
def oneObjectNt : Nt Unit NtInfo where
  createFile _ _ _ _ _ := throw .accessDenied
  queryStat _ := fun i => (.ok i, i)
  close _ := pure ()

def oneObjectNtObjects : NtObjects Unit NtInfo where
  create _ _ _ _ _ := throw .accessDenied
  setReparse _ _ := throw .accessDenied
  getReparse _ := throw .notAReparsePoint
  setDisposition _ := throw .accessDenied
  setCaseSensitive _ := throw .accessDenied
  setEa _ eas := fun i => (.ok (), { eas.foldl LxEa.applied i with changeTime := i.changeTime + 1 })
  close _ := pure ()

def oneObjectKernel : Kernel Unit NtInfo where
  store := { HostStore.idle with reopen := fun _ _ _ => pure ⟨(), {}, false⟩ }
  proc := { fds := fun _ => none, exe := [], maps := [] }
  stack := []

theorem oneObject_setsAttributes :
    SetsAttributes oneObjectNt oneObjectNtObjects (fun i (_ : Unit) => some i) (fun _ => ()) where
  query _ _ _ _ h := by
    cases h
    rfl
  setEa x h eas y hrun := by
    cases hrun
    exact ⟨x.changeTime + 1, funext fun _ => rfl⟩

theorem oneObject_quiet :
    Quiet (attrKernel oneObjectNt oneObjectNtObjects oneObjectKernel).store (fun i (_ : Unit) => some i) where
  guarded _ :=
    { openat := fun _ _ _ _ _ _ _ _ _ _ => Keeps.throw
      reopen := fun _ _ _ _ _ => Keeps.pure trivial
      stat := fun _ _ h => ⟨h, fun _ _ => trivial⟩
      readlink := fun _ => Keeps.throw
      close := fun _ _ h => h
      now := fun _ h => h
      alloc := fun _ h => h }
  reparse _ _ _ _ _ _ _ _ _ _ h := nomatch h

/-- `fchown` of the object to user and group 1000, by root. -/
def chownObject (i : NtInfo) : Except Errno Unit × NtInfo :=
  (Named.chown (attrKernel oneObjectNt oneObjectNtObjects oneObjectKernel) (FsCtx.initial () 1 true) 1000 1000
    true (.file (.host () .host O_RDWR (str "/f") statMount))).run i

theorem chown_text_file_changes :
    Changes (fun i (_ : Unit) => some i) (fun _ => ())
      (Named.find (attrKernel oneObjectNt oneObjectNtObjects oneObjectKernel) (FsCtx.initial () 1 true) true
        (.file (.host () .host O_RDWR (str "/f") statMount))) {} (chownObject {}).2 fun before after =>
      ∀ m name, ReportsChown 1000 1000 (kstatOf (η := Unit) m (statOf before) name)
        (kstatOf m (statOf after) name) ↔ ModeKept 1000 1000 before name :=
  (attributes_change_as_asked_iff oneObject_setsAttributes oneObject_quiet
    (show Named.Based (FsCtx.initial () 1 true) (.file (.host () .host O_RDWR (str "/f") statMount)) from
      trivial) {} (chownObject {}).2).2 1000 1000 true rfl

/-- A program without a mode of its own loses its execute bits with its owner. -/
theorem chown_program_changes_mode :
    (chownObject {}).1 = .ok () ∧
      (kstatOf statMount (statOf {}) (some (str "setup.exe"))).mode = 0o100755 ∧
      (kstatOf statMount (statOf (chownObject {}).2) (some (str "setup.exe"))).mode = 0o100644 ∧
      ¬ReportsChown 1000 1000 (kstatOf statMount (statOf {}) (some (str "setup.exe")))
        (kstatOf statMount (statOf (chownObject {}).2) (some (str "setup.exe"))) := by
  refine ⟨rfl, by decide, by decide, fun h => ?_⟩
  have hmode := h.mode
  revert hmode
  decide

end SysvNt
