import SysvNt.ActionRuns
import SysvNt.AttributeChanges
import SysvNt.MountCrossing

/-!
# The modes that are written

Each writer of `$LXMOD` hands `build_lx_eas` a mode with type bits of its own making. A mode is
whole where it has no other bits than type and permissions and its type is the one that `mode_of`
reports of the object's kind. The host's journal says which modes were written on which object.
-/

namespace SysvNt

open FallibleCalls

variable {η σ ι : Type}

/-- A whole `st_mode`, of the type that `mode_of` reports. -/
structure WholeMode (kind : Option HfsKind) (v : UInt32) : Prop where
  bits : v &&& ~~~(S_IFMT ||| 0o7777) = 0
  type : ∀ hs name, kind = some hs.kind → v &&& S_IFMT = modeOf hs name &&& S_IFMT

/-- The kinds of the host's objects, and the modes that were written on them. -/
structure Journal (ι : Type) where
  kinds : ι → Option HfsKind
  modes : List (UInt32 × ι)

def Journal.Truthful (J : Journal ι) : Prop := ∀ v i, (v, i) ∈ J.modes → WholeMode (J.kinds i) v

def Journal.withKind [DecidableEq ι] (J : Journal ι) (i : ι) (k : Option HfsKind) : Journal ι :=
  { J with kinds := Function.update J.kinds i k }

def Journal.write (J : Journal ι) (vs : List UInt32) (i : ι) : Journal ι :=
  { J with modes := J.modes ++ vs.map fun v => (v, i) }

def Journal.Fresh (J : Journal ι) (i : ι) : Prop := J.kinds i = none ∧ ∀ v, (v, i) ∉ J.modes

theorem wholeMode_of_type {kind : Option HfsKind} {v : UInt32} (hbits : v &&& ~~~(S_IFMT ||| 0o7777) = 0)
    (htype : ∀ k, kind = some k → v &&& S_IFMT = typeOf k) : WholeMode kind v :=
  ⟨hbits, fun hs name hk => (htype hs.kind hk).trans (modeOf_type hs name).symm⟩

/-- A type with permissions is whole. -/
theorem wholeMode_typed {kind : Option HfsKind} {k : HfsKind} (mode : UInt32)
    (hkind : ∀ k', kind = some k' → typeOf k' = typeOf k) :
    WholeMode kind (typeOf k ||| mode &&& 0o7777) := by
  refine wholeMode_of_type ?_ fun k' hk' => (type_perm k mode).1.trans (hkind k' hk').symm
  have hmask : (0o7777 : UInt32) &&& ~~~(S_IFMT ||| 0o7777) = 0 := by decide
  have htype : typeOf k &&& ~~~(S_IFMT ||| 0o7777) = 0 := by cases k <;> decide
  rw [or_and, UInt32.and_assoc, hmask, htype, UInt32.and_zero, UInt32.or_zero]

@[simp] theorem Journal.withKind_self [DecidableEq ι] (J : Journal ι) (i : ι) (k : Option HfsKind) :
    (J.withKind i k).kinds i = k := by
  simp [Journal.withKind]

@[simp] theorem Journal.withKind_of_ne [DecidableEq ι] {J : Journal ι} {i j : ι} {k : Option HfsKind}
    (h : j ≠ i) : (J.withKind i k).kinds j = J.kinds j := by
  simp [Journal.withKind, h]

section Journals

variable {J : Journal ι} {i : ι} (h : J.Truthful)

include h

theorem Journal.Truthful.write {vs : List UInt32} (hvs : ∀ v ∈ vs, WholeMode (J.kinds i) v) :
    (J.write vs i).Truthful := by
  intro v j hv
  rcases List.mem_append.mp hv with hold | hnew
  · exact h v j hold
  · obtain ⟨w, hw, he⟩ := List.mem_map.mp hnew
    cases he
    exact hvs v hw

/-- A new object may be of any kind. -/
theorem Journal.Truthful.withKind [DecidableEq ι] (hfresh : J.Fresh i) (k : Option HfsKind) :
    (J.withKind i k).Truthful := by
  intro v j hv
  have hj : j ≠ i := by
    rintro rfl
    exact hfresh.2 v hv
  rw [Journal.withKind_of_ne hj]
  exact h v j hv

/-- A new object that changes its kind once its modes are written. -/
theorem Journal.Truthful.made [DecidableEq ι] (hfresh : J.Fresh i) {vs : List UInt32} {k : Option HfsKind}
    (hvs : ∀ v ∈ vs, WholeMode k v) (k₀ : Option HfsKind) :
    (((J.withKind i k₀).write vs i).withKind i k).Truthful := by
  have hswap : ((J.withKind i k₀).write vs i).withKind i k = (J.withKind i k).write vs i := by
    simp only [Journal.withKind, Journal.write, Function.update_idem]
  rw [hswap]
  refine (h.withKind hfresh k).write fun v hv => ?_
  rw [Journal.withKind_self]
  exact hvs v hv

end Journals

def writtenModes (eas : List LxEa) : List UInt32 :=
  eas.filterMap fun ea => match ea with
    | .mod v => some v
    | _ => none

theorem writtenModes_buildLxEas (which uid gid mode major minor : UInt32) :
    writtenModes (buildLxEas which uid gid mode major minor) =
      if has which HFS_LX_MODE then [mode] else [] := by
  rw [writtenModes, buildLxEas]
  split_ifs <;> rfl

def Disposition.ea : Disposition → Option LxAttributes
  | .open | .overwrite => none
  | .create ea | .openIf ea | .overwriteIf ea => some ea

def OpenOptions.kind (o : OpenOptions) : HfsKind := if o.directoryFile then .dir else .file

def Reparse.tag : Reparse → UInt32
  | .symlink _ => 0xa000000c
  | .lxSymlink _ => 0xa000001d
  | .bare tag => tag
  | .other tag _ => tag

/-- The host under the kernel. Attributes that an open gives are written on the object it makes, or on
one of the same type; reparse data makes the kind; an object marked for deletion is gone. -/
structure Journaled [DecidableEq ι] (nt₀ : Nt η σ) (nt : NtObjects η σ) (rest : HostStore η σ)
    (journal : σ → Journal ι) (object : η → ι) : Prop where
  createFile : ∀ d w a disp o x, journal ((nt₀.createFile d w a disp o).run x).2 = journal x ∨
    ∃ h y ea, (nt₀.createFile d w a disp o).run x = (.ok h, y) ∧ disp.ea = some ea ∧
      ¬(o.directoryFile = true ∧ o.nonDirectoryFile = true) ∧
      ((journal x).Fresh (object h) ∧
          journal y = ((journal x).withKind (object h) (some o.kind)).write [ea.mode] (object h) ∨
        (∃ k, (journal x).kinds (object h) = some k ∧ typeOf k = typeOf o.kind) ∧
          journal y = (journal x).write [ea.mode] (object h))
  created : ∀ d w a o eas x h y, (nt.create d w a o eas).run x = (.ok h, y) →
    (journal x).Fresh (object h) ∧
      journal y = ((journal x).withKind (object h) (some o.kind)).write (writtenModes eas) (object h)
  notCreated : ∀ d w a o eas x e y, (nt.create d w a o eas).run x = (.error e, y) → journal y = journal x
  stamped : ∀ h rp x y, (nt.setReparse h rp).run x = (.ok (), y) →
    journal y = (journal x).withKind (object h) (some (kindOf 0x400 rp.tag))
  notStamped : ∀ h rp x e y, (nt.setReparse h rp).run x = (.error e, y) → journal y = journal x
  disposed : ∀ h x y, (nt.setDisposition h).run x = (.ok (), y) →
    journal y = (journal x).withKind (object h) none
  setEa : ∀ h eas x, journal ((nt.setEa h eas).run x).2 = (journal x).write (writtenModes eas) (object h)
  query : ∀ h x i y, (nt₀.queryStat h).run x = (.ok i, y) → (journal x).kinds (object h) = some i.kind
  queried : ∀ h x, journal ((nt₀.queryStat h).run x).2 = journal x
  caseSensitive : ∀ h x, journal ((nt.setCaseSensitive h).run x).2 = journal x
  getReparse : ∀ h x, journal ((nt.getReparse h).run x).2 = journal x
  closed : ∀ h x, journal (nt₀.close h x).2 = journal x
  closedNew : ∀ h x, journal (nt.close h x).2 = journal x
  now : ∀ x, journal (rest.now x).2 = journal x
  alloc : ∀ x, journal (rest.alloc x).2 = journal x

def ntKernel (nt₀ : Nt η σ) (nt : NtObjects η σ) (K : Kernel η σ) : Kernel η σ :=
  { K with store := nt₀.store (nt.store K.store) }

/-- The object that `make_reparse` makes before it is stamped. -/
def newReparse (nt : NtObjects η σ) (dir : η) (name : Bytes) (mode uid gid major minor : UInt32) :
    Call Errno σ η :=
  match nameToWide name 255 with
  | none => throw .ENAMETOOLONG
  | some w =>
    if w.length = 0 then throw .ENOENT
    else
      let which := HFS_LX_UID ||| HFS_LX_GID ||| HFS_LX_MODE |||
        (if major ≠ 0 ∨ minor ≠ 0 then HFS_LX_DEV else 0)
      withErrno (nt.create dir w
        (FILE_WRITE_DATA ||| FILE_READ_DATA ||| FILE_WRITE_ATTRIBUTES ||| FILE_READ_ATTRIBUTES)
        { directoryFile := false, nonDirectoryFile := true, openReparsePoint := true }
        (buildLxEas which uid gid mode major minor))

theorem makeReparse_eq (nt : NtObjects η σ) (dir : η) (name : Bytes) (mode uid gid major minor : UInt32)
    (rp : Reparse) : makeReparse nt dir name mode uid gid major minor rp =
      newReparse nt dir name mode uid gid major minor >>= fun h => stampReparse nt h rp := by
  rw [makeReparse, newReparse]
  cases nameToWide name 255 with
  | none => rfl
  | some w =>
      dsimp only
      split_ifs <;> rfl

def StampedOrGone (nt : NtObjects η σ) (h : η) (rp : Reparse) (x : σ) : Prop :=
  ∀ e y, (nt.setReparse h rp).run x = (.error e, y) → ∃ z, (nt.setDisposition h).run y = (.ok (), z)

/-- The same of the object that a call makes in the parent it comes to. -/
def MakesOrRemoves (nt : NtObjects η σ) (K : Kernel η σ) (fs : FsCtx η) (base : Option Bytes) (p : Bytes)
    (make : η → Bytes → Call Errno σ η) (rp : Reparse) (x : σ) : Prop :=
  ∀ r y h z, (hostParent K fs base p).run x = (.ok r, y) → (make r.2 r.1.last).run y = (.ok h, z) →
    StampedOrGone nt h rp z

inductive ModeCall (η : Type) where
  | open (base : Option Bytes) (path : Bytes) (flags mode : UInt32)
  | mkdir (base : Option Bytes) (path : Bytes) (mode : UInt32)
  | mknod (base : Option Bytes) (path : Bytes) (mode major minor : UInt32)
  | symlink (target : Bytes) (base : Option Bytes) (path : Bytes)
  | chmod (n : Named η) (mode : UInt32)
  | chown (n : Named η) (uid gid : UInt32) (follow : Bool)

def ModeCall.perform (K : Kernel η σ) (fs : FsCtx η) : ModeCall η → Call Errno σ Unit
  | .open base path flags mode => do
    let _ ← vfsOpen K fs base path flags mode
    pure ()
  | .mkdir base path mode => vfsMkdir K fs base path mode
  | .mknod base path mode major minor => vfsMknod K fs base path mode major minor
  | .symlink target base path => vfsSymlink K fs target base path
  | .chmod n mode => n.chmod K fs mode
  | .chown n uid gid follow => n.chown K fs uid gid follow

def ModeCall.Based (fs : FsCtx η) : ModeCall η → Prop
  | .open base _ _ _ | .mkdir base _ _ | .mknod base _ _ _ _ | .symlink _ base _ =>
    Canonical (base.getD fs.cwd)
  | .chmod n _ | .chown n _ _ _ => n.Based fs

def modeStep (K : Kernel η σ) (x : σ) (a : FsCtx η × ModeCall η) : Option (Except Errno Unit × σ) :=
  some ((a.2.perform K a.1).run x)

/-- Where `chown` writes a mode, the object is a regular file or a directory. -/
def TypeKnown (nt₀ : Nt η σ) (fs : FsCtx η) (uid gid : UInt32) (h : η) (x : σ) : Prop :=
  fs.euid = 0 → chownMask uid gid ≠ 0 → ∀ i y, (nt₀.queryStat h).run x = (.ok i, y) →
    has i.lxFlags HFS_LX_MODE = true ∨ typeOf i.kind = S_IFREG ∨ typeOf i.kind = S_IFDIR

def ModeCall.Safe (nt₀ : Nt η σ) (nt : NtObjects η σ) (K : Kernel η σ) (x : σ) (fs : FsCtx η) :
    ModeCall η → Prop
  | .mknod base p mode major minor => ∀ kind t, specialKind mode = some kind → specialTag kind = some t →
    MakesOrRemoves nt K fs base p (fun d name => newReparse nt d name
      (t.2 ||| (mode &&& 0o7777 &&& ~~~fs.umask) &&& 0o7777) fs.euid fs.egid major minor) (.bare t.1) x
  | .symlink target base p => target ≠ [] → target.length ≤ 4095 →
    MakesOrRemoves nt K fs base p (fun d name => newReparse nt d name 0o120777 fs.euid fs.egid 0 0)
      (lxLink target) x
  | .chown n uid gid follow => ∀ h y, (n.find K fs follow).run x = (.ok h, y) →
    TypeKnown nt₀ fs uid gid h y
  | _ => True

theorem existingFlags_create (st : KStat) (flags : UInt32) :
    has (existingFlags st flags) HFS_O_CREATE = false := by
  have hhost : has (hostFlags flags) HFS_O_CREATE = false := by
    rw [hostFlags]
    simp only [has_or]
    split_ifs <;> decide
  have hmasked : has (hostFlags flags &&& ~~~(HFS_O_WRITE ||| HFS_O_TRUNC)) HFS_O_CREATE = false := by
    rw [has, UInt32.and_assoc]
    exact hhost
  have hdir : has HFS_O_DIR HFS_O_CREATE = false ∧ has HFS_O_READ HFS_O_CREATE = false ∧
      has HFS_O_REPARSE HFS_O_CREATE = false := by decide
  rw [existingFlags]
  split_ifs <;> simp [has_or, hhost, hmasked, hdir]

theorem alongLinks_of_forall {K : Kernel η σ} {fs : FsCtx η} {flags mode : UInt32}
    {P : Except Errno (VfsLoc η) → Prop} (h : ∀ r, P r) (n : ℕ) (base : Option Bytes) (p : Bytes) (x : σ) :
    AlongLinks K fs flags mode P n base p x := by
  induction n generalizing base p x with
  | zero => trivial
  | succ n ih => exact ⟨h _, fun loc _ _ _ _ t y _ => ih (some loc.abs) t y⟩

section Calls

variable [DecidableEq ι] {nt₀ : Nt η σ} {nt : NtObjects η σ} {K : Kernel η σ} {fs : FsCtx η}
  {journal : σ → Journal ι} {object : η → ι} (hJ : Journaled nt₀ nt K.store journal object)

include hJ

theorem Journaled.opened {disp : Disposition} (hdisp : disp.ea = none) (d : η) (w : List UInt16)
    (a : UInt32) (o : OpenOptions) (x : σ) :
    journal ((nt₀.createFile d w a disp o).run x).2 = journal x := by
  rcases hJ.createFile d w a disp o x with hsame | ⟨h, y, ea, _, hea, _⟩
  · exact hsame
  · rw [hdisp] at hea
    cases hea

/-- The journal is whole after a call that leaves it alone. -/
theorem Journaled.reads : Guarded (ntKernel nt₀ nt K).store (fun _ _ => True)
    (fun x => (journal x).Truthful) (fun c => c.changes = false) := by
  refine store_guarded ?_ ?_ ?_ ?_ ?_ ?_
  · intro d w a o x hx
    rwa [hJ.opened rfl]
  · intro h x hx
    rwa [hJ.queried]
  · intro h x hx
    rwa [hJ.closed]
  · intro h x hx
    have hread : Keeps (fun x => (journal x).Truthful) (hfsReadlink nt h) (fun _ => True) :=
      hfsReadlink_keeps nt fun x hx => by rwa [hJ.getReparse]
    exact (hread x hx).1
  · intro x hx
    rwa [show (nt.store K.store).now = K.store.now from rfl, hJ.now]
  · intro x hx
    rwa [show (nt.store K.store).alloc = K.store.alloc from rfl, hJ.alloc]

/-- An open that creates no directory writes the mode of a regular file. -/
theorem hfsOpenat_whole (fl : UInt32) (hfl : has fl HFS_O_CREATE = true → has fl HFS_O_NODIR = true)
    (d : η) (name : Bytes) (mode uid gid : UInt32) (st : Bool) :
    Keeps (fun x => (journal x).Truthful) ((ntKernel nt₀ nt K).store.openat d name fl mode uid gid st)
      (fun _ => True) := by
  refine hfsOpenat_keeps_of ?_ ?_ ?_ d name fl mode uid gid st fun w x hx => ?_
  · intro d w a o x hx
    rwa [hJ.opened rfl]
  · intro h x hx
    rwa [hJ.queried]
  · intro h x hx
    rwa [hJ.closed]
  rcases hJ.createFile d w (accessOf fl) (dispositionOf fl mode uid gid) (optionsOf fl) x with
    hsame | ⟨h, y, ea, hrun, hea, hopts, hmade⟩
  · rwa [hsame]
  have hcreate : has fl HFS_O_CREATE = true ∧ ea.mode = 0o100000 ||| mode &&& 0o7777 := by
    rw [dispositionOf] at hea
    split_ifs at hea with hc <;> cases hea <;> exact ⟨hc, rfl⟩
  have hkind : (optionsOf fl).kind = .file := by
    have hdir : has fl HFS_O_DIR = false :=
      Bool.eq_false_iff.mpr fun hd => hopts ⟨hd, hfl hcreate.1⟩
    change (if has fl HFS_O_DIR then HfsKind.dir else .file) = .file
    rw [hdir, if_neg Bool.false_ne_true]
  have hwhole : ∀ k, typeOf k = typeOf (optionsOf fl).kind → WholeMode (some k) ea.mode := by
    intro k hk
    rw [hcreate.2]
    refine wholeMode_typed (k := .file) mode fun k' hk' => ?_
    cases hk'
    rw [hk, hkind]
  rw [hrun]
  rcases hmade with ⟨hfresh, hy⟩ | ⟨⟨k, hk, htype⟩, hy⟩
  · change (journal y).Truthful
    rw [hy]
    refine (hx.withKind hfresh _).write fun v hv => ?_
    rw [List.mem_singleton.mp hv]
    rw [Journal.withKind_self]
    exact hwhole _ rfl
  · change (journal y).Truthful
    rw [hy]
    refine hx.write fun v hv => ?_
    rw [List.mem_singleton.mp hv, hk]
    exact hwhole k htype

theorem openExisting_whole {wflags : UInt32} {loc : VfsLoc η} (hl : GoodLoc fs wflags loc) (flags : UInt32) :
    Keeps (fun x => (journal x).Truthful) (openExisting (ntKernel nt₀ nt K) fs loc flags)
      (fun _ => True) := by
  refine openExisting_keeps_of hJ.reads (seated_anywhere fs.table) hl fun root st _ => ?_
  have hno := existingFlags_create st flags
  rw [openResolved]
  split_ifs
  · exact (hJ.reads.reopen root [] _ true trivial).mono fun _ _ => trivial
  · refine (openHostDir_reads hJ.reads root loc.m _).bind fun d _ => ?_
    have hopen := hfsOpenat_whole hJ (existingFlags st flags)
      (fun hc => absurd hc (Bool.eq_false_iff.mp hno)) d (lastName loc.abs) 0 0 0 true
    exact hopen.closing (hJ.reads.close d)

theorem openCreate_whole (root : η) (loc : VfsLoc η) (flags mode : UInt32) :
    Keeps (fun x => (journal x).Truthful) (openCreate (ntKernel nt₀ nt K) fs root loc flags mode)
      (fun _ => True) := by
  rw [openCreate]
  refine (openHostDir_reads hJ.reads root loc.m _).bind fun d _ => ?_
  have hopen := hfsOpenat_whole hJ (createFlags flags) (fun _ => (createFlags_has flags).2) d
    loc.last (mode &&& 0o7777 &&& ~~~fs.umask) fs.euid fs.egid true
  exact (hopen.closing (hJ.reads.close d)).bind fun o _ => createdOrLink_keeps hJ.reads loc flags o

theorem vfsOpen_whole {base : Option Bytes} (hbase : Canonical (base.getD fs.cwd)) (p : Bytes)
    (flags mode : UInt32) : Keeps (fun x => (journal x).Truthful)
      (vfsOpen (ntKernel nt₀ nt K) fs base p flags mode) (fun _ => True) := by
  rw [vfsOpen]
  by_cases hcreat : has flags O_CREAT = true
  · rw [if_pos hcreat]
    exact fun x hx => openCreating_keeps_of hJ.reads (seated_anywhere fs.table)
      (P := fun _ => True) (fun _ hl => openExisting_whole hJ hl flags)
      (fun loc root _ _ _ => openCreate_whole hJ root loc flags mode) 41 hbase p x hx
      (alongLinks_of_forall (fun _ _ _ => trivial) 41 base p x)
  · rw [if_neg hcreat]
    exact (walkPath_keeps hJ.reads (seated_anywhere fs.table) hbase p _).bind fun loc hl =>
      openExisting_whole hJ hl flags

theorem hostParent_whole {base : Option Bytes} (hbase : Canonical (base.getD fs.cwd)) (p : Bytes) :
    Keeps (fun x => (journal x).Truthful) (hostParent (ntKernel nt₀ nt K) fs base p) (fun _ => True) := by
  rw [hostParent]
  refine (walkPath_keeps hJ.reads (seated_anywhere fs.table) hbase p _).bind fun loc _ => ?_
  cases loc.m.type with
  | proc => exact Keeps.throw
  | dev => exact Keeps.throw
  | host root =>
      dsimp only
      split_ifs
      · exact Keeps.throw
      · exact (openHostDir_reads hJ.reads root loc.m _).bind fun d _ => Keeps.pure trivial

theorem create_whole {d : η} {w : List UInt16} {a : UInt32} {o : OpenOptions} {eas : List LxEa}
    (heas : ∀ v ∈ writtenModes eas, WholeMode (some o.kind) v) :
    Keeps (fun x => (journal x).Truthful) (withErrno (nt.create d w a o eas)) (fun _ => True) := by
  refine withErrno_keeps fun x hx => ?_
  cases hrun : (nt.create d w a o eas).run x with
  | mk r y =>
      cases r with
      | error e =>
          change (journal y).Truthful
          rwa [hJ.notCreated d w a o eas x e y hrun]
      | ok h =>
          obtain ⟨hfresh, hy⟩ := hJ.created d w a o eas x h y hrun
          change (journal y).Truthful
          rw [hy]
          refine (hx.withKind hfresh _).write fun v hv => ?_
          rw [Journal.withKind_self]
          exact heas v hv

theorem hfsMkdir_whole (d : η) (name : Bytes) (mode uid gid : UInt32) (cs : Bool) :
    Keeps (fun x => (journal x).Truthful) (hfsMkdir nt d name mode uid gid cs) (fun _ => True) := by
  rw [hfsMkdir]
  cases nameToWide name 255 with
  | none => exact Keeps.throw
  | some w =>
      dsimp only
      by_cases hlen : w.length = 0
      · rw [if_pos hlen]
        exact Keeps.throw
      · rw [if_neg hlen]
        refine (create_whole hJ fun v hv => ?_).bind fun h _ => ?_
        · rw [writtenModes_buildLxEas, if_pos (by decide), List.mem_singleton] at hv
          rw [hv]
          exact wholeMode_typed (k := .dir) mode fun k' hk' => by cases hk'; rfl
        · have hclose : ∀ x, (journal x).Truthful → (journal (nt.close h x).2).Truthful :=
            fun x hx => by rwa [hJ.closedNew]
          cases cs with
          | false => exact (Keeps.pure (Q := fun _ => True) trivial).bind fun _ _ =>
              (Keeps.pure trivial).closing hclose
          | true =>
              have hset : Keeps (fun x => (journal x).Truthful) (withErrno (nt.setCaseSensitive h))
                  (fun _ => True) := withErrno_keeps fun x hx => by rwa [hJ.caseSensitive]
              exact hset.attempt.bind fun _ _ => (Keeps.pure trivial).closing hclose

/-- Before it is stamped, the new object is a file with the mode of what it is to be. -/
theorem newReparse_cases {d : η} {name : Bytes} {mode uid gid major minor : UInt32} {x z : σ}
    {r : Except Errno η} (hrun : (newReparse nt d name mode uid gid major minor).run x = (r, z)) :
    (∃ e, r = .error e ∧ journal z = journal x) ∨ ∃ h, r = .ok h ∧ (journal x).Fresh (object h) ∧
      journal z = ((journal x).withKind (object h) (some .file)).write [mode] (object h) := by
  rw [newReparse] at hrun
  cases hw : nameToWide name 255 with
  | none =>
      rw [hw] at hrun
      cases hrun
      exact .inl ⟨_, rfl, rfl⟩
  | some w =>
      rw [hw] at hrun
      dsimp only at hrun
      by_cases hlen : w.length = 0
      · rw [if_pos hlen] at hrun
        cases hrun
        exact .inl ⟨_, rfl, rfl⟩
      · rw [if_neg hlen, run_withErrno] at hrun
        cases hcreate : (nt.create d w
            (FILE_WRITE_DATA ||| FILE_READ_DATA ||| FILE_WRITE_ATTRIBUTES ||| FILE_READ_ATTRIBUTES)
            { directoryFile := false, nonDirectoryFile := true, openReparsePoint := true }
            (buildLxEas (HFS_LX_UID ||| HFS_LX_GID ||| HFS_LX_MODE |||
              (if major ≠ 0 ∨ minor ≠ 0 then HFS_LX_DEV else 0)) uid gid mode major minor)).run x with
        | mk s y =>
            rw [hcreate] at hrun
            cases s with
            | error e =>
                cases hrun
                exact .inl ⟨_, rfl, hJ.notCreated _ _ _ _ _ x e _ hcreate⟩
            | ok h =>
                cases hrun
                obtain ⟨hfresh, hy⟩ := hJ.created _ _ _ _ _ x h _ hcreate
                have hmode : has (HFS_LX_UID ||| HFS_LX_GID ||| HFS_LX_MODE |||
                    (if major ≠ 0 ∨ minor ≠ 0 then HFS_LX_DEV else 0)) HFS_LX_MODE = true := by
                  split_ifs <;> decide
                rw [writtenModes_buildLxEas, if_pos hmode] at hy
                exact .inr ⟨h, rfl, hfresh, hy⟩

/-- A new object that is stamped, or removed for want of it, leaves every mode whole. -/
theorem makeReparse_whole {d : η} {name : Bytes} {mode uid gid major minor : UInt32} {rp : Reparse}
    (hmode : WholeMode (some (kindOf 0x400 rp.tag)) mode) {x : σ} (hx : (journal x).Truthful)
    (hgone : ∀ h z, (newReparse nt d name mode uid gid major minor).run x = (.ok h, z) →
      StampedOrGone nt h rp z) :
    KeepsAt (fun x => (journal x).Truthful) x (makeReparse nt d name mode uid gid major minor rp)
      (fun _ => True) := by
  rw [makeReparse_eq, KeepsAt, run_bind]
  refine ⟨?_, fun _ _ => trivial⟩
  cases hnew : (newReparse nt d name mode uid gid major minor).run x with
  | mk r z =>
      rcases newReparse_cases hJ hnew with ⟨e, rfl, hz⟩ | ⟨h, rfl, hfresh, hz⟩
      · change (journal z).Truthful
        rwa [hz]
      · change (journal ((stampReparse nt h rp).run z).2).Truthful
        have hmade : ∀ k, (∀ v ∈ [mode], WholeMode k v) →
            ((journal z).withKind (object h) k).Truthful := by
          intro k hk
          rw [hz]
          exact hx.made hfresh hk _
        rw [stampReparse, run_bind, run_attempt, run_withErrno]
        cases hset : (nt.setReparse h rp).run z with
        | mk s y =>
            cases s with
            | ok u =>
                change (journal (nt.close h y).2).Truthful
                rw [hJ.closedNew, hJ.stamped h rp z y hset]
                exact hmade _ fun v hv => List.mem_singleton.mp hv ▸ hmode
            | error e =>
                obtain ⟨y', hdispose⟩ := hgone h z hnew e y hset
                change (journal (nt.close h ((nt.setDisposition h).run y).2).2).Truthful
                rw [hdispose, hJ.closedNew, hJ.disposed h y y' hdispose, hJ.notStamped h rp z e y hset]
                refine hmade none fun v hv => ⟨?_, fun _ _ hk => by cases hk⟩
                rw [List.mem_singleton.mp hv]
                exact hmode.bits

theorem vfsMkdir_whole {base : Option Bytes} (hbase : Canonical (base.getD fs.cwd)) (p : Bytes)
    (mode : UInt32) : Keeps (fun x => (journal x).Truthful)
      (vfsMkdir (ntKernel nt₀ nt K) fs base p mode) (fun _ => True) := by
  rw [vfsMkdir]
  refine (walkPath_keeps hJ.reads (seated_anywhere fs.table) hbase p _).bind fun loc _ => ?_
  cases loc.m.type with
  | proc => exact Keeps.throw
  | dev => exact Keeps.throw
  | host root =>
      dsimp only
      split_ifs
      · exact Keeps.throw
      · refine (openHostDir_reads hJ.reads root loc.m _).bind fun d _ => ?_
        exact (hfsMkdir_whole hJ d loc.last _ _ _ _).closing (hJ.reads.close d)

/-- A link or a special file made in the parent that a path comes to. -/
theorem inParent_whole {base : Option Bytes} (hbase : Canonical (base.getD fs.cwd)) {p : Bytes}
    {mode uid gid major minor : UInt32} {rp : Reparse} (hmode : WholeMode (some (kindOf 0x400 rp.tag)) mode)
    {x : σ} (hx : (journal x).Truthful)
    (hsafe : MakesOrRemoves nt (ntKernel nt₀ nt K) fs base p
      (fun d name => newReparse nt d name mode uid gid major minor) rp x) :
    KeepsAt (fun x => (journal x).Truthful) x (do
      let r ← hostParent (ntKernel nt₀ nt K) fs base p
      closing (nt₀.close r.2) (makeReparse nt r.2 r.1.last mode uid gid major minor rp))
      (fun _ => True) := by
  refine (hostParent_whole hJ hbase p x hx).bind fun r y hr hy _ => ?_
  obtain ⟨hmade, _⟩ := makeReparse_whole hJ hmode hy fun h z hnew => hsafe r y h z hr hnew
  rw [KeepsAt, run_closing]
  exact ⟨hJ.reads.close r.2 _ hmade, fun _ _ => trivial⟩

theorem vfsSymlink_whole {target : Bytes} {base : Option Bytes} (hbase : Canonical (base.getD fs.cwd))
    {p : Bytes} {x : σ} (hx : (journal x).Truthful)
    (hsafe : (ModeCall.symlink target base p).Safe nt₀ nt (ntKernel nt₀ nt K) x fs) :
    KeepsAt (fun x => (journal x).Truthful) x (vfsSymlink (ntKernel nt₀ nt K) fs target base p)
      (fun _ => True) := by
  rw [vfsSymlink]
  by_cases hnone : target = []
  · rw [if_pos hnone]
    exact Keeps.throw x hx
  · rw [if_neg hnone]
    by_cases hlong : 4095 < target.length
    · refine (hostParent_whole hJ hbase p x hx).bind fun r y _ hy _ => ?_
      change KeepsAt _ y (closing (nt₀.close r.2) (hfsSymlink nt r.2 r.1.last target fs.euid fs.egid)) _
      rw [hfsSymlink, if_pos (.inr hlong)]
      exact Keeps.throw.closing (hJ.reads.close r.2) y hy
    · have hmake : ∀ d name, hfsSymlink nt d name target fs.euid fs.egid =
          makeReparse nt d name 0o120777 fs.euid fs.egid 0 0 (lxLink target) := by
        intro d name
        rw [hfsSymlink, if_neg (by simp [hnone, hlong])]
      change KeepsAt _ x (do
        let r ← hostParent (ntKernel nt₀ nt K) fs base p
        closing (nt₀.close r.2) (hfsSymlink nt r.2 r.1.last target fs.euid fs.egid)) _
      simp only [hmake]
      refine inParent_whole hJ hbase ?_ hx (hsafe hnone (by omega))
      exact wholeMode_typed (k := .lxlink) 0o777 fun k hk => by cases hk; rfl

omit [DecidableEq ι] hJ in
/-- The type and the tag that `hfs_mknod` gives a special file belong together. -/
theorem specialTag_kind {kind : HfsKind} {t : UInt32 × UInt32} (h : specialTag kind = some t) :
    t.2 = typeOf kind ∧ kindOf 0x400 (Reparse.bare t.1).tag = kind := by
  cases kind <;> cases h <;> decide

theorem vfsMknod_whole {mode major minor : UInt32} {base : Option Bytes}
    (hbase : Canonical (base.getD fs.cwd)) {p : Bytes} {x : σ} (hx : (journal x).Truthful)
    (hsafe : (ModeCall.mknod base p mode major minor).Safe nt₀ nt (ntKernel nt₀ nt K) x fs) :
    KeepsAt (fun x => (journal x).Truthful) x (vfsMknod (ntKernel nt₀ nt K) fs base p mode major minor)
      (fun _ => True) := by
  rw [vfsMknod]
  by_cases hreg : mode &&& S_IFMT = 0 ∨ mode &&& S_IFMT = S_IFREG
  · rw [if_pos hreg]
    refine ((vfsOpen_whole hJ hbase p _ _).bind fun f _ => ?_) x hx
    refine Keeps.lift fun y hy => ?_
    cases f with
    | host h kind flags path m => exact hJ.reads.close h y hy
    | synth made flags path => exact hy
  · rw [if_neg hreg]
    cases hkind : specialKind mode with
    | none => exact Keeps.throw x hx
    | some kind =>
        cases htag : specialTag kind with
        | none =>
            refine (hostParent_whole hJ hbase p x hx).bind fun r y _ hy _ => ?_
            change KeepsAt _ y (closing (nt₀.close r.2) (hfsMknod nt r.2 r.1.last kind _ _ _ _ _)) _
            rw [hfsMknod, htag]
            exact Keeps.throw.closing (hJ.reads.close r.2) y hy
        | some t =>
            have hmake : ∀ d name mode uid gid, hfsMknod nt d name kind mode uid gid major minor =
                makeReparse nt d name (t.2 ||| mode &&& 0o7777) uid gid major minor (.bare t.1) := by
              intro d name mode uid gid
              rw [hfsMknod, htag]
            change KeepsAt _ x (do
              let r ← hostParent (ntKernel nt₀ nt K) fs base p
              closing (nt₀.close r.2) (hfsMknod nt r.2 r.1.last kind
                (mode &&& 0o7777 &&& ~~~fs.umask) fs.euid fs.egid major minor)) _
            simp only [hmake]
            obtain ⟨htype, hknown⟩ := specialTag_kind htag
            refine inParent_whole hJ hbase ?_ hx (hsafe kind t hkind htag)
            rw [hknown, htype]
            exact wholeMode_typed _ fun k hk => by cases hk; rfl

theorem hfsSetLx_whole {h : η} {which uid gid mode major minor : UInt32} {x : σ}
    (hx : (journal x).Truthful)
    (hmode : has which HFS_LX_MODE = true → WholeMode ((journal x).kinds (object h)) mode) :
    (journal ((hfsSetLx nt h which uid gid mode major minor).run x).2).Truthful := by
  rw [hfsSetLx]
  split_ifs
  · exact hx
  · change (journal ((nt.setEa h (buildLxEas which uid gid mode major minor)).run x).2).Truthful
    rw [hJ.setEa]
    refine hx.write fun v hv => ?_
    rw [writtenModes_buildLxEas] at hv
    split_ifs at hv with hwhich
    · rw [List.mem_singleton.mp hv]
      exact hmode hwhich
    · cases hv

/-- What follows the query of an object starts with its kind known. -/
theorem afterQuery_whole {h : η} {f : NtInfo → Call Errno σ Unit} {x : σ} (hx : (journal x).Truthful)
    (hf : ∀ i y, (nt₀.queryStat h).run x = (.ok i, y) → (journal y).Truthful →
      (journal y).kinds (object h) = some i.kind → (journal ((f i).run y).2).Truthful) :
    (journal ((withErrno (nt₀.queryStat h) >>= f).run x).2).Truthful := by
  have hkept := hJ.queried h x
  rw [run_bind, run_withErrno]
  cases hquery : (nt₀.queryStat h).run x with
  | mk r y =>
      rw [hquery] at hkept
      cases r with
      | error e =>
          change (journal y).Truthful
          rwa [hkept]
      | ok i =>
          refine hf i y hquery ?_ ?_
          · rwa [hkept]
          · rw [hkept]
            exact hJ.query h x i y hquery

theorem chmodHandle_whole (h : η) (mode : UInt32) {x : σ} (hx : (journal x).Truthful) :
    (journal ((chmodHandle (ntKernel nt₀ nt K) fs h mode).run x).2).Truthful := by
  rw [chmodHandle_eq nt₀ nt rfl rfl]
  refine afterQuery_whole hJ hx fun i y _ hy hkind => ?_
  by_cases hperm : fs.euid ≠ 0 ∧ has i.lxFlags HFS_LX_UID = true ∧ i.lxUid ≠ fs.euid
  · rw [if_pos hperm]
    exact hy
  · rw [if_neg hperm]
    refine hfsSetLx_whole hJ hy fun _ => ?_
    rw [hkind]
    exact wholeMode_typed mode fun k hk => by cases hk; rfl

theorem chownHandle_whole {h : η} {uid gid : UInt32} {x : σ} (hx : (journal x).Truthful)
    (hknown : TypeKnown nt₀ fs uid gid h x) :
    (journal ((chownHandle (ntKernel nt₀ nt K) fs h uid gid).run x).2).Truthful := by
  rw [chownHandle_eq nt₀ nt rfl rfl]
  refine afterQuery_whole hJ hx fun i y hquery hy hkind => ?_
  by_cases hroot : fs.euid ≠ 0
  · rw [if_pos hroot]
    exact hy
  rw [if_neg hroot]
  by_cases hnone : chownMask uid gid = 0
  · rw [if_pos hnone]
    exact hy
  rw [if_neg hnone]
  refine hfsSetLx_whole hJ hy fun hwhich => ?_
  rw [(chownMask_has uid gid (has i.lxFlags HFS_LX_MODE)).1] at hwhich
  have hmode : has i.lxFlags HFS_LX_MODE = false := by simpa using hwhich
  rw [hkind, chownMode, hmode, if_neg Bool.false_ne_true]
  rcases hknown (not_not.mp hroot) hnone i y hquery with hhas | hreg | hdir
  · rw [hmode] at hhas
    cases hhas
  · have hndir : i.kind ≠ .dir := by
      intro hk
      rw [hk] at hreg
      exact absurd hreg (by decide)
    rw [if_neg hndir]
    exact wholeMode_typed (k := .file) 0o644 fun k hk => by cases hk; exact hreg
  · rw [if_pos (typeOf_eq_dir.mp hdir)]
    exact wholeMode_typed (k := .dir) 0o755 fun k hk => by cases hk; exact hdir

theorem findClosing_whole {n : Named η} (hn : n.Based fs) {follow : Bool} {act : η → Call Errno σ Unit}
    {x : σ} (hx : (journal x).Truthful)
    (hact : ∀ h y, (n.find (ntKernel nt₀ nt K) fs follow).run x = (.ok h, y) → (journal y).Truthful →
      (journal ((act h).run y).2).Truthful) :
    (journal ((n.find (ntKernel nt₀ nt K) fs follow >>= fun h =>
      closing ((ntKernel nt₀ nt K).store.close h) (act h)).run x).2).Truthful := by
  obtain ⟨hfound, _⟩ := Named.find_keeps hJ.reads hn follow x hx
  rw [run_bind]
  cases hfind : (n.find (ntKernel nt₀ nt K) fs follow).run x with
  | mk r y =>
      rw [hfind] at hfound
      cases r with
      | error e => exact hfound
      | ok h => exact hJ.reads.close h _ (hact h y hfind hfound)

/-- One call leaves every mode whole. -/
theorem ModeCall.whole {c : ModeCall η} (hbased : c.Based fs) {x : σ} (hx : (journal x).Truthful)
    (hsafe : c.Safe nt₀ nt (ntKernel nt₀ nt K) x fs) :
    (journal ((c.perform (ntKernel nt₀ nt K) fs).run x).2).Truthful := by
  cases c with
  | «open» base p flags mode =>
      have hopen : Keeps (fun x => (journal x).Truthful)
          ((ModeCall.open base p flags mode).perform (ntKernel nt₀ nt K) fs) (fun _ => True) :=
        (vfsOpen_whole hJ hbased p flags mode).bind fun _ _ => Keeps.pure trivial
      exact (hopen x hx).1
  | mkdir base p mode => exact (vfsMkdir_whole hJ hbased p mode x hx).1
  | mknod base p mode major minor => exact (vfsMknod_whole hJ hbased hx hsafe).1
  | symlink target base p => exact (vfsSymlink_whole hJ hbased hx hsafe).1
  | chmod n mode =>
      rw [ModeCall.perform, Named.chmod_eq]
      exact findClosing_whole hJ hbased hx fun h y _ hy => chmodHandle_whole hJ h mode hy
  | chown n uid gid follow =>
      rw [ModeCall.perform, Named.chown_eq]
      exact findClosing_whole hJ hbased hx fun h y hfind hy => chownHandle_whole hJ hy (hsafe h y hfind)

/-- In a run of calls that do not go wrong in this way, every mode that was written is whole. -/
theorem written_modes_whole {as : List (FsCtx η × ModeCall η)}
    {h : List ((FsCtx η × ModeCall η) × Except Errno Unit)} {x y : σ} (hnone : (journal x).modes = [])
    (hsafe : ActionRuns.EachMeets (modeStep (ntKernel nt₀ nt K))
      (fun z a => a.2.Based a.1 ∧ a.2.Safe nt₀ nt (ntKernel nt₀ nt K) z a.1) x as)
    (hrun : ActionRuns.run (modeStep (ntKernel nt₀ nt K)) x as = some (h, y)) :
    (journal y).Truthful := by
  have hx : (journal x).Truthful := by
    intro v i hv
    rw [hnone] at hv
    cases hv
  refine ActionRuns.run_history_of (P := fun _ z => (journal z).Truthful) ?_ as [] hx hsafe hrun
  intro _ z a r z' hz hc hs
  have hwhole := ModeCall.whole hJ hc.1 hz hc.2
  have hrun := Option.some.inj hs
  rw [hrun] at hwhole
  exact hwhole

end Calls

theorem applied_kind (eas : List LxEa) (i : NtInfo) : (eas.foldl LxEa.applied i).kind = i.kind := by
  induction eas generalizing i with
  | nil => rfl
  | cons ea eas ih =>
      rw [List.foldl_cons, ih]
      cases ea <;> rfl

/-- A host with one object, and the modes that were written on it. -/
def markedNt : Nt Unit (NtInfo × List (UInt32 × Unit)) where
  createFile _ w _ _ _ := if w = [] then pure () else throw .objectNameNotFound
  queryStat _ := fun x => (.ok x.1, x)
  close _ := pure ()

def markedObjects : NtObjects Unit (NtInfo × List (UInt32 × Unit)) where
  create _ _ _ _ _ := throw .accessDenied
  setReparse _ _ := throw .accessDenied
  getReparse _ := throw .notAReparsePoint
  setDisposition _ := throw .accessDenied
  setCaseSensitive _ := throw .accessDenied
  setEa _ eas := fun x => (.ok (), (eas.foldl LxEa.applied x.1,
    x.2 ++ (writtenModes eas).map fun v => (v, ())))
  close _ := pure ()

def markedKernel : Kernel Unit (NtInfo × List (UInt32 × Unit)) where
  store := HostStore.idle
  proc := { fds := fun _ => none, exe := [], maps := [] }
  stack := []

def markedJournal (x : NtInfo × List (UInt32 × Unit)) : Journal Unit := ⟨fun _ => some x.1.kind, x.2⟩

theorem marked_journaled :
    Journaled markedNt markedObjects markedKernel.store markedJournal (fun _ => ()) where
  createFile _ w _ _ _ x := by
    unfold markedNt
    dsimp only
    split_ifs <;> exact .inl rfl
  created _ _ _ _ _ _ _ _ hrun := nomatch hrun
  notCreated _ _ _ _ _ _ _ _ hrun := by
    cases hrun
    rfl
  stamped _ _ _ _ hrun := nomatch hrun
  notStamped _ _ _ _ _ hrun := by
    cases hrun
    rfl
  disposed _ _ _ hrun := nomatch hrun
  setEa h eas x := by
    change markedJournal (eas.foldl LxEa.applied x.1, _) = _
    rw [markedJournal, applied_kind]
    rfl
  query _ x i y hrun := by
    cases hrun
    rfl
  queried _ _ := rfl
  caseSensitive _ _ := rfl
  getReparse _ _ := rfl
  closed _ _ := rfl
  closedNew _ _ := rfl
  now _ := rfl
  alloc _ := rfl

/-- `fchown` of the object to user and group 1000, by root. -/
def chownMarked : FsCtx Unit × ModeCall Unit :=
  (FsCtx.initial () 1 true, .chown (.file (.host () .host O_RDWR (str "/f") statMount)) 1000 1000 true)

def chownRun (i : NtInfo) :=
  ActionRuns.run (modeStep (ntKernel markedNt markedObjects markedKernel)) (i, []) [chownMarked]

theorem chown_file_writes_whole_mode : ∃ h y, chownRun {} = some (h, y) ∧
    y.2 = [(0o100644, ())] ∧ (markedJournal y).Truthful := by
  have hsafe : ActionRuns.EachMeets (modeStep (ntKernel markedNt markedObjects markedKernel))
      (fun z a => a.2.Based a.1 ∧ a.2.Safe markedNt markedObjects
        (ntKernel markedNt markedObjects markedKernel) z a.1) ({}, []) [chownMarked] := by
    refine ⟨⟨trivial, fun h y hfind _ _ i z hquery => ?_⟩, fun _ _ _ => trivial⟩
    cases hfind
    cases hquery
    exact .inr (.inl (by decide))
  exact ⟨_, _, rfl, by decide, written_modes_whole marked_journaled rfl hsafe rfl⟩

/-- A pipe without a mode, as a Windows program may leave it, is given that of a regular file. -/
theorem chown_fifo_writes_file_mode : ∃ h y,
    chownRun { fileAttributes := 0x400, reparseTag := 0x80000024 } = some (h, y) ∧
      y.2 = [(0o100644, ())] ∧ (markedJournal y).kinds () = some .fifo ∧ ¬(markedJournal y).Truthful := by
  refine ⟨_, _, rfl, by decide, by decide, fun h => ?_⟩
  have hmode := (h 0o100644 () (by decide)).type { kind := .fifo } none (by decide)
  revert hmode
  decide

end SysvNt
