import SysvNt.MountPaths
import SysvNt.Operations

/-!
# What the walk asks the host for

Each call of the host store that opens or changes a name takes an open directory and the name
below it. A store is guarded when it keeps an invariant as long as the calls made of it are
safe. The walk, and the two questions it asks of the mounts, only read, and only at names that
are no mount points.
-/

namespace SysvNt

open FallibleCalls StateCalls

variable {η σ : Type}

/-- A call of the host store on a name: the directory's place, the name, and whether the call may
change anything there. -/
structure HostCall where
  dir : List Bytes
  name : Bytes
  changes : Bool
  deriving DecidableEq

def mayChange (flags : UInt32) : Bool := has flags (HFS_O_CREATE ||| HFS_O_TRUNC)

/-- A store that keeps an invariant as long as only safe calls are made of it; `At` says where its
handles are. -/
structure Guarded (H : HostStore η σ) (At : η → List Bytes → Prop) (I : σ → Prop)
    (Safe : HostCall → Prop) : Prop where
  openat : ∀ d ps n fl mode uid gid st, At d ps → Safe ⟨ps, n, mayChange fl⟩ →
    Keeps I (H.openat d n fl mode uid gid st) (fun o => At o.h (ps ++ [n]))
  reopen : ∀ h ps fl st, At h ps → Keeps I (H.reopen h fl st) (fun o => At o.h ps)
  stat : ∀ h, Keeps I (H.stat h) (fun _ => True)
  readlink : ∀ h, Keeps I (H.readlink h) (fun _ => True)
  close : ∀ h x, I x → I (H.close h x).2
  now : ∀ x, I x → I (H.now x).2
  alloc : ∀ x, I x → I (H.alloc x).2

/-- The roots of the host mounts are opened where the mounts are, and reading a name that is no
mount point is safe. -/
structure Seated (T : MountTable η) (At : η → List Bytes → Prop) (Safe : HostCall → Prop) :
    Prop where
  read : ∀ d n, Uncrossed T d n → Safe ⟨d, n, false⟩
  place : ∀ m ∈ T.mounts, ∀ root, m.type = .host root → At root (namesOf m.point)

theorem Guarded.openat_read {H : HostStore η σ} {At : η → List Bytes → Prop} {I : σ → Prop}
    {Safe : HostCall → Prop} (hG : Guarded H At I Safe) {d : η} {ps : List Bytes} {n : Bytes}
    (hd : At d ps) (h : Safe ⟨ps, n, false⟩) {fl : UInt32} (hfl : mayChange fl = false) (st : Bool) :
    Keeps I (H.openat d n fl 0 0 0 st) (fun o => At o.h (ps ++ [n])) := by
  rw [← hfl] at h
  exact hG.openat d ps n fl 0 0 0 st hd h

section Walking

variable {A : AbsStore σ} {I : σ → Prop} {fs : FsCtx η} {wflags : UInt32} {trailing : Bool}

theorem demandDir_keeps {abs : Bytes} {loc : VfsLoc η} {x : σ} (h : I (A.statAbs abs x).2) :
    I (demandDir A abs loc x).2 := by
  unfold demandDir
  rw [bind_apply]
  cases (A.statAbs abs x).1 <;> exact h

theorem walkEnd_keeps {abs : Bytes} {x : σ} (hx : I x) (h : I (A.statAbs abs x).2) :
    I (walkEnd A fs wflags trailing abs x).2 := by
  unfold walkEnd
  split_ifs
  · exact hx
  · exact demandDir_keeps h
  · exact hx

theorem walkLink_keeps {w : WalkState} {cand s : Bytes} {x : σ} (hx : I x)
    (h : I (A.readlinkAbs cand x).2) : I (walkLink (η := η) A w cand s x).2 := by
  unfold walkLink
  split_ifs
  · exact hx
  · rw [bind_apply]
    cases (A.readlinkAbs cand x).1 with
    | error e => exact h
    | ok target =>
        dsimp only
        cases spliceTarget w target s <;> exact h

variable (hstat : ∀ abs, Canonical abs → ∀ x, I x → I (A.statAbs abs x).2)
  (hlink : ∀ abs, Canonical abs → ∀ x, I x → I (A.readlinkAbs abs x).2)

include hstat hlink

theorem walkComponent_keeps {w : WalkState} {comp s : Bytes} (hw : Canonical w.abs)
    (hcomp : ValidName comp) {x : σ} (hx : I x) :
    I (walkComponent A fs wflags trailing w comp s x).2 := by
  unfold walkComponent
  cases hj : pathJoin PATH_MAX w.abs comp with
  | error e => exact hx
  | ok cand =>
      have hcand := hw.pathJoin hcomp hj
      dsimp only
      split_ifs
      · exact hx
      · have hst := hstat cand hcand x hx
        rw [bind_apply]
        cases (A.statAbs cand x).1 with
        | error e => exact hst
        | ok st =>
            dsimp only
            split_ifs
            · exact walkLink_keeps hst (hlink cand hcand _ hst)
            · exact hst
            · exact hst

theorem walkStep_keeps {w : WalkState} (hw : Canonical w.abs) {x : σ} (hx : I x) :
    I (walkStep A fs wflags trailing w x).2 := by
  have hst := hstat w.abs hw x hx
  unfold walkStep
  dsimp only
  by_cases hp : skipSlashes w.p = []
  · rw [if_pos hp]
    exact walkEnd_keeps hx hst
  rw [if_neg hp]
  split_ifs with hn hdot hdotdot hpar
  · exact hx
  · exact hx
  · exact hx
  · exact demandDir_keeps hst
  · exact walkComponent_keeps hstat hlink hw (component_valid hp hdot hdotdot) hx

theorem walk_keeps {base : Option Bytes} {path : Bytes} (hbase : Canonical (base.getD fs.cwd))
    {x : σ} (hx : I x) : I (walk A fs base path wflags x).2 := by
  unfold walk
  dsimp only
  split_ifs
  · exact hx
  · exact hx
  · refine (walkBody A fs wflags (hasTrailing (cstr path))).run_invariant
      (P := fun w => Canonical w.1.abs ∧ I w.2) (Q := fun r => I r.2) ?_ ?_ _
      ⟨walkStart_canonical _ hbase, hx⟩
    · intro w w' hw hs
      have hs := walkBody_continue.mp hs
      obtain ⟨hp, hmove⟩ := walkStep_continue hs
      have hkeep : I (walkStep A fs wflags (hasTrailing (cstr path)) w.1 w.2).2 :=
        walkStep_keeps hstat hlink hw.1 hw.2
      rw [hs] at hkeep
      exact ⟨hmove.canonical hp hw.1, hkeep⟩
    · intro w r hw hs
      have hkeep : I (walkStep A fs wflags (hasTrailing (cstr path)) w.1 w.2).2 :=
        walkStep_keeps hstat hlink hw.1 hw.2
      rw [walkBody_stop.mp hs] at hkeep
      exact hkeep

end Walking

/-- The names of a path below its mount's point: the directory's and the last one. -/
theorem below_mount {T : MountTable η} {abs : Bytes} (hc : Canonical abs)
    (hrel : pathRel (T.mountOf abs) abs ≠ []) :
    ∃ ps ds n, MountedAt T (T.mountOf abs) ps (ps ++ ds ++ [n]) ∧
      abs = render (ps ++ ds ++ [n]) ∧ pathParent abs = render (ps ++ ds) ∧ lastName abs = n := by
  obtain ⟨ns, hv, rfl, _⟩ := hc
  have hm := mountOf_mounted T hv
  obtain ⟨rest, hrest⟩ := hm.below
  have hps : ValidNames (namesOf (T.mountOf (render ns)).point) :=
    fun n hn => hv n (hm.below.subset hn)
  generalize namesOf (T.mountOf (render ns)).point = ps at hm hrest hps
  have hne : rest ≠ [] := by
    rintro rfl
    rw [← hrest, pathRel_render (by rw [hrest]; exact hm.point) hps] at hrel
    exact hrel rfl
  obtain ⟨ds, n, rfl⟩ := (List.eq_nil_or_concat rest).resolve_left hne
  rw [List.concat_eq_append, ← List.append_assoc] at hrest
  have hn : slash ∉ n := (hv n (by rw [← hrest]; simp)).slash_not_mem
  subst hrest
  exact ⟨ps, ds, n, hm, rfl, pathParent_render_snoc _ hn, lastName_render_snoc _ hn⟩

section Synth

variable {I : σ → Prop}

theorem procfsReadlink_keeps (pv : ProcView) (cwd rel : Bytes) :
    Keeps I (procfsReadlink pv cwd rel : Call Errno σ Bytes) (fun _ => True) := by
  rw [procfsReadlink]
  cases procClassify pv rel with
  | none => exact Keeps.throw
  | some cls =>
      cases cls with
      | fdn n =>
          dsimp only
          cases pv.fds n with
          | none => exact Keeps.throw
          | some f => cases f <;> exact Keeps.pure trivial
      | _ => first | exact Keeps.pure trivial | exact Keeps.throw

theorem devfsReadlink_keeps (rel : Bytes) :
    Keeps I (devfsReadlink rel : Call Errno σ Bytes) (fun _ => True) := by
  rw [devfsReadlink]
  cases devFind rel with
  | none => exact Keeps.throw
  | some d =>
      obtain ⟨i, d⟩ := d
      dsimp only
      cases d.link with
      | none => exact Keeps.throw
      | some t => exact Keeps.pure trivial

variable {H : HostStore η σ}

section Clock

variable (hnow : ∀ x, I x → I (H.now x).2)

include hnow

theorem procfsStat_keeps {pv : ProcView} (rel : Bytes) :
    Keeps I (procfsStat H pv rel) (fun _ => True) := by
  rw [procfsStat]
  cases procClassify pv rel with
  | none => exact Keeps.throw
  | some cls => exact (Keeps.lift hnow).bind fun _ _ => Keeps.pure trivial

theorem devfsStat_keeps (rel : Bytes) : Keeps I (devfsStat H rel) (fun _ => True) := by
  rw [devfsStat]
  split_ifs
  · exact (Keeps.lift hnow).bind fun _ _ => Keeps.pure trivial
  · cases devFind rel with
    | none => exact Keeps.throw
    | some d => exact (Keeps.lift hnow).bind fun _ _ => Keeps.pure trivial

end Clock

section Memory

variable (halloc : ∀ x, I x → I (H.alloc x).2)

include halloc

theorem allocate_keeps : Keeps I (allocate H) (fun _ => True) := by
  rw [allocate]
  refine (Keeps.lift halloc).bind fun ok _ => ?_
  cases ok
  · exact Keeps.throw
  · exact Keeps.pure trivial

theorem procfsOpen_keeps {pv : ProcView} (rel : Bytes) (flags : UInt32) :
    Keeps I (procfsOpen H pv rel flags) (fun _ => True) := by
  have hfile := allocate_keeps halloc
  have hopen : ∀ f : SynthFile × Bytes,
      Keeps I (do allocate H; allocate H; pure f) (fun _ => True) :=
    fun f => hfile.bind fun _ _ => hfile.bind fun _ _ => Keeps.pure trivial
  rw [procfsOpen]
  cases procClassify pv rel with
  | none => exact Keeps.throw
  | some cls =>
      dsimp only
      cases isLnk (procMode cls) with
      | true =>
          cases has flags O_PATH with
          | true => exact hfile.bind fun _ _ => Keeps.pure trivial
          | false => exact Keeps.throw
      | false =>
          cases isDir (procMode cls) with
          | false => exact hopen _
          | true =>
              by_cases hacc : flags &&& O_ACCMODE ≠ O_RDONLY
              · rw [if_neg Bool.false_ne_true, if_pos rfl, if_pos hacc]
                exact Keeps.throw
              · rw [if_neg Bool.false_ne_true, if_pos rfl, if_neg hacc]
                exact hopen _

theorem devfsOpen_keeps (rel : Bytes) (flags : UInt32) :
    Keeps I (devfsOpen H rel flags) (fun _ => True) := by
  have hfile := allocate_keeps halloc
  rw [devfsOpen]
  by_cases hrel : rel = []
  · rw [if_pos hrel]
    split_ifs
    · exact Keeps.throw
    · exact hfile.bind fun _ _ => Keeps.pure trivial
  · rw [if_neg hrel]
    cases devFind rel with
    | none => exact Keeps.throw
    | some d =>
        obtain ⟨i, d⟩ := d
        dsimp only
        cases d.link.isSome with
        | true => exact Keeps.throw
        | false =>
            cases has flags O_DIRECTORY with
            | true => exact Keeps.throw
            | false => exact hfile.bind fun _ _ => Keeps.pure trivial

end Memory

theorem statat_keeps {At : η → List Bytes → Prop} {Safe : HostCall → Prop} (hG : Guarded H At I Safe) {d : η}
    {ps : List Bytes} {n : Bytes} (hd : At d ps) (h : Safe ⟨ps, n, false⟩) :
    Keeps I (H.statat d n) (fun _ => True) := by
  rw [HostStore.statat]
  exact (hG.openat_read hd h (by decide) true).bind fun o _ => (Keeps.pure trivial).closing (hG.close o.h)

end Synth

/-- The walk keeps what its two questions keep. -/
theorem walkPath_keeps_of {K : Kernel η σ} {fs : FsCtx η} {I : σ → Prop}
    (hstat : ∀ abs, Canonical abs → Keeps I (statAbs K fs abs) (fun _ => True))
    (hlink : ∀ abs, Canonical abs → Keeps I (readlinkAbs K fs abs) (fun _ => True))
    {base : Option Bytes} (hbase : Canonical (base.getD fs.cwd)) (p : Bytes) (wflags : UInt32) :
    Keeps I (walkPath K fs base p wflags) (GoodLoc fs wflags) := by
  intro x hx
  refine ⟨?_, fun loc hloc => walk_good hbase (Prod.ext hloc rfl)⟩
  exact walk_keeps (A := absStore K fs) (fun abs habs x hx => (hstat abs habs x hx).1)
    (fun abs habs x hx => (hlink abs habs x hx).1) hbase hx

section Hosted

variable {K : Kernel η σ} {fs : FsCtx η} {At : η → List Bytes → Prop} {I : σ → Prop}
  {Safe : HostCall → Prop} (hG : Guarded K.store At I Safe)
  (hS : Seated fs.table At Safe)

include hG

theorem openChain_keeps (comps : List Bytes) {cur : η} {ps : List Bytes} (hcur : At cur ps)
    (owned : Bool) (h : ∀ pre n suf, comps = pre ++ n :: suf → Safe ⟨ps ++ pre, n, false⟩) :
    Keeps I (openChain K.store cur owned comps)
      (fun r => At r.1 (ps ++ comps) ∧ (r.2 = false → owned = false ∧ comps = [])) := by
  induction comps generalizing cur ps owned with
  | nil =>
      rw [openChain, List.append_nil]
      exact Keeps.pure ⟨hcur, fun h => ⟨h, rfl⟩⟩
  | cons comp comps ih =>
      have hclose : ∀ x, I x → I ((if owned then K.store.close cur else pure () : StateM σ Unit) x).2 := by
        intro x hx
        split_ifs
        · exact hG.close cur x hx
        · exact hx
      rw [openChain]
      generalize (if owned then K.store.close cur else pure () : StateM σ Unit) = closeCur at hclose ⊢
      split_ifs
      · exact Keeps.throw.closing hclose
      · have hfirst := h [] comp comps rfl
        rw [List.append_nil] at hfirst
        refine ((hG.openat_read hcur hfirst (by decide) false).closing hclose).bind fun o ho => ?_
        split_ifs
        · exact Keeps.throw.closing (hG.close o.h)
        · refine (ih ho true ?_).mono ?_
          · intro pre n suf hsplit
            rw [List.append_assoc]
            exact h (comp :: pre) n suf (by rw [hsplit]; rfl)
          · rintro r ⟨hat, hown⟩
            rw [List.append_assoc] at hat
            exact ⟨hat, fun hr => absurd (hown hr).1 (by simp)⟩

theorem newHostFile_keeps (o : Opened η) (flags : UInt32) (m : Mount η) (p : Bytes) :
    Keeps I (newHostFile K o flags m p) (fun _ => True) := by
  rw [newHostFile]
  refine (Keeps.lift hG.alloc).bind fun ok _ => ?_
  cases ok
  · exact Keeps.throw.closing (hG.close o.h)
  · exact Keeps.pure trivial

theorem createdOrLink_keeps (loc : VfsLoc η) (flags : UInt32) (o : Opened η) :
    Keeps I (createdOrLink K loc flags o) (fun _ => True) := by
  rw [createdOrLink]
  split_ifs
  · exact Keeps.throw.closing (hG.close o.h)
  · exact Keeps.throw.closing (hG.close o.h)
  · refine ((hG.readlink o.h).attempt.closing (hG.close o.h)).bind fun r _ => ?_
    exact (Keeps.liftExcept _).bind fun _ _ => Keeps.pure trivial
  · exact Keeps.throw.closing (hG.close o.h)
  · exact (newHostFile_keeps hG o flags _ _).bind fun _ _ => Keeps.pure trivial

omit hG in
/-- A store whose reads are safe everywhere opens any directory safely. -/
theorem openHostDir_reads (hG : Guarded K.store (fun _ _ => True) I (fun c => c.changes = false))
    (root : η) (m : Mount η) (abs : Bytes) : Keeps I (openHostDir K.store root m abs) (fun _ => True) := by
  rw [openHostDir]
  have hsafe : ∀ pre n suf, relComponents (pathRel m abs) = pre ++ n :: suf →
      (HostCall.mk ([] ++ pre) n false).changes = false := fun _ _ _ _ => rfl
  refine (openChain_keeps hG _ trivial false hsafe).bind fun r _ => ?_
  split_ifs
  · exact Keeps.pure trivial
  · exact (hG.reopen root [] _ false trivial).bind fun o _ => Keeps.pure trivial

include hS

/-- Opening a directory on the way from a mount's point to a path on it. -/
theorem openHostDir_keeps {m : Mount η} {root : η} {ps ds suf : List Bytes}
    (hm : MountedAt fs.table m ps (ps ++ ds ++ suf)) (hroot : m.type = .host root) :
    Keeps I (openHostDir K.store root m (render (ps ++ ds))) (fun d => At d (ps ++ ds)) := by
  have hps : ValidNames ps := fun n hn => hm.valid n (hm.below.subset hn)
  have hds : ValidNames ds := fun n hn => hm.valid n (by simp [hn])
  have hplace : At root ps := by
    have hat := hS.place m hm.mem root hroot
    rwa [hm.point, namesOf_render hps] at hat
  rw [openHostDir, pathRel_render hm.point hps, relComponents_relText hds]
  refine (openChain_keeps hG ds hplace false ?_).bind ?_
  · intro pre n suf' hsplit
    exact hS.read _ _ (hm.uncrossed (suf' ++ suf) (by rw [hsplit]; simp))
  · rintro r ⟨hat, hown⟩
    split_ifs with hr
    · exact Keeps.pure hat
    · obtain ⟨_, hnil⟩ := hown (by simpa using hr)
      rw [hnil, List.append_nil]
      exact (hG.reopen root ps _ false hplace).bind fun o ho => Keeps.pure ho

theorem statAbs_keeps {abs : Bytes} (hc : Canonical abs) :
    Keeps I (statAbs K fs abs) (fun _ => True) := by
  rw [statAbs]
  cases htype : (fs.table.mountOf abs).type with
  | proc => exact procfsStat_keeps hG.now _
  | dev => exact devfsStat_keeps hG.now _
  | host root =>
      dsimp only
      split_ifs with hrel
      · exact (hG.stat root).bind fun hs _ => Keeps.pure trivial
      · obtain ⟨ps, ds, n, hm, habs, hparent, hlast⟩ := below_mount hc hrel
        rw [hparent, hlast]
        refine (openHostDir_keeps hG hS hm htype).bind fun d hd => ?_
        have hsafe := hS.read _ _ (hm.uncrossed [] rfl)
        exact ((statat_keeps hG hd hsafe).closing (hG.close d)).bind fun hs _ => Keeps.pure trivial

theorem readlinkAbs_keeps {abs : Bytes} (hc : Canonical abs) :
    Keeps I (readlinkAbs K fs abs) (fun _ => True) := by
  rw [readlinkAbs]
  cases htype : (fs.table.mountOf abs).type with
  | proc => exact procfsReadlink_keeps _ _ _
  | dev => exact devfsReadlink_keeps _
  | host root =>
      dsimp only
      split_ifs with hrel
      · exact Keeps.throw
      · obtain ⟨ps, ds, n, hm, habs, hparent, hlast⟩ := below_mount hc hrel
        rw [hparent, hlast]
        refine (openHostDir_keeps hG hS hm htype).bind fun d hd => ?_
        have hsafe := hS.read _ _ (hm.uncrossed [] rfl)
        refine ((hG.openat_read hd hsafe (by decide) false).closing (hG.close d)).bind fun o _ => ?_
        exact (hG.readlink o.h).closing (hG.close o.h)

theorem walkPath_keeps {base : Option Bytes} (hbase : Canonical (base.getD fs.cwd)) (p : Bytes)
    (wflags : UInt32) : Keeps I (walkPath K fs base p wflags) (GoodLoc fs wflags) :=
  walkPath_keeps_of (fun _ hc => statAbs_keeps hG hS hc) (fun _ hc => readlinkAbs_keeps hG hS hc)
    hbase p wflags

/-- Opening a resolved parent. -/
theorem openParent_keeps {wflags : UInt32} {loc : VfsLoc η} (hl : GoodLoc fs wflags loc) {root : η}
    (hroot : loc.m.type = .host root) :
    Keeps I (openHostDir K.store root loc.m loc.abs) (fun d => At d (namesOf loc.abs)) := by
  obtain ⟨hv, hrender⟩ := hl.canonical.names
  have hm := mountOf_mounted fs.table hv
  rw [hrender, ← hl.m_eq] at hm
  obtain ⟨ds, hds⟩ := hm.below
  rw [← hds, ← List.append_nil (_ ++ ds)] at hm
  have hdir := openHostDir_keeps hG hS hm hroot
  rw [hds, hrender] at hdir
  exact hdir

/-- Opening the object at a resolved place. -/
theorem openLast_keeps {m : Mount η} {root : η} {abs : Bytes} (hc : Canonical abs)
    (hm : m = fs.table.mountOf abs) (hroot : m.type = .host root) (hrel : pathRel m abs ≠ [])
    (fl : UInt32) (hsafe : ∀ d n, Uncrossed fs.table d n → Safe ⟨d, n, mayChange fl⟩) (st : Bool) :
    Keeps I (do
      let d ← openHostDir K.store root m (pathParent abs)
      closing (K.store.close d) (K.store.openat d (lastName abs) fl 0 0 0 st)) (fun _ => True) := by
  subst hm
  obtain ⟨ps, ds, n, hm, habs, hparent, hlast⟩ := below_mount hc hrel
  rw [hparent, hlast]
  refine (openHostDir_keeps hG hS hm hroot).bind fun d hd => ?_
  have hname := hsafe _ _ (hm.uncrossed [] rfl)
  exact ((hG.openat d _ n _ 0 0 0 st hd hname).mono fun _ _ => trivial).closing (hG.close d)

theorem openAttr_keeps {abs : Bytes} (hc : Canonical abs) :
    Keeps I (openAttr K fs abs) (fun _ => True) := by
  rw [openAttr]
  cases htype : (fs.table.mountOf abs).type with
  | proc => exact Keeps.throw
  | dev => exact Keeps.throw
  | host root =>
      dsimp only
      split_ifs with hrel
      · have hplace := hS.place _ (fs.table.mountOf_best abs).mem root htype
        exact (hG.reopen root _ _ false hplace).bind fun _ _ => Keeps.pure trivial
      · have hopen := openLast_keeps hG hS hc rfl htype hrel (HFS_O_ATTR ||| HFS_O_REPARSE) hS.read false
        rw [← bind_assoc]
        exact hopen.bind fun _ _ => Keeps.pure trivial

theorem linkSource_keeps (hD : RootsAreDirs K.store fs.table) {base : Option Bytes}
    (hbase : Canonical (base.getD fs.cwd)) (p : Bytes) (follow : Bool) :
    Keeps I (linkSource K fs base p follow) (fun r => Canonical r.1.abs ∧
      r.1.m = fs.table.mountOf r.1.abs ∧ r.1.m.type = .host r.2 ∧ pathRel r.1.m r.1.abs ≠ []) := by
  rw [linkSource]
  refine (walkPath_keeps hG hS hbase p _).bind fun loc hl => ?_
  cases htype : loc.m.type with
  | proc => exact Keeps.throw
  | dev => exact Keeps.throw
  | host root =>
      intro x hx
      refine (statAbs_keeps hG hS hl.canonical x hx).bind fun st x' hst hx' _ => ?_
      split_ifs with hdir
      · exact Keeps.throw x' hx'
      · refine Keeps.pure ⟨hl.canonical, hl.m_eq, htype, fun hrel => hdir ?_⟩ x' hx'
        rw [hl.m_eq] at hrel
        exact statAbs_root hD hrel (congrArg Prod.fst hst)

end Hosted

end SysvNt
