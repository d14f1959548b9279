import SysvNt.SingleNames
import SysvNt.TreeHosts

/-!
# The object behind a descriptor

A descriptor holds the handle of an object and the path that it was opened by. `linkat` of an empty
path and `openat` below a descriptor go by the path. What stands there by then may be another object,
and the text that a pipe has for its path may be the name of a file.
-/

namespace SysvNt

open FallibleCalls NameTrees StateCalls

variable {η σ ι ν : Type}

def AT_SYMLINK_FOLLOW : UInt32 := 0x400

def AT_EMPTY_PATH : UInt32 := 0x1000

/-- A host read as directories of names. `enters` says where opening a name as a directory leads, through
the links that Windows follows too, `follows` where such a link leads, and `text` what a link says. -/
structure DirectoryView (η σ ι : Type) extends TreeView η σ ι where
  enters : σ → Names ι Bytes
  follows : σ → ι → Option ι
  text : σ → ι → Option Bytes

structure Puts (T T' : Names ι Bytes) (d : ι) (n : Bytes) (i : ι) : Prop where
  free : T d n = none
  named : T' d n = some i
  others : ∀ e m, (e, m) ≠ (d, n) → T' e m = T e m

theorem Puts.unique {T T' : Names ι Bytes} {d e : ι} {n m : Bytes} {i j : ι} (h : Puts T T' d n i)
    (h' : Puts T T' e m j) : i = j := by
  have hplace : (d, n) = (e, m) := by
    by_contra hne
    have hsame := h'.others d n hne
    rw [h.named, h.free] at hsame
    cases hsame
  cases hplace
  exact Option.some.inj (h.named.symm.trans h'.named)

/-- What the host opens at a name, told to make a file if there is none: the object of that name, or a new
one. At a Windows link, which is followed inside the call, it is what the link leads to, made there, under
whatever name that place has, if there was none. -/
inductive DirectoryView.EntryOpened (V : DirectoryView η σ ι) (x x' : σ) (d : ι) (n : Bytes) (i : ι) : Prop
  | existing (found : V.names x d n = some i) (same : V.names x' = V.names x) : V.EntryOpened x x' d n i
  | created (puts : Puts (V.names x) (V.names x') d n i) : V.EntryOpened x x' d n i
  | inside {l : ι} (found : V.names x d n = some l) (windows : V.kind l = .winlink)
      (leads : V.follows x' l = some i)
      (names : V.names x' = V.names x ∨ ∃ e m, Puts (V.names x) (V.names x') e m i) : V.EntryOpened x x' d n i

/-- What `hostfs.h` says of the calls, read on the names: an open that is told not to create finds
the name, one that may create finds it or makes it, Windows links followed, or hands back a reparse point
that Windows does not follow; and a link is one name more. `view` is all that the host shows of itself. -/
structure DirectoryView.Serves (V : DirectoryView η σ ι) (H : HostStore η σ) (view : σ → ν) : Prop where
  quiet : Quiet H view
  shown : ∀ x y, view x = view y →
    V.names x = V.names y ∧ V.enters x = V.enters y ∧ V.follows x = V.follows y ∧ V.text x = V.text y
  looked : ∀ x d n o x', (H.openat d n HFS_O_REPARSE 0 0 0 true).run x = (.ok o, x') →
    ∃ i, V.names x (V.obj d) n = some i ∧ o.st.kind = V.kind i
  entered : ∀ x d n o x', (H.openat d n (HFS_O_READ ||| HFS_O_DIR) 0 0 0 false).run x = (.ok o, x') →
    o.reparse = false → V.enters x (V.obj d) n = some (V.obj o.h)
  reopened : ∀ x h fl st o x', (H.reopen h fl st).run x = (.ok o, x') → V.obj o.h = V.obj h
  opened : ∀ x d n fl st o x', has fl HFS_O_CREATE = false → (H.openat d n fl 0 0 0 st).run x = (.ok o, x') →
    V.names x' = V.names x ∧ ∃ i, V.names x (V.obj d) n = some i ∧
      (has fl HFS_O_REPARSE = true ∨ typeOf (V.kind i) ≠ S_IFLNK → V.obj o.h = i)
  created : ∀ x d n fl mode uid gid o x', has fl HFS_O_CREATE = true →
    (H.openat d n fl mode uid gid true).run x = (.ok o, x') →
      (o.reparse = false ∧ V.EntryOpened x x' (V.obj d) n (V.obj o.h)) ∨
      (o.reparse = true ∧ V.names x' = V.names x ∧ V.names x (V.obj d) n = some (V.obj o.h) ∧
        o.st.kind = V.kind (V.obj o.h))
  told : ∀ x h t x', (H.readlink h).run x = (.ok t, x') → V.text x (V.obj h) = some t
  linked : ∀ x h d n x', (H.link h d n).run x = (.ok (), x') →
    Puts (V.names x) (V.names x') (V.obj d) n (V.obj h)
  unlinked : ∀ x h d n e x', (H.link h d n).run x = (.error e, x') → view x' = view x

/-- The object at a place on a host mount: its directory is entered name by name. -/
def DirectoryView.At (V : DirectoryView η σ ι) (fs : FsCtx η) (x : σ) (abs : Bytes) (i : ι) : Prop :=
  ∃ root e, (fs.table.mountOf abs).type = .host root ∧
    follow (V.enters x) (V.obj root) (relComponents (pathRel (fs.table.mountOf abs) (pathParent abs))) = some e ∧
    V.names x e (lastName abs) = some i

theorem DirectoryView.At.unique {V : DirectoryView η σ ι} {fs : FsCtx η} {x : σ} {abs : Bytes} {i j : ι}
    (hi : V.At fs x abs i) (hj : V.At fs x abs j) : i = j := by
  obtain ⟨r, e, hr, he, hi⟩ := hi
  obtain ⟨r', e', hr', he', hj⟩ := hj
  obtain rfl := MountType.host.inj (hr.symm.trans hr')
  obtain rfl := Option.some.inj (he.symm.trans he')
  exact Option.some.inj (hi.symm.trans hj)

/-- A walk of the text comes to an object on a host mount that is no directory. `stat` tells objects
apart by the device of the mount and the object. -/
def DirectoryView.LeadsToFile (V : DirectoryView η σ ι) (K : Kernel η σ) (fs : FsCtx η) (x : σ)
    (base : Option Bytes) (path : Bytes) (wflags : UInt32) (o : UInt64 × ι) : Prop :=
  ∃ loc y, (walkPath K fs base path wflags).run x = (.ok loc, y) ∧ (fs.table.mountOf loc.abs).dev = o.1 ∧
    V.At fs x loc.abs o.2 ∧ V.kind o.2 ≠ .dir

theorem DirectoryView.LeadsToFile.unique {V : DirectoryView η σ ι} {K : Kernel η σ} {fs : FsCtx η} {x : σ}
    {base : Option Bytes} {path : Bytes} {wflags : UInt32} {o o' : UInt64 × ι}
    (ho : V.LeadsToFile K fs x base path wflags o) (ho' : V.LeadsToFile K fs x base path wflags o') : o = o' := by
  obtain ⟨loc, y, hrun, hdev, hat, _⟩ := ho
  obtain ⟨loc', y', hrun', hdev', hat', _⟩ := ho'
  rw [hrun] at hrun'
  cases hrun'
  exact Prod.ext (hdev.symm.trans hdev') (hat.unique hat')

section Reading

variable {V : DirectoryView η σ ι} {K : Kernel η σ} {view : σ → ν} (hS : V.Serves K.store view) {fs : FsCtx η}

include hS

theorem openat_quiet {d : η} {n : Bytes} {fl : UInt32} (hfl : mayChange fl = false) (st : Bool) (x : σ) :
    view ((K.store.openat d n fl 0 0 0 st).run x).2 = view x :=
  Keeps.view_eq (fun v => (hS.quiet.guarded v).openat d [] n fl 0 0 0 st trivial hfl) x

theorem openChain_leads (comps : List Bytes) {cur : η} (owned : Bool) {x x' : σ} {k : η} {b : Bool}
    (h : (openChain K.store cur owned comps).run x = (.ok (k, b), x')) :
    follow (V.enters x) (V.obj cur) comps = some (V.obj k) ∧ (b = false → owned = false ∧ comps = []) := by
  induction comps generalizing cur owned x with
  | nil =>
      cases h
      exact ⟨rfl, fun hb => ⟨hb, rfl⟩⟩
  | cons n comps ih =>
      have hclose : ∀ y, view ((if owned then K.store.close cur else pure () : StateM σ Unit) y).2 = view y := by
        intro y
        split_ifs
        · exact close_quiet hS.quiet cur y
        · rfl
      rw [openChain] at h
      generalize (if owned then K.store.close cur else pure () : StateM σ Unit) = closeCur at h hclose
      by_cases hlong : NAME_MAX < n.length
      · rw [if_pos hlong] at h
        cases h
      rw [if_neg hlong] at h
      obtain ⟨o, z, ho, h⟩ := of_run_bind h
      obtain ⟨y, hopened, rfl⟩ := of_run_closing ho
      have hread : mayChange (HFS_O_READ ||| HFS_O_DIR) = false := by decide
      have hy : view y = view x := by
        have hquiet := openat_quiet hS (d := cur) (n := n) hread false x
        rwa [hopened] at hquiet
      cases hfresh : o.reparse with
      | true =>
          rw [hfresh, if_pos rfl] at h
          cases h
      | false =>
          rw [hfresh, if_neg Bool.false_ne_true] at h
          have henters := hS.entered x cur n o y hopened hfresh
          obtain ⟨hrest, howned⟩ := ih true h
          have hsame := (hS.shown _ _ ((hclose y).trans hy)).2.1
          rw [hsame] at hrest
          refine ⟨?_, fun hb => absurd (howned hb).1 (by decide)⟩
          rw [follow, henters]
          exact hrest

/-- `open_host_dir` goes where the names of the path lead. -/
theorem openHostDir_leads {root : η} {m : Mount η} {abs : Bytes} {x x' : σ} {k : η}
    (h : (openHostDir K.store root m abs).run x = (.ok k, x')) :
    follow (V.enters x) (V.obj root) (relComponents (pathRel m abs)) = some (V.obj k) ∧ view x' = view x := by
  have hview : view x' = view x := by
    have hquiet := openHostDir_quiet hS.quiet root m abs x
    rwa [h] at hquiet
  refine ⟨?_, hview⟩
  rw [openHostDir] at h
  obtain ⟨⟨c, b⟩, y, hdown, h⟩ := of_run_bind h
  obtain ⟨hleads, hown⟩ := openChain_leads hS _ false hdown
  cases b with
  | true =>
      cases h
      exact hleads
  | false =>
      obtain ⟨o, z, hopened, h⟩ := of_run_bind h
      cases h
      rw [hS.reopened y root _ _ o x' hopened]
      rw [(hown rfl).2]
      rfl

omit hS in
theorem isLnk_kstatOf_iff (m : Mount η) (hs : HfsStat) (name : Option Bytes) :
    isLnk (kstatOf m hs name).mode = true ↔ typeOf hs.kind = S_IFLNK := by
  have htype : (kstatOf m hs name).mode &&& S_IFMT = typeOf hs.kind := modeOf_type hs name
  rw [isLnk, decide_eq_true_eq, htype]

/-- `stat_abs` answers of the object at the place. -/
theorem statAbs_at {abs : Bytes} {root : η} (hroot : (fs.table.mountOf abs).type = .host root)
    (hrel : pathRel (fs.table.mountOf abs) abs ≠ []) {x x' : σ} {st : KStat}
    (h : (statAbs K fs abs).run x = (.ok st, x')) :
    ∃ i, V.At fs x abs i ∧ (isLnk st.mode = true ↔ typeOf (V.kind i) = S_IFLNK) ∧
      (isDir st.mode = true ↔ V.kind i = .dir) := by
  rw [statAbs, hroot] at h
  dsimp only at h
  rw [if_neg hrel] at h
  obtain ⟨d, y, hopen, h⟩ := of_run_bind h
  obtain ⟨hleads, hy⟩ := openHostDir_leads hS hopen
  obtain ⟨hs, z, hstat, h⟩ := of_run_bind h
  cases h
  obtain ⟨z, hstat, -⟩ := of_run_closing hstat
  rw [HostStore.statat] at hstat
  obtain ⟨o, w, hlook, hstat⟩ := of_run_bind hstat
  obtain ⟨w', hstat, -⟩ := of_run_closing hstat
  cases hstat
  obtain ⟨i, hi, hkind⟩ := hS.looked y d _ o _ hlook
  rw [(hS.shown y x hy).1] at hi
  refine ⟨i, ⟨root, V.obj d, hroot, hleads, hi⟩, ?_, ?_⟩
  · rw [isLnk_kstatOf_iff, hkind]
  · rw [isDir_kstatOf_iff, hkind]

/-- The object that `vfs_link` gives another name is the one that the old path leads to. -/
theorem linkSource_leads (hD : RootsAreDirs K.store fs.table) {base : Option Bytes}
    (hbase : Canonical (base.getD fs.cwd)) {path : Bytes} {follow : Bool} {x y : σ} {loc : VfsLoc η} {root : η}
    (h : (linkSource K fs base path follow).run x = (.ok (loc, root), y)) :
    ∃ i, V.LeadsToFile K fs x base path (if follow then 0 else W_NOFOLLOW) (loc.m.dev, i) ∧
      V.At fs y loc.abs i ∧ Canonical loc.abs ∧ loc.m = fs.table.mountOf loc.abs ∧ loc.m.type = .host root ∧
      view y = view x := by
  have hkeep := (linkSource_keeps (hS.quiet.guarded (view x)) (seated_anywhere fs.table) hD hbase path follow).of_run
    rfl h
  obtain ⟨hview, hcanon, hm, hroot, hrel⟩ := hkeep
  rw [linkSource] at h
  obtain ⟨loc', z, hwalk, h⟩ := of_run_bind h
  have hz : view z = view x := by
    have hquiet := walkPath_quiet hS.quiet hbase path (if follow then 0 else W_NOFOLLOW) x
    rwa [hwalk] at hquiet
  cases htype : loc'.m.type with
  | proc => rw [htype] at h; cases h
  | dev => rw [htype] at h; cases h
  | host root' =>
      rw [htype] at h
      obtain ⟨st, w, hstat, h⟩ := of_run_bind h
      split_ifs at h with hdir
      · cases h
      cases h
      rw [hm] at hroot hrel
      obtain ⟨i, hi, -, hkind⟩ := statAbs_at hS hroot hrel hstat
      have hat : V.At fs x loc.abs i := by
        rw [DirectoryView.At, (hS.shown x z hz.symm).1, (hS.shown x z hz.symm).2.1]
        exact hi
      have hfile : V.LeadsToFile K fs x base path (if follow then 0 else W_NOFOLLOW) (loc.m.dev, i) :=
        ⟨loc, z, hwalk, congrArg Mount.dev hm.symm, hat, fun hd => hdir (hkind.mpr hd)⟩
      refine ⟨i, hfile, ?_, hcanon, hm, htype, hview⟩
      rw [DirectoryView.At, (hS.shown y x hview).1, (hS.shown y x hview).2.1]
      exact hat

theorem hostParent_quiet {base : Option Bytes} (hbase : Canonical (base.getD fs.cwd)) (path : Bytes) (x : σ) :
    view ((hostParent K fs base path).run x).2 = view x := by
  refine Keeps.view_eq (Q := fun _ => True) (fun v => ?_) x
  rw [hostParent]
  refine (walkPath_keeps (hS.quiet.guarded v) (seated_anywhere fs.table) hbase path _).bind fun loc _ => ?_
  cases loc.m.type with
  | proc => exact Keeps.throw
  | dev => exact Keeps.throw
  | host root =>
      dsimp only
      split_ifs
      · exact Keeps.throw
      · exact (openHostDir_reads (hS.quiet.guarded v) root loc.m loc.abs).bind fun _ _ => Keeps.pure trivial

omit hS in
theorem hostParent_place {base : Option Bytes} (hbase : Canonical (base.getD fs.cwd)) {path : Bytes} {x x' : σ}
    {loc : VfsLoc η} {d : η} (h : (hostParent K fs base path).run x = (.ok (loc, d), x')) :
    Canonical loc.abs ∧ loc.m = fs.table.mountOf loc.abs := by
  rw [hostParent] at h
  obtain ⟨l, y, hwalk, h⟩ := of_run_bind h
  have hgood : GoodLoc fs W_PARENT l := walk_good hbase hwalk
  cases htype : l.m.type with
  | proc => rw [htype] at h; cases h
  | dev => rw [htype] at h; cases h
  | host root =>
      rw [htype] at h
      dsimp only at h
      split_ifs at h
      · cases h
      · obtain ⟨k, z, -, h⟩ := of_run_bind h
        cases h
        exact ⟨hgood.canonical, hgood.m_eq⟩

/-- A link that is made is a name for what the old path leads to, at the new path's last name. -/
theorem vfsLink_puts (hD : RootsAreDirs K.store fs.table) {ob nb : Option Bytes}
    (hob : Canonical (ob.getD fs.cwd)) (hnb : Canonical (nb.getD fs.cwd)) {op np : Bytes} {follow : Bool}
    {x x' : σ} {u : Unit} (h : (vfsLink K fs ob op nb np follow).run x = (.ok u, x')) :
    ∃ i src y loc d z, V.LeadsToFile K fs x ob op (if follow then 0 else W_NOFOLLOW) (loc.m.dev, i) ∧
      (linkSource K fs ob op follow).run x = (.ok src, y) ∧ (hostParent K fs nb np).run y = (.ok (loc, d), z) ∧
      Puts (V.names x) (V.names x') (V.obj d) loc.last i := by
  rw [vfsLink] at h
  obtain ⟨⟨oloc, root⟩, y, hsrc, h⟩ := of_run_bind h
  obtain ⟨i, hleads, hat, hoabs, hm, hroot, hy⟩ := linkSource_leads hS hD hob hsrc
  obtain ⟨⟨loc, d⟩, z, hparent, h⟩ := of_run_bind h
  have hz : view z = view y := by
    have hquiet := hostParent_quiet hS hnb np y
    rwa [hparent] at hquiet
  obtain ⟨w₁, hmade, rfl⟩ := of_run_closing h
  dsimp only at hmade
  split_ifs at hmade with hpoint
  · cases hmade
  have hmount : loc.m = oloc.m := by
    obtain ⟨habs, hnm⟩ := hostParent_place hnb hparent
    obtain ⟨hons, horender⟩ := hoabs.names
    obtain ⟨hnns, hnrender⟩ := habs.names
    rw [hm, hnm, ← horender, ← hnrender] at hpoint ⊢
    exact mountOf_point_inj hnns hons (not_not.mp hpoint)
  rw [← hmount] at hleads
  obtain ⟨od, v, hopen, hmade⟩ := of_run_bind hmade
  obtain ⟨hod, hv⟩ := openHostDir_leads hS hopen
  obtain ⟨o, v', hlook, hmade⟩ := of_run_bind hmade
  obtain ⟨q, hfound, rfl⟩ := of_run_closing hlook
  obtain ⟨w, hlink, rfl⟩ := of_run_closing hmade
  obtain ⟨hsame, j, hj, hobj⟩ := hS.opened v od _ _ _ o q (by decide) hfound
  have hvx : view v = view x := hv.trans (hz.trans hy)
  have hput := hS.linked _ o.h d loc.last w hlink
  rw [(hS.shown _ _ (close_quiet hS.quiet od q)).1, hsame, (hS.shown _ _ hvx).1, hobj (.inl (by decide))] at hput
  have hend : V.names (K.store.close d (K.store.close o.h w).2).2 = V.names w :=
    (hS.shown _ _ ((close_quiet hS.quiet d _).trans (close_quiet hS.quiet o.h w))).1
  obtain ⟨r, e, hr, he, hi⟩ := hat
  rw [← hm, hroot] at hr
  obtain rfl := MountType.host.inj hr
  rw [← hm, ← (hS.shown z y hz).2.1, hod] at he
  obtain rfl := Option.some.inj he
  obtain rfl : i = j := by
    rw [(hS.shown v z hv).1, (hS.shown z y hz).1, hi] at hj
    exact Option.some.inj hj
  exact ⟨i, (oloc, root), y, loc, d, z, hleads, hsrc, hparent, by rwa [hend]⟩

/-- A link that is refused changes nothing. -/
theorem vfsLink_refused (hD : RootsAreDirs K.store fs.table) {ob nb : Option Bytes}
    (hob : Canonical (ob.getD fs.cwd)) (hnb : Canonical (nb.getD fs.cwd)) {op np : Bytes} {follow : Bool}
    {x x' : σ} {e : Errno} (h : (vfsLink K fs ob op nb np follow).run x = (.error e, x')) :
    view x' = view x := by
  have hG := hS.quiet.guarded (view x)
  have hends : Ends (fun y => view y = view x) (vfsLink K fs ob op nb np follow) (fun _ _ => True)
      (fun y => view y = view x) := by
    have hclose : ∀ k y, view y = view x → view (K.store.close k y).2 = view x := fun k y hy =>
      (close_quiet hS.quiet k y).trans hy
    have hlink : ∀ k d n, Ends (fun y => view y = view x) (K.store.link k d n) (fun _ _ => True)
        (fun y => view y = view x) := fun k d n y hy =>
      ⟨fun _ _ _ => trivial, fun e z hz => (hS.unlinked y k d n e z hz).trans hy⟩
    rw [vfsLink]
    refine (linkSource_keeps hG (seated_anywhere fs.table) hD hob op follow).ends.bind fun src => ?_
    refine Ends.of_fact fun _ => ?_
    refine Ends.bind (Q := fun _ y => view y = view x) (fun y hy => ?_) fun r => ?_
    · have hquiet := hostParent_quiet hS hnb np y
      refine ⟨fun a z hz => ?_, fun e z hz => ?_⟩ <;> rw [hz] at hquiet <;> exact hquiet.trans hy
    · refine Ends.closing (Q := fun _ _ => True) ?_ (fun _ _ _ => trivial) (hclose r.2)
      split_ifs
      · exact Ends.throw fun _ hy => hy
      · refine (openHostDir_reads hG src.2 src.1.m _).bind_ends fun od _ => ?_
        refine Keeps.bind_ends (A := fun _ => True) ?_ fun o _ => ?_
        · have hread : mayChange (HFS_O_ATTR ||| HFS_O_REPARSE) = false := by decide
          exact ((hG.openat od [] _ _ 0 0 0 false trivial hread).mono fun _ _ => trivial).closing (hG.close od)
        · exact (hlink o.h r.2 r.1.last).closing (fun _ _ _ => trivial) (hclose o.h)
  exact (hends x rfl).2 e x' h

end Reading

def DirectoryView.LeadsToDir (V : DirectoryView η σ ι) (fs : FsCtx η) (x : σ) (path : Bytes) (e : ι) : Prop :=
  ∃ root, (fs.table.mountOf path).type = .host root ∧
    follow (V.enters x) (V.obj root) (relComponents (pathRel (fs.table.mountOf path) path)) = some e

/-- The description is of what is at the place: the root of a mount, the object that has the name there,
or what the kernel itself has there. -/
def DirectoryView.IsAt (V : DirectoryView η σ ι) (fs : FsCtx η) (x : σ) (abs : Bytes) : OpenFile η → Prop
  | .host h _ _ _ m => m = fs.table.mountOf abs ∧
      ((∃ root, m.type = .host root ∧ pathRel m abs = [] ∧ V.obj h = V.obj root) ∨
        pathRel m abs ≠ [] ∧ V.At fs x abs (V.obj h))
  | .synth _ _ path => (∀ root, (fs.table.mountOf abs).type ≠ .host root) ∧ path = abs

def DirectoryView.LeadsTo (V : DirectoryView η σ ι) (K : Kernel η σ) (fs : FsCtx η) (view : σ → ν)
    (base : Option Bytes) (path : Bytes) (x : σ) (f : OpenFile η) : Prop :=
  ∃ y loc z, view y = view x ∧ (walkPath K fs base path 0).run y = (.ok loc, z) ∧ V.IsAt fs x loc.abs f

/-- What an open with `O_CREAT` of a path comes to: what is there, for a path without a last name; what the
directory of its parent has or gets under its last name; or, through a link there, what an open of the link's
text comes to. -/
inductive DirectoryView.OpensFrom (V : DirectoryView η σ ι) (K : Kernel η σ) (fs : FsCtx η) (view : σ → ν) :
    Option Bytes → Bytes → σ → OpenFile η → σ → Prop
  | place {base : Option Bytes} {p : Bytes} {x x' : σ} {f : OpenFile η} (leads : V.LeadsTo K fs view base p x f)
      (same : V.names x' = V.names x) : V.OpensFrom K fs view base p x f x'
  | entry {base : Option Bytes} {p path : Bytes} {x y x' : σ} {loc : VfsLoc η} {d : ι} {h : η} {kind : HostFileKind}
      {kept : UInt32} (walk : (walkPath K fs base p W_PARENT).run x = (.ok loc, y)) (dir : V.LeadsToDir fs x loc.abs d)
      (opened : V.EntryOpened x x' d loc.last (V.obj h)) :
      V.OpensFrom K fs view base p x (.host h kind kept path loc.m) x'
  | link {base : Option Bytes} {p t : Bytes} {x y z x' : σ} {loc : VfsLoc η} {d l : ι} {f : OpenFile η}
      (walk : (walkPath K fs base p W_PARENT).run x = (.ok loc, y)) (dir : V.LeadsToDir fs x loc.abs d)
      (found : V.names x d loc.last = some l) (linux : V.kind l = .lxlink) (text : V.text x l = some t)
      (seen : view z = view x) (rest : V.OpensFrom K fs view (some loc.abs) t z f x') :
      V.OpensFrom K fs view base p x f x'

/-- What an open of the name `n` in the directory `d` comes to, which the path `p` leads to: the object of
that name, or a new one with `O_CREAT`, or what the link of that name leads to. -/
inductive DirectoryView.OpenedIn (V : DirectoryView η σ ι) (K : Kernel η σ) (fs : FsCtx η) (view : σ → ν)
    (flags : UInt32) (p n : Bytes) (d : ι) (x x' : σ) : OpenFile η → Prop
  | existing {h : η} {kind : HostFileKind} {kept : UInt32} {path : Bytes} (found : V.names x d n = some (V.obj h))
      (same : V.names x' = V.names x) :
      V.OpenedIn K fs view flags p n d x x' (.host h kind kept path (fs.table.mountOf p))
  | creating {h : η} {kind : HostFileKind} {kept : UInt32} {path : Bytes} (asked : has flags O_CREAT = true)
      (opened : V.EntryOpened x x' d n (V.obj h)) :
      V.OpenedIn K fs view flags p n d x x' (.host h kind kept path (fs.table.mountOf p))
  | followed {f : OpenFile η} {l : ι} (found : V.names x d n = some l) (link : typeOf (V.kind l) = S_IFLNK)
      (asked : has flags O_NOFOLLOW = false ∨ has flags O_CREAT = true) (leads : V.LeadsTo K fs view (some p) n x f)
      (same : V.names x' = V.names x) : V.OpenedIn K fs view flags p n d x x' f
  | through {f : OpenFile η} {l : ι} {t : Bytes} {z : σ} (asked : has flags O_CREAT = true)
      (found : V.names x d n = some l) (linux : V.kind l = .lxlink) (text : V.text x l = some t)
      (seen : view z = view x) (rest : V.OpensFrom K fs view (some p) t z f x') :
      V.OpenedIn K fs view flags p n d x x' f

theorem existingFlags_open (st : KStat) (flags : UInt32) : has (existingFlags st flags) HFS_O_CREATE = false := by
  have hhost : has (hostFlags flags) HFS_O_CREATE = false := by
    rw [hostFlags, has_or, has_or]
    split_ifs <;> decide
  have hmask : has (hostFlags flags &&& ~~~(HFS_O_WRITE ||| HFS_O_TRUNC)) HFS_O_CREATE = false := by
    rw [has, decide_eq_false_iff_not, not_not] at hhost ⊢
    rw [UInt32.and_assoc, UInt32.and_comm _ HFS_O_CREATE, ← UInt32.and_assoc, hhost, UInt32.zero_and]
  have hdir : has HFS_O_DIR HFS_O_CREATE = false := by decide
  have hread : has HFS_O_READ HFS_O_CREATE = false := by decide
  have hreparse : has HFS_O_REPARSE HFS_O_CREATE = false := by decide
  rw [existingFlags]
  split_ifs
  · rw [has_or, has_or, has_or, hmask, hdir, hread, hreparse]
    rfl
  · rw [has_or, hhost, hreparse]
    rfl
  · rw [has_or, has_or, hmask, hdir, hread]
    rfl
  · exact hhost

theorem existingFlags_reparse {st : KStat} (hl : isLnk st.mode = true) (flags : UInt32) :
    has (existingFlags st flags) HFS_O_REPARSE = true := by
  have hreparse : has HFS_O_REPARSE HFS_O_REPARSE = true := by decide
  rw [existingFlags, if_pos hl, has_or, hreparse, Bool.or_true]

section Opening

variable {V : DirectoryView η σ ι} {K : Kernel η σ} {view : σ → ν} (hS : V.Serves K.store view) {fs : FsCtx η}

/-- A name that is no mount point, below a directory on a host mount. -/
theorem place_below {p n cand : Bytes} (hp : Canonical p) (hn : ValidName n) (hj : pathJoin PATH_MAX p n = .ok cand)
    (hm : (mountAt fs.table.mounts cand).isSome = false) :
    pathParent cand = p ∧ lastName cand = n ∧ fs.table.mountOf cand = fs.table.mountOf p ∧
      pathRel (fs.table.mountOf cand) cand ≠ [] := by
  obtain ⟨hv, hrender⟩ := hp.names
  rw [← hrender] at hj
  obtain ⟨hcand, _⟩ := pathJoin_ok hv hj
  have hfree : Uncrossed fs.table (namesOf p) n := by
    intro m hmem he
    have hsome : (mountAt fs.table.mounts cand).isSome = true :=
      List.find?_isSome.mpr ⟨m, hmem, by simpa [hcand] using he⟩
    rw [hsome] at hm
    cases hm
  have hmount := mountOf_snoc hv hn hfree
  rw [hrender, ← hcand] at hmount
  have hbest := mountOf_mounted fs.table hv
  obtain ⟨ds, hds⟩ := hbest.below
  rw [hrender] at hbest hds
  have hbelow : ValidNames (namesOf (fs.table.mountOf p).point ++ ds ++ [n]) := by
    rw [hds]
    exact hv.snoc hn
  have hrel := pathRel_below_ne hbest.point hbelow
  rw [hds, ← hcand, ← hmount] at hrel
  refine ⟨?_, ?_, hmount, hrel⟩
  · rw [hcand, pathParent_render_snoc _ hn.slash_not_mem, hrender]
  · rw [hcand, lastName_render_snoc _ hn.slash_not_mem]

include hS

theorem newHostFile_made {o : Opened η} {flags : UInt32} {m : Mount η} {path : Bytes} {x x' : σ} {f : OpenFile η}
    (h : (newHostFile K o flags m path).run x = (.ok f, x')) :
    ∃ kind kept, f = .host o.h kind kept path m ∧ V.names x' = V.names x := by
  have hquiet := newHostFile_quiet hS.quiet o flags m path x
  rw [h] at hquiet
  exact ⟨_, _, newHostFile_host h, (hS.shown _ _ hquiet).1⟩

theorem openResolved_at {root : η} {loc : VfsLoc η} (hm : loc.m = fs.table.mountOf loc.abs)
    (hrel : loc.rel = pathRel loc.m loc.abs) (hroot : loc.m.type = .host root) {st : KStat} {flags : UInt32}
    {x y z x' : σ} {o : Opened η} (hstat : (statAbs K fs loc.abs).run x = (.ok st, y)) (hz : view z = view x)
    (h : (openResolved K root loc (existingFlags st flags)).run z = (.ok o, x')) :
    (pathRel loc.m loc.abs = [] ∧ V.obj o.h = V.obj root ∨
      pathRel loc.m loc.abs ≠ [] ∧ V.At fs x loc.abs (V.obj o.h)) ∧ V.names x' = V.names x := by
  rw [openResolved, hrel] at h
  by_cases hnil : pathRel loc.m loc.abs = []
  · rw [if_pos hnil] at h
    have hkeep := ((hS.quiet.guarded (view z)).reopen root [] _ true trivial).of_run rfl h
    exact ⟨.inl ⟨hnil, hS.reopened z root _ _ o x' h⟩, (hS.shown _ _ (hkeep.1.trans hz)).1⟩
  rw [if_neg hnil] at h
  have hnamed : pathRel (fs.table.mountOf loc.abs) loc.abs ≠ [] := hm ▸ hnil
  have hroot' : (fs.table.mountOf loc.abs).type = .host root := hm ▸ hroot
  obtain ⟨i, ⟨r, e, hr, he, hi⟩, hlnk, -⟩ := statAbs_at hS hroot' hnamed hstat
  obtain rfl := MountType.host.inj (hroot'.symm.trans hr)
  obtain ⟨d, w, hdir, h⟩ := of_run_bind h
  obtain ⟨hd, hw⟩ := openHostDir_leads hS hdir
  obtain ⟨q, hfound, rfl⟩ := of_run_closing h
  obtain ⟨hnames, j, hj, hobj⟩ := hS.opened w d _ _ true o q (existingFlags_open st flags) hfound
  have hwx : view w = view x := hw.trans hz
  rw [hm, (hS.shown z x hz).2.1, he] at hd
  obtain rfl : e = V.obj d := Option.some.inj hd
  rw [(hS.shown w x hwx).1, hi] at hj
  obtain rfl : i = j := Option.some.inj hj
  have hobj : V.obj o.h = i := by
    apply hobj
    by_cases hl : typeOf (V.kind i) = S_IFLNK
    · exact .inl (existingFlags_reparse (hlnk.mpr hl) flags)
    · exact .inr hl
  refine ⟨.inr ⟨hnil, root, V.obj d, hr, he, by rw [hobj]; exact hi⟩, ?_⟩
  rw [(hS.shown _ _ (close_quiet hS.quiet d q)).1, hnames, (hS.shown w x hwx).1]

/-- What is opened at a resolved place is what is there. -/
theorem openExisting_isAt (hT : InPlace fs.table) {loc : VfsLoc η} (hcanon : Canonical loc.abs)
    (hm : loc.m = fs.table.mountOf loc.abs) (hrel : loc.rel = pathRel loc.m loc.abs) {flags : UInt32} {x x' : σ}
    {f : OpenFile η} (h : (openExisting K fs loc flags).run x = (.ok f, x')) :
    V.IsAt fs x loc.abs f ∧ V.names x' = V.names x := by
  rw [openExisting] at h
  cases htype : loc.m.type with
  | proc =>
      rw [htype] at h
      obtain ⟨⟨g, path⟩, y, hopen, h⟩ := of_run_bind h
      cases h
      have hquiet := ((procfsOpen_keeps (hS.quiet.guarded (view x)).alloc loc.rel flags).of_run rfl hopen).1
      rw [hrel, hm] at hopen
      rw [hm] at htype
      refine ⟨⟨fun root hroot => ?_, procfsOpen_path hT hcanon htype hopen⟩, (hS.shown _ _ hquiet).1⟩
      rw [htype] at hroot
      cases hroot
  | dev =>
      rw [htype] at h
      obtain ⟨⟨g, path⟩, y, hopen, h⟩ := of_run_bind h
      cases h
      have hquiet := ((devfsOpen_keeps (hS.quiet.guarded (view x)).alloc loc.rel flags).of_run rfl hopen).1
      rw [hrel, hm] at hopen
      rw [hm] at htype
      refine ⟨⟨fun root hroot => ?_, devfsOpen_path hT hcanon htype hopen⟩, (hS.shown _ _ hquiet).1⟩
      rw [htype] at hroot
      cases hroot
  | host root =>
      rw [htype] at h
      dsimp only at h
      rw [openExistingHost] at h
      obtain ⟨st, y, hstat, h⟩ := of_run_bind h
      have hy : view y = view x := by
        have hquiet : view ((statAbs K fs loc.abs).run x).2 = view x := statAbs_quiet hS.quiet hcanon x
        rwa [hstat] at hquiet
      obtain ⟨u, y', hcheck, h⟩ := of_run_bind h
      have hy' : view y' = view x :=
        ((Keeps.liftExcept (I := fun w => view w = view x) _).of_run hy hcheck).1
      obtain ⟨o, z, hopen, h⟩ := of_run_bind h
      obtain ⟨hat, hnames⟩ := openResolved_at hS hm hrel htype hstat hy' hopen
      split_ifs at h
      · cases h
      · cases h
      · obtain ⟨kind, kept, rfl, hend⟩ := newHostFile_made hS h
        refine ⟨⟨hm, ?_⟩, hend.trans hnames⟩
        rcases hat with ⟨hnil, hobj⟩ | hat
        · exact .inl ⟨root, htype, hnil, hobj⟩
        · exact .inr hat

/-- An open of one name below the path: of what is mounted there, or in the directory that the path leads to. -/
def OpensBelow (V : DirectoryView η σ ι) (K : Kernel η σ) (fs : FsCtx η) (view : σ → ν) (flags : UInt32)
    (p n : Bytes) (x x' : σ) (f : OpenFile η) : Prop :=
  (∃ cand, pathJoin PATH_MAX p n = .ok cand ∧ (mountAt fs.table.mounts cand).isSome = true ∧ V.IsAt fs x cand f) ∨
    ∃ e, V.LeadsToDir fs x p e ∧ V.OpenedIn K fs view flags p n e x x' f

theorem DirectoryView.IsAt.congr {abs : Bytes} {x y : σ} {f : OpenFile η} (hy : view y = view x)
    (h : V.IsAt fs y abs f) : V.IsAt fs x abs f := by
  cases f with
  | host k kind kept path m =>
      simpa only [DirectoryView.IsAt, DirectoryView.At, (hS.shown y x hy).1, (hS.shown y x hy).2.1] using h
  | synth g kept path => exact h

/-- What is opened where a walk from the path leads. -/
theorem openWalked_leads (hT : InPlace fs.table) {base : Option Bytes} (hbase : Canonical (base.getD fs.cwd))
    {p : Bytes} {flags : UInt32} {x y z x' : σ} {loc : VfsLoc η} {f : OpenFile η} (hy : view y = view x)
    (hwalk : (walkPath K fs base p 0).run y = (.ok loc, z)) (h : (openExisting K fs loc flags).run z = (.ok f, x')) :
    V.LeadsTo K fs view base p x f ∧ V.names x' = V.names x := by
  have hz : view z = view x := by
    have hquiet := walkPath_quiet hS.quiet hbase p 0 y
    rw [hwalk] at hquiet
    exact hquiet.trans hy
  have hgood : GoodLoc fs 0 loc := walk_good hbase hwalk
  obtain ⟨hat, hnames⟩ := openExisting_isAt hS hT hgood.canonical hgood.m_eq hgood.rel_eq h
  exact ⟨⟨y, loc, z, hy, hwalk, hat.congr hS hz⟩, hnames.trans (hS.shown z x hz).1⟩

theorem DirectoryView.EntryOpened.congr {x y x' y' : σ} {d i : ι} {n : Bytes} (hx : view x = view y)
    (hx' : view x' = view y') (h : V.EntryOpened y y' d n i) : V.EntryOpened x x' d n i := by
  cases h with
  | existing found same =>
      refine .existing ?_ ?_
      · rw [(hS.shown x y hx).1]
        exact found
      · rw [(hS.shown x' y' hx').1, (hS.shown x y hx).1]
        exact same
  | created puts =>
      refine .created ?_
      rw [(hS.shown x' y' hx').1, (hS.shown x y hx).1]
      exact puts
  | inside found windows leads names =>
      refine .inside ?_ windows ?_ ?_
      · rw [(hS.shown x y hx).1]
        exact found
      · rw [(hS.shown x' y' hx').2.2.1]
        exact leads
      · rw [(hS.shown x' y' hx').1, (hS.shown x y hx).1]
        exact names

omit hS in
theorem createTarget_ok {r : Except Errno Bytes} {t : Bytes} {x x' : σ}
    (h : (liftM (m := Except Errno) (createTarget r) : Call Errno σ Bytes).run x = (.ok t, x')) :
    r = .ok t ∧ x' = x := by
  unfold createTarget at h
  split at h
  · cases h
  · split_ifs at h
    · cases h
    · cases h
      exact ⟨rfl, rfl⟩

/-- The creating branch opens what its directory has or gets under the last name, or goes on with the text of
a link there. -/
theorem openCreate_opens {root : η} {loc : VfsLoc η} (hm : loc.m = fs.table.mountOf loc.abs)
    (hroot : loc.m.type = .host root) {flags mode : UInt32} {x x' : σ} {r : OpenFile η ⊕ Bytes}
    (h : (openCreate K fs root loc flags mode).run x = (.ok r, x')) :
    ∃ d, V.LeadsToDir fs x loc.abs d ∧
      (∀ f, r = .inl f → ∃ h kind kept path, f = .host h kind kept path loc.m ∧
        V.EntryOpened x x' d loc.last (V.obj h)) ∧
      ∀ t, r = .inr t → ∃ l, V.names x d loc.last = some l ∧ V.kind l = .lxlink ∧ V.text x l = some t ∧
        view x' = view x := by
  rw [openCreate] at h
  obtain ⟨d, y, hopen, h⟩ := of_run_bind h
  obtain ⟨hd, hy⟩ := openHostDir_leads hS hopen
  rw [hm] at hd
  obtain ⟨o, z, hmade, h⟩ := of_run_bind h
  obtain ⟨q, hfound, rfl⟩ := of_run_closing hmade
  refine ⟨V.obj d, ⟨root, hm ▸ hroot, hd⟩, ?_⟩
  have hcases := hS.created y d loc.last _ _ _ _ o q (createFlags_has flags).1 hfound
  have hclosed := close_quiet hS.quiet d q
  rw [createdOrLink] at h
  cases hre : o.reparse with
  | true =>
      rw [hre, if_pos rfl] at h
      split_ifs at h with hexcl hkind
      · cases h
      · cases h
      · obtain ⟨s, w, hclose, h⟩ := of_run_bind h
        obtain ⟨v, hread, rfl⟩ := of_run_closing hclose
        obtain ⟨t, w', htarget, h⟩ := of_run_bind h
        cases h
        obtain ⟨rfl, rfl⟩ := createTarget_ok htarget
        refine ⟨fun f hf => (by cases hf), fun t' ht => ?_⟩
        cases ht
        rcases hcases with ⟨hfresh, -⟩ | ⟨-, -, hl, hkind'⟩
        · rw [hre] at hfresh
          cases hfresh
        have hread := of_run_attempt hread
        have hq : view (K.store.close d q).2 = view x :=
          hclosed.trans ((hS.quiet.reparse _ _ _ _ _ _ _ _ _ _ hfound hre).trans hy)
        have hv : view v = view (K.store.close d q).2 := by
          have hquiet := Keeps.view_eq (fun u => (hS.quiet.guarded u).readlink o.h) (K.store.close d q).2
          rwa [hread] at hquiet
        have htext := hS.told _ _ _ _ hread
        rw [(hS.shown y x hy).1] at hl
        rw [(hS.shown _ x hq).2.2.2] at htext
        exact ⟨V.obj o.h, hl, hkind' ▸ not_not.mp hkind, htext, (close_quiet hS.quiet o.h v).trans (hv.trans hq)⟩
  | false =>
      rw [hre, if_neg Bool.false_ne_true] at h
      split_ifs at h with hkind
      · cases h
      · obtain ⟨f, w, hnew, h⟩ := of_run_bind h
        cases h
        refine ⟨fun f' hf => ?_, fun t ht => by cases ht⟩
        cases hf
        have hend := newHostFile_quiet hS.quiet o flags loc.m
          ((pathJoin PATH_MAX loc.abs loc.last).toOption.getD []) (K.store.close d q).2
        rw [hnew] at hend
        obtain ⟨kind, kept, rfl, -⟩ := newHostFile_made hS hnew
        refine ⟨o.h, kind, kept, _, rfl, ?_⟩
        rcases hcases with ⟨-, hentry⟩ | ⟨hnot, -⟩
        · exact hentry.congr hS hy.symm (hend.trans hclosed)
        · rw [hre] at hnot
          cases hnot

theorem DirectoryView.LeadsToDir.congr {x y : σ} {p : Bytes} {e : ι} (hy : view y = view x)
    (h : V.LeadsToDir fs y p e) : V.LeadsToDir fs x p e := by
  simpa only [DirectoryView.LeadsToDir, (hS.shown y x hy).2.1] using h

/-- What an open that may create opens, through any number of links. -/
theorem openCreating_opens (hT : InPlace fs.table) {flags mode : UInt32} (k : ℕ) {base : Option Bytes}
    (hbase : Canonical (base.getD fs.cwd)) {path : Bytes} {x x' : σ} {f : OpenFile η}
    (h : (openCreating K fs flags mode k base path).run x = (.ok f, x')) : V.OpensFrom K fs view base path x f x' := by
  induction k generalizing base path x with
  | zero => cases h
  | succ k ih =>
      rw [openCreating] at h
      obtain ⟨r, y, hr, h⟩ := of_run_bind h
      have hwalk := of_run_attempt hr
      have hy : view y = view x := by
        have hquiet := walkPath_quiet hS.quiet hbase path W_PARENT x
        rwa [hwalk] at hquiet
      cases r with
      | error e =>
          dsimp only at h
          split_ifs at h
          · obtain ⟨loc, z, hagain, h⟩ := of_run_bind h
            obtain ⟨hleads, hnames⟩ := openWalked_leads hS hT hbase hy hagain h
            exact .place hleads hnames
          · cases h
      | ok loc =>
          have hgood : GoodLoc fs W_PARENT loc := walk_good hbase hwalk
          dsimp only at h
          cases htype : loc.m.type with
          | proc => rw [htype] at h; cases h
          | dev => rw [htype] at h; cases h
          | host root =>
              rw [htype] at h
              obtain ⟨r, z, hcreate, h⟩ := of_run_bind h
              obtain ⟨d, hd, hfile, hlink⟩ := openCreate_opens hS hgood.m_eq htype hcreate
              have hd := hd.congr hS hy
              cases r with
              | inl g =>
                  cases h
                  obtain ⟨o, kind, kept, path, rfl, hentry⟩ := hfile _ rfl
                  exact .entry hwalk hd (hentry.congr hS hy.symm rfl)
              | inr t =>
                  obtain ⟨l, hl, hlinux, htext, hz⟩ := hlink t rfl
                  rw [(hS.shown y x hy).1] at hl
                  rw [(hS.shown y x hy).2.2.2] at htext
                  have hcanon : Canonical ((some loc.abs).getD fs.cwd) := hgood.canonical
                  exact .link hwalk hd hl hlinux htext (hz.trans hy) (ih hcanon h)

variable (hT : InPlace fs.table) {p n : Bytes} (hp : Canonical p) (hn : OrdinaryName n) {root : η}
  (hroot : (fs.table.mountOf p).type = .host root)

include hT hp hn hroot

theorem walked_opens {wflags flags : UInt32} (hpar : has wflags W_PARENT = false)
    (hdir : has wflags W_MUSTDIR = false) (hasked : has wflags W_NOFOLLOW = false →
      wflags = 0 ∧ (has flags O_NOFOLLOW = false ∨ has flags O_CREAT = true))
    {x y z x' : σ} {loc : VfsLoc η} {f : OpenFile η} (hy : view y = view x)
    (hwalk : (walkPath K fs (some p) n wflags).run y = (.ok loc, z))
    (h : (openExisting K fs loc flags).run z = (.ok f, x')) : OpensBelow V K fs view flags p n x x' f := by
  have hbase : Canonical ((some p).getD fs.cwd) := hp
  have hz : view z = view x := by
    have hquiet := walkPath_quiet hS.quiet hbase n wflags y
    rw [hwalk] at hquiet
    exact hquiet.trans hy
  have hgood : GoodLoc fs wflags loc := walk_good hbase hwalk
  obtain ⟨hat, hnames⟩ := openExisting_isAt hS hT hgood.canonical hgood.m_eq hgood.rel_eq h
  replace hat := hat.congr hS hz
  replace hnames := hnames.trans (hS.shown z x hz).1
  obtain ⟨cand, hj, hfound⟩ := walk_name hp hn hpar hdir hwalk
  cases hfound with
  | mount hm => exact .inl ⟨cand, hj, hm, hat⟩
  | link st hm hst hl hf =>
      obtain ⟨hparent, hlast, hmount, hrel⟩ := place_below hp hn.valid hj hm
      obtain ⟨l, ⟨r, e, hr, he, hl'⟩, hlnk, -⟩ := statAbs_at hS (hmount ▸ hroot) hrel (Prod.ext hst rfl)
      obtain ⟨rfl, hfollows⟩ := hasked hf
      rw [hmount, hparent] at he
      rw [hmount] at hr
      rw [hlast, (hS.shown y x hy).1] at hl'
      obtain ⟨hleads, -⟩ := openWalked_leads hS hT hbase hy hwalk h
      refine .inr ⟨e, DirectoryView.LeadsToDir.congr hS hy ⟨r, hr, he⟩, ?_⟩
      exact .followed hl' (hlnk.mp hl) hfollows hleads hnames
  | object hm =>
      obtain ⟨hparent, hlast, hmount, hrel⟩ := place_below hp hn.valid hj hm
      cases f with
      | synth g kept path => exact absurd (hmount ▸ hroot) (hat.1 root)
      | host o kind kept path m =>
          obtain ⟨rfl, ⟨_, _, hnil, _⟩ | ⟨_, r, e, hr, he, hi⟩⟩ := hat
          · exact absurd hnil hrel
          · change (fs.table.mountOf cand).type = _ at hr
            change follow _ _ (relComponents (pathRel (fs.table.mountOf cand) (pathParent cand))) = _ at he
            change V.names x e (lastName cand) = _ at hi
            rw [hmount] at hr
            rw [hmount, hparent] at he
            rw [hlast] at hi
            refine .inr ⟨e, ⟨r, hr, he⟩, ?_⟩
            change V.OpenedIn K fs view flags p n e x x' (.host o kind kept path (fs.table.mountOf cand))
            rw [hmount]
            exact .existing hi hnames

/-- What `vfs_open` opens for one name below a path on a host mount. -/
theorem vfsOpen_opens {flags mode : UInt32} {x x' : σ} {f : OpenFile η}
    (h : (vfsOpen K fs (some p) n flags mode).run x = (.ok f, x')) : OpensBelow V K fs view flags p n x x' f := by
  rw [vfsOpen] at h
  by_cases hc : has flags O_CREAT = true
  · rw [if_pos hc, openCreating] at h
    obtain ⟨r, y, hwalk, h⟩ := of_run_bind h
    have hwalk := of_run_attempt hwalk
    have hbase : Canonical ((some p).getD fs.cwd) := hp
    have hy : view y = view x := by
      have hquiet := walkPath_quiet hS.quiet hbase n W_PARENT x
      rwa [hwalk] at hquiet
    cases r with
    | error e =>
        dsimp only at h
        split_ifs at h
        · obtain ⟨loc, z, hagain, h⟩ := of_run_bind h
          exact walked_opens hS hT hp hn hroot (by decide) (by decide) (fun _ => ⟨rfl, .inr hc⟩) hy hagain h
        · cases h
    | ok loc =>
        obtain ⟨rfl, -⟩ := walk_parent hp hn hwalk
        dsimp only at h
        have htype : (locAt fs p n).m.type = .host root := hroot
        rw [htype] at h
        obtain ⟨r, z, hcreate, h⟩ := of_run_bind h
        obtain ⟨d, hd, hfile, hlink⟩ := openCreate_opens hS rfl htype hcreate
        refine .inr ⟨d, hd.congr hS hy, ?_⟩
        cases r with
        | inl g =>
            cases h
            obtain ⟨o, kind, kept, path, rfl, hentry⟩ := hfile _ rfl
            exact .creating hc (hentry.congr hS hy.symm rfl)
        | inr t =>
            obtain ⟨l, hl, hlinux, htext, hz⟩ := hlink t rfl
            change V.names y d n = some l at hl
            rw [(hS.shown y x hy).1] at hl
            rw [(hS.shown y x hy).2.2.2] at htext
            exact .through hc hl hlinux htext (hz.trans hy) (openCreating_opens hS hT 40 hbase h)
  · rw [if_neg hc] at h
    obtain ⟨loc, y, hwalk, h⟩ := of_run_bind h
    by_cases hnf : has flags O_NOFOLLOW = true
    · rw [if_pos hnf] at hwalk
      exact walked_opens hS hT hp hn hroot (by decide) (by decide) (fun hw => absurd hw (by decide)) rfl hwalk h
    · rw [if_neg hnf] at hwalk
      exact walked_opens hS hT hp hn hroot (by decide) (by decide) (fun _ => ⟨rfl, .inl (by simpa using hnf)⟩) rfl
        hwalk h

end Opening

end SysvNt
