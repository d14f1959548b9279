import SysvNt.Walk

/-!
# What the walk returns

The walk terminates whatever the store answers, because a turn of the loop either uses up
text or one of forty links. The path it returns is canonical, and on a store whose stat
answers do not change it names no symlink on the way: a link is left standing only as the
last component, under `W_NOFOLLOW` and without a trailing slash.
-/

namespace SysvNt

variable {η : Type} {σ : Type}

theorem skipSlashes_head {p t : Bytes} {c : UInt8} (h : skipSlashes p = c :: t) : c ≠ slash := by
  induction p with
  | nil => cases h
  | cons d p ih =>
      rw [skipSlashes, List.dropWhile_cons] at h
      split_ifs at h with hd
      · exact ih h
      · cases h
        simpa using hd

theorem component_not_mem (p : Bytes) : slash ∉ component p := by
  intro h
  simpa using List.mem_takeWhile_imp h

theorem component_ne_nil {p : Bytes} (h : skipSlashes p ≠ []) :
    component (skipSlashes p) ≠ [] := by
  cases hs : skipSlashes p with
  | nil => exact absurd hs h
  | cons c t =>
      have hc := skipSlashes_head hs
      simp [component, hc]

theorem component_valid {p : Bytes} (h : skipSlashes p ≠ [])
    (hdot : component (skipSlashes p) ≠ dot) (hdotdot : component (skipSlashes p) ≠ dotdot) :
    ValidName (component (skipSlashes p)) :=
  ⟨component_ne_nil h, component_not_mem _, hdot, hdotdot⟩

theorem afterComponent_cases (p : Bytes) :
    afterComponent p = [] ∨ ∃ t, afterComponent p = slash :: t := by
  induction p with
  | nil => exact .inl rfl
  | cons c p ih =>
      rw [afterComponent, List.dropWhile_cons]
      split_ifs with hc
      · exact ih
      · refine .inr ⟨p, ?_⟩
        have : c = slash := by simpa using hc
        rw [this]

theorem skipSlashes_drop_afterComponent (p : Bytes) :
    skipSlashes ((afterComponent p).drop 1) = skipSlashes (afterComponent p) := by
  rcases afterComponent_cases p with h | ⟨t, h⟩ <;> simp [h, skipSlashes]

section AnyStore

variable {A : AbsStore σ} {fs : FsCtx η} {wflags : UInt32} {trailing : Bool}

theorem StepMove.canonical {w w' : WalkState} {x : σ} (hp : skipSlashes w.p ≠ [])
    (h : StepMove A fs wflags trailing w x w') (hc : Canonical w.abs) : Canonical w'.abs := by
  cases h with
  | here _ => exact hc
  | up _ => exact hc.pathParent
  | into cand w' hdot hdotdot hj hw =>
      have hcand : Canonical cand := hc.pathJoin (component_valid hp hdot hdotdot) hj
      cases hw with
      | mount _ => exact hcand
      | object _ _ _ _ _ => exact hcand
      | link target w' _ hs =>
          obtain ⟨_, _, rfl⟩ := spliceTarget_ok hs
          dsimp only
          split_ifs
          · exact Canonical.root
          · exact hc

/-- What a successful walk promises about its location on any store. -/
structure GoodLoc (fs : FsCtx η) (wflags : UInt32) (loc : VfsLoc η) : Prop where
  canonical : Canonical loc.abs
  m_eq : loc.m = fs.table.mountOf loc.abs
  rel_eq : loc.rel = pathRel loc.m loc.abs
  last_nil : has wflags W_PARENT = false → loc.last = []
  last_valid : has wflags W_PARENT = true → ValidName loc.last ∧ loc.last.length ≤ NAME_MAX

theorem StepFound.good {w : WalkState} {x : σ} {loc : VfsLoc η}
    (h : StepFound A fs wflags trailing w x loc) (hc : Canonical w.abs) :
    GoodLoc fs wflags loc := by
  cases h with
  | object hp hpar hd =>
      refine ⟨hc, rfl, rfl, fun _ => rfl, ?_⟩
      intro h
      rw [hpar] at h
      cases h
  | parent st hp hlen hdot hdotdot hlast hpar hst hd =>
      refine ⟨hc, rfl, rfl, ?_, fun _ => ⟨component_valid hp hdot hdotdot, hlen⟩⟩
      intro h
      rw [hpar] at h
      cases h

theorem walkStart_canonical {base : Option Bytes} (path : Bytes)
    (hbase : Canonical (base.getD fs.cwd)) : Canonical (walkStart fs base path) := by
  unfold walkStart
  split_ifs
  · exact Canonical.root
  · obtain ⟨ns, hv, he, hlen⟩ := hbase
    rw [List.take_of_length_le (by omega)]
    exact ⟨ns, hv, he, hlen⟩

theorem walk_good {base : Option Bytes} {path : Bytes} {x x' : σ} {loc : VfsLoc η}
    (hbase : Canonical (base.getD fs.cwd))
    (h : walk A fs base path wflags x = (.ok loc, x')) : GoodLoc fs wflags loc := by
  unfold walk at h
  dsimp only at h
  split_ifs at h with h0 hmax
  · cases h
  · cases h
  · have hrun := (walkBody A fs wflags (hasTrailing (cstr path))).run_invariant
      (P := fun w => Canonical w.1.abs) (Q := fun r => ∀ loc, r.1 = .ok loc → GoodLoc fs wflags loc)
      (by
        intro w w' hw hs
        obtain ⟨hp, hmove⟩ := walkStep_continue (walkBody_continue.mp hs)
        exact hmove.canonical hp hw)
      (by
        intro w r hw hs loc hr
        have hfound := walkBody_stop.mp hs
        rw [hr] at hfound
        exact (walkStep_found hfound).good hw)
      (walkInit fs base (cstr path), x) (walkStart_canonical _ hbase)
    exact hrun loc (by rw [h])

/-- The loop stops after at most as many turns as forty links and the buffers allow. -/
theorem walk_iterate (base : Option Bytes) (path : Bytes) (x : σ)
    (h0 : (cstr path).length ≠ 0) (hmax : (cstr path).length < PATH_MAX) :
    BoundedLoop.iterate (walkBody A fs wflags (hasTrailing (cstr path))).step
      (42 * (PATH_MAX + 1)) (walkInit fs base (cstr path), x) =
        .inr (walk A fs base path wflags x) := by
  rw [BoundedLoop.Body.iterate_eq_run]
  · rw [walk, if_neg h0, if_neg (by omega)]
  · change walkMeasure (walkInit fs base (cstr path)) < _
    simp only [walkMeasure, walkInit]
    omega

end AnyStore

def NamesLink (stat : Bytes → Except Errno KStat) (abs : Bytes) : Prop :=
  ∃ st, stat abs = .ok st ∧ isLnk st.mode = true

def NamesDir (stat : Bytes → Except Errno KStat) (abs : Bytes) : Prop :=
  ∃ st, stat abs = .ok st ∧ isDir st.mode = true

theorem NamesDir.not_link {stat : Bytes → Except Errno KStat} {abs : Bytes}
    (h : NamesDir stat abs) : ¬ NamesLink stat abs := by
  obtain ⟨st, hst, hd⟩ := h
  rintro ⟨st', hst', hl⟩
  obtain rfl : st = st' := Except.ok.inj (hst.symm.trans hst')
  rw [isLnk_eq_false_of_isDir hd] at hl
  cases hl

def LinkFreeAbove (stat : Bytes → Except Errno KStat) (ns : List Bytes) : Prop :=
  ∀ ms, ms <+: ns → ms ≠ ns → ¬ NamesLink stat (render ms)

def LinkFree (stat : Bytes → Except Errno KStat) (ns : List Bytes) : Prop :=
  ∀ ms, ms <+: ns → ¬ NamesLink stat (render ms)

theorem LinkFreeAbove.snoc {stat : Bytes → Except Errno KStat} {ns : List Bytes}
    (h : LinkFree stat ns) (n : Bytes) : LinkFreeAbove stat (ns ++ [n]) := by
  intro ms hms hne
  rcases List.prefix_concat_iff.mp hms with he | hp
  · exact absurd he hne
  · exact h ms hp

theorem LinkFree.above {stat : Bytes → Except Errno KStat} {ns : List Bytes}
    (h : LinkFree stat ns) : LinkFreeAbove stat ns :=
  fun ms hms _ => h ms hms

theorem LinkFreeAbove.linkFree {stat : Bytes → Except Errno KStat} {ns : List Bytes}
    (h : LinkFreeAbove stat ns) (hn : ¬ NamesLink stat (render ns)) : LinkFree stat ns := by
  intro ms hms
  by_cases he : ms = ns
  · rwa [he]
  · exact h ms hms he

theorem LinkFree.dropLast {stat : Bytes → Except Errno KStat} {ns : List Bytes}
    (h : LinkFree stat ns) : LinkFree stat ns.dropLast :=
  fun ms hms => h ms (hms.trans (List.dropLast_prefix ns))

def Static (A : AbsStore σ) (stat : Bytes → Except Errno KStat) : Prop :=
  ∀ p x, (A.statAbs p x).1 = stat p

section StaticStore

variable {A : AbsStore σ} {fs : FsCtx η} {wflags : UInt32} {trailing : Bool}
  {stat : Bytes → Except Errno KStat}

/-- The loop invariant on a static store: only an object left standing at the very end of
the text may be a link. -/
def LinkInvariant (stat : Bytes → Except Errno KStat) (wflags : UInt32) (trailing : Bool)
    (w : WalkState) : Prop :=
  ∃ ns, ValidNames ns ∧ w.abs = render ns ∧ LinkFreeAbove stat ns ∧
    (NamesLink stat (render ns) →
      skipSlashes w.p = [] ∧ has wflags W_NOFOLLOW = true ∧ trailing = false)

theorem LinkFree.invariant {ns : List Bytes} (hv : ValidNames ns) (h : LinkFree stat ns)
    (wflags : UInt32) (trailing : Bool) (p : Bytes) (n : ℕ) :
    LinkInvariant stat wflags trailing ⟨render ns, p, n⟩ :=
  ⟨ns, hv, rfl, h.above, fun hl => absurd hl (h ns (List.prefix_refl ns))⟩

theorem mountAt_point {mounts : List (Mount η)} {abs : Bytes}
    (h : (mountAt mounts abs).isSome = true) : ∃ m ∈ mounts, m.point = abs := by
  obtain ⟨m, hm⟩ := Option.isSome_iff_exists.mp h
  exact ⟨m, List.mem_of_find?_eq_some hm, by simpa using List.find?_some hm⟩

theorem StepMove.linkInvariant (hA : Static A stat)
    (hroots : ∀ m ∈ fs.table.mounts, NamesDir stat m.point) {w w' : WalkState} {x : σ}
    (hp : skipSlashes w.p ≠ []) (h : StepMove A fs wflags trailing w x w')
    (hw : LinkInvariant stat wflags trailing w) : LinkInvariant stat wflags trailing w' := by
  obtain ⟨abs, p, n⟩ := w
  obtain ⟨ns, hv, habs, habove, hlink⟩ := hw
  dsimp only at habs
  subst habs
  have hfree : LinkFree stat ns := habove.linkFree (fun hl => hp (hlink hl).1)
  cases h with
  | here hc => exact hfree.invariant hv wflags trailing _ n
  | up hc =>
      dsimp only
      rw [pathParent_render hv]
      exact hfree.dropLast.invariant hv.dropLast wflags trailing _ n
  | into cand w' hdot hdotdot hj hcm =>
      obtain ⟨hcand, _⟩ := pathJoin_ok hv hj
      have hvc := hv.snoc (component_valid hp hdot hdotdot)
      cases hcm with
      | mount hm =>
          obtain ⟨m, hmem, hpoint⟩ := mountAt_point hm
          refine ⟨_, hvc, hcand, LinkFreeAbove.snoc hfree _, ?_⟩
          intro hl
          rw [← hcand, ← hpoint] at hl
          exact absurd hl (hroots m hmem).not_link
      | object st hm hst hl hd =>
          refine ⟨_, hvc, hcand, LinkFreeAbove.snoc hfree _, ?_⟩
          rintro ⟨st', hst', hlnk⟩
          rw [hA cand x, hcand, hst'] at hst
          obtain rfl : st' = st := Except.ok.inj hst
          dsimp only
          rw [skipSlashes_drop_afterComponent]
          exact hl hlnk
      | link target w' hn hs =>
          obtain ⟨_, _, rfl⟩ := spliceTarget_ok hs
          dsimp only
          split_ifs with hroot
          · obtain ⟨m, hmem, hpoint⟩ := fs.table.rooted
            have hempty : LinkFree stat [] := by
              intro ms hms
              rw [List.prefix_nil.mp hms, render_nil, ← hpoint]
              exact (hroots m hmem).not_link
            exact hempty.invariant ValidNames.nil wflags trailing _ _
          · exact hfree.invariant hv wflags trailing _ _

theorem StepFound.linkFree {w : WalkState} {x : σ} {loc : VfsLoc η}
    (h : StepFound A fs wflags trailing w x loc) (hw : LinkInvariant stat wflags trailing w) :
    ∃ ns, loc.abs = render ns ∧ ValidNames ns ∧ LinkFreeAbove stat ns ∧
      (NamesLink stat loc.abs → has wflags W_NOFOLLOW = true ∧ trailing = false) := by
  obtain ⟨ns, hv, habs, habove, hlink⟩ := hw
  cases h with
  | object hp hpar hd => exact ⟨ns, habs, hv, habove, fun hl => (hlink (habs ▸ hl)).2⟩
  | parent st hp hlen hdot hdotdot hlast hpar hst hd =>
      exact ⟨ns, habs, hv, habove, fun hl => (hlink (habs ▸ hl)).2⟩

theorem getLast?_ne_of_hasTrailing {path : Bytes} (h : hasTrailing path = false)
    (hroot : path ≠ [slash]) : path.getLast? ≠ some slash := by
  intro hlast
  have hlen : ¬ 1 < path.length := by
    intro hlt
    simp [hasTrailing, hlast, hlt] at h
  cases path with
  | nil => cases hlast
  | cons c t =>
      have ht : t = [] := by
        rw [← List.length_eq_zero_iff]
        simp only [List.length_cons] at hlen
        omega
      subst ht
      apply hroot
      simpa using hlast

/-- The path `"/"` never enters the loop body. -/
theorem walk_root_abs {base : Option Bytes} {path : Bytes} {x x' : σ} {loc : VfsLoc η}
    (hpath : cstr path = [slash]) (h : walk A fs base path wflags x = (.ok loc, x')) :
    loc.abs = [slash] := by
  unfold walk at h
  dsimp only at h
  rw [hpath, if_neg (by decide), if_neg (by decide)] at h
  have hstep : walkStep A fs wflags (hasTrailing [slash]) (walkInit fs base [slash]) x =
      (.inr (walkEnd A fs wflags (hasTrailing [slash]) [slash] x).1,
        (walkEnd A fs wflags (hasTrailing [slash]) [slash] x).2) := rfl
  rw [(walkBody A fs wflags _).run_of_stop (walkBody_stop.mpr hstep)] at h
  obtain ⟨_, rfl, _⟩ := walkEnd_ok h
  rfl

theorem walk_linkFree {base : Option Bytes} {path : Bytes} {x x' : σ} {loc : VfsLoc η}
    (hA : Static A stat) (hroots : ∀ m ∈ fs.table.mounts, NamesDir stat m.point)
    {ns : List Bytes} (hv : ValidNames ns) (hns : walkStart fs base (cstr path) = render ns)
    (hfree : LinkFree stat ns) (h : walk A fs base path wflags x = (.ok loc, x')) :
    ∃ ns, loc.abs = render ns ∧ ValidNames ns ∧ LinkFreeAbove stat ns ∧
      (NamesLink stat loc.abs →
        has wflags W_NOFOLLOW = true ∧ hasTrailing (cstr path) = false) := by
  unfold walk at h
  dsimp only at h
  split_ifs at h with h0 hmax
  · cases h
  · cases h
  · have hrun := (walkBody A fs wflags (hasTrailing (cstr path))).run_invariant
      (P := fun w => LinkInvariant stat wflags (hasTrailing (cstr path)) w.1)
      (Q := fun r => ∀ loc, r.1 = .ok loc → ∃ ns, loc.abs = render ns ∧ ValidNames ns ∧
        LinkFreeAbove stat ns ∧ (NamesLink stat loc.abs →
          has wflags W_NOFOLLOW = true ∧ hasTrailing (cstr path) = false))
      (by
        intro w w' hw hs
        obtain ⟨hp, hmove⟩ := walkStep_continue (walkBody_continue.mp hs)
        exact hmove.linkInvariant hA hroots hp hw)
      (by
        intro w r hw hs loc hr
        have hfound := walkBody_stop.mp hs
        rw [hr] at hfound
        exact (walkStep_found hfound).linkFree hw)
      (walkInit fs base (cstr path), x)
      (by
        rw [walkInit, hns]
        exact hfree.invariant hv wflags _ _ 0)
    exact hrun loc (by rw [h])

end StaticStore

def LinkFreePath (stat : Bytes → Except Errno KStat) (abs : Bytes) : Prop :=
  ∃ ns, ValidNames ns ∧ abs = render ns ∧ LinkFree stat ns

theorem walkStart_linkFree {fs : FsCtx η} {stat : Bytes → Except Errno KStat}
    {base : Option Bytes} (path : Bytes)
    (hroots : ∀ m ∈ fs.table.mounts, NamesDir stat m.point)
    (hbase : Canonical (base.getD fs.cwd)) (hfree : LinkFreePath stat (base.getD fs.cwd)) :
    LinkFreePath stat (walkStart fs base path) := by
  unfold walkStart
  split_ifs
  · obtain ⟨m, hmem, hpoint⟩ := fs.table.rooted
    refine ⟨[], ValidNames.nil, rfl, ?_⟩
    intro ms hms
    rw [List.prefix_nil.mp hms, render_nil, ← hpoint]
    exact (hroots m hmem).not_link
  · obtain ⟨_, _, _, hlen⟩ := hbase
    rw [List.take_of_length_le (by omega)]
    exact hfree

/-- Whatever the store answers, the walk stops within forty links and the buffers' length,
and a location it returns is canonical, on the mount of its path; on a static store no link
stands above it, and it is a link itself only if one was asked for. -/
theorem walk_terminates_canonical (A : AbsStore σ) (fs : FsCtx η) (base : Option Bytes)
    (path : Bytes) (wflags : UInt32) (x : σ) (hbase : Canonical (base.getD fs.cwd)) :
    ((cstr path).length = 0 ∨ PATH_MAX ≤ (cstr path).length ∨
      BoundedLoop.iterate (walkBody A fs wflags (hasTrailing (cstr path))).step
        (42 * (PATH_MAX + 1)) (walkInit fs base (cstr path), x) =
          .inr (walk A fs base path wflags x)) ∧
    ∀ loc x', walk A fs base path wflags x = (.ok loc, x') →
      Canonical loc.abs ∧ loc.m = fs.table.mountOf loc.abs ∧
      loc.rel = pathRel loc.m loc.abs ∧
      ∀ stat, Static A stat → (∀ m ∈ fs.table.mounts, NamesDir stat m.point) →
        LinkFreePath stat (base.getD fs.cwd) →
        ∃ ns, loc.abs = render ns ∧ ValidNames ns ∧ LinkFreeAbove stat ns ∧
          (NamesLink stat loc.abs →
            has wflags W_NOFOLLOW = true ∧ (cstr path).getLast? ≠ some slash) := by
  constructor
  · by_cases h0 : (cstr path).length = 0
    · exact .inl h0
    by_cases hmax : PATH_MAX ≤ (cstr path).length
    · exact .inr (.inl hmax)
    · exact .inr (.inr (walk_iterate base path x h0 (by omega)))
  · intro loc x' h
    have hgood := walk_good hbase h
    refine ⟨hgood.canonical, hgood.m_eq, hgood.rel_eq, ?_⟩
    intro stat hA hroots hfree
    obtain ⟨ns, hv, hns, hfree'⟩ := walkStart_linkFree (cstr path) hroots hbase hfree
    obtain ⟨ms, hms, hvm, habove, hlink⟩ := walk_linkFree hA hroots hv hns hfree' h
    refine ⟨ms, hms, hvm, habove, ?_⟩
    intro hl
    obtain ⟨hnofollow, htrailing⟩ := hlink hl
    refine ⟨hnofollow, getLast?_ne_of_hasTrailing htrailing ?_⟩
    intro hpath
    obtain ⟨m, hmem, hpoint⟩ := fs.table.rooted
    rw [walk_root_abs hpath h, ← hpoint] at hl
    exact (hroots m hmem).not_link hl

/-- A root directory with a subdirectory `d`, a file `d/f` and a link `l` to `d`. -/
def sampleStat (abs : Bytes) : Except Errno KStat :=
  if abs = str "/" ∨ abs = str "/proc" ∨ abs = str "/dev" ∨ abs = str "/d" then
    .ok { mode := S_IFDIR }
  else if abs = str "/l" then .ok { mode := S_IFLNK }
  else if abs = str "/d/f" then .ok { mode := S_IFREG }
  else .error .ENOENT

def sampleReadlink (abs : Bytes) : Except Errno Bytes :=
  if abs = str "/l" then .ok (str "d") else .error .EINVAL

theorem walk_sample_canonical :
    walk (AbsStore.fixed sampleStat sampleReadlink) (FsCtx.initial () 0 false) none (str "l/f") 0 ()
      = (.ok (locAt (FsCtx.initial () 0 false) (str "/d/f") []), ()) ∧
    Canonical (str "/d/f") ∧
    ∃ ns, str "/d/f" = render ns ∧ ValidNames ns ∧ LinkFreeAbove sampleStat ns := by
  have hwalk : walk (AbsStore.fixed sampleStat sampleReadlink) (FsCtx.initial () 0 false) none
      (str "l/f") 0 () = (.ok (locAt (FsCtx.initial () 0 false) (str "/d/f") []), ()) := rfl
  obtain ⟨_, hloc⟩ := walk_terminates_canonical (AbsStore.fixed sampleStat sampleReadlink)
    (FsCtx.initial () 0 false) none (str "l/f") 0 () Canonical.root
  obtain ⟨hc, _, _, hstatic⟩ := hloc _ _ hwalk
  have hroots : ∀ m ∈ (FsCtx.initial () 0 false).table.mounts, NamesDir sampleStat m.point := by
    intro m hm
    simp only [FsCtx.initial, MountTable.initial, List.mem_cons, List.not_mem_nil, or_false] at hm
    rcases hm with rfl | rfl | rfl <;> exact ⟨{ mode := S_IFDIR }, by decide, by decide⟩
  have hroot : LinkFreePath sampleStat (str "/") := by
    refine ⟨[], ValidNames.nil, rfl, ?_⟩
    intro ms hms
    rw [List.prefix_nil.mp hms]
    exact NamesDir.not_link ⟨{ mode := S_IFDIR }, by decide, by decide⟩
  obtain ⟨ns, hns, hv, habove, _⟩ := hstatic sampleStat (fun _ _ => rfl) hroots hroot
  exact ⟨hwalk, hc, ns, hns, hv, habove⟩

end SysvNt
