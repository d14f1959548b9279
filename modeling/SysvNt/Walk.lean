import SysvNt.BoundedLoop
import SysvNt.Mounts
import SysvNt.StateCalls

/-!
# The walk

`walk` consumes a path one component at a time against a canonical absolute path. A link
met along the way is read and its target pasted in front of what remains, forty times at
most. The loop variables are those of the source: `abs`, the text from the pointer `p`
on, and `nlinks`. The store is asked only through `stat_abs` and `readlink_abs`, which are
state-passing calls here, so that their answers may differ from one call to the next.
-/

namespace SysvNt

open StateCalls

def W_PARENT : UInt32 := 0x1
def W_NOFOLLOW : UInt32 := 0x2
def W_MUSTDIR : UInt32 := 0x4

structure FsCtx (η : Type) where
  table : MountTable η
  cwd : Bytes
  umask : UInt32
  uid : UInt32
  gid : UInt32
  euid : UInt32
  egid : UInt32

/-- What `vfs_init` leaves: the root as working directory, umask 022, the superuser. -/
def FsCtx.initial {η : Type} (root : η) (dev : UInt64) (lxCapable : Bool) : FsCtx η where
  table := MountTable.initial root dev lxCapable
  cwd := str "/"
  umask := 0o22
  uid := 0
  gid := 0
  euid := 0
  egid := 0

/-- A resolved path; `last` is empty unless the resolution stopped at the parent. -/
structure VfsLoc (η : Type) where
  m : Mount η
  abs : Bytes
  last : Bytes
  rel : Bytes
  deriving DecidableEq

/-- The two questions the walk asks about a canonical path. `readlinkAbs` answers with the
whole target, of which the caller's buffer receives a beginning. -/
structure AbsStore (σ : Type) where
  statAbs : Bytes → StateM σ (Except Errno KStat)
  readlinkAbs : Bytes → StateM σ (Except Errno Bytes)

variable {η : Type} {σ : Type}

def AbsStore.fixed (stat : Bytes → Except Errno KStat) (readlink : Bytes → Except Errno Bytes) :
    AbsStore Unit where
  statAbs p := pure (stat p)
  readlinkAbs p := pure (readlink p)

@[simp] theorem AbsStore.fixed_statAbs (stat : Bytes → Except Errno KStat)
    (readlink : Bytes → Except Errno Bytes) (p : Bytes) (x : Unit) :
    (AbsStore.fixed stat readlink).statAbs p x = (stat p, x) := rfl

@[simp] theorem AbsStore.fixed_readlinkAbs (stat : Bytes → Except Errno KStat)
    (readlink : Bytes → Except Errno Bytes) (p : Bytes) (x : Unit) :
    (AbsStore.fixed stat readlink).readlinkAbs p x = (readlink p, x) := rfl

def locAt (fs : FsCtx η) (abs last : Bytes) : VfsLoc η :=
  let m := fs.table.mountOf abs
  { m := m, abs := abs, last := last, rel := pathRel m abs }

/-- Answer `loc` if the store says that `abs` is a directory. -/
def demandDir (A : AbsStore σ) (abs : Bytes) (loc : VfsLoc η) :
    StateM σ (Except Errno (VfsLoc η)) := do
  match ← A.statAbs abs with
  | .error e => return .error e
  | .ok st => return if isDir st.mode then .ok loc else .error .ENOTDIR

structure WalkState where
  abs : Bytes
  p : Bytes
  nlinks : ℕ

def skipSlashes (p : Bytes) : Bytes := p.dropWhile (· = slash)

/-- The component at `p` and what follows it, from its slash on. -/
def component (p : Bytes) : Bytes := p.takeWhile (· ≠ slash)

def afterComponent (p : Bytes) : Bytes := p.dropWhile (· ≠ slash)

def spliceTarget (w : WalkState) (target s : Bytes) : Except Errno WalkState :=
  if target.length = 0 ∨ PATH_MAX ≤ target.length then .error .ENOENT
  else if PATH_MAX ≤ target.length + s.length + 1 then .error .ENAMETOOLONG
  else .ok {
    abs := if target.head? = some slash then [slash] else w.abs
    p := cstr (target ++ s)
    nlinks := w.nlinks + 1 }

def walkLink (A : AbsStore σ) (w : WalkState) (cand s : Bytes) :
    StateM σ (WalkState ⊕ Except Errno (VfsLoc η)) := do
  if 40 < w.nlinks + 1 then return .inr (.error .ELOOP)
  match ← A.readlinkAbs cand with
  | .error e => return .inr (.error e)
  | .ok target => match spliceTarget w target s with
    | .error e => return .inr (.error e)
    | .ok w' => return .inl w'

/-- An ordinary component: onto a mount point, through a link, or into the object. -/
def walkComponent (A : AbsStore σ) (fs : FsCtx η) (wflags : UInt32) (trailing : Bool)
    (w : WalkState) (comp s : Bytes) : StateM σ (WalkState ⊕ Except Errno (VfsLoc η)) := do
  let last : Bool := skipSlashes s = []
  match pathJoin PATH_MAX w.abs comp with
  | .error e => return .inr (.error e)
  | .ok cand =>
    if (mountAt fs.table.mounts cand).isSome then
      return .inl { w with abs := cand, p := s.drop 1 }
    match ← A.statAbs cand with
    | .error e => return .inr (.error e)
    | .ok st =>
      if isLnk st.mode && (!last || !has wflags W_NOFOLLOW || trailing) then
        walkLink A w cand s
      else if !last && !isDir st.mode then return .inr (.error .ENOTDIR)
      else return .inl { w with abs := cand, p := s.drop 1 }

def walkEnd (A : AbsStore σ) (fs : FsCtx η) (wflags : UInt32) (trailing : Bool) (abs : Bytes) :
    StateM σ (Except Errno (VfsLoc η)) := do
  if has wflags W_PARENT then return .error .EEXIST
  if has wflags W_MUSTDIR || trailing then demandDir A abs (locAt fs abs [])
  else return .ok (locAt fs abs [])

def walkStep (A : AbsStore σ) (fs : FsCtx η) (wflags : UInt32) (trailing : Bool)
    (w : WalkState) : StateM σ (WalkState ⊕ Except Errno (VfsLoc η)) := do
  let p := skipSlashes w.p
  if p = [] then return .inr (← walkEnd A fs wflags trailing w.abs)
  let comp := component p
  let s := afterComponent p
  if NAME_MAX < comp.length then return .inr (.error .ENAMETOOLONG)
  if comp = dot then return .inl { w with p := s.drop 1 }
  if comp = dotdot then return .inl { w with abs := pathParent w.abs, p := s.drop 1 }
  if skipSlashes s = [] && has wflags W_PARENT then
    return .inr (← demandDir A w.abs (locAt fs w.abs comp))
  walkComponent A fs wflags trailing w comp s

/-- How an ordinary component that is not the parent's last one moves the walk on. -/
inductive ComponentMove (A : AbsStore σ) (fs : FsCtx η) (wflags : UInt32) (trailing : Bool)
    (w : WalkState) (s : Bytes) (cand : Bytes) (x : σ) : WalkState → Prop
  | mount (hm : (mountAt fs.table.mounts cand).isSome = true) :
      ComponentMove A fs wflags trailing w s cand x { w with abs := cand, p := s.drop 1 }
  | object (st : KStat) (hm : mountAt fs.table.mounts cand = none)
      (hst : (A.statAbs cand x).1 = .ok st)
      (hl : isLnk st.mode = true → skipSlashes s = [] ∧ has wflags W_NOFOLLOW = true ∧
        trailing = false)
      (hd : skipSlashes s = [] ∨ isDir st.mode = true) :
      ComponentMove A fs wflags trailing w s cand x { w with abs := cand, p := s.drop 1 }
  | link (target : Bytes) (w' : WalkState) (hn : w.nlinks < 40)
      (hs : spliceTarget w target s = .ok w') :
      ComponentMove A fs wflags trailing w s cand x w'

/-- Everything a continuing turn of the loop can do. -/
inductive StepMove (A : AbsStore σ) (fs : FsCtx η) (wflags : UInt32) (trailing : Bool)
    (w : WalkState) (x : σ) : WalkState → Prop
  | here (hc : component (skipSlashes w.p) = dot) :
      StepMove A fs wflags trailing w x
        { w with p := (afterComponent (skipSlashes w.p)).drop 1 }
  | up (hc : component (skipSlashes w.p) = dotdot) :
      StepMove A fs wflags trailing w x
        { w with abs := pathParent w.abs, p := (afterComponent (skipSlashes w.p)).drop 1 }
  | into (cand : Bytes) (w' : WalkState)
      (hdot : component (skipSlashes w.p) ≠ dot) (hdotdot : component (skipSlashes w.p) ≠ dotdot)
      (hj : pathJoin PATH_MAX w.abs (component (skipSlashes w.p)) = .ok cand)
      (hw : ComponentMove A fs wflags trailing w (afterComponent (skipSlashes w.p)) cand x w') :
      StepMove A fs wflags trailing w x w'

theorem walkLink_continue {A : AbsStore σ} {w w' : WalkState} {cand s : Bytes} {x x' : σ}
    (h : walkLink (η := η) A w cand s x = (.inl w', x')) :
    w.nlinks < 40 ∧ ∃ target, spliceTarget w target s = .ok w' := by
  unfold walkLink at h
  split_ifs at h with hn
  · cases h
  · refine ⟨by omega, ?_⟩
    rw [bind_apply] at h
    cases hr : (A.readlinkAbs cand x).1 with
    | error e => rw [hr] at h; cases h
    | ok target =>
        rw [hr] at h
        dsimp only at h
        cases hw : spliceTarget w target s with
        | error e => rw [hw] at h; cases h
        | ok w'' => rw [hw] at h; cases h; exact ⟨target, hw⟩

theorem walkComponent_continue {A : AbsStore σ} {fs : FsCtx η} {wflags : UInt32}
    {trailing : Bool} {w w' : WalkState} {comp s : Bytes} {x x' : σ}
    (h : walkComponent A fs wflags trailing w comp s x = (.inl w', x')) :
    ∃ cand, pathJoin PATH_MAX w.abs comp = .ok cand ∧
      ComponentMove A fs wflags trailing w s cand x w' := by
  unfold walkComponent at h
  cases hj : pathJoin PATH_MAX w.abs comp with
  | error e => rw [hj] at h; cases h
  | ok cand =>
      rw [hj] at h
      refine ⟨cand, rfl, ?_⟩
      dsimp only at h
      cases hm : mountAt fs.table.mounts cand with
      | some m =>
          rw [hm] at h
          cases h
          exact .mount (by rw [hm]; rfl)
      | none =>
          rw [hm] at h
          dsimp only [Option.isSome, Bool.false_eq_true, if_false] at h
          rw [if_neg Bool.false_ne_true, bind_apply] at h
          cases hst : (A.statAbs cand x).1 with
          | error e => rw [hst] at h; cases h
          | ok st =>
              rw [hst] at h
              dsimp only at h
              split_ifs at h with hl hd
              · obtain ⟨hn, target, hw⟩ := walkLink_continue h
                exact .link target w' hn hw
              · cases h
              · cases h
                refine .object st hm hst ?_ ?_
                · intro hlnk
                  simpa [hlnk, and_assoc] using hl
                · simpa [or_iff_not_imp_left] using hd

theorem walkStep_continue {A : AbsStore σ} {fs : FsCtx η} {wflags : UInt32} {trailing : Bool}
    {w w' : WalkState} {x x' : σ} (h : walkStep A fs wflags trailing w x = (.inl w', x')) :
    skipSlashes w.p ≠ [] ∧ StepMove A fs wflags trailing w x w' := by
  unfold walkStep at h
  dsimp only at h
  split_ifs at h with hp hn hdot hdotdot hpar
  · cases h
  · cases h
  · cases h
    exact ⟨hp, .here hdot⟩
  · cases h
    exact ⟨hp, .up hdotdot⟩
  · cases h
  · obtain ⟨cand, hj, hw⟩ := walkComponent_continue h
    exact ⟨hp, .into cand w' hdot hdotdot hj hw⟩

inductive StepFound (A : AbsStore σ) (fs : FsCtx η) (wflags : UInt32) (trailing : Bool)
    (w : WalkState) (x : σ) : VfsLoc η → Prop
  | object (hp : skipSlashes w.p = []) (hpar : has wflags W_PARENT = false)
      (hd : has wflags W_MUSTDIR = true ∨ trailing = true →
        ∃ st, (A.statAbs w.abs x).1 = .ok st ∧ isDir st.mode = true) :
      StepFound A fs wflags trailing w x (locAt fs w.abs [])
  | parent (st : KStat) (hp : skipSlashes w.p ≠ [])
      (hlen : (component (skipSlashes w.p)).length ≤ NAME_MAX)
      (hdot : component (skipSlashes w.p) ≠ dot) (hdotdot : component (skipSlashes w.p) ≠ dotdot)
      (hlast : skipSlashes (afterComponent (skipSlashes w.p)) = [])
      (hpar : has wflags W_PARENT = true)
      (hst : (A.statAbs w.abs x).1 = .ok st) (hd : isDir st.mode = true) :
      StepFound A fs wflags trailing w x (locAt fs w.abs (component (skipSlashes w.p)))

theorem demandDir_ok {A : AbsStore σ} {abs : Bytes} {loc loc' : VfsLoc η} {x x' : σ}
    (h : demandDir A abs loc x = (.ok loc', x')) :
    loc' = loc ∧ ∃ st, (A.statAbs abs x).1 = .ok st ∧ isDir st.mode = true := by
  unfold demandDir at h
  rw [bind_apply] at h
  cases hst : (A.statAbs abs x).1 with
  | error e => rw [hst] at h; cases h
  | ok st =>
      rw [hst] at h
      dsimp only at h
      rw [pure_apply] at h
      by_cases hd : isDir st.mode = true
      · rw [if_pos hd] at h
        cases h
        exact ⟨rfl, st, rfl, hd⟩
      · rw [if_neg hd] at h
        cases h

theorem walkEnd_ok {A : AbsStore σ} {fs : FsCtx η} {wflags : UInt32} {trailing : Bool}
    {abs : Bytes} {loc : VfsLoc η} {x x' : σ}
    (h : walkEnd A fs wflags trailing abs x = (.ok loc, x')) :
    has wflags W_PARENT = false ∧ loc = locAt fs abs [] ∧
      (has wflags W_MUSTDIR = true ∨ trailing = true →
        ∃ st, (A.statAbs abs x).1 = .ok st ∧ isDir st.mode = true) := by
  unfold walkEnd at h
  split_ifs at h with hpar hd
  · cases h
  · obtain ⟨rfl, hst⟩ := demandDir_ok h
    exact ⟨by simpa using hpar, rfl, fun _ => hst⟩
  · cases h
    refine ⟨by simpa using hpar, rfl, ?_⟩
    intro hor
    exact absurd (by simpa using hor) hd

theorem walkLink_not_ok {A : AbsStore σ} {w : WalkState} {cand s : Bytes} {x x' : σ}
    {loc : VfsLoc η} : walkLink A w cand s x ≠ (.inr (.ok loc), x') := by
  intro h
  unfold walkLink at h
  split_ifs at h with hn
  · cases h
  · rw [bind_apply] at h
    cases hr : (A.readlinkAbs cand x).1 with
    | error e => rw [hr] at h; cases h
    | ok target =>
        rw [hr] at h
        dsimp only at h
        cases hw : spliceTarget w target s with
        | error e => rw [hw] at h; cases h
        | ok w' => rw [hw] at h; cases h

theorem walkComponent_not_ok {A : AbsStore σ} {fs : FsCtx η} {wflags : UInt32}
    {trailing : Bool} {w : WalkState} {comp s : Bytes} {x x' : σ} {loc : VfsLoc η} :
    walkComponent A fs wflags trailing w comp s x ≠ (.inr (.ok loc), x') := by
  intro h
  unfold walkComponent at h
  cases hj : pathJoin PATH_MAX w.abs comp with
  | error e => rw [hj] at h; cases h
  | ok cand =>
      rw [hj] at h
      dsimp only at h
      by_cases hm : (mountAt fs.table.mounts cand).isSome = true
      · rw [if_pos hm] at h
        cases h
      · rw [if_neg hm, bind_apply] at h
        cases hst : (A.statAbs cand x).1 with
        | error e => rw [hst] at h; cases h
        | ok st =>
            rw [hst] at h
            dsimp only at h
            split_ifs at h
            · exact walkLink_not_ok h
            · cases h
            · cases h

theorem walkStep_found {A : AbsStore σ} {fs : FsCtx η} {wflags : UInt32} {trailing : Bool}
    {w : WalkState} {x x' : σ} {loc : VfsLoc η}
    (h : walkStep A fs wflags trailing w x = (.inr (.ok loc), x')) :
    StepFound A fs wflags trailing w x loc := by
  unfold walkStep at h
  dsimp only at h
  split_ifs at h with hp hn hdot hdotdot hpar
  · rw [bind_apply, pure_apply] at h
    have he : (walkEnd A fs wflags trailing w.abs x).1 = .ok loc :=
      Sum.inr.inj (congrArg Prod.fst h)
    obtain ⟨hpar, rfl, hd⟩ := walkEnd_ok (Prod.ext he rfl)
    exact .object hp hpar hd
  · cases h
  · cases h
  · cases h
  · rw [bind_apply, pure_apply] at h
    have he : (demandDir A w.abs (locAt fs w.abs (component (skipSlashes w.p))) x).1 = .ok loc :=
      Sum.inr.inj (congrArg Prod.fst h)
    obtain ⟨rfl, st, hst, hd⟩ := demandDir_ok (Prod.ext he rfl)
    simp only [Bool.and_eq_true, decide_eq_true_eq] at hpar
    exact .parent st hp (by omega) hdot hdotdot hpar.1 hpar.2 hst hd
  · exact absurd h walkComponent_not_ok

theorem length_skipSlashes_le (p : Bytes) : (skipSlashes p).length ≤ p.length :=
  (List.dropWhile_sublist _).length_le

theorem length_afterComponent_lt {p : Bytes} (h : skipSlashes p ≠ []) :
    ((afterComponent (skipSlashes p)).drop 1).length < p.length := by
  have h1 := length_skipSlashes_le p
  have h2 : (afterComponent (skipSlashes p)).length ≤ (skipSlashes p).length :=
    (List.dropWhile_sublist _).length_le
  have h3 := List.length_pos_of_ne_nil h
  rw [List.length_drop]
  omega

/-- The forty-link budget first, then the length of the pending text. -/
def walkMeasure (w : WalkState) : ℕ := (41 - w.nlinks) * (PATH_MAX + 1) + w.p.length

theorem walkMeasure_text {w : WalkState} (abs : Bytes) {p : Bytes} (h : p.length < w.p.length) :
    walkMeasure { w with abs := abs, p := p } < walkMeasure w := by
  simp only [walkMeasure]
  omega

theorem spliceTarget_ok {w w' : WalkState} {target s : Bytes}
    (h : spliceTarget w target s = .ok w') :
    target ≠ [] ∧ target.length + s.length + 1 < PATH_MAX ∧
      w' = { abs := if target.head? = some slash then [slash] else w.abs
             p := cstr (target ++ s)
             nlinks := w.nlinks + 1 } := by
  unfold spliceTarget at h
  by_cases hlen : target.length = 0 ∨ PATH_MAX ≤ target.length
  · rw [if_pos hlen] at h
    cases h
  · rw [if_neg hlen] at h
    by_cases hcap : PATH_MAX ≤ target.length + s.length + 1
    · rw [if_pos hcap] at h
      cases h
    · rw [if_neg hcap] at h
      refine ⟨?_, by omega, (Except.ok.inj h).symm⟩
      rintro rfl
      exact hlen (.inl rfl)

theorem length_cstr_le (b : Bytes) : (cstr b).length ≤ b.length :=
  (List.takeWhile_sublist _).length_le

theorem walkMeasure_splice {w w' : WalkState} {target s : Bytes} (hn : w.nlinks < 40)
    (h : spliceTarget w target s = .ok w') : walkMeasure w' < walkMeasure w := by
  obtain ⟨_, hcap, rfl⟩ := spliceTarget_ok h
  have hlen := length_cstr_le (target ++ s)
  rw [List.length_append] at hlen
  have hbudget : 41 - w.nlinks = (41 - (w.nlinks + 1)) + 1 := by omega
  simp only [walkMeasure, hbudget, Nat.succ_mul]
  omega

theorem walkStep_lt {A : AbsStore σ} {fs : FsCtx η} {wflags : UInt32} {trailing : Bool}
    {w w' : WalkState} {x x' : σ} (h : walkStep A fs wflags trailing w x = (.inl w', x')) :
    walkMeasure w' < walkMeasure w := by
  obtain ⟨hp, hmove⟩ := walkStep_continue h
  have hlt := length_afterComponent_lt hp
  cases hmove with
  | here hc => exact walkMeasure_text w.abs hlt
  | up hc => exact walkMeasure_text _ hlt
  | into cand w' hdot hdotdot hj hw =>
      cases hw with
      | mount hm => exact walkMeasure_text cand hlt
      | object st hm hst hl hd => exact walkMeasure_text cand hlt
      | link target w' hn hs => exact walkMeasure_splice hn hs

def walkBody (A : AbsStore σ) (fs : FsCtx η) (wflags : UInt32) (trailing : Bool) :
    BoundedLoop.Body (WalkState × σ) (Except Errno (VfsLoc η) × σ) where
  step w := match walkStep A fs wflags trailing w.1 w.2 with
    | (.inl w', x') => .inl (w', x')
    | (.inr r, x') => .inr (r, x')
  measure w := walkMeasure w.1
  decreases w w' h := by
    cases hs : walkStep A fs wflags trailing w.1 w.2 with
    | mk r x' =>
        cases r with
        | inl w'' => rw [hs] at h; cases h; exact walkStep_lt hs
        | inr r => rw [hs] at h; cases h

theorem walkBody_continue {A : AbsStore σ} {fs : FsCtx η} {wflags : UInt32} {trailing : Bool}
    {w w' : WalkState × σ} :
    (walkBody A fs wflags trailing).step w = .inl w' ↔
      walkStep A fs wflags trailing w.1 w.2 = (.inl w'.1, w'.2) := by
  obtain ⟨w', x'⟩ := w'
  simp only [walkBody]
  cases hs : walkStep A fs wflags trailing w.1 w.2 with
  | mk r x => cases r <;> constructor <;> intro h <;> cases h <;> rfl

theorem walkBody_stop {A : AbsStore σ} {fs : FsCtx η} {wflags : UInt32} {trailing : Bool}
    {w : WalkState × σ} {r : Except Errno (VfsLoc η) × σ} :
    (walkBody A fs wflags trailing).step w = .inr r ↔
      walkStep A fs wflags trailing w.1 w.2 = (.inr r.1, r.2) := by
  obtain ⟨r, x'⟩ := r
  simp only [walkBody]
  cases hs : walkStep A fs wflags trailing w.1 w.2 with
  | mk r x => cases r <;> constructor <;> intro h <;> cases h <;> rfl

/-- Where a path starts: the root, or the base directory in its buffer. -/
def walkStart (fs : FsCtx η) (base : Option Bytes) (path : Bytes) : Bytes :=
  if path.head? = some slash then [slash] else (base.getD fs.cwd).take (PATH_MAX - 1)

/-- Whether the given path ends in a slash that is not the root itself. -/
def hasTrailing (path : Bytes) : Bool := 1 < path.length && path.getLast? = some slash

def walkInit (fs : FsCtx η) (base : Option Bytes) (path : Bytes) : WalkState :=
  { abs := walkStart fs base path, p := path, nlinks := 0 }

/-- `walk`. The path is a C string; `base` is `b->base_path`, absent for the working
directory. -/
def walk (A : AbsStore σ) (fs : FsCtx η) (base : Option Bytes) (path : Bytes)
    (wflags : UInt32) : StateM σ (Except Errno (VfsLoc η)) := fun x =>
  let path := cstr path
  if path.length = 0 then (.error .ENOENT, x)
  else if PATH_MAX ≤ path.length then (.error .ENAMETOOLONG, x)
  else (walkBody A fs wflags (hasTrailing path)).run (walkInit fs base path, x)

end SysvNt
