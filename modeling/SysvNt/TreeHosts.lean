import SysvNt.GuardedWalk
import SysvNt.NameTrees

/-!
# A host as a tree of names

The host store read as a tree: each directory has objects under its names and a handle is of one
object. `open_host_dir` goes down the directories that the names of a path lead through, and
`stat_abs` answers of a name what the tree has under it.
-/

namespace SysvNt

open FallibleCalls NameTrees StateCalls

variable {η σ ι : Type}

/-- How the states and handles of a host are read: the names there are, the object of a handle, and
the kind of an object. -/
structure TreeView (η σ ι : Type) where
  names : σ → Names ι Bytes
  obj : η → ι
  kind : ι → HfsKind

/-- What `hostfs.h` says of the calls that only read, for a host that answers them: what is there
can be looked at and entered, and what is looked at or entered is there. Windows follows its own
links inside the call. -/
structure TreeView.Contract (V : TreeView η σ ι) (H : HostStore η σ) : Prop where
  reads : ∀ T, Guarded H (fun _ _ => True) (fun x => V.names x = T) (fun c => c.changes = false)
  look : ∀ x d n i, V.names x (V.obj d) n = some i →
    ∃ o x', (H.openat d n HFS_O_REPARSE 0 0 0 true).run x = (.ok o, x')
  looked : ∀ x d n o x', (H.openat d n HFS_O_REPARSE 0 0 0 true).run x = (.ok o, x') →
    ∃ i, V.names x (V.obj d) n = some i ∧ o.st.kind = V.kind i
  enter : ∀ x d n i, V.names x (V.obj d) n = some i → V.kind i = .dir →
    ∃ o x', (H.openat d n (HFS_O_READ ||| HFS_O_DIR) 0 0 0 false).run x = (.ok o, x') ∧ o.reparse = false
  entered : ∀ x d n o x', (H.openat d n (HFS_O_READ ||| HFS_O_DIR) 0 0 0 false).run x = (.ok o, x') →
    o.reparse = false → ∃ i, V.names x (V.obj d) n = some i ∧
      (V.kind i ≠ .winlink → V.kind i = .dir ∧ V.obj o.h = i)
  again : ∀ x h, V.kind (V.obj h) = .dir → ∃ o x', (H.reopen h (HFS_O_READ ||| HFS_O_DIR) false).run x = (.ok o, x')
  reopened : ∀ x h o x', (H.reopen h (HFS_O_READ ||| HFS_O_DIR) false).run x = (.ok o, x') →
    V.kind (V.obj h) = .dir ∧ V.obj o.h = V.obj h

/-- The directories of the view form a tree below the root of a mount. -/
def TreeView.Tree (V : TreeView η σ ι) (root : η) (T : Names ι Bytes) : Prop :=
  Rooted T (fun i => V.kind i = .dir) (V.obj root)

theorem Guarded.openat_names {H : HostStore η σ} {I : σ → Prop}
    (hG : Guarded H (fun _ _ => True) I (fun c => c.changes = false)) {d : η} {n : Bytes} {fl : UInt32}
    (hfl : mayChange fl = false) {st : Bool} {x x' : σ} {r : Except Errno (Opened η)} (hx : I x)
    (h : (H.openat d n fl 0 0 0 st).run x = (r, x')) : I x' := by
  have hkeep := hG.openat d [] n fl 0 0 0 st trivial hfl x hx
  rw [KeepsAt, h] at hkeep
  exact hkeep.1

def ShortNames (ns : List Bytes) : Prop := ∀ n ∈ ns, n.length ≤ NAME_MAX

section Chains

variable {V : TreeView η σ ι} {H : HostStore η σ} (hC : V.Contract H) {root : η} {T : Names ι Bytes}
  (hT : V.Tree root T)

include hC hT

/-- The loop goes down to the directory that the components lead to. -/
theorem openChain_enters {d : ι} (hd : V.kind d = .dir) (comps : List Bytes) (hshort : ShortNames comps)
    {cur : η} (owned : Bool) {x : σ} (hx : V.names x = T) (h : follow T (V.obj cur) comps = some d) :
    ∃ k b x', (openChain H cur owned comps).run x = (.ok (k, b), x') ∧ V.obj k = d ∧ V.names x' = T ∧
      (b = false → owned = false ∧ comps = []) := by
  induction comps generalizing cur owned x with
  | nil => exact ⟨cur, owned, x, rfl, Option.some.inj h, hx, fun hb => ⟨hb, rfl⟩⟩
  | cons n comps ih =>
      obtain ⟨j, hj, hrest⟩ := Option.bind_eq_some_iff.mp h
      have hdir : V.kind j = .dir := by
        cases comps with
        | nil =>
            obtain rfl : j = d := Option.some.inj hrest
            exact hd
        | cons m comps =>
            obtain ⟨k, hk, _⟩ := Option.bind_eq_some_iff.mp hrest
            exact hT.parent_dir hk
      have hG := hC.reads T
      rw [← hx] at hj
      obtain ⟨o, y, hrun, hfresh⟩ := hC.enter x cur n j hj hdir
      obtain ⟨i, hi, hlands⟩ := hC.entered x cur n o y hrun hfresh
      obtain rfl : i = j := Option.some.inj (hi.symm.trans hj)
      obtain ⟨_, rfl⟩ := hlands (by rw [hdir]; decide)
      have hy := hG.openat_names (by decide) hx hrun
      obtain ⟨z, hclosed, hz⟩ : ∃ z, (closing (if owned then H.close cur else pure () : StateM σ Unit)
          (H.openat cur n (HFS_O_READ ||| HFS_O_DIR) 0 0 0 false)).run x = (.ok o, z) ∧ V.names z = T := by
        rw [run_closing, hrun]
        refine ⟨_, rfl, ?_⟩
        split_ifs
        · exact hG.close cur y hy
        · exact hy
      obtain ⟨k, b, x', hdown, hk, hx', howned⟩ :=
        ih (fun m hm => hshort m (List.mem_cons_of_mem n hm)) true hz hrest
      refine ⟨k, b, x', ?_, hk, hx', fun hb => absurd (howned hb).1 (by decide)⟩
      rw [openChain, if_neg (not_lt_of_ge (hshort n List.mem_cons_self)), run_bind, hclosed]
      dsimp only
      rw [hfresh, if_neg Bool.false_ne_true, hdown]

/-- `open_host_dir` opens the directory that the names of a path lead to. -/
theorem openHostDir_enters {m : Mount η} {ps ds : List Bytes} (hpoint : m.point = render ps)
    (hps : ValidNames ps) (hds : ValidNames ds) (hshort : ShortNames ds) {d : ι} (hd : V.kind d = .dir)
    (h : follow T (V.obj root) ds = some d) {x : σ} (hx : V.names x = T) :
    ∃ k x', (openHostDir H root m (render (ps ++ ds))).run x = (.ok k, x') ∧ V.obj k = d ∧ V.names x' = T := by
  obtain ⟨k, b, y, hdown, hk, hy, hown⟩ := openChain_enters hC hT hd ds hshort false hx h
  rw [openHostDir, pathRel_render hpoint hps, relComponents_relText hds, run_bind, hdown]
  cases b with
  | true => exact ⟨k, y, rfl, hk, hy⟩
  | false =>
      obtain ⟨_, rfl⟩ := hown rfl
      obtain rfl : V.obj root = d := Option.some.inj h
      obtain ⟨o, x', hrun⟩ := hC.again y root hd
      obtain ⟨_, hobj⟩ := hC.reopened y root o x' hrun
      have hkeep := (hC.reads T).reopen root [] (HFS_O_READ ||| HFS_O_DIR) false trivial y hy
      rw [KeepsAt, hrun] at hkeep
      refine ⟨o.h, x', ?_, hobj, hkeep.1⟩
      dsimp only
      rw [if_neg Bool.false_ne_true, run_bind, hrun]
      rfl

omit hC hT in
theorem pathRel_below_ne {m : Mount η} {ps ds : List Bytes} {n : Bytes} (hpoint : m.point = render ps)
    (hv : ValidNames (ps ++ ds ++ [n])) : pathRel m (render (ps ++ ds ++ [n])) ≠ [] := by
  have hps : ValidNames ps := fun k hk => hv k (by simp [hk])
  have hrest : ValidNames (ds ++ [n]) := fun k hk => hv k (by rw [List.append_assoc]; exact List.mem_append_right _ hk)
  rw [List.append_assoc, pathRel_render hpoint hps]
  intro hnil
  have hcomps := relComponents_relText hrest
  rw [hnil] at hcomps
  exact List.append_ne_nil_of_right_ne_nil ds (List.cons_ne_nil n []) hcomps.symm

structure StatSays (V : TreeView η σ ι) (T : Names ι Bytes) (i : Option ι) (r : Except Errno KStat) (x' : σ) :
    Prop where
  names : V.names x' = T
  ok : ∀ j, i = some j → ∃ st, r = .ok st ∧ (isDir st.mode = true ↔ V.kind j = .dir)
  error : i = none → ∃ e, r = .error e

theorem statAbs_says {K : Kernel η σ} (hK : K.store = H) {fs : FsCtx η} {m : Mount η} {ps ds : List Bytes}
    {n : Bytes} (hm : fs.table.mountOf (render (ps ++ ds ++ [n])) = m) (hroot : m.type = .host root)
    (hpoint : m.point = render ps) (hv : ValidNames (ps ++ ds ++ [n])) (hshort : ShortNames ds) {d : ι}
    (hd : V.kind d = .dir) (h : follow T (V.obj root) ds = some d) {x : σ} (hx : V.names x = T) :
    ∃ r x', (statAbs K fs (render (ps ++ ds ++ [n]))).run x = (r, x') ∧ StatSays V T (T d n) r x' := by
  have hps : ValidNames ps := fun k hk => hv k (by simp [hk])
  have hds : ValidNames ds := fun k hk => hv k (by simp [hk])
  have hn : ValidName n := hv n (by simp)
  obtain ⟨k, y, hopen, rfl, hy⟩ := openHostDir_enters hC hT hpoint hps hds hshort hd h hx
  have hG := hC.reads T
  rw [statAbs, hm, hroot]
  dsimp only
  rw [if_neg (pathRel_below_ne hpoint hv), pathParent_render_snoc _ hn.slash_not_mem,
    lastName_render_snoc _ hn.slash_not_mem, hK, run_bind, hopen]
  dsimp only
  rw [HostStore.statat, run_bind, run_closing, run_bind]
  cases hrun : (H.openat k n HFS_O_REPARSE 0 0 0 true).run y with
  | mk r z =>
      have hz := hG.openat_names (by decide) hy hrun
      cases r with
      | error e =>
          refine ⟨_, _, rfl, hG.close k z hz, fun j hj => ?_, fun _ => ⟨e, rfl⟩⟩
          rw [← hy] at hj
          obtain ⟨o, w, hok⟩ := hC.look y k n j hj
          rw [hrun] at hok
          cases hok
      | ok o =>
          obtain ⟨j, hj, hkind⟩ := hC.looked y k n o z hrun
          rw [hy] at hj
          refine ⟨_, _, rfl, hG.close k _ (hG.close o.h z hz), fun j' hj' => ⟨_, rfl, ?_⟩, fun hnone => ?_⟩
          · obtain rfl : j = j' := Option.some.inj (hj.symm.trans hj')
            rw [isDir_kstatOf_iff, hkind]
          · rw [hj] at hnone
            cases hnone

omit hT

/-- Without Windows links on the way the loop ends where the components lead to. -/
theorem openChain_entered (hlinks : ∀ d n i, T d n = some i → V.kind i ≠ .winlink) (comps : List Bytes) {cur : η}
    (owned : Bool) {x x' : σ} (hx : V.names x = T) {k : η} {b : Bool}
    (h : (openChain H cur owned comps).run x = (.ok (k, b), x')) :
    follow T (V.obj cur) comps = some (V.obj k) ∧ ShortNames comps ∧ V.names x' = T ∧
      (b = false → owned = false ∧ comps = []) ∧ (comps ≠ [] → V.kind (V.obj k) = .dir) := by
  induction comps generalizing cur owned x with
  | nil =>
      cases h
      exact ⟨rfl, fun n hn => (by cases hn), hx, fun hb => ⟨hb, rfl⟩, fun hne => absurd rfl hne⟩
  | cons n comps ih =>
      have hG := hC.reads T
      have hclose : ∀ y, V.names y = T →
          V.names ((if owned then H.close cur else pure () : StateM σ Unit) y).2 = T := by
        intro y hy
        split_ifs
        · exact hG.close cur y hy
        · exact hy
      rw [openChain] at h
      generalize (if owned then H.close cur else pure () : StateM σ Unit) = closeCur at h hclose
      by_cases hlong : NAME_MAX < n.length
      · rw [if_pos hlong] at h
        cases h
      rw [if_neg hlong] at h
      obtain ⟨o, z, ho, h⟩ := of_run_bind h
      obtain ⟨y, hopened, rfl⟩ := of_run_closing ho
      cases hfresh : o.reparse with
      | true =>
          rw [hfresh, if_pos rfl] at h
          cases h
      | false =>
          rw [hfresh, if_neg Bool.false_ne_true] at h
          obtain ⟨i, hi, hlands⟩ := hC.entered x cur n o y hopened hfresh
          rw [hx] at hi
          obtain ⟨hdir, rfl⟩ := hlands (hlinks _ _ _ hi)
          obtain ⟨hfollow, hshort, hx', hown, hkind⟩ :=
            ih true (hclose y (hG.openat_names (by decide) hx hopened)) h
          refine ⟨?_, ?_, hx', fun hb => absurd (hown hb).1 (by decide), fun _ => ?_⟩
          · rw [follow, hi]
            exact hfollow
          · intro m hm
            rcases List.mem_cons.mp hm with rfl | hm
            · exact not_lt.mp hlong
            · exact hshort m hm
          · by_cases hnil : comps = []
            · subst hnil
              rwa [← Option.some.inj hfollow]
            · exact hkind hnil

theorem openHostDir_entered (hlinks : ∀ d n i, T d n = some i → V.kind i ≠ .winlink) {m : Mount η} {abs : Bytes}
    {x x' : σ} (hx : V.names x = T) {k : η} (h : (openHostDir H root m abs).run x = (.ok k, x')) :
    follow T (V.obj root) (relComponents (pathRel m abs)) = some (V.obj k) ∧
      ShortNames (relComponents (pathRel m abs)) ∧ V.kind (V.obj k) = .dir := by
  rw [openHostDir] at h
  obtain ⟨⟨c, b⟩, y, hdown, h⟩ := of_run_bind h
  obtain ⟨hfollow, hshort, _, hown, hkind⟩ := openChain_entered hC hlinks _ false hx hdown
  cases b with
  | true =>
      cases h
      refine ⟨hfollow, hshort, ?_⟩
      by_cases hnil : relComponents (pathRel m abs) = []
      · rw [hnil] at hdown
        cases hdown
      · exact hkind hnil
  | false =>
      obtain ⟨_, hnil⟩ := hown rfl
      rw [hnil] at hfollow hshort ⊢
      obtain ⟨o, z, hopened, h⟩ := of_run_bind h
      cases h
      obtain ⟨hdir, hobj⟩ := hC.reopened y root o x' hopened
      rw [hobj]
      exact ⟨rfl, hshort, hdir⟩

end Chains

end SysvNt
