import SysvNt.Resolver
import SysvNt.WalkCanonical

/-!
# The splicing loop refines the reference resolver

On a fixed tree the walk and the component-by-component resolver agree on every path: the
text the loop keeps is the list of components the resolver keeps, and pasting a target in
front of the text is replacing a component by the target's components.
-/

namespace SysvNt

open Resolver StateCalls

variable {η : Type}

def treeOf (fs : FsCtx η) (stat : Bytes → Except Errno KStat)
    (readlink : Bytes → Except Errno Bytes) : Tree where
  stat ns := stat (render ns)
  readlink ns := readlink (render ns)
  mounted ns := (mountAt fs.table.mounts (render ns)).isSome

def bufferLimits : Limits where
  given n := PATH_MAX ≤ n
  name n := NAME_MAX < n
  path n := PATH_MAX ≤ n
  target n := PATH_MAX ≤ n
  text n := PATH_MAX ≤ n + 1

def requestOf (wflags : UInt32) (trailing : Bool) : Resolver.Request where
  parent := has wflags W_PARENT
  nofollow := has wflags W_NOFOLLOW
  slashed := trailing
  demand := has wflags W_MUSTDIR || trailing

def toLoc (fs : FsCtx η) (f : Found) : VfsLoc η := locAt fs (render f.dir) f.last

/-- What can follow a component: nothing, or its slash. -/
def AtEnd (s : Bytes) : Prop := s = [] ∨ s.head? = some slash

theorem afterComponent_atEnd (p : Bytes) : AtEnd (afterComponent p) := by
  rcases afterComponent_cases p with h | ⟨t, h⟩
  · exact .inl h
  · exact .inr (by rw [h]; rfl)

theorem comps_skipSlashes (p : Bytes) : comps (skipSlashes p) = comps p := by
  induction p with
  | nil => rfl
  | cons c p ih =>
      rw [skipSlashes, List.dropWhile_cons]
      split_ifs with hc
      · have hc' : c = slash := by simpa using hc
        rw [hc', comps_slash]
        exact ih
      · rfl

theorem comps_of_skipSlashes_ne {p : Bytes} (h : skipSlashes p ≠ []) :
    comps p = ⟨component (skipSlashes p), (afterComponent (skipSlashes p)).length⟩ ::
      comps (afterComponent (skipSlashes p)) := by
  rw [← comps_skipSlashes p]
  have hsplit : skipSlashes p = component (skipSlashes p) ++ afterComponent (skipSlashes p) :=
    List.takeWhile_append_dropWhile.symm
  have hcomp := comps_component _ _ (component_ne_nil h) (component_not_mem (skipSlashes p))
    (afterComponent_atEnd (skipSlashes p))
  rw [← hsplit] at hcomp
  exact hcomp

theorem comps_eq_nil_iff {p : Bytes} : comps p = [] ↔ skipSlashes p = [] := by
  constructor
  · intro h
    by_contra hp
    rw [comps_of_skipSlashes_ne hp] at h
    cases h
  · intro h
    rw [← comps_skipSlashes p, h]
    rfl

theorem comps_drop_afterComponent (p : Bytes) :
    comps ((afterComponent p).drop 1) = comps (afterComponent p) := by
  rcases afterComponent_cases p with h | ⟨t, h⟩ <;> simp [h, comps_slash]

theorem cstr_of_not_mem {b : Bytes} (h : 0 ∉ b) : cstr b = b := by
  rw [cstr, List.takeWhile_eq_self_iff]
  intro c hc
  have : c ≠ 0 := fun he => h (he ▸ hc)
  simpa using this

theorem zero_not_mem_cstr (b : Bytes) : 0 ∉ cstr b := by
  intro h
  simpa using List.mem_takeWhile_imp h

theorem zero_not_mem_afterComponent {p : Bytes} (h : 0 ∉ p) :
    0 ∉ afterComponent (skipSlashes p) := fun h0 =>
  h ((List.dropWhile_sublist _).subset ((List.dropWhile_sublist _).subset h0))

section

variable (fs : FsCtx η) (stat : Bytes → Except Errno KStat)
  (readlink : Bytes → Except Errno Bytes) (wflags : UInt32) (trailing : Bool)

theorem demandDir_fixed (dir : List Bytes) (last : Bytes) :
    demandDir (AbsStore.fixed stat readlink) (render dir) (locAt fs (render dir) last) () =
      ((demandDirectory (treeOf fs stat readlink) ⟨dir, last⟩).map (toLoc fs), ()) := by
  rw [demandDir, bind_apply, AbsStore.fixed_statAbs]
  simp only [demandDirectory, treeOf]
  cases stat (render dir) with
  | error e => rfl
  | ok st =>
      dsimp only
      rw [pure_apply]
      split_ifs <;> rfl

theorem walkEnd_fixed (dir : List Bytes) :
    walkEnd (AbsStore.fixed stat readlink) fs wflags trailing (render dir) () =
      ((finish (treeOf fs stat readlink) (requestOf wflags trailing) dir).map (toLoc fs), ()) := by
  have hreq : (requestOf wflags trailing).parent = has wflags W_PARENT ∧
      (requestOf wflags trailing).demand = (has wflags W_MUSTDIR || trailing) := ⟨rfl, rfl⟩
  rw [walkEnd, finish, hreq.1, hreq.2]
  by_cases hpar : has wflags W_PARENT = true
  · rw [if_pos hpar, if_pos hpar]
    rfl
  · rw [if_neg hpar, if_neg hpar]
    by_cases hd : (has wflags W_MUSTDIR || trailing) = true
    · rw [if_pos hd, if_pos hd]
      exact demandDir_fixed fs stat readlink dir []
    · rw [if_neg hd, if_neg hd]
      rfl

/-- One turn of the loop against the answer the resolver owes: either it is given now, or
the resolver owes the same answer from the state the turn leaves. -/
inductive Agrees (e : Except Errno Found) : WalkState ⊕ Except Errno (VfsLoc η) → Prop
  | done : Agrees e (.inr (e.map (toLoc fs)))
  | going (w : WalkState) (dir : List Bytes) (hv : ValidNames dir) (habs : w.abs = render dir)
      (h0 : 0 ∉ w.p) (hn : w.nlinks ≤ 40)
      (he : resolve (treeOf fs stat readlink) bufferLimits (requestOf wflags trailing)
        (40 - w.nlinks) dir (comps w.p) = e) : Agrees e (.inl w)

theorem walkLink_agrees (hnul : ∀ p t, readlink p = .ok t → 0 ∉ t) {dir : List Bytes}
    (hv : ValidNames dir) {p comp s : Bytes} {k : ℕ} (hk : k ≤ 40) (hs0 : 0 ∉ s) (hs : AtEnd s) :
    Agrees fs stat readlink wflags trailing
      (followWithin (treeOf fs stat readlink) bufferLimits (requestOf wflags trailing) (40 - k)
        dir ⟨comp, s.length⟩ (comps s))
      (walkLink (AbsStore.fixed stat readlink) ⟨render dir, p, k⟩ (render (dir ++ [comp])) s ()).1 := by
  rw [walkLink]
  dsimp only
  by_cases hbudget : 40 < k + 1
  · have hk0 : 40 - k = 0 := by omega
    rw [if_pos hbudget, hk0]
    exact .done
  · obtain ⟨j, hj⟩ : ∃ j, 40 - k = j + 1 := ⟨39 - k, by omega⟩
    rw [if_neg hbudget, hj, bind_apply, AbsStore.fixed_readlinkAbs, followWithin, followLink]
    simp only [treeOf]
    cases hr : readlink (render (dir ++ [comp])) with
    | error e => exact .done
    | ok target =>
        dsimp only
        have ht0 := hnul _ _ hr
        rw [spliceTarget]
        by_cases hlen : target.length = 0 ∨ PATH_MAX ≤ target.length
        · have hl : target = [] ∨ bufferLimits.target target.length = true := by
            simpa [bufferLimits] using hlen
          rw [if_pos hlen, if_pos hl]
          exact .done
        · have hl : ¬ (target = [] ∨ bufferLimits.target target.length = true) := by
            simpa [bufferLimits] using hlen
          rw [if_neg hlen, if_neg hl]
          by_cases hcap : PATH_MAX ≤ target.length + s.length + 1
          · have hc : bufferLimits.text (target.length + s.length) = true := by
              simpa [bufferLimits] using hcap
            rw [if_pos hcap, if_pos hc]
            exact .done
          · have hc : ¬ bufferLimits.text (target.length + s.length) = true := by
              simpa [bufferLimits] using hcap
            have happ0 : 0 ∉ target ++ s := by
              rw [List.mem_append, not_or]
              exact ⟨ht0, hs0⟩
            rw [if_neg hcap, if_neg hc]
            refine .going _ (if target.head? = some slash then [] else dir) ?_ ?_ ?_ ?_ ?_
            · split_ifs
              · exact ValidNames.nil
              · exact hv
            · dsimp only
              split_ifs <;> rfl
            · exact zero_not_mem_cstr _
            · dsimp only
              omega
            · dsimp only
              rw [cstr_of_not_mem happ0, comps_append target s hs, show 40 - (k + 1) = j by omega]
              rfl

/-- The resolver on an ordinary component that is not the parent's last one. -/
theorem walkComponent_agrees (hnul : ∀ p t, readlink p = .ok t → 0 ∉ t) {dir : List Bytes}
    (hv : ValidNames dir) {p comp s : Bytes} {k : ℕ} (hk : k ≤ 40) (hs0 : 0 ∉ s) (hs : AtEnd s)
    (hcomp : ValidName comp) (hlen : comp.length ≤ NAME_MAX)
    (hnext : comps (s.drop 1) = comps s)
    (hpar : ¬ (comps s = [] ∧ (requestOf wflags trailing).parent = true)) :
    Agrees fs stat readlink wflags trailing
      (resolve (treeOf fs stat readlink) bufferLimits (requestOf wflags trailing) (40 - k) dir
        (⟨comp, s.length⟩ :: comps s))
      (walkComponent (AbsStore.fixed stat readlink) fs wflags trailing ⟨render dir, p, k⟩ comp s
        ()).1 := by
  have hname : ¬ bufferLimits.name comp.length = true := by simpa [bufferLimits] using hlen
  rw [resolve_cons, if_neg hname, if_neg hcomp.ne_dot, if_neg hcomp.ne_dotdot, if_neg hpar,
    walkComponent]
  dsimp only
  rw [pathJoin_render hv hlen]
  have hinto : resolve (treeOf fs stat readlink) bufferLimits (requestOf wflags trailing) (40 - k)
      (dir ++ [comp]) (comps (s.drop 1)) =
      resolve (treeOf fs stat readlink) bufferLimits (requestOf wflags trailing) (40 - k)
        (dir ++ [comp]) (comps s) := by rw [hnext]
  have hinto0 : 0 ∉ s.drop 1 := fun h => hs0 (List.mem_of_mem_drop h)
  by_cases hcap : PATH_MAX ≤ (render (dir ++ [comp])).length
  · have hc : bufferLimits.path (render (dir ++ [comp])).length = true := by
      simpa [bufferLimits] using hcap
    rw [if_pos hcap, if_pos hc]
    exact .done
  have hc : ¬ bufferLimits.path (render (dir ++ [comp])).length = true := by
    simpa [bufferLimits] using hcap
  rw [if_neg hcap, if_neg hc]
  have hm : (treeOf fs stat readlink).mounted (dir ++ [comp]) =
      (mountAt fs.table.mounts (render (dir ++ [comp]))).isSome := rfl
  rw [hm]
  dsimp only
  by_cases hmount : (mountAt fs.table.mounts (render (dir ++ [comp]))).isSome = true
  · rw [if_pos hmount, if_pos hmount]
    exact .going _ (dir ++ [comp]) (hv.snoc hcomp) rfl hinto0 hk hinto
  rw [if_neg hmount, if_neg hmount, bind_apply, AbsStore.fixed_statAbs]
  have hst : (treeOf fs stat readlink).stat (dir ++ [comp]) = stat (render (dir ++ [comp])) := rfl
  rw [hst]
  cases stat (render (dir ++ [comp])) with
  | error e => exact .done
  | ok st =>
      dsimp only
      have hlast := comps_eq_nil_iff (p := s)
      by_cases hlnk : isLnk st.mode = true ∧ (comps s ≠ [] ∨
          (requestOf wflags trailing).nofollow = false ∨
            (requestOf wflags trailing).slashed = true)
      · have hl : (isLnk st.mode && (!decide (skipSlashes s = []) ||
            !has wflags W_NOFOLLOW || trailing)) = true := by
          simpa [requestOf, hlast, or_assoc] using hlnk
        rw [if_pos hlnk, if_pos hl]
        exact walkLink_agrees fs stat readlink wflags trailing hnul hv hk hs0 hs
      · have hl : ¬ (isLnk st.mode && (!decide (skipSlashes s = []) ||
            !has wflags W_NOFOLLOW || trailing)) = true := by
          simpa [requestOf, hlast, or_assoc] using hlnk
        rw [if_neg hlnk, if_neg hl]
        by_cases hdir : comps s ≠ [] ∧ isDir st.mode = false
        · have hd : (!decide (skipSlashes s = []) && !isDir st.mode) = true := by
            simpa [hlast] using hdir
          rw [if_pos hdir, if_pos hd]
          exact .done
        · have hd : ¬ (!decide (skipSlashes s = []) && !isDir st.mode) = true := by
            simpa [hlast] using hdir
          rw [if_neg hdir, if_neg hd]
          exact .going _ (dir ++ [comp]) (hv.snoc hcomp) rfl hinto0 hk hinto

theorem walkStep_agrees (hnul : ∀ p t, readlink p = .ok t → 0 ∉ t) {dir : List Bytes}
    (hv : ValidNames dir) {p : Bytes} {k : ℕ} (hk : k ≤ 40) (hp0 : 0 ∉ p) :
    Agrees fs stat readlink wflags trailing
      (resolve (treeOf fs stat readlink) bufferLimits (requestOf wflags trailing) (40 - k) dir
        (comps p))
      (walkStep (AbsStore.fixed stat readlink) fs wflags trailing ⟨render dir, p, k⟩ ()).1 := by
  rw [walkStep]
  dsimp only
  by_cases hp : skipSlashes p = []
  · rw [if_pos hp, comps_eq_nil_iff.mpr hp, resolve_nil, bind_apply, walkEnd_fixed]
    exact .done
  have hs0 := zero_not_mem_afterComponent hp0
  have hnext0 : 0 ∉ (afterComponent (skipSlashes p)).drop 1 :=
    fun h => hs0 (List.mem_of_mem_drop h)
  have hnext := comps_drop_afterComponent (skipSlashes p)
  rw [if_neg hp, comps_of_skipSlashes_ne hp]
  by_cases hn : NAME_MAX < (component (skipSlashes p)).length
  · have hname : bufferLimits.name (component (skipSlashes p)).length = true := by
      simpa [bufferLimits] using hn
    rw [if_pos hn, resolve_cons, if_pos hname]
    exact .done
  have hname : ¬ bufferLimits.name (component (skipSlashes p)).length = true := by
    simpa [bufferLimits] using hn
  rw [if_neg hn]
  by_cases hdot : component (skipSlashes p) = dot
  · rw [if_pos hdot, resolve_cons, if_neg hname, if_pos hdot, ← hnext]
    exact .going _ dir hv rfl hnext0 hk rfl
  rw [if_neg hdot]
  by_cases hdotdot : component (skipSlashes p) = dotdot
  · rw [if_pos hdotdot, resolve_cons, if_neg hname, if_neg hdot, if_pos hdotdot, ← hnext]
    exact .going _ dir.dropLast hv.dropLast (pathParent_render hv) hnext0 hk rfl
  rw [if_neg hdotdot]
  have hlast := comps_eq_nil_iff (p := afterComponent (skipSlashes p))
  by_cases hpar : comps (afterComponent (skipSlashes p)) = [] ∧
      (requestOf wflags trailing).parent = true
  · have hpar' : (decide (skipSlashes (afterComponent (skipSlashes p)) = []) &&
        has wflags W_PARENT) = true := by simpa [requestOf, hlast] using hpar
    rw [if_pos hpar', resolve_cons, if_neg hname, if_neg hdot, if_neg hdotdot, if_pos hpar,
      bind_apply, demandDir_fixed]
    exact .done
  · have hpar' : ¬ (decide (skipSlashes (afterComponent (skipSlashes p)) = []) &&
        has wflags W_PARENT) = true := by simpa [requestOf, hlast] using hpar
    rw [if_neg hpar']
    exact walkComponent_agrees fs stat readlink wflags trailing hnul hv hk hs0
      (afterComponent_atEnd (skipSlashes p)) (component_valid hp hdot hdotdot) (by omega) hnext hpar

/-- The loop from a state whose canonical path spells `dir` is the resolver from `dir`. -/
theorem walkBody_run_fixed (hnul : ∀ p t, readlink p = .ok t → 0 ∉ t) (w : WalkState × Unit) :
    ∀ dir, ValidNames dir → w.1.abs = render dir → 0 ∉ w.1.p → w.1.nlinks ≤ 40 →
      (walkBody (AbsStore.fixed stat readlink) fs wflags trailing).run w =
        ((resolve (treeOf fs stat readlink) bufferLimits (requestOf wflags trailing)
          (40 - w.1.nlinks) dir (comps w.1.p)).map (toLoc fs), ()) := by
  induction w using
    (walkBody (AbsStore.fixed stat readlink) fs wflags trailing).step_induction with
  | _ w ih =>
      obtain ⟨⟨abs, p, k⟩, ⟨⟩⟩ := w
      intro dir hv habs hp0 hk
      dsimp only at habs hp0 hk
      subst habs
      have hagrees := walkStep_agrees fs stat readlink wflags trailing hnul hv hk hp0
      cases hstep : walkStep (AbsStore.fixed stat readlink) fs wflags trailing
          ⟨render dir, p, k⟩ () with
      | mk r x =>
          obtain ⟨⟩ := x
          rw [hstep] at hagrees
          cases hagrees with
          | done =>
              exact BoundedLoop.Body.run_of_stop _ (walkBody_stop.mpr hstep)
          | going w' dir' hv' habs' h0' hn' he =>
              have hs : (walkBody (AbsStore.fixed stat readlink) fs wflags trailing).step
                  (⟨render dir, p, k⟩, ()) = .inl (w', ()) := walkBody_continue.mpr hstep
              rw [BoundedLoop.Body.run_of_continue _ hs, ih (w', ()) hs dir' hv' habs' h0' hn']
              dsimp only
              rw [he]

/-- The walk of a path that is neither empty nor too long. -/
theorem walk_run_fixed (hnul : ∀ p t, readlink p = .ok t → 0 ∉ t) {base : Option Bytes} {ns : List Bytes}
    (hv : ValidNames ns) (hbase : base.getD fs.cwd = render ns) (hlen : (render ns).length < PATH_MAX) {path : Bytes}
    (h0 : cstr path ≠ []) (hmax : ¬ PATH_MAX ≤ (cstr path).length) :
    walk (AbsStore.fixed stat readlink) fs base path wflags () =
      ((resolve (treeOf fs stat readlink) bufferLimits (requestOf wflags (hasTrailing (cstr path))) 40
        (if (cstr path).head? = some slash then [] else ns) (comps (cstr path))).map (toLoc fs), ()) := by
  rw [walk, if_neg fun h => h0 (List.length_eq_zero_iff.mp h), if_neg hmax]
  have hstart : walkStart fs base (cstr path) = render (if (cstr path).head? = some slash then [] else ns) := by
    rw [walkStart, hbase, List.take_of_length_le (by omega)]
    split_ifs <;> rfl
  refine walkBody_run_fixed fs stat readlink wflags _ hnul (walkInit fs base (cstr path), ()) _ ?_ hstart
    (zero_not_mem_cstr path) (Nat.zero_le 40)
  split_ifs
  · exact ValidNames.nil
  · exact hv

end

/-- On a fixed tree the splicing loop returns what the component-by-component resolver
returns under the bounds of the walk's buffers. A path that ends in a slash demands a
directory, except the root's own spelling. -/
theorem walk_eq_resolvePath (fs : FsCtx η) (stat : Bytes → Except Errno KStat)
    (readlink : Bytes → Except Errno Bytes) (hnul : ∀ p t, readlink p = .ok t → 0 ∉ t)
    (base : Option Bytes) (ns : List Bytes) (hv : ValidNames ns)
    (hbase : base.getD fs.cwd = render ns) (hlen : (render ns).length < PATH_MAX)
    (path : Bytes) (wflags : UInt32) :
    walk (AbsStore.fixed stat readlink) fs base path wflags () =
      ((resolvePath (treeOf fs stat readlink) bufferLimits
        (requestOf wflags (hasTrailing (cstr path))) ns (cstr path)).map (toLoc fs), ()) := by
  rw [walk, resolvePath]
  by_cases h0 : cstr path = []
  · rw [if_pos h0, if_pos (List.length_eq_zero_iff.mpr h0)]
    rfl
  rw [if_neg h0, if_neg (fun h => h0 (List.length_eq_zero_iff.mp h))]
  by_cases hmax : PATH_MAX ≤ (cstr path).length
  · have hgiven : bufferLimits.given (cstr path).length = true := by
      simpa [bufferLimits] using hmax
    rw [if_pos hmax, if_pos hgiven]
    rfl
  have hgiven : ¬ bufferLimits.given (cstr path).length = true := by
    simpa [bufferLimits] using hmax
  rw [if_neg hmax, if_neg hgiven]
  have hstart : walkStart fs base (cstr path) =
      render (if (cstr path).head? = some slash then [] else ns) := by
    rw [walkStart, hbase, List.take_of_length_le (by omega)]
    split_ifs <;> rfl
  rw [walkBody_run_fixed fs stat readlink wflags _ hnul (walkInit fs base (cstr path), ())
    (if (cstr path).head? = some slash then [] else ns) ?_ hstart (zero_not_mem_cstr path)
    (Nat.zero_le 40)]
  · rfl
  · split_ifs
    · exact ValidNames.nil
    · exact hv

theorem walk_sample_eq_resolvePath :
    (walk (AbsStore.fixed sampleStat sampleReadlink) (FsCtx.initial () 0 false)
      (some (str "/d")) (str "../l/./f") W_NOFOLLOW ()).1 =
        .ok (toLoc (FsCtx.initial () 0 false) ⟨[str "d", str "f"], []⟩) := by
  have hnul : ∀ p t, sampleReadlink p = .ok t → 0 ∉ t := by
    intro p t h
    unfold sampleReadlink at h
    split_ifs at h with hp
    cases h
    decide
  have hd : ValidNames [str "d"] := by
    intro n hn
    rw [List.mem_singleton] at hn
    subst hn
    exact ⟨by decide, by decide, by decide, by decide⟩
  have hfound : resolvePath (treeOf (FsCtx.initial () 0 false) sampleStat sampleReadlink)
      bufferLimits (requestOf W_NOFOLLOW (hasTrailing (cstr (str "../l/./f")))) [str "d"]
      (cstr (str "../l/./f")) = .ok ⟨[str "d", str "f"], []⟩ := by decide +kernel
  rw [walk_eq_resolvePath (FsCtx.initial () 0 false) sampleStat sampleReadlink hnul
    (some (str "/d")) [str "d"] hd rfl (by decide), hfound]
  rfl

/-- The request as the spelling of the path alone would have it. -/
def spelledRequest (wflags : UInt32) (path : Bytes) : Resolver.Request where
  parent := has wflags W_PARENT
  nofollow := has wflags W_NOFOLLOW
  slashed := path.getLast? = some slash
  demand := has wflags W_MUSTDIR || path.getLast? = some slash

/-- The walk and the resolver without bounds part at a name of 256 bytes whose object exists,
and at the root, which the walk answers without asking whether it is a directory. -/
theorem walk_ne_unbounded_resolver :
    (walk (AbsStore.fixed (fun _ => .error .ENOENT) fun _ => .error .EINVAL)
        (FsCtx.initial () 0 false) none (str "/") 0 ()).1 ≠
      (resolvePath (treeOf (FsCtx.initial () 0 false) (fun _ => .error .ENOENT)
        fun _ => .error .EINVAL) Limits.none (spelledRequest 0 (str "/")) [] (str "/")).map
          (toLoc (FsCtx.initial () 0 false)) ∧
    (walk (AbsStore.fixed (fun _ => .ok { mode := S_IFREG }) fun _ => .error .EINVAL)
        (FsCtx.initial () 0 false) none (List.replicate 256 0x61) 0 ()).1 ≠
      (resolvePath (treeOf (FsCtx.initial () 0 false) (fun _ => .ok { mode := S_IFREG })
        fun _ => .error .EINVAL) Limits.none (spelledRequest 0 (List.replicate 256 0x61)) []
          (List.replicate 256 0x61)).map (toLoc (FsCtx.initial () 0 false)) := by
  decide +kernel

end SysvNt
