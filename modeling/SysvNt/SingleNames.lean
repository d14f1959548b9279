import SysvNt.DescriptorStats
import SysvNt.WalkReference

/-!
# One name below a directory

`openat` of a single ordinary name walks one component from the path of a directory. The walk looks
at the place of that name only: it is a mount point, a link that is followed, or an object that is
left as it is. The parent of the name is the directory itself.
-/

namespace SysvNt

open FallibleCalls StateCalls BoundedLoop

variable {η σ : Type}

structure OrdinaryName (n : Bytes) : Prop where
  valid : ValidName n
  text : (0 : UInt8) ∉ n

namespace OrdinaryName

variable {n : Bytes} (hn : OrdinaryName n)

include hn

theorem cstr_eq : cstr n = n := cstr_of_not_mem hn.text

theorem skipSlashes_eq : skipSlashes n = n := by
  obtain ⟨c, t, rfl⟩ := List.exists_cons_of_ne_nil hn.valid.ne_nil
  have hc : c ≠ slash := fun h => hn.valid.slash_not_mem (by rw [h]; exact List.mem_cons_self)
  simp [skipSlashes, hc]

theorem component_eq : component n = n ∧ afterComponent n = [] := by
  have h := component_append hn.valid.slash_not_mem (.inl rfl : ([] : Bytes) = [] ∨ _)
  rwa [List.append_nil] at h

theorem not_trailing : hasTrailing n = false := by
  have hlast : n.getLast? ≠ some slash := fun h => hn.valid.slash_not_mem (List.mem_of_getLast? h)
  simp [hasTrailing, hlast]

theorem head_ne_slash : n.head? ≠ some slash :=
  fun h => hn.valid.slash_not_mem (List.mem_of_mem_head? h)

end OrdinaryName

/-- What a walk of a single name finds at the name's place. -/
inductive NameFound (A : AbsStore σ) (fs : FsCtx η) (wflags : UInt32) (cand : Bytes) (x : σ) :
    VfsLoc η → σ → Prop
  | mount (hm : (mountAt fs.table.mounts cand).isSome = true) : NameFound A fs wflags cand x (locAt fs cand []) x
  | link {loc : VfsLoc η} {x' : σ} (st : KStat) (hm : (mountAt fs.table.mounts cand).isSome = false)
      (hst : (A.statAbs cand x).1 = .ok st) (hl : isLnk st.mode = true) (hf : has wflags W_NOFOLLOW = false) :
      NameFound A fs wflags cand x loc x'
  | object (hm : (mountAt fs.table.mounts cand).isSome = false) :
      NameFound A fs wflags cand x (locAt fs cand []) (A.statAbs cand x).2

theorem walkBody_run_stop {A : AbsStore σ} {fs : FsCtx η} {wflags : UInt32} {trailing : Bool} {w : WalkState}
    {x y : σ} {r : Except Errno (VfsLoc η)} (h : walkStep A fs wflags trailing w x = (.inr r, y)) :
    (walkBody A fs wflags trailing).run (w, x) = (r, y) :=
  Body.run_of_stop _ (walkBody_stop.mpr h)

theorem walkBody_run_continue {A : AbsStore σ} {fs : FsCtx η} {wflags : UInt32} {trailing : Bool}
    {w w' : WalkState} {x y : σ} (h : walkStep (η := η) A fs wflags trailing w x = (.inl w', y)) :
    (walkBody A fs wflags trailing).run (w, x) = (walkBody A fs wflags trailing).run (w', y) :=
  Body.run_of_continue _ (walkBody_continue.mpr h)

section Walk

variable {A : AbsStore σ} {fs : FsCtx η} {p n : Bytes} (hp : Canonical p) (hn : OrdinaryName n)

include hp hn

/-- A walk of a single name is one turn of the loop, and what follows it. -/
theorem walk_single {wflags : UInt32} {x x' : σ} {r : Except Errno (VfsLoc η)}
    (h : walk A fs (some p) n wflags x = (r, x')) :
    r = .error .ENAMETOOLONG ∨
      (walkBody A fs wflags false).run (⟨p, n, 0⟩, x) = (r, x') ∧ n.length ≤ NAME_MAX := by
  have hstart : walkInit fs (some p) n = ⟨p, n, 0⟩ := by
    obtain ⟨_, _, _, hlen⟩ := hp
    rw [walkInit, walkStart, if_neg hn.head_ne_slash, Option.getD_some,
      List.take_of_length_le (by omega)]
  unfold walk at h
  dsimp only at h
  rw [hn.cstr_eq, if_neg (by simpa using hn.valid.ne_nil), hn.not_trailing, hstart] at h
  split_ifs at h with hlen
  · cases h
    exact .inl rfl
  by_cases hlong : NAME_MAX < n.length
  · left
    have hstep : walkStep A fs wflags false ⟨p, n, 0⟩ x = (.inr (.error .ENAMETOOLONG), x) := by
      unfold walkStep
      dsimp only
      rw [hn.skipSlashes_eq, if_neg hn.valid.ne_nil, hn.component_eq.1, if_pos hlong]
      rfl
    rw [walkBody_run_stop hstep] at h
    exact (congrArg Prod.fst h).symm
  · exact .inr ⟨h, not_lt.mp hlong⟩

theorem walk_name {wflags : UInt32} (hpar : has wflags W_PARENT = false) (hdir : has wflags W_MUSTDIR = false)
    {x x' : σ} {loc : VfsLoc η} (h : walk A fs (some p) n wflags x = (.ok loc, x')) :
    ∃ cand, pathJoin PATH_MAX p n = .ok cand ∧ NameFound A fs wflags cand x loc x' := by
  have hend : ∀ abs y, (walkBody A fs wflags false).run (⟨abs, [], 0⟩, y) = (.ok (locAt fs abs []), y) := by
    intro abs y
    apply walkBody_run_stop
    change (Sum.inr (walkEnd A fs wflags false abs y).1, (walkEnd A fs wflags false abs y).2) = _
    rw [walkEnd, hpar, hdir]
    rfl
  obtain ⟨hcomp, hafter⟩ := hn.component_eq
  rcases walk_single hp hn h with h | ⟨h, hlong⟩
  · cases h
  have hstep : walkStep A fs wflags false ⟨p, n, 0⟩ x =
      walkComponent A fs wflags false ⟨p, n, 0⟩ n [] x := by
    unfold walkStep
    dsimp only
    rw [hn.skipSlashes_eq, if_neg hn.valid.ne_nil, hcomp, hafter, if_neg (not_lt.mpr hlong),
      if_neg hn.valid.ne_dot, if_neg hn.valid.ne_dotdot, hpar, Bool.and_false, if_neg Bool.false_ne_true]
  cases hj : pathJoin PATH_MAX p n with
  | error e =>
      have hfail : walkStep A fs wflags false ⟨p, n, 0⟩ x = (.inr (.error e), x) := by
        rw [hstep, walkComponent, hj]
        rfl
      rw [walkBody_run_stop hfail] at h
      cases h
  | ok cand =>
      refine ⟨cand, rfl, ?_⟩
      cases hm : (mountAt fs.table.mounts cand).isSome with
      | true =>
          have hgo : walkStep A fs wflags false ⟨p, n, 0⟩ x = (.inl ⟨cand, [], 0⟩, x) := by
            rw [hstep, walkComponent, hj]
            dsimp only
            rw [if_pos hm]
            rfl
          rw [walkBody_run_continue hgo, hend] at h
          cases h
          exact .mount hm
      | false =>
          cases hst : A.statAbs cand x with
          | mk r y =>
              cases r with
              | error e =>
                  have hfail : walkStep A fs wflags false ⟨p, n, 0⟩ x = (.inr (.error e), y) := by
                    rw [hstep, walkComponent, hj]
                    dsimp only
                    rw [hm, if_neg Bool.false_ne_true, bind_apply, hst]
                    rfl
                  rw [walkBody_run_stop hfail] at h
                  cases h
              | ok st =>
                  by_cases hl : isLnk st.mode = true ∧ has wflags W_NOFOLLOW = false
                  · exact .link st hm (congrArg Prod.fst hst) hl.1 hl.2
                  · have hgo : walkStep A fs wflags false ⟨p, n, 0⟩ x = (.inl ⟨cand, [], 0⟩, y) := by
                      rw [hstep, walkComponent, hj]
                      dsimp only
                      rw [hm, if_neg Bool.false_ne_true, bind_apply, hst]
                      dsimp only
                      rw [if_neg (by simpa [skipSlashes] using hl)]
                      rfl
                    rw [walkBody_run_continue hgo, hend] at h
                    cases h
                    have hobject : NameFound A fs wflags cand x (locAt fs cand []) (A.statAbs cand x).2 :=
                      .object hm
                    rwa [hst] at hobject

/-- The parent of a single name is the directory that the walk starts from. -/
theorem walk_parent {x x' : σ} {loc : VfsLoc η} (h : walk A fs (some p) n W_PARENT x = (.ok loc, x')) :
    loc = locAt fs p n ∧ ∃ st, A.statAbs p x = (.ok st, x') := by
  obtain ⟨hcomp, hafter⟩ := hn.component_eq
  rcases walk_single hp hn h with h | ⟨h, hlong⟩
  · cases h
  have hstep : walkStep A fs W_PARENT false ⟨p, n, 0⟩ x =
      (Sum.inr (demandDir A p (locAt fs p n) x).1, (demandDir A p (locAt fs p n) x).2) := by
    unfold walkStep
    dsimp only
    rw [hn.skipSlashes_eq, if_neg hn.valid.ne_nil, hcomp, hafter, if_neg (not_lt.mpr hlong),
      if_neg hn.valid.ne_dot, if_neg hn.valid.ne_dotdot, if_pos (by decide)]
    rfl
  rw [walkBody_run_stop hstep] at h
  rw [demandDir, bind_apply] at h
  cases hst : A.statAbs p x with
  | mk r y =>
      rw [hst] at h
      cases r with
      | error e => cases h
      | ok st =>
          dsimp only at h
          split_ifs at h <;> cases h
          exact ⟨rfl, st, rfl⟩

end Walk

end SysvNt
