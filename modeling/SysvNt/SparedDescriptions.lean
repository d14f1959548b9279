import SysvNt.TaskTable

/-!
# The descriptions that a call does not go through

What is behind a description, the ends of a ring and the reader of a directory, is moved by the operations of
that description. A call that makes descriptions and fails leaves those that there were, with their rings: what
it closes on its way out it has made itself.
-/

namespace SysvNt

open FallibleCalls FdState FileOps

variable {η σ α β : Type}

namespace Task

attribute [local irreducible] lowestFree

theorem installed_next (q : Task η σ) (k : ℕ) (cloexec : Bool) :
    (q.setFdt (q.fdt.fdInstall k cloexec 0).2).fdt.next = q.fdt.next := by
  rw [fdInstall, if_neg (by decide)]
  cases q.fdt.lowestFree (0 : ℤ).toNat <;> rfl

/-- The descriptions and the rings of `a` are as they were, and the slots too, but that an empty one may hold a
description made since. Those are not of the ends of a ring of `a`. -/
structure Spared (a q : Task η σ) : Prop where
  grown : a.fdt.next ≤ q.fdt.next
  ringsGrown : a.nextRing ≤ q.nextRing
  same : ∀ k < a.fdt.next, q.file k = a.file k ∧ q.privI k = a.privI k ∧ q.scan k = a.scan k
  rings : ∀ r < a.nextRing, q.rings r = a.rings r
  newer : ∀ k, a.fdt.next ≤ k → k < q.fdt.next → (q.file k).isPipe = true → a.nextRing ≤ q.privI k
  slots : ∀ i, q.fdt.files i = a.fdt.files i ∨
    a.fdt.files i = none ∧ ∀ k, q.fdt.files i = some k → a.fdt.next ≤ k ∧ k < q.fdt.next

namespace Spared

variable {a q : Task η σ} {k r : ℕ}

theorem of_same (hfdt : q.fdt = a.fdt) (hfile : q.file = a.file) (hpriv : q.privI = a.privI) (hscan : q.scan = a.scan)
    (hrings : q.rings = a.rings) (hnext : q.nextRing = a.nextRing) : Spared a q where
  grown := by rw [hfdt]
  ringsGrown := hnext.ge
  same _ _ := ⟨congrFun hfile _, congrFun hpriv _, congrFun hscan _⟩
  rings _ _ := congrFun hrings _
  newer _ hle hlt := absurd (hfdt ▸ hlt) (Nat.not_lt.mpr hle)
  slots _ := .inl (by rw [hfdt])

theorem refl (a : Task η σ) : Spared a a := of_same rfl rfl rfl rfl rfl rfl

theorem withHost (h : Spared a q) (x : σ) : Spared a (q.withHost x) :=
  ⟨h.grown, h.ringsGrown, h.same, h.rings, h.newer, h.slots⟩

theorem fileNew (h : Spared a q) (kind : ℕ) (flags : UInt32) {what : OpenDescription η} {privI : ℕ}
    (hwhat : what.isPipe = true → a.nextRing ≤ privI) : Spared a (q.fileNew kind flags what privI) where
  grown := h.grown.trans (Nat.le_succ _)
  ringsGrown := h.ringsGrown
  same k hk := by
    have hne : k ≠ q.fdt.next := (hk.trans_le h.grown).ne
    simpa [Task.fileNew, Function.update_of_ne hne] using h.same k hk
  rings := h.rings
  newer k hle hlt hpipe := by
    by_cases hk : k = q.fdt.next
    · subst hk
      simp only [Task.fileNew, Function.update_self] at hpipe ⊢
      exact hwhat hpipe
    · simp only [Task.fileNew, Function.update_of_ne hk] at hpipe ⊢
      exact h.newer k hle (lt_of_le_of_ne (Nat.le_of_lt_succ hlt) hk) hpipe
  slots i := by
    rcases h.slots i with hsame | ⟨hnone, hnew⟩
    · exact .inl hsame
    · exact .inr ⟨hnone, fun k hk => ⟨(hnew k hk).1, (hnew k hk).2.trans (Nat.lt_succ_self _)⟩⟩

/-- A reference of a description made since goes, and with the last one its ring's end. -/
theorem filePut (h : Spared a q) (M : Platform η σ) (hle : a.fdt.next ≤ k) (hlt : k < q.fdt.next) :
    Spared a (q.filePut M k) := by
  have hrelease : Spared a (q.release M k) := by
    rw [Task.release]
    cases hfile : q.file k with
    | opened f => exact h.withHost _
    | console => exact h
    | pipe ino =>
        have hring : a.nextRing ≤ q.privI k := h.newer k hle hlt (by rw [hfile]; rfl)
        refine ⟨h.grown, h.ringsGrown, h.same, fun r hr => ?_, h.newer, h.slots⟩
        exact (Function.update_of_ne (hr.trans_le hring).ne ..).trans (h.rings r hr)
  have hput {b : Task η σ} (hb : Spared a b) : Spared a { b with fdt := b.fdt.filePut k } :=
    ⟨hb.grown, hb.ringsGrown, hb.same, hb.rings, hb.newer, hb.slots⟩
  rw [Task.filePut]
  split_ifs
  · exact hput h
  · exact hput hrelease

theorem setSlot (h : Spared a q) {t : FdState} (hnext : t.next = q.fdt.next) {i : Slot} (hfree : a.fdt.files i = none)
    (hi : ∀ k, t.files i = some k → a.fdt.next ≤ k ∧ k < q.fdt.next) (hothers : ∀ j ≠ i, t.files j = q.fdt.files j) :
    Spared a (q.setFdt t) where
  grown := h.grown.trans hnext.ge
  ringsGrown := h.ringsGrown
  same := h.same
  rings := h.rings
  newer k hle hlt := h.newer k hle (hlt.trans_eq hnext)
  slots j := by
    by_cases hj : j = i
    · rw [hj]
      exact .inr ⟨hfree, fun k hk => ⟨(hi k hk).1, (hi k hk).2.trans_eq hnext.symm⟩⟩
    · change t.files j = _ ∨ _ ∧ ∀ k, t.files j = some k → _ ∧ k < t.next
      rw [hothers j hj, hnext]
      exact h.slots j

/-- A description made since is seated where there was none. -/
theorem install (h : Spared a q) (hle : a.fdt.next ≤ k) (hlt : k < q.fdt.next) (cloexec : Bool) :
    Spared a (q.setFdt (q.fdt.fdInstall k cloexec 0).2) ∧
      ∀ fd, (q.fdt.fdInstall k cloexec 0).1 = .ok fd → a.fdt.fdGet fd = none := by
  rw [fdInstall, if_neg (by decide)]
  rcases q.fdt.lowestFree_cases (0 : ℤ).toNat with ⟨i, hi, _, hnone, _⟩ | ⟨hi, _⟩
  · rw [hi]
    have hfree : a.fdt.files i = none := by
      rcases h.slots i with hsame | ⟨hfree, _⟩
      · exact hsame.symm.trans hnone
      · exact hfree
    refine ⟨h.setSlot (i := i) rfl hfree (fun j hj => ?_) fun j hj => ?_, fun fd hfd => ?_⟩
    · have hseat : (((q.fdt.fileGet k).seat i (some k)).mark i cloexec).files i = some k := Function.update_self ..
      obtain rfl := Option.some.inj (hseat.symm.trans hj)
      exact ⟨hle, hlt⟩
    · exact Function.update_of_ne hj ..
    · obtain rfl := Except.ok.inj hfd
      have hslot : slotOf ((i : ℕ) : ℤ) = some i := by
        rw [slotOf, dif_pos ⟨by omega, by have := i.isLt; omega⟩]
        simp
      rw [fdGet, hslot, Option.bind_some, hfree]
      rfl
  · rw [hi]
    exact ⟨h, fun fd hfd => by cases hfd⟩

/-- The descriptor of a description made since is closed. -/
theorem fdClose (h : Spared a q) (M : Platform η σ) {fd : ℤ} (hfd : a.fdt.fdGet fd = none) :
    Spared a (q.fdClose M fd).2 := by
  rw [Task.fdClose]
  cases hget : q.fdt.fdGet fd with
  | none => exact h
  | some e =>
      obtain ⟨i, k⟩ := e
      obtain ⟨hslot, hk⟩ := fdGet_some hget
      have hfree : a.fdt.files i = none := by
        rw [fdGet, hslot, Option.bind_some, Option.map_eq_none_iff] at hfd
        exact hfd
      obtain ⟨hle, hlt⟩ : a.fdt.next ≤ k ∧ k < q.fdt.next := by
        rcases h.slots i with hsame | ⟨_, hnew⟩
        · rw [hsame, hfree] at hk
          cases hk
        · exact hnew k hk
      have hunseat : Spared a (q.unseat i) := by
        refine h.setSlot (i := i) rfl hfree (fun j hj => ?_) fun j hj => Function.update_of_ne hj ..
        have hempty : ((q.fdt.seat i none).mark i false).files i = none := Function.update_self ..
        cases hempty.symm.trans hj
      exact hunseat.filePut M hle hlt

theorem ringNew (h : Spared a q) : Spared a q.ringNew :=
  ⟨h.grown, h.ringsGrown.trans (Nat.le_succ _), h.same,
    fun r hr => (Function.update_of_ne (hr.trans_le h.ringsGrown).ne ..).trans (h.rings r hr), h.newer, h.slots⟩

theorem ringUpdate (h : Spared a q) (hr : a.nextRing ≤ r) (c : RingCell) :
    Spared a { q with rings := Function.update q.rings r c } :=
  ⟨h.grown, h.ringsGrown, h.same, fun i hi => (Function.update_of_ne (hi.trans_le hr).ne ..).trans (h.rings i hi),
    h.newer, h.slots⟩

theorem ringDrop (h : Spared a q) (hr : a.nextRing ≤ r) : Spared a (q.ringDrop r) := h.ringUpdate hr _

theorem pipeEnds (h : Spared a q) (hr : a.nextRing ≤ r) (flags : UInt32) : Spared a (q.pipeEnds r flags) :=
  ((h.fileNew _ _ fun _ => hr).fileNew _ _ fun _ => hr).ringUpdate hr _

end Spared

section Making

variable {M : Platform η σ} {a p : Task η σ}

theorem sysOpenat_spared (h : Spared a p) (dirfd : ℤ) (upath : UInt64) (flags mode : UInt32) :
    KeepsAt (Spared a) p (sysOpenat M dirfd upath flags mode) fun _ => True := by
  rw [sysOpenat]
  refine orFail_bind h fun path _ => orFail_bind h fun base _ => ?_
  split_ifs
  · exact keepsAt_throw h
  refine (onHost_kept (fun _ x hq => hq.withHost x) h _).bind fun f q _ hq _ => ?_
  refine look_bind (change_bind (attempt_fds_bind (change_bind ?_)))
  have hmade : Spared a (q.fileNew f.made.1 f.made.2 (.opened f) 0) := hq.fileNew _ _ fun h => by cases h
  have hlt : q.fdt.next < (q.fileNew f.made.1 f.made.2 (.opened f) 0).fdt.next := Nat.lt_succ_self _
  have hput := (hmade.install hq.grown hlt (has flags O_CLOEXEC)).1.filePut M hq.grown
    (hlt.trans_eq (installed_next ..).symm)
  refine map_kept (Q := fun _ => True) _ ⟨?_, fun _ _ => trivial⟩
  rw [run_liftExcept]
  exact hput

theorem vfsPipe_spared (h : Spared a p) (flags : UInt32) {g : ℕ × ℕ → Sys η σ β} {R : β → Prop}
    (hg : ∀ rd q, Spared a q → a.fdt.next ≤ rd → rd + 1 < q.fdt.next → KeepsAt (Spared a) q (g (rd, rd + 1)) R) :
    KeepsAt (Spared a) p (vfsPipe M flags >>= g) R := by
  rw [vfsPipe, bind_assoc]
  refine (alloc_kept (fun _ x hq => hq.withHost x) h).bind fun _ q _ hq _ => ?_
  simp only [bind_assoc]
  refine look_bind (change_bind (lift_bind (lift_bind ?_)))
  have hnew := (hq.ringNew.withHost (M.store.alloc q.host).2).withHost (M.store.alloc (M.store.alloc q.host).2).2
  split_ifs
  · rw [bind_assoc]
    have hdropped := keepsAt_throw (e := Errno.ENOMEM) (R := fun _ : ℕ × ℕ => False) (hnew.ringDrop hq.ringsGrown)
    exact change_bind (hdropped.bind fun _ _ _ _ hf => hf.elim)
  · simp only [bind_assoc, pure_bind]
    refine look_bind (change_bind ?_)
    exact hg _ _ (hnew.pipeEnds hq.ringsGrown flags) hq.grown (Nat.lt_succ_self _)

theorem pipe2Answer_spared (h : Spared a p) (ufds : UInt64) {fd₀ fd₁ : Except Errno ℤ}
    (h₀ : ∀ fd, fd₀ = .ok fd → a.fdt.fdGet fd = none) (h₁ : ∀ fd, fd₁ = .ok fd → a.fdt.fdGet fd = none) :
    KeepsAt (Spared a) p (pipe2Answer M ufds fd₀ fd₁) fun _ => True := by
  cases fd₀ with
  | error e => exact keepsAt_throw h
  | ok fd₀ =>
      cases fd₁ with
      | error e => exact change_bind (keepsAt_throw (h.fdClose M (h₀ fd₀ rfl)))
      | ok fd₁ =>
          rw [pipe2Answer]
          refine KeepsAt.bind (Q := fun _ => True) ⟨?_, fun _ _ => trivial⟩ fun r q _ hq _ => ?_
          · rw [run_attempt]
            exact (copyOut_kept (fun _ x hq => hq.withHost x) h ufds _).1
          · split_ifs
            · exact keepsAt_pure hq trivial
            · exact change_bind (change_bind (keepsAt_throw ((hq.fdClose M (h₀ fd₀ rfl)).fdClose M (h₁ fd₁ rfl))))

theorem sysPipe2_spared (h : Spared a p) (ufds : UInt64) (flags : UInt32) :
    KeepsAt (Spared a) p (sysPipe2 M ufds flags) fun _ => True := by
  rw [sysPipe2]
  split_ifs
  · exact keepsAt_throw h
  refine vfsPipe_spared h flags fun rd q hq hle hlt => ?_
  rw [pipe2Install]
  obtain ⟨hfirst, hfree₀⟩ := hq.install hle (Nat.lt_of_succ_lt hlt) (has flags O_CLOEXEC)
  refine attempt_fds_bind ?_
  have hrd : rd + 1 < (q.setFdt (q.fdt.fdInstall rd (has flags O_CLOEXEC) 0).2).fdt.next :=
    hlt.trans_eq (installed_next ..).symm
  have hputs {v : Task η σ} (hv : Spared a v) (hend : rd + 1 < v.fdt.next) :
      Spared a ((v.filePut M rd).filePut M (rd + 1)) := by
    refine (hv.filePut M hle (Nat.lt_of_succ_lt hend)).filePut M (hle.trans (Nat.le_succ _)) ?_
    rw [filePut_files]
    exact hend
  generalize q.setFdt (q.fdt.fdInstall rd (has flags O_CLOEXEC) 0).2 = v at hfirst hrd ⊢
  cases hfd₀ : (q.fdt.fdInstall rd (has flags O_CLOEXEC) 0).1 with
  | error e =>
      rw [secondSlot, pure_bind]
      exact change_bind (change_bind (keepsAt_throw (hputs hfirst hrd)))
  | ok fd₀ =>
      obtain ⟨hsecond, hfree₁⟩ := hfirst.install (hle.trans (Nat.le_succ _)) hrd (has flags O_CLOEXEC)
      refine attempt_fds_bind (change_bind (change_bind ?_))
      refine pipe2Answer_spared (hputs hsecond (hrd.trans_eq (installed_next ..).symm)) ufds (fun fd h => ?_) hfree₁
      exact hfree₀ fd (hfd₀.trans h)

end Making

end Task

namespace FileOps

/-- What holds everywhere is kept. -/
theorem onHost_always {I : σ → Prop} (h : ∀ x, I x) (m : Call Errno (FileOps.Live σ) α) :
    Keeps (OnHost I) m fun _ => True := fun _ _ => ⟨h _, fun _ _ => trivial⟩

theorem Table.kept_always {I : σ → Prop} (h : ∀ x, I x) (ops : Table σ) : ops.Kept I where
  read _ := onHost_always h _
  write _ := onHost_always h _
  pread _ _ _ _ := onHost_always h _
  pwrite _ _ _ _ := onHost_always h _
  getdents _ _ _ := onHost_always h _
  truncate _ _ _ := onHost_always h _

end FileOps

section Rings

variable {M : Platform η σ}

/-- The rings but that of a pipe's description are these. -/
def RingsBut (f : OpenDescription η) (privI : ℕ) (rings : Rings) (x : σ × Rings) : Prop :=
  ∀ r, (f.isPipe = true → privI ≠ r) → x.2 r = rings r

variable {f : OpenDescription η} {privI : ℕ} {rings : Rings}

theorem hostPart_ringsBut (m : Call Errno (FileOps.Live σ) α) :
    Keeps (OnHost (RingsBut f privI rings)) (onHostPart m) fun _ => True :=
  lifted_onHost (fun _ hy => hy) fun _ hy => onHost_always (fun _ => hy) m

theorem opsOf_ringsBut (f : OpenDescription η) (flags : UInt32) (privI : ℕ) :
    (M.opsOf flags privI f).Kept (RingsBut f privI rings) := by
  cases f with
  | opened f => exact Table.Kept.lifted (fun _ hy => hy) fun _ hy => Table.kept_always (fun _ => hy) _
  | console => exact Table.Kept.lifted (fun _ hy => hy) fun _ hy => Table.kept_always (fun _ => hy) _
  | pipe ino =>
      have hring (y : σ × Rings) (hy : RingsBut (.pipe ino : OpenDescription η) privI rings y) (p : PipeRing) :
          RingsBut (.pipe ino : OpenDescription η) privI rings
            (y.1, Function.update y.2 privI { y.2 privI with p := p }) := by
        intro r hr
        exact (Function.update_of_ne (hr rfl).symm ..).trans (hy r hr)
      exact Table.Kept.lifted (fun y hy => hring y hy _) fun y hy => Table.kept_always (hring y hy) _

theorem lseekOf_ringsBut (f : OpenDescription η) (off : Int64) (whence : Int32) :
    Keeps (OnHost (RingsBut f privI rings)) (M.lseekOf off whence f) fun _ => True := by
  cases f with
  | opened f =>
      cases f with
      | host h kind fl path m => cases kind <;> exact hostPart_ringsBut _
      | synth f fl path =>
          cases f with
          | devNode major minor => exact Keeps.pure trivial
          | _ => exact hostPart_ringsBut _
  | pipe ino => exact Keeps.throw
  | console => exact Keeps.throw

theorem besideRings_ringsBut {m : StateM σ α} (x : σ × Rings) (hx : RingsBut f privI rings x) :
    RingsBut f privI rings (besideRings m x).2 := hx

theorem io_ringsBut : M.io.besideRings.Kept (RingsBut f privI rings) :=
  ⟨fun _ _ x hx => besideRings_ringsBut x hx, fun _ _ x hx => besideRings_ringsBut x hx,
    fun x hx => besideRings_ringsBut x hx⟩

end Rings

namespace Task

/-- No more is moved than what is behind the description. -/
structure Passed (k : ℕ) (p q : Task η σ) : Prop where
  file : q.file = p.file
  privI : q.privI = p.privI
  scan : ∀ j ≠ k, q.scan j = p.scan j
  rings : ∀ r, ((p.file k).isPipe = true → p.privI k ≠ r) → q.rings r = p.rings r

/-- The call goes through the description behind the descriptor, or leaves all as it was. -/
def Passes (p : Task η σ) (m : Sys η σ α) (fd : ℤ) : Prop :=
  (m.run p).2 = p ∨ ∃ i k, p.fdt.fdGet fd = some (i, k) ∧ Passed k p (m.run p).2

section Passing

variable {M : Platform η σ} {p : Task η σ}

theorem Passes.fget_bind {fd : ℤ} {g : ℕ → Sys η σ β} (hg : ∀ k, Passed k p ((g k).run p).2) :
    Passes p (fget fd >>= g) fd := by
  cases hget : p.fdt.fdGet fd with
  | none =>
      refine .inl ?_
      rw [run_fget_none hget]
  | some e =>
      refine .inr ⟨e.1, e.2, hget, ?_⟩
      rw [run_fget_some hget]
      exact hg e.2

theorem through_passed (k : ℕ) {m : Task η σ → Call Errno (FileOps.Live (σ × Rings)) α}
    (hm : Keeps (OnHost (RingsBut (p.file k) (p.privI k) p.rings)) (m p) fun _ => True) :
    Passed k p ((through k m).run p).2 :=
  ⟨rfl, rfl, fun _ hj => Function.update_of_ne hj .., (hm (p.live k) fun _ _ => rfl).1⟩

theorem throughOps_passed (k : ℕ) {m : Table (σ × Rings) → UInt32 → Call Errno (FileOps.Live (σ × Rings)) ℕ}
    (hm : ∀ I : σ × Rings → Prop, M.io.besideRings.Kept I → (∀ x, I x → I (besideRings M.store.alloc x).2) →
      ∀ ops flags, ops.Kept I → Keeps (OnHost I) (m ops flags) fun _ => True) :
    Passed k p ((throughOps M k m).run p).2 := by
  let ops := M.opsOf (p.fdt.heap k).flags (p.privI k) (p.file k)
  have hkeeps : Keeps (OnHost (RingsBut (p.file k) (p.privI k) p.rings)) (m ops (p.fdt.heap k).flags) fun _ => True :=
    hm _ io_ringsBut (fun _ hx => hx) ops _ (opsOf_ringsBut _ _ _)
  rw [throughOps, run_map]
  exact through_passed (p := p) (m := fun p => m (M.opsOf (p.fdt.heap k).flags (p.privI k) (p.file k))
    (p.fdt.heap k).flags) k hkeeps

/-- A call through a descriptor moves what is behind that description only. -/
theorem perform_passes {c : SysCall} {fd : ℤ} (hc : c.moves = some fd) : Passes p (perform M c) fd := by
  cases c with
  | read fd ubuf len =>
      cases hc
      exact Passes.fget_bind fun k => throughOps_passed k fun I hio _ ops flags hops =>
        doRead_onHost hio hops flags ubuf _ none
  | write fd ubuf len =>
      cases hc
      exact Passes.fget_bind fun k => throughOps_passed k fun I hio _ ops flags hops =>
        doWrite_onHost hio hops flags ubuf _ none
  | pread64 fd ubuf len off =>
      cases hc
      rw [perform, sysPread64]
      split_ifs
      · exact .inl rfl
      · exact Passes.fget_bind fun k => throughOps_passed k fun I hio _ ops flags hops =>
          doRead_onHost hio hops flags ubuf _ _
  | pwrite64 fd ubuf len off =>
      cases hc
      rw [perform, sysPwrite64]
      split_ifs
      · exact .inl rfl
      · exact Passes.fget_bind fun k => throughOps_passed k fun I hio _ ops flags hops =>
          doWrite_onHost hio hops flags ubuf _ _
  | readvWritev fd uiov cnt writing =>
      cases hc
      refine Passes.fget_bind fun k => throughOps_passed k fun I hio halloc ops flags hops => ?_
      refine sysReadvWritev_onHost hio halloc (fun base len => ?_) uiov _
      cases writing with
      | true => exact doWrite_onHost hio hops flags base len none
      | false => exact doRead_onHost hio hops flags base len none
  | lseek fd off whence =>
      cases hc
      exact Passes.fget_bind fun k => through_passed k (lseekOf_ringsBut _ off whence)
  | getdents64 fd ubuf len =>
      cases hc
      exact Passes.fget_bind fun k => throughOps_passed k fun I hio _ ops flags hops =>
        sysGetdents64_onHost hio hops ubuf _
  | ftruncate fd size =>
      cases hc
      exact Passes.fget_bind fun k => throughOps_passed k fun I hio _ ops flags hops => sysFtruncate_onHost hops flags _
  | _ => cases hc

end Passing

end Task

end SysvNt
