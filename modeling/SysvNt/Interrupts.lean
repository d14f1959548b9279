import Mathlib.Data.Int.Notation
import Mathlib.Data.Nat.Notation
import Mathlib.Logic.Function.Basic
import SysvNt.ActionRuns

/-!
# Interrupting a thread of substrate N

`thread_interrupt` tests the thread's `interruptible` flag and then latches the interrupt or
suspends the thread; the thread itself lowers the flag when it enters the gate, and on the way out
raises it and then takes the latch. Each of these is one atomic step, and the steps of any number
of calls fall between those of the thread in any order. A call that acts on a test the thread has
meanwhile outrun loses its interrupt, or stops the thread in the kernel; where no call is outrun,
every interrupt latched in a window is taken once, at its exit.
-/

namespace SysvNt

open ActionRuns

variable {ι : Type}

inductive CallAt where
  | waiting
  | latching
  | suspending
  | returned
  deriving DecidableEq

/-- Where the thread is: in user code, between the two halves of the gate, or in the gate's exit
after the flag was raised. -/
inductive ThreadAt where
  | user
  | kernel
  | leaving
  deriving DecidableEq

structure Tent (ι : Type) where
  interruptible : Bool
  pending : Bool
  suspends : ℕ
  thread : ThreadAt
  calls : ι → CallAt

def Tent.started : Tent ι where
  interruptible := true
  pending := false
  suspends := 0
  thread := .user
  calls _ := .waiting

inductive TentStep (ι : Type) where
  | gateEnter
  | gateRaise
  | gateTake
  | test (i : ι)
  | latch (i : ι)
  | suspend (i : ι)
  | suspendFails (i : ι)
  | resume

section Steps

variable [DecidableEq ι]

def Tent.callTo (t : Tent ι) (i : ι) (c : CallAt) : Tent ι :=
  { t with calls := Function.update t.calls i c }

/-- One step of the thread, of a call, or of the core that resumes the thread. What is answered is
what `gate_exit` or `thread_interrupt` returns where the step is its last. -/
def tentStep (t : Tent ι) : TentStep ι → Option (Option ℤ × Tent ι)
  | .gateEnter =>
    if t.thread = .user ∧ t.suspends = 0 then
      some (none, { t with interruptible := false, thread := .kernel })
    else none
  | .gateRaise =>
    if t.thread = .kernel ∧ t.suspends = 0 then
      some (none, { t with interruptible := true, thread := .leaving })
    else none
  | .gateTake =>
    if t.thread = .leaving ∧ t.suspends = 0 then
      some (some (if t.pending then 1 else 0), { t with pending := false, thread := .user })
    else none
  | .test i =>
    if t.calls i = .waiting then
      some (none, t.callTo i (if t.interruptible then .suspending else .latching))
    else none
  | .latch i =>
    if t.calls i = .latching then some (some 0, { t with pending := true }.callTo i .returned) else none
  | .suspend i =>
    if t.calls i = .suspending then
      some (some 0, { t with suspends := t.suspends + 1 }.callTo i .returned)
    else none
  | .suspendFails i =>
    if t.calls i = .suspending then some (some (-1), t.callTo i .returned) else none
  | .resume =>
    if 0 < t.suspends then some (none, { t with suspends := t.suspends - 1 }) else none

end Steps

def Tent.Settled (t : Tent ι) : Prop :=
  t.thread = .user ∧ ∀ i, t.calls i ≠ .latching ∧ t.calls i ≠ .suspending

def Tent.Lost (t : Tent ι) : Prop :=
  t.Settled ∧ t.interruptible = true ∧ t.pending = true

def Tent.StoppedInside (t : Tent ι) : Prop := 0 < t.suspends ∧ t.interruptible = false

/-- The window a run is in, with whether an interrupt was latched in it: `none` is user code. A
step that latches outside a window, or takes other than what was latched in it, has no next. -/
def windowStep (w : Option Bool) : TentStep ι × Option ℤ → Option (Option Bool)
  | (.gateEnter, _) => some (some false)
  | (.latch _, _) => match w with
    | none => none
    | some _ => some (some true)
  | (.gateTake, r) => match w with
    | none => none
    | some latched => if r = some (if latched then 1 else 0) then some none else none
  | _ => some w

def windowAfter (h : List (TentStep ι × Option ℤ)) : Option (Option Bool) :=
  h.foldl (fun w e => w.bind fun w => windowStep w e) (some none)

/-- Every interrupt is latched in a window, and the exit of a window takes what was latched in it,
once. -/
def TakenOnce (h : List (TentStep ι × Option ℤ)) : Prop := windowAfter h ≠ none

/-- The thread outruns no call: it enters the gate while none is about to suspend it, and takes
the latch while none is about to set it. -/
def OutrunsNone (t : Tent ι) : TentStep ι → Prop
  | .gateEnter => ∀ i, t.calls i ≠ .suspending
  | .gateTake => ∀ i, t.calls i ≠ .latching
  | _ => True

/-- What holds in a window `w` of a run that outruns no call. -/
structure InWindow (w : Option Bool) (t : Tent ι) : Prop where
  flag : t.interruptible = decide (t.thread ≠ .kernel)
  window : w = if t.thread = .user then none else some t.pending
  user : t.thread = .user → t.pending = false ∧ ∀ i, t.calls i ≠ .latching
  kernel : t.thread = .kernel → t.suspends = 0 ∧ ∀ i, t.calls i ≠ .suspending

theorem InWindow.started : InWindow none (Tent.started : Tent ι) where
  flag := rfl
  window := rfl
  user _ := ⟨rfl, fun _ h => by cases h⟩
  kernel h := by cases h

theorem InWindow.not_lost {w : Option Bool} {t : Tent ι} (h : InWindow w t) : ¬ t.Lost := by
  rintro ⟨⟨huser, _⟩, _, hpending⟩
  rw [(h.user huser).1] at hpending
  cases hpending

theorem InWindow.not_stoppedInside {w : Option Bool} {t : Tent ι} (h : InWindow w t) :
    ¬ t.StoppedInside := by
  rintro ⟨hpos, hdown⟩
  rw [h.flag] at hdown
  have hk : t.thread = .kernel := by simpa using hdown
  have hzero := (h.kernel hk).1
  omega

section Runs

variable [DecidableEq ι]

theorem callTo_ne {t : Tent ι} {i : ι} {c c' : CallAt} (hc : c ≠ c') (h : ∀ j, t.calls j ≠ c')
    (j : ι) : (t.callTo i c).calls j ≠ c' := by
  change Function.update t.calls i c j ≠ c'
  rw [Function.update_apply]
  split_ifs
  · exact hc
  · exact h j

/-- One step that outruns no call. -/
theorem InWindow.step {w : Option Bool} {t t' : Tent ι} {a : TentStep ι} {r : Option ℤ}
    (hw : InWindow w t) (ha : OutrunsNone t a) (h : tentStep t a = some (r, t')) :
    ∃ w', windowStep w (a, r) = some w' ∧ InWindow w' t' := by
  obtain ⟨hflag, rfl, huser, hkernel⟩ := hw
  cases a with
  | gateEnter =>
      obtain ⟨hg, h⟩ := Option.ite_none_right_eq_some.mp h
      cases h
      refine ⟨some false, rfl, rfl, ?_, fun h => ?_, fun _ => ⟨hg.2, ha⟩⟩
      · rw [(huser hg.1).1]
        rfl
      · cases h
  | gateRaise =>
      obtain ⟨hg, h⟩ := Option.ite_none_right_eq_some.mp h
      cases h
      refine ⟨_, rfl, rfl, ?_, fun h => ?_, fun h => ?_⟩
      · rw [hg.1]
        rfl
      · cases h
      · cases h
  | gateTake =>
      obtain ⟨hg, h⟩ := Option.ite_none_right_eq_some.mp h
      cases h
      refine ⟨none, ?_, ?_, rfl, fun _ => ⟨rfl, ha⟩, fun h => ?_⟩
      · rw [hg.1]
        exact if_pos rfl
      · rw [hflag, hg.1]
        rfl
      · cases h
  | test i =>
      obtain ⟨_, h⟩ := Option.ite_none_right_eq_some.mp h
      cases h
      refine ⟨_, rfl, hflag, rfl, fun h => ⟨(huser h).1, ?_⟩, fun h => ⟨(hkernel h).1, ?_⟩⟩
      · have hup : t.interruptible = true := by
          rw [hflag, show t.thread = .user from h]
          rfl
        rw [hup, if_pos rfl]
        exact callTo_ne (by decide) (huser h).2
      · have hdown : t.interruptible = false := by
          rw [hflag, show t.thread = .kernel from h]
          rfl
        rw [hdown, if_neg Bool.false_ne_true]
        exact callTo_ne (by decide) (hkernel h).2
  | latch i =>
      obtain ⟨hg, h⟩ := Option.ite_none_right_eq_some.mp h
      cases h
      have hin : t.thread ≠ .user := fun h => (huser h).2 i hg
      refine ⟨some true, ?_, hflag, ?_, fun h => (hin h).elim, fun h => ⟨(hkernel h).1, ?_⟩⟩
      · rw [if_neg hin]
        rfl
      · exact (if_neg hin).symm
      · exact callTo_ne (by decide) (hkernel h).2
  | suspend i =>
      obtain ⟨hg, h⟩ := Option.ite_none_right_eq_some.mp h
      cases h
      have hout : t.thread ≠ .kernel := fun h => (hkernel h).2 i hg
      refine ⟨_, rfl, hflag, rfl, fun h => ⟨(huser h).1, ?_⟩, fun h => (hout h).elim⟩
      exact callTo_ne (by decide) (huser h).2
  | suspendFails i =>
      obtain ⟨hg, h⟩ := Option.ite_none_right_eq_some.mp h
      cases h
      have hout : t.thread ≠ .kernel := fun h => (hkernel h).2 i hg
      refine ⟨_, rfl, hflag, rfl, fun h => ⟨(huser h).1, ?_⟩, fun h => (hout h).elim⟩
      exact callTo_ne (by decide) (huser h).2
  | resume =>
      obtain ⟨hg, h⟩ := Option.ite_none_right_eq_some.mp h
      cases h
      refine ⟨_, rfl, hflag, rfl, huser, fun h => ⟨?_, (hkernel h).2⟩⟩
      exact Nat.sub_eq_zero_of_le (le_of_eq_of_le (hkernel h).1 (Nat.zero_le 1))

/-- In a run whose thread outruns no call, no interrupt is lost and none stops the thread in the
kernel path; each is latched in a window and taken once, at its exit. -/
theorem interrupts_of_outrunning_none {as : List (TentStep ι)}
    {h : List (TentStep ι × Option ℤ)} {t : Tent ι}
    (hc : EachMeets tentStep OutrunsNone Tent.started as)
    (hr : run tentStep Tent.started as = some (h, t)) :
    ¬ t.Lost ∧ ¬ t.StoppedInside ∧ TakenOnce h := by
  have hend : ∃ w, windowAfter ([] ++ h) = some w ∧ InWindow w t := by
    refine run_history_of (P := fun h t => ∃ w, windowAfter h = some w ∧ InWindow w t) ?_ as []
      ⟨none, rfl, InWindow.started⟩ hc hr
    rintro h t a r t' ⟨w, hw, hin⟩ ha hstep
    obtain ⟨w', hw', hin'⟩ := hin.step ha hstep
    refine ⟨w', ?_, hin'⟩
    rw [windowAfter, List.foldl_append]
    change ((windowAfter h).bind fun w => windowStep w (a, r)) = some w'
    rw [hw]
    exact hw'
  obtain ⟨w, hw, hin⟩ := hend
  refine ⟨hin.not_lost, hin.not_stoppedInside, fun hnone => ?_⟩
  rw [List.nil_append, hnone] at hw
  cases hw

end Runs

/-- An interrupt that is latched while the thread is in the gate. -/
theorem interrupts_of_one_window :
    ∃ t : Tent Unit, ¬ t.Lost ∧ ¬ t.StoppedInside ∧
      TakenOnce [(.gateEnter, none), (.test (), none), (.latch (), some 0), (.gateRaise, none),
        (.gateTake, some 1)] := by
  have hrun : run tentStep (Tent.started : Tent Unit) [.gateEnter, .test (), .latch (), .gateRaise,
      .gateTake] = some ([(.gateEnter, none), (.test (), none), (.latch (), some 0),
        (.gateRaise, none), (.gateTake, some 1)], ⟨true, false, 0, .user, fun _ => .returned⟩) := by
    rfl
  refine ⟨_, interrupts_of_outrunning_none ?_ hrun⟩
  refine ⟨fun _ h => (by cases h), fun _ _ h => ?_⟩
  cases h
  refine ⟨trivial, fun _ _ h => ?_⟩
  cases h
  refine ⟨trivial, fun _ _ h => ?_⟩
  cases h
  refine ⟨trivial, fun _ _ h => ?_⟩
  cases h
  exact ⟨fun _ h => (by cases h), fun _ _ _ => trivial⟩

/-- A call that has seen the flag down latches after the window's exit took nothing; one that has
seen it up suspends the thread after it entered the gate. -/
theorem outrun_interrupt_lost_or_inside :
    (∃ (h : List (TentStep Unit × Option ℤ)) (t : Tent Unit),
      run tentStep Tent.started [.gateEnter, .test (), .gateRaise, .gateTake, .latch ()] = some (h, t) ∧
        t.Lost ∧ ¬ TakenOnce h) ∧
    ∃ (h : List (TentStep Unit × Option ℤ)) (t : Tent Unit),
      run tentStep Tent.started [.test (), .gateEnter, .suspend ()] = some (h, t) ∧ t.StoppedInside := by
  refine ⟨⟨_, _, rfl, ⟨⟨rfl, fun i => ?_⟩, rfl, rfl⟩, fun h => h rfl⟩, _, _, rfl, Nat.one_pos, rfl⟩
  cases i
  decide

end SysvNt
