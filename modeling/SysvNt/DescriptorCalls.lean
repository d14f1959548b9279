import SysvNt.Descriptors

/-!
# The calls on descriptors

The system calls that open, duplicate, mark and close descriptors, as sequences of the
operations on the table, their error exits included. An operation carries the references
that its caller holds, so that what holds between two operations holds at every moment of a
call as well.
-/

namespace SysvNt

open RefCounting FdState

/-- An operation on the table, or on the description behind a descriptor. -/
inductive FdOp where
  | fileNew (kind : ℕ) (flags : UInt32)
  | filePut (f : ℕ)
  | install (f : ℕ) (cloexec : Bool) (min : ℤ)
  | close (fd : ℤ)
  | dup2 (oldfd newfd : ℤ) (cloexec : Bool)
  | setCloexec (fd : ℤ) (on : Bool)
  | setfl (fd : ℤ) (arg : UInt32)
  | seek (fd : ℤ) (pos : UInt64)

def FdState.through (s : FdState) (fd : ℤ) (g : Desc → Desc) : Except Errno ℤ × FdState :=
  match s.fdGet fd with
  | none => (.error .EBADF, s)
  | some (_, f) => (.ok 0, s.alter f g)

/-- One operation. A reference is dropped only by code that holds it, and installed only by
code that holds it or has found it in the table. -/
def fdStep (t : FdState × List ℕ) : FdOp → Option (Except Errno ℤ × (FdState × List ℕ))
  | .fileNew kind flags =>
    some (.ok 0, ((t.1.fileNew kind flags).2, t.1.next :: t.2))
  | .filePut f => if f ∈ t.2 then some (.ok 0, (t.1.filePut f, t.2.erase f)) else none
  | .install f cloexec min =>
    if f ∈ t.2 ∨ ∃ i, t.1.files i = some f then
      some ((t.1.fdInstall f cloexec min).1, ((t.1.fdInstall f cloexec min).2, t.2))
    else none
  | .close fd => some ((t.1.fdClose fd).1, ((t.1.fdClose fd).2, t.2))
  | .dup2 oldfd newfd cloexec =>
    some ((t.1.fdDup2 oldfd newfd cloexec).1, ((t.1.fdDup2 oldfd newfd cloexec).2, t.2))
  | .setCloexec fd on =>
    some ((t.1.fdSetCloexec fd on).1, ((t.1.fdSetCloexec fd on).2, t.2))
  | .setfl fd arg =>
    let r := t.1.through fd fun d => { d with flags := setfl d.flags arg }
    some (r.1, (r.2, t.2))
  | .seek fd pos =>
    let r := t.1.through fd fun d => { d with pos := pos }
    some (r.1, (r.2, t.2))

def FdOp.slot (r : Except Errno ℤ) : FdOp → Option Slot
  | .install .. => match r with
    | .ok n => slotOf n
    | .error _ => none
  | .close fd => slotOf fd
  | .dup2 _ newfd _ => slotOf newfd
  | .setCloexec fd _ => slotOf fd
  | _ => none

/-- The change a step makes to the table stays inside one slot, and leaves close-on-exec
clear if it leaves the slot empty. -/
structure Touches (s s' : FdState) (t : Option Slot) : Prop where
  others : ∀ j, t ≠ some j → s'.files j = s.files j ∧ s'.cloexec j = s.cloexec j
  clear : CloexecClear s → CloexecClear s'

theorem Touches.refl (s : FdState) (t : Option Slot) : Touches s s t :=
  ⟨fun _ _ => ⟨rfl, rfl⟩, fun h => h⟩

/-- A step that leaves the table itself alone. -/
theorem Touches.heap {s s' : FdState} (t : Option Slot) (hf : s'.files = s.files)
    (hc : s'.cloexec = s.cloexec) : Touches s s' t := by
  refine ⟨fun j _ => ⟨by rw [hf], by rw [hc]⟩, ?_⟩
  intro h j hj
  rw [hf] at hj
  rw [hc]
  exact h j hj

/-- A step that writes one slot. -/
theorem Touches.write {s s' : FdState} {i : Slot} (v : Option ℕ) (on : Bool)
    (hf : s'.files = Function.update s.files i v) (hc : s'.cloexec = Function.update s.cloexec i on)
    (hv : v = none → on = false) : Touches s s' (some i) := by
  constructor
  · intro j hj
    have hne : j ≠ i := fun he => hj (by rw [he])
    rw [hf, hc, Function.update_of_ne hne, Function.update_of_ne hne]
    exact ⟨rfl, rfl⟩
  · intro h j
    rw [hf, hc]
    by_cases hj : j = i
    · subst hj
      rw [Function.update_self, Function.update_self]
      exact hv
    · rw [Function.update_of_ne hj, Function.update_of_ne hj]
      exact h j

theorem fdInstall_touches (s : FdState) (f : ℕ) (cloexec : Bool) (min : ℤ) :
    Touches s (s.fdInstall f cloexec min).2
      (FdOp.slot (s.fdInstall f cloexec min).1 (.install f cloexec min)) := by
  rw [fdInstall]
  split_ifs
  · exact Touches.refl s _
  · cases s.lowestFree min.toNat with
    | none => exact Touches.refl s _
    | some i =>
        simp only [FdOp.slot]
        rw [slotOf_coe]
        exact Touches.write (some f) cloexec rfl rfl (by simp)

theorem fdClose_touches (s : FdState) (fd : ℤ) : Touches s (s.fdClose fd).2 (slotOf fd) := by
  rw [fdClose]
  cases hg : s.fdGet fd with
  | none => exact Touches.refl s _
  | some p =>
      obtain ⟨i, f⟩ := p
      obtain ⟨hi, _⟩ := fdGet_some hg
      rw [hi]
      exact Touches.write none false rfl rfl (fun _ => rfl)

theorem fdDup2_touches (s : FdState) (oldfd newfd : ℤ) (cloexec : Bool) :
    Touches s (s.fdDup2 oldfd newfd cloexec).2 (slotOf newfd) := by
  rw [fdDup2]
  cases s.fdGet oldfd with
  | none => exact Touches.refl s _
  | some p =>
      cases hi : slotOf newfd with
      | none => exact Touches.refl s _
      | some i =>
          dsimp only
          split_ifs
          · exact Touches.refl s _
          · cases (s.fileGet p.2).files i with
            | none => exact Touches.write (some p.2) cloexec rfl rfl (by simp)
            | some g => exact Touches.write (some p.2) cloexec rfl rfl (by simp)

theorem fdSetCloexec_touches (s : FdState) (fd : ℤ) (on : Bool) :
    Touches s (s.fdSetCloexec fd on).2 (slotOf fd) := by
  rw [fdSetCloexec]
  cases hg : s.fdGet fd with
  | none => exact Touches.refl s _
  | some p =>
      obtain ⟨i, f⟩ := p
      obtain ⟨hi, hf⟩ := fdGet_some hg
      rw [hi]
      refine Touches.write (some f) on ?_ rfl (by simp)
      rw [← hf, Function.update_eq_self]
      rfl

theorem through_touches (s : FdState) (fd : ℤ) (g : Desc → Desc) :
    Touches s (s.through fd g).2 none := by
  rw [through]
  cases s.fdGet fd with
  | none => exact Touches.refl s _
  | some p => exact Touches.heap none rfl rfl

theorem fdStep_touches {t t' : FdState × List ℕ} {op : FdOp} {r : Except Errno ℤ}
    (h : fdStep t op = some (r, t')) : Touches t.1 t'.1 (op.slot r) := by
  cases op with
  | fileNew kind flags =>
      cases h
      exact Touches.heap _ rfl rfl
  | filePut f =>
      rw [fdStep] at h
      split_ifs at h
      cases h
      exact Touches.heap _ rfl rfl
  | install f cloexec min =>
      rw [fdStep] at h
      split_ifs at h
      cases h
      exact fdInstall_touches t.1 f cloexec min
  | close fd =>
      cases h
      exact fdClose_touches t.1 fd
  | dup2 oldfd newfd cloexec =>
      cases h
      exact fdDup2_touches t.1 oldfd newfd cloexec
  | setCloexec fd on =>
      cases h
      exact fdSetCloexec_touches t.1 fd on
  | setfl fd arg =>
      cases h
      exact through_touches t.1 fd _
  | seek fd pos =>
      cases h
      exact through_touches t.1 fd _

theorem through_balanced {s : FdState} {held : List ℕ} (h : Balanced s held) (fd : ℤ)
    {g : Desc → Desc} (hg : ∀ d, (g d).refs = d.refs ∧ (g d).releases = d.releases) :
    Balanced (s.through fd g).2 held := by
  rw [through]
  cases s.fdGet fd with
  | none => exact h
  | some p => exact h.alter p.2 hg

theorem fdStep_balanced {t t' : FdState × List ℕ} {op : FdOp} {r : Except Errno ℤ}
    (hb : Balanced t.1 t.2) (h : fdStep t op = some (r, t')) : Balanced t'.1 t'.2 := by
  cases op with
  | fileNew kind flags =>
      cases h
      exact hb.fileNew kind flags
  | filePut f =>
      rw [fdStep] at h
      split_ifs at h with hf
      cases h
      exact (hb.perm (List.perm_cons_erase hf)).filePut
  | install f cloexec min =>
      rw [fdStep] at h
      split_ifs at h with hf
      cases h
      refine hb.fdInstall ?_ cloexec min
      rcases hf with hf | ⟨i, hi⟩
      · exact hb.counted.pos_of_held hf
      · exact hb.counted.pos_of_slot hi
  | close fd =>
      cases h
      exact hb.fdClose fd
  | dup2 oldfd newfd cloexec =>
      cases h
      exact hb.fdDup2 oldfd newfd cloexec
  | setCloexec fd on =>
      cases h
      exact hb.fdSetCloexec fd on
  | setfl fd arg =>
      cases h
      exact through_balanced hb fd fun _ => ⟨rfl, rfl⟩
  | seek fd pos =>
      cases h
      exact through_balanced hb fd fun _ => ⟨rfl, rfl⟩

/-- A system call on descriptors. What happens outside the table is a parameter: the kind
and flags of the description that opening made, whether the pipe's memory was there, and
whether the pair of numbers could be copied out. -/
inductive FdCall where
  | openAt (flags : UInt32) (made : Except Errno (ℕ × UInt32))
  | close (fd : ℤ)
  | dup (fd : ℤ)
  | dup2 (oldfd newfd : ℤ)
  | dup3 (oldfd newfd : ℤ) (flags : UInt32)
  | fcntl (fd cmd arg : ℤ)
  | pipe2 (flags : UInt32) (made copied : Bool)
  | seek (fd : ℤ) (pos : UInt64)

def F_DUPFD : ℤ := 0
def F_GETFD : ℤ := 1
def F_SETFD : ℤ := 2
def F_GETFL : ℤ := 3
def F_SETFL : ℤ := 4
def F_DUPFD_CLOEXEC : ℤ := 1030
def FILE_KIND_PIPE : ℕ := 3

def cInt (arg : ℤ) : ℤ := arg.bmod (2 ^ 32)

namespace FdState

variable (s : FdState)

/-- The end of `sys_openat`: install the description and drop the opener's reference. -/
def sysOpen (flags : UInt32) (made : Except Errno (ℕ × UInt32)) : Except Errno ℤ × FdState :=
  match made with
  | .error e => (.error e, s)
  | .ok (kind, fl) =>
    let n := s.fileNew kind fl
    let r := n.2.fdInstall n.1 (has flags O_CLOEXEC) 0
    (r.1, r.2.filePut n.1)

def sysDup (fd : ℤ) : Except Errno ℤ × FdState :=
  match s.fdGet fd with
  | none => (.error .EBADF, s)
  | some (_, f) => s.fdInstall f false 0

def sysDup2 (oldfd newfd : ℤ) : Except Errno ℤ × FdState :=
  match s.fdGet oldfd with
  | none => (.error .EBADF, s)
  | some _ => if oldfd = newfd then (.ok newfd, s) else s.fdDup2 oldfd newfd false

def sysDup3 (oldfd newfd : ℤ) (flags : UInt32) : Except Errno ℤ × FdState :=
  if flags &&& ~~~O_CLOEXEC ≠ 0 then (.error .EINVAL, s)
  else if oldfd = newfd then (.error .EINVAL, s)
  else s.fdDup2 oldfd newfd (has flags O_CLOEXEC)

def sysFcntl (fd cmd arg : ℤ) : Except Errno ℤ × FdState :=
  match s.fdGet fd with
  | none => (.error .EBADF, s)
  | some (_, f) =>
    if cmd = F_DUPFD then s.fdInstall f false (cInt arg)
    else if cmd = F_DUPFD_CLOEXEC then s.fdInstall f true (cInt arg)
    else if cmd = F_GETFD then (s.fdGetCloexec fd, s)
    else if cmd = F_SETFD then s.fdSetCloexec fd (arg % 2 = 1)
    else if cmd = F_GETFL then (.ok ((s.heap f).flags &&& ~~~O_CLOEXEC).toNat, s)
    else if cmd = F_SETFL then
      s.through fd fun d => { d with flags := setfl d.flags (UInt32.ofNat (arg % 2 ^ 32).toNat) }
    else (.error .EINVAL, s)

/-- `sys_pipe2` once the two descriptions are made; both of the maker's references are
dropped before any exit is taken. -/
def pipe2Install (rd wr : ℕ) (cloexec copied : Bool) : Except Errno ℤ × FdState :=
  match s.fdInstall rd cloexec 0 with
  | (.error e, s₀) => (.error e, (s₀.filePut rd).filePut wr)
  | (.ok fd₀, s₀) => match s₀.fdInstall wr cloexec 0 with
    | (.error e, s₁) => (.error e, (((s₁.filePut rd).filePut wr).fdClose fd₀).2)
    | (.ok fd₁, s₁) =>
      let s' := (s₁.filePut rd).filePut wr
      if copied then (.ok 0, s') else (.error .EFAULT, ((s'.fdClose fd₀).2.fdClose fd₁).2)

def sysPipe2 (flags : UInt32) (made copied : Bool) : Except Errno ℤ × FdState :=
  if flags &&& ~~~(O_NONBLOCK ||| O_CLOEXEC) ≠ 0 then (.error .EINVAL, s)
  else if made = false then (.error .ENOMEM, s)
  else
    let rd := s.fileNew FILE_KIND_PIPE (O_RDONLY ||| flags &&& O_NONBLOCK)
    let wr := rd.2.fileNew FILE_KIND_PIPE (O_WRONLY ||| flags &&& O_NONBLOCK)
    wr.2.pipe2Install rd.1 wr.1 (has flags O_CLOEXEC) copied

def call : FdCall → Except Errno ℤ × FdState
  | .openAt flags made => s.sysOpen flags made
  | .close fd => s.fdClose fd
  | .dup fd => s.sysDup fd
  | .dup2 oldfd newfd => s.sysDup2 oldfd newfd
  | .dup3 oldfd newfd flags => s.sysDup3 oldfd newfd flags
  | .fcntl fd cmd arg => s.sysFcntl fd cmd arg
  | .pipe2 flags made copied => s.sysPipe2 flags made copied
  | .seek fd pos => s.through fd fun d => { d with pos := pos }

end FdState

/-- A call as a sequence of operations, with no reference held at either end. -/
def Expands (s s' : FdState) : Prop := ActionRuns.Reaches fdStep (s, []) (s', [])

theorem Expands.refl (s : FdState) : Expands s s := ActionRuns.Reaches.refl _ _

theorem Expands.one {s s' : FdState} (op : FdOp) {r : Except Errno ℤ}
    (h : fdStep (s, []) op = some (r, (s', []))) : Expands s s' :=
  ActionRuns.Reaches.head h (ActionRuns.Reaches.refl _ _)

theorem fdStep_install {s : FdState} {held : List ℕ} {f : ℕ}
    (h : f ∈ held ∨ ∃ i, s.files i = some f) (cloexec : Bool) (min : ℤ) :
    fdStep (s, held) (.install f cloexec min) =
      some ((s.fdInstall f cloexec min).1, ((s.fdInstall f cloexec min).2, held)) := by
  rw [fdStep, if_pos h]

theorem fdStep_filePut {s : FdState} {held : List ℕ} {f : ℕ} (h : f ∈ held) :
    fdStep (s, held) (.filePut f) = some (.ok 0, (s.filePut f, held.erase f)) := by
  rw [fdStep, if_pos h]

theorem expands_install {s : FdState} {i : Slot} {f : ℕ} (hi : s.files i = some f)
    (cloexec : Bool) (min : ℤ) : Expands s (s.fdInstall f cloexec min).2 :=
  Expands.one _ (fdStep_install (.inr ⟨i, hi⟩) cloexec min)

theorem reaches_new {s : FdState} {held : List ℕ} {t : FdState × List ℕ} (kind : ℕ)
    (flags : UInt32)
    (h : ActionRuns.Reaches fdStep ((s.fileNew kind flags).2, s.next :: held) t) :
    ActionRuns.Reaches fdStep (s, held) t :=
  ActionRuns.Reaches.head (a := .fileNew kind flags) rfl h

theorem expands_open (s : FdState) (flags : UInt32) (made : Except Errno (ℕ × UInt32)) :
    Expands s (s.sysOpen flags made).2 := by
  cases made with
  | error e => exact Expands.refl s
  | ok k =>
      have hfst : (s.fileNew k.1 k.2).1 = s.next := rfl
      refine reaches_new k.1 k.2 ?_
      rw [sysOpen]
      dsimp only
      rw [hfst]
      refine ActionRuns.Reaches.head
        (fdStep_install (f := s.next) (.inl (by simp)) (has flags O_CLOEXEC) 0) ?_
      refine ActionRuns.Reaches.head (fdStep_filePut List.mem_cons_self) ?_
      rw [List.erase_cons_head]
      exact ActionRuns.Reaches.refl _ _

theorem expands_dup (s : FdState) (fd : ℤ) : Expands s (s.sysDup fd).2 := by
  rw [sysDup]
  cases hg : s.fdGet fd with
  | none => exact Expands.refl s
  | some p => exact expands_install (fdGet_some hg).2 false 0

theorem expands_dup2 (s : FdState) (oldfd newfd : ℤ) : Expands s (s.sysDup2 oldfd newfd).2 := by
  rw [sysDup2]
  cases s.fdGet oldfd with
  | none => exact Expands.refl s
  | some p =>
      dsimp only
      split_ifs
      · exact Expands.refl s
      · exact Expands.one (.dup2 oldfd newfd false) rfl

theorem expands_dup3 (s : FdState) (oldfd newfd : ℤ) (flags : UInt32) :
    Expands s (s.sysDup3 oldfd newfd flags).2 := by
  rw [sysDup3]
  split_ifs
  · exact Expands.refl s
  · exact Expands.refl s
  · exact Expands.one (.dup2 oldfd newfd (has flags O_CLOEXEC)) rfl

theorem expands_fcntl (s : FdState) (fd cmd arg : ℤ) : Expands s (s.sysFcntl fd cmd arg).2 := by
  rw [sysFcntl]
  cases hg : s.fdGet fd with
  | none => exact Expands.refl s
  | some p =>
      obtain ⟨i, f⟩ := p
      obtain ⟨_, hi⟩ := fdGet_some hg
      dsimp only
      split_ifs
      · exact expands_install hi false _
      · exact expands_install hi true _
      · exact Expands.refl s
      · exact Expands.one (.setCloexec fd _) rfl
      · exact Expands.refl s
      · exact Expands.one (.setfl fd _) rfl
      · exact Expands.refl s

/-- Both of the maker's puts in `sys_pipe2`. -/
theorem reaches_puts (s : FdState) {a b : ℕ} (hab : b ≠ a) :
    ActionRuns.Reaches fdStep (s, [b, a]) ((s.filePut a).filePut b, []) := by
  have herase : [b, a].erase a = [b] := by
    rw [List.erase_cons_tail (by simpa using hab), List.erase_cons_head]
  refine ActionRuns.Reaches.head (fdStep_filePut (f := a) (by simp)) ?_
  rw [herase]
  refine ActionRuns.Reaches.head (fdStep_filePut List.mem_cons_self) ?_
  rw [List.erase_cons_head]
  exact ActionRuns.Reaches.refl _ _

theorem reaches_close {s s' : FdState} (fd : ℤ)
    (h : ActionRuns.Reaches fdStep ((s.fdClose fd).2, []) (s', [])) :
    ActionRuns.Reaches fdStep (s, []) (s', []) :=
  ActionRuns.Reaches.head (a := .close fd) rfl h

theorem reaches_pipe2Install (s : FdState) {rd wr : ℕ} (hne : wr ≠ rd) (cloexec copied : Bool) :
    ActionRuns.Reaches fdStep (s, [wr, rd]) ((s.pipe2Install rd wr cloexec copied).2, []) := by
  have hrd : rd ∈ [wr, rd] := by simp
  have hwr : wr ∈ [wr, rd] := by simp
  refine ActionRuns.Reaches.head (fdStep_install (.inl hrd) cloexec 0) ?_
  unfold pipe2Install
  cases s.fdInstall rd cloexec 0 with
  | mk r s₀ =>
      cases r with
      | error e => exact reaches_puts s₀ hne
      | ok fd₀ =>
          refine ActionRuns.Reaches.head (fdStep_install (.inl hwr) cloexec 0) ?_
          dsimp only
          cases s₀.fdInstall wr cloexec 0 with
          | mk r s₁ =>
              refine (reaches_puts s₁ hne).trans ?_
              cases r with
              | error e => exact reaches_close fd₀ (ActionRuns.Reaches.refl _ _)
              | ok fd₁ =>
                  dsimp only
                  split_ifs
                  · exact ActionRuns.Reaches.refl _ _
                  · exact reaches_close fd₀ (reaches_close fd₁ (ActionRuns.Reaches.refl _ _))

theorem expands_pipe2 (s : FdState) (flags : UInt32) (made copied : Bool) :
    Expands s (s.sysPipe2 flags made copied).2 := by
  rw [sysPipe2]
  split_ifs
  · exact Expands.refl s
  · exact Expands.refl s
  · refine reaches_new FILE_KIND_PIPE (O_RDONLY ||| flags &&& O_NONBLOCK) ?_
    refine reaches_new FILE_KIND_PIPE (O_WRONLY ||| flags &&& O_NONBLOCK) ?_
    exact reaches_pipe2Install _ (Nat.succ_ne_self s.next) _ _

theorem call_expands (s : FdState) (c : FdCall) : Expands s (s.call c).2 := by
  cases c with
  | openAt flags made => exact expands_open s flags made
  | close fd => exact Expands.one (.close fd) rfl
  | dup fd => exact expands_dup s fd
  | dup2 oldfd newfd => exact expands_dup2 s oldfd newfd
  | dup3 oldfd newfd flags => exact expands_dup3 s oldfd newfd flags
  | fcntl fd cmd arg => exact expands_fcntl s fd cmd arg
  | pipe2 flags made copied => exact expands_pipe2 s flags made copied
  | seek fd pos => exact Expands.one (.seek fd pos) rfl

theorem calls_expand {calls : List FdCall} {h : List (FdCall × Except Errno ℤ)} {s s' : FdState}
    (hr : ActionRuns.run (fun s c => some (s.call c)) s calls = some (h, s')) : Expands s s' := by
  induction calls generalizing h s with
  | nil =>
      cases hr
      exact Expands.refl _
  | cons c calls ih =>
      obtain ⟨r, m, t, hs, ht, rfl⟩ := ActionRuns.run_cons hr
      have hm : (s.call c).2 = m := congrArg Prod.snd (Option.some.inj hs)
      exact (call_expands s c).trans (hm ▸ ih ht)

def FdState.view (s : FdState) (i : Slot) : Option (UInt64 × UInt32) :=
  (s.files i).map fun f => ((s.heap f).pos, (s.heap f).flags)

/-- The contract of the table in a given state, `held` being the references that code
outside of it has. -/
structure TableContract (s : FdState) (held : List ℕ) : Prop where
  refs : ∀ f, (s.heap f).refs = slotCount s.files f + held.count f
  released : ∀ f, f < s.next → (s.heap f).releases = if (s.heap f).refs = 0 then 1 else 0
  live : ∀ i f, s.files i = some f → (s.heap f).releases = 0
  cloexec_empty : CloexecClear s
  install : ∀ (f : ℕ) (cloexec : Bool) (min : ℤ), 0 ≤ min →
    (∃ i : Slot, min ≤ (i : ℕ) ∧ s.files i = none ∧
      (∀ j : Slot, min ≤ (j : ℕ) → j < i → s.files j ≠ none) ∧
      (s.fdInstall f cloexec min).1 = .ok (i : ℕ) ∧
      (s.fdInstall f cloexec min).2.files i = some f ∧
      (s.fdInstall f cloexec min).2.cloexec i = cloexec) ∨
    ((∀ j : Slot, min ≤ (j : ℕ) → s.files j ≠ none) ∧
      s.fdInstall f cloexec min = (.error .EMFILE, s))
  dup2 : ∀ oldfd newfd cloexec i j f, s.fdGet oldfd = some (i, f) → slotOf newfd = some j →
    (s.fdDup2 oldfd newfd cloexec).2.files j = some f ∧
      (i ≠ j → (s.fdDup2 oldfd newfd cloexec).2.cloexec j = cloexec)
  others : ∀ op r t, fdStep (s, held) op = some (r, t) → ∀ j, op.slot r ≠ some j →
    t.1.files j = s.files j ∧ t.1.cloexec j = s.cloexec j
  shared : ∀ i j f, s.files i = some f → s.files j = some f → ∀ op r t,
    fdStep (s, held) op = some (r, t) → op.slot r ≠ some i → op.slot r ≠ some j →
    t.1.view i = t.1.view j

theorem fdInstall_contract (s : FdState) (f : ℕ) (cloexec : Bool) {min : ℤ} (hmin : 0 ≤ min) :
    (∃ i : Slot, min ≤ (i : ℕ) ∧ s.files i = none ∧
      (∀ j : Slot, min ≤ (j : ℕ) → j < i → s.files j ≠ none) ∧
      (s.fdInstall f cloexec min).1 = .ok (i : ℕ) ∧
      (s.fdInstall f cloexec min).2.files i = some f ∧
      (s.fdInstall f cloexec min).2.cloexec i = cloexec) ∨
    ((∀ j : Slot, min ≤ (j : ℕ) → s.files j ≠ none) ∧
      s.fdInstall f cloexec min = (.error .EMFILE, s)) := by
  rw [fdInstall, if_neg (by omega)]
  rcases s.lowestFree_cases min.toNat with ⟨i, hi, hle, hnone, hlow⟩ | ⟨hi, hfull⟩
  · left
    rw [hi]
    refine ⟨i, by omega, hnone, fun j hj => hlow j (by omega), rfl, ?_, ?_⟩
    · exact Function.update_self ..
    · exact Function.update_self ..
  · right
    rw [hi]
    exact ⟨fun j hj => hfull j (by omega), rfl⟩

theorem fdDup2_contract {s : FdState} {oldfd newfd : ℤ} {i j : Slot} {f : ℕ} (cloexec : Bool)
    (hold : s.fdGet oldfd = some (i, f)) (hnew : slotOf newfd = some j) :
    (s.fdDup2 oldfd newfd cloexec).2.files j = some f ∧
      (i ≠ j → (s.fdDup2 oldfd newfd cloexec).2.cloexec j = cloexec) := by
  obtain ⟨hi, hf⟩ := fdGet_some hold
  unfold fdDup2
  rw [hold, hnew]
  dsimp only
  split_ifs with he
  · have hij : i = j := Option.some.inj (hi.symm.trans (he ▸ hnew))
    exact ⟨hij ▸ hf, fun h => absurd hij h⟩
  · exact ⟨Function.update_self .., fun _ => Function.update_self ..⟩

theorem Balanced.contract {s : FdState} {held : List ℕ} (hb : Balanced s held)
    (hc : CloexecClear s) : TableContract s held where
  refs := hb.counted
  released f hf := by
    split_ifs with h0
    · exact (hb.settled f).dead hf h0
    · have := hb.counted.nonneg f
      exact ((hb.settled f).live (by omega)).2
  live i f hi := ((hb.settled f).live (hb.counted.pos_of_slot hi)).2
  cloexec_empty := hc
  install f cloexec min hmin := fdInstall_contract s f cloexec hmin
  dup2 oldfd newfd cloexec i j f hold hnew := fdDup2_contract cloexec hold hnew
  others op r t h := (fdStep_touches h).others
  shared i j f hi hj op r t h hri hrj := by
    have hti := ((fdStep_touches h).others i hri).1
    have htj := ((fdStep_touches h).others j hrj).1
    rw [FdState.view, FdState.view, hti, htj, hi, hj]

theorem releaseSlot_files (s : FdState) (i j : Slot) (h : j = i ∨ s.files j = none) :
    (s.releaseSlot i).files j = none := by
  unfold releaseSlot
  cases hi : s.files i with
  | none =>
      rcases h with rfl | h
      · exact hi
      · exact h
  | some f =>
      change Function.update s.files i none j = none
      by_cases hj : j = i
      · rw [hj, Function.update_self]
      · rw [Function.update_of_ne hj]
        exact h.resolve_left hj

theorem foldl_releaseSlot_files (is : List Slot) (s : FdState) (j : Slot)
    (h : j ∈ is ∨ s.files j = none) : (is.foldl releaseSlot s).files j = none := by
  induction is generalizing s with
  | nil => simpa using h
  | cons i is ih =>
      apply ih
      rcases h with h | h
      · rcases List.mem_cons.mp h with rfl | h
        · exact .inr (releaseSlot_files s j j (.inl rfl))
        · exact .inl h
      · exact .inr (releaseSlot_files s i j (.inr h))

theorem foldl_releaseSlot_next (is : List Slot) (s : FdState) :
    (is.foldl releaseSlot s).next = s.next := by
  induction is generalizing s with
  | nil => rfl
  | cons i is ih =>
      rw [List.foldl_cons, ih]
      unfold releaseSlot
      cases s.files i <;> rfl

/-- Every description is counted and released once over all operations on the table, a
system call being a sequence of them; and after the table's own release only the holders'
references are left. -/
theorem descriptors_balanced :
    (∀ ops h t, ActionRuns.run fdStep (fdtableInit, []) ops = some (h, t) →
      TableContract t.1 t.2 ∧
      (∀ i, t.1.fdtableRelease.files i = none) ∧
      ∀ f, f < t.1.next → (t.1.fdtableRelease.heap f).refs = t.2.count f ∧
        (t.1.fdtableRelease.heap f).releases = if t.2.count f = 0 then 1 else 0) ∧
    ∀ calls h s, ActionRuns.run (fun s c => some (s.call c)) fdtableInit calls = some (h, s) →
      ∃ ops h', ActionRuns.run fdStep (fdtableInit, []) ops = some (h', (s, [])) := by
  refine ⟨?_, fun calls h s hr => calls_expand hr⟩
  intro ops h t hr
  obtain ⟨hb, hc⟩ := ActionRuns.run_invariant
    (P := fun t : FdState × List ℕ => Balanced t.1 t.2 ∧ CloexecClear t.1)
    (fun t op r t' ht hstep => ⟨fdStep_balanced ht.1 hstep, (fdStep_touches hstep).clear ht.2⟩)
    ⟨fdtableInit_balanced, fun _ _ => rfl⟩ hr
  have hempty : ∀ i, t.1.fdtableRelease.files i = none := by
    intro i
    unfold fdtableRelease
    exact foldl_releaseSlot_files _ t.1 i (.inl (List.mem_finRange i))
  have hrel := hb.fdtableRelease
  have hrefs : ∀ f, (t.1.fdtableRelease.heap f).refs = t.2.count f := by
    intro f
    have hcount := hrel.counted f
    rw [slotCount_eq_zero hempty f, Nat.cast_zero, zero_add] at hcount
    exact hcount
  have hnext : t.1.fdtableRelease.next = t.1.next := by
    unfold fdtableRelease
    exact foldl_releaseSlot_next _ t.1
  refine ⟨hb.contract hc, hempty, fun f hf => ⟨hrefs f, ?_⟩⟩
  split_ifs with h0
  · exact (hrel.settled f).dead (by omega) (by rw [hrefs f]; omega)
  · exact ((hrel.settled f).live (by rw [hrefs f]; omega)).2

theorem descriptors_sample_balanced :
    ∃ h s, ActionRuns.run (fun s c => some (FdState.call s c)) fdtableInit
        [.openAt O_CLOEXEC (.ok (1, O_RDWR)), .dup 0, .pipe2 0 true false, .close 0] = some (h, s) ∧
      TableContract s [] ∧ (s.heap 0).refs = 1 ∧ (s.fdtableRelease.heap 0).releases = 1 := by
  have hrun : ((ActionRuns.run (fun s c => some (FdState.call s c)) fdtableInit
      [.openAt O_CLOEXEC (.ok (1, O_RDWR)), .dup 0, .pipe2 0 true false, .close 0]).map fun r =>
        ((r.2.heap 0).refs, r.2.next)) = some (1, 3) := by decide +kernel
  obtain ⟨⟨h, s⟩, hr, he⟩ := Option.map_eq_some_iff.mp hrun
  obtain ⟨hrefs, hnext⟩ : (s.heap 0).refs = 1 ∧ s.next = 3 := by simpa using he
  obtain ⟨ops, h', hops⟩ := descriptors_balanced.2 _ h s hr
  obtain ⟨hcontract, _, hrel⟩ := descriptors_balanced.1 ops h' (s, []) hops
  have hlt : 0 < s.next := by rw [hnext]; omega
  obtain ⟨_, hreleases⟩ := hrel 0 hlt
  refine ⟨h, s, hr, hcontract, hrefs, ?_⟩
  rw [hreleases, List.count_nil, if_pos rfl]

end SysvNt
