import SysvNt.ThreadRuns

/-!
# The registers of a stopped thread

`thread_context` reads the registers of a thread and `set_context` replaces them. A stopped thread does
not run, and no call on another thread touches it, so what is read from it is what it was stopped
with or what has been set since; setting what was read before brings that back.
-/

namespace SysvNt

open ByteMemory ActionRuns

def ctxToRegs (c : Context) : SubRegs where
  gpr := c.gpr
  rip := c.rip
  eflags := c.eflags.setWidth 64

structure ThreadRegs where
  regs : SubRegs
  fsBase : Word
  gsBase : Word

namespace Threads

def threadContext (ans : HostAnswers) (s : Threads) (tid : ℤ) : Option ThreadRegs :=
  ((s.threadFind tid).bind s.slots).bind fun e =>
    (s.getThreadContext ans e.handle).map fun wc => ⟨ctxToRegs wc, 0, e.tp⟩

end Threads

/-- The registers that `set_context` leaves, if the host does what it is asked. -/
def contextSet (tid : ℤ) (c : Context) (e : ThreadEvent) : Context :=
  match e.call with
  | .setContext r =>
    if e.tid = tid ∧ e.host.getContext = true ∧ e.host.setContext = true then regsToCtx r c else c
  | _ => c

def pointerSet (tid : ℤ) (p : Word) (e : ThreadEvent) : Word :=
  match e.call with
  | .tpSet base => if e.tid = tid then base else p
  | _ => p

def Starts (tid : ℤ) (e : ThreadEvent) : Prop := e.tid = tid ∧ ∃ r tls, e.call = .start r tls

def Sets (tid : ℤ) (e : ThreadEvent) : Prop := e.tid = tid ∧ ∃ r, e.call = .setContext r

structure StoppedWith (c : Context) (p : Word) (v : Option Known) : Prop where
  stopped : ∃ k t, v = some k ∧ k.thread = some t ∧ 0 < t.suspends ∧ t.context = c ∧ k.tp = p

section

variable {boot : Context} {threadReturn : Word} {s : Threads} {tid : ℤ} {e : ThreadEvent} {c : Context} {p : Word}

/-- Registers that were read are put back as they were, flags that are not all clear with them. -/
theorem regsToCtx_ctxToRegs (hflags : c.eflags ≠ 0) (d : Context) : regsToCtx (ctxToRegs c) d = c := by
  have hwide : c.eflags.setWidth 64 ≠ 0 := by
    intro h
    apply hflags
    bv_omega
  have hback : (c.eflags.setWidth 64).setWidth 32 = c.eflags := by
    bv_omega
  rw [regsToCtx, ctxToRegs]
  rw [if_pos hwide, hback]

theorem threadContext_eq (s : Threads) (ans : HostAnswers) (tid : ℤ) :
    s.threadContext ans tid = (s.view tid).bind fun k => k.thread.bind fun t =>
      if ans.getContext then some ⟨ctxToRegs t.context, 0, k.tp⟩ else none := by
  rw [Threads.threadContext, Threads.view]
  cases (s.threadFind tid).bind s.slots with
  | none => rfl
  | some e =>
      rw [Option.bind_some, Option.map_some, Option.bind_some, Threads.getThreadContext, Threads.known]
      cases s.thread e.handle with
      | none => rfl
      | some t =>
          rw [Option.bind_some, Option.bind_some]
          split_ifs <;> rfl

theorem StoppedWith.read (h : StoppedWith c p (s.view tid)) {ans : HostAnswers} (hget : ans.getContext = true) :
    s.threadContext ans tid = some ⟨ctxToRegs c, 0, p⟩ := by
  obtain ⟨k, t, hk, ht, -, rfl, rfl⟩ := h.stopped
  rw [threadContext_eq, hk, Option.bind_some, ht, Option.bind_some, if_pos hget]

/-- What a call on the thread itself, other than a start, makes of what is known of it. -/
theorem knownStep_stopped {ans : HostAnswers} {room : Bool} {v : Option Known} {call : ThreadCall}
    (h : StoppedWith c p v) (hstart : ∀ r tls, call ≠ .start r tls) :
    StoppedWith (contextSet tid c ⟨tid, call, ans⟩) (pointerSet tid p ⟨tid, call, ans⟩)
      (knownStep boot ans room call v).2 := by
  obtain ⟨k, t, rfl, ht, hstopped, rfl, rfl⟩ := h.stopped
  cases call with
  | start r tls => exact absurd rfl (hstart r tls)
  | interrupt =>
      simp only [knownStep, knownInterrupt, ht, contextSet, pointerSet]
      split_ifs
      · exact ⟨_, _, rfl, rfl, Nat.succ_pos _, rfl, rfl⟩
      · exact ⟨_, _, rfl, ht, hstopped, rfl, rfl⟩
      · exact ⟨_, _, rfl, rfl, hstopped, rfl, rfl⟩
  | setContext r =>
      simp only [knownStep, knownSetContext, ht, contextSet, pointerSet, true_and, Bool.and_eq_true]
      split_ifs
      · exact ⟨_, _, rfl, rfl, hstopped, rfl, rfl⟩
      · exact ⟨_, _, rfl, ht, hstopped, rfl, rfl⟩
  | tpSet base =>
      simp only [knownStep, knownTpSet, ht, contextSet, pointerSet, if_true]
      split_ifs
      · exact ⟨_, _, rfl, rfl, hstopped, rfl, rfl⟩
      · exact ⟨_, _, rfl, rfl, hstopped, rfl, rfl⟩
  | gateEnter => exact ⟨_, _, rfl, ht, hstopped, rfl, rfl⟩
  | gateExit => exact ⟨_, _, rfl, ht, hstopped, rfl, rfl⟩
  | ran d =>
      have hran : k.thread.map (fun t => if t.suspends = 0 then { t with context := d } else t) = some t := by
        rw [ht, Option.map_some, if_neg hstopped.ne']
      exact ⟨_, _, rfl, hran, hstopped, rfl, rfl⟩

theorem StoppedWith.next (hc : s.Consistent) (h : StoppedWith c p (s.view tid)) (he : ¬ Starts tid e) :
    StoppedWith (contextSet tid c e) (pointerSet tid p e) ((e.next boot threadReturn s).view tid) := by
  rw [next_view hc]
  by_cases htid : e.tid = tid
  · subst htid
    rw [Function.update_self]
    exact knownStep_stopped h fun r tls hcall => he ⟨rfl, r, tls, hcall⟩
  · rw [Function.update_of_ne (Ne.symm htid)]
    have hsame : contextSet tid c e = c := by
      rw [contextSet]
      cases e.call <;> simp [htid]
    have hpointer : pointerSet tid p e = p := by
      rw [pointerSet]
      cases e.call <;> simp [htid]
    rw [hsame, hpointer]
    exact h

variable (boot threadReturn) in
theorem StoppedWith.run {es : List ThreadEvent} (hc : s.Consistent) (h : StoppedWith c p (s.view tid))
    (hes : ∀ e ∈ es, ¬ Starts tid e) :
    StoppedWith (es.foldl (contextSet tid) c) (es.foldl (pointerSet tid) p)
      ((es.foldl (fun s e => e.next boot threadReturn s) s).view tid) := by
  induction es generalizing s c p with
  | nil => exact h
  | cons e es ih =>
      exact ih (next_consistent hc) (h.next hc (hes e List.mem_cons_self)) fun e' he' =>
        hes e' (List.mem_cons_of_mem e he')

theorem contextSet_of_not_sets (h : ¬ Sets tid e) : contextSet tid c e = c := by
  rw [contextSet]
  cases hcall : e.call with
  | setContext r => exact if_neg fun hset => h ⟨hset.1, r, hcall⟩
  | start r tls => rfl
  | interrupt => rfl
  | tpSet base => rfl
  | gateEnter => rfl
  | gateExit => rfl
  | ran d => rfl

theorem foldl_contextSet {es : List ThreadEvent} (h : ∀ e ∈ es, ¬ Sets tid e) :
    es.foldl (contextSet tid) c = c := by
  induction es with
  | nil => rfl
  | cons e es ih =>
      rw [List.foldl_cons, contextSet_of_not_sets (h e List.mem_cons_self)]
      exact ih fun e' he' => h e' (List.mem_cons_of_mem e he')

/-- The registers of a stopped thread are read, anything is done with it and with other threads short
of starting it, the registers that were read are set, and anything is done but start it or set them
again: the thread is stopped with the very context that it was stopped with at first, and the same
registers are read, with the pointer set last. -/
theorem saved_registers_restored (m : Memory) (first between after : List ThreadEvent) {k : Known} {t : HostThread}
    {ans : HostAnswers} {saved : ThreadRegs}
    (hk : (first.foldl (fun s e => e.next boot threadReturn s) (Threads.initial m)).view tid = some k)
    (ht : k.thread = some t) (hstopped : 0 < t.suspends) (hflags : t.context.eflags ≠ 0)
    (hsaved : (first.foldl (fun s e => e.next boot threadReturn s) (Threads.initial m)).threadContext ans tid =
      some saved)
    (hbetween : ∀ e ∈ between, ¬ Starts tid e) (hafter : ∀ e ∈ after, ¬ Starts tid e ∧ ¬ Sets tid e) :
    let restore : ThreadEvent := ⟨tid, .setContext saved.regs, .willing⟩
    let s := (first ++ between ++ restore :: after).foldl (fun s e => e.next boot threadReturn s) (Threads.initial m)
    StoppedWith t.context ((between ++ after).foldl (pointerSet tid) k.tp) (s.view tid) ∧
      s.threadContext .willing tid =
        some ⟨saved.regs, 0, (between ++ after).foldl (pointerSet tid) k.tp⟩ := by
  intro restore s
  have hc : (first.foldl (fun s e => e.next boot threadReturn s) (Threads.initial m)).Consistent :=
    run_consistent first (Threads.consistent_initial m)
  have hstart : StoppedWith t.context k.tp
      ((first.foldl (fun s e => e.next boot threadReturn s) (Threads.initial m)).view tid) :=
    ⟨k, t, hk, ht, hstopped, rfl, rfl⟩
  have hregs : saved.regs = ctxToRegs t.context := by
    rw [threadContext_eq, hk, Option.bind_some, ht, Option.bind_some] at hsaved
    split_ifs at hsaved
    cases hsaved
    rfl
  have hrestore : ¬ Starts tid restore := by
    rintro ⟨-, r, tls, hcall⟩
    cases hcall
  have hput (d : Context) : contextSet tid d restore = t.context := by
    have hset : contextSet tid d restore = regsToCtx saved.regs d := if_pos ⟨rfl, rfl, rfl⟩
    rw [hset, hregs, regsToCtx_ctxToRegs hflags]
  have hend : StoppedWith t.context ((between ++ after).foldl (pointerSet tid) k.tp) (s.view tid) := by
    have hquiet : ∀ e ∈ between ++ restore :: after, ¬ Starts tid e := by
      intro e he
      rcases List.mem_append.mp he with he | he
      · exact hbetween e he
      · rcases List.mem_cons.mp he with rfl | he
        · exact hrestore
        · exact (hafter e he).1
    have hrun := hstart.run boot threadReturn hc hquiet
    rw [List.foldl_append, List.foldl_append, List.foldl_cons, List.foldl_cons, hput,
      foldl_contextSet fun e he => (hafter e he).2] at hrun
    have hpointer : pointerSet tid (between.foldl (pointerSet tid) k.tp) restore =
        between.foldl (pointerSet tid) k.tp := rfl
    rw [hpointer, ← List.foldl_append, ← List.foldl_append, ← List.append_assoc] at hrun
    exact hrun
  refine ⟨hend, ?_⟩
  rw [hend.read rfl, hregs]

end

def handlerRegs : SubRegs := ⟨fun _ => 0x20000, 0x402000, 0⟩

/-- Thread 1 is started and interrupted, a handler's registers are set while thread 2 is started, and
those saved come back. -/
theorem handler_registers_replaced :
    let saved : ThreadRegs := ⟨ctxToRegs (Threads.startContext entryRegs bootContext), 0, 0x7000⟩
    let first := [onOne (.start entryRegs 0x7000), onOne .interrupt]
    let s := (first ++ [onOne (.setContext handlerRegs), ⟨2, .start entryRegs 0, .willing⟩] ++
      onOne (.setContext saved.regs) :: [onOne (.tpSet 0x8000)]).foldl startOne (Threads.initial fun _ => 0)
    s.threadContext .willing 1 = some ⟨saved.regs, 0, 0x8000⟩ := by
  intro saved first s
  have hc := Threads.consistent_initial fun _ => 0
  have hview : (first.foldl startOne (Threads.initial fun _ => 0)).view 1 =
      some ⟨0x7000, true, false, some ⟨Threads.startContext entryRegs bootContext, 1, 0x7000⟩⟩ := by
    have hstarted : oneStarted.Consistent := next_consistent hc
    change (startOne oneStarted (onOne .interrupt)).view 1 = _
    rw [startOne, next_view hstarted]
    change Function.update oneStarted.view 1 (knownStep _ _ _ _ (oneStarted.view 1)).2 1 = _
    rw [Function.update_self, oneStarted_view]
    rfl
  have hread : (first.foldl startOne (Threads.initial fun _ => 0)).threadContext .willing 1 = some saved := by
    rw [threadContext_eq, hview]
    rfl
  exact (saved_registers_restored (fun _ => 0) first
    [onOne (.setContext handlerRegs), ⟨2, .start entryRegs 0, .willing⟩] [onOne (.tpSet 0x8000)]
    hview rfl Nat.one_pos (by decide) hread
    (by
      intro e he
      rcases List.mem_cons.mp he with rfl | he
      · rintro ⟨-, r, tls, hcall⟩
        cases hcall
      · rw [List.mem_singleton.mp he]
        rintro ⟨htid, -⟩
        cases htid)
    (by
      intro e he
      rw [List.mem_singleton.mp he]
      refine ⟨?_, ?_⟩
      · rintro ⟨-, r, tls, hcall⟩
        cases hcall
      · rintro ⟨-, r, hcall⟩
        cases hcall)).2

end SysvNt
