import SysvNt.ThreadTable

/-!
# A thread as its id sees it

Each call of the table is a step of the one id that it names: what the table and the host hold of
that id is stepped by a machine of its own, and what they hold of the others is left alone.
-/

namespace SysvNt

open ByteMemory ActionRuns

section Known

variable (boot : Context) (ans : HostAnswers) (room : Bool)

def knownStart (r : SubRegs) (tls : Word) : Option Known → ℤ × Option Known
  | some k => match k.thread with
    | some t =>
      if ans.getContext && ans.setContext then
        (0, some { k with thread := some ({ t with context := regsToCtx r t.context } : HostThread).resumed })
      else (-1, some k)
    | none => (-1, some k)
  | none =>
    if room && ans.create && ans.getContext && ans.setContext then
      (0, some ⟨tls, true, false, some ⟨Threads.startContext r boot, 0, if ans.query then tls else 0⟩⟩)
    else (-1, none)

def knownInterrupt : Option Known → ℤ × Option Known
  | some k =>
    if k.interruptible then
      match k.thread with
      | some t =>
        if ans.suspend then (0, some { k with thread := some { t with suspends := t.suspends + 1 } })
        else (-1, some k)
      | none => (-1, some k)
    else (0, some { k with pending := true })
  | none => (-1, none)

def knownSetContext (r : SubRegs) : Option Known → ℤ × Option Known
  | some k => match k.thread with
    | some t =>
      if ans.getContext && ans.setContext then
        (0, some { k with thread := some { t with context := regsToCtx r t.context } })
      else (-1, some k)
    | none => (-1, some k)
  | none => (-1, none)

def knownTpSet (base : Word) : Option Known → ℤ × Option Known
  | some k => match k.thread with
    | some t =>
      if ans.query then (0, some { k with tp := base, thread := some { t with carrier := base } })
      else (-1, some { k with tp := base })
    | none => (0, some { k with tp := base })
  | none => if room then (0, some ⟨base, true, false, none⟩) else (-1, none)

def knownGateEnter : Option Known → ℤ × Option Known
  | some k => (0, some { k with interruptible := false })
  | none => (-1, none)

def knownGateExit : Option Known → ℤ × Option Known
  | some k => (if k.pending then 1 else 0, some { k with interruptible := true, pending := false })
  | none => (-1, none)

def knownRan (c : Context) : Option Known → ℤ × Option Known
  | some k =>
    (0, some { k with thread := k.thread.map fun t => if t.suspends = 0 then { t with context := c } else t })
  | none => (-1, none)

def knownStep (c : ThreadCall) : Option Known → ℤ × Option Known :=
  match c with
  | .start r tls => knownStart boot ans room r tls
  | .interrupt => knownInterrupt ans
  | .setContext r => knownSetContext ans r
  | .tpSet base => knownTpSet ans room base
  | .gateEnter => knownGateEnter
  | .gateExit => knownGateExit
  | .ran c => knownRan c

end Known

namespace Threads

def room (s : Threads) : Bool := s.threadAlloc.isSome

def Acts (s : Threads) (tid : ℤ) (o : ℤ × Option Known) (p : ℤ × Threads) : Prop :=
  p.1 = o.1 ∧ p.2.view = Function.update s.view tid o.2 ∧ p.2.Consistent

variable {s : Threads} {tid : ℤ} {i : Fin N_MAX_THREADS} {e : ThreadEntry} {ans : HostAnswers}

theorem Consistent.acts_same (hc : s.Consistent) {k : Option Known} (hk : s.view tid = k) (r : ℤ) :
    Acts s tid (r, k) (r, s) := by
  refine ⟨rfl, ?_, hc⟩
  rw [← hk, Function.update_eq_self]

theorem Consistent.acts_withThread (hc : s.Consistent) (he : s.slots i = some e)
    (f : HostThread → HostThread) (r : ℤ) :
    Acts s e.tid (r, some { s.known e with thread := (s.thread e.handle).map f })
      (r, s.withThread e.handle f) := by
  obtain ⟨hc', hview⟩ := hc.withThread he f
  exact ⟨rfl, hview, hc'⟩

/-- The entry of an id is replaced by one with its id and handle. -/
theorem Consistent.replace (hc : s.Consistent) (he : s.slots i = some e) (e' : ThreadEntry)
    (htid : e'.tid = e.tid) (hhandle : e'.handle = e.handle) :
    (s.setSlot i (some e')).Consistent ∧
      (s.setSlot i (some e')).view = Function.update s.view e.tid (some (s.known e')) := by
  rw [← htid]
  apply hc.setSlot
  · exact hhandle ▸ hc.live i e he
  · exact fun j e₁ h₁ heq => hc.distinct j i e₁ e h₁ he (heq.trans htid)
  · exact fun j e₁ h₁ heq hz => hc.apart j i e₁ e h₁ he (heq.trans hhandle) (heq ▸ hz)
  · intro e₁ h₁
    rw [he] at h₁
    exact (Option.some.inj h₁) ▸ htid.symm

theorem Consistent.acts_replace (hc : s.Consistent) (he : s.slots i = some e) (e' : ThreadEntry)
    (htid : e'.tid = e.tid) (hhandle : e'.handle = e.handle) (r : ℤ) :
    Acts s e.tid (r, some (s.known e')) (r, s.setSlot i (some e')) := by
  obtain ⟨hc', hview⟩ := hc.replace he e' htid hhandle
  exact ⟨rfl, hview, hc'⟩

theorem withThread_withThread (s : Threads) (h : ℕ) (f g : HostThread → HostThread) :
    (s.withThread h f).withThread h g = s.withThread h (g ∘ f) := by
  unfold withThread
  by_cases hh : h = 0
  · simp [hh]
  · simp [hh, List.modify_modify_eq]

theorem putContext_eq (s : Threads) (h : ℕ) (r : SubRegs) :
    s.putContext ans h r = (s.thread h).bind fun t =>
      if ans.getContext && ans.setContext then
        some (s.withThread h fun t' => { t' with context := regsToCtx r t.context })
      else none := by
  rw [putContext, getThreadContext]
  cases ht : s.thread h with
  | none => rfl
  | some t =>
      cases hg : ans.getContext <;> cases hs : ans.setContext <;> simp [setThreadContext, ht, hs]

/-- The id is in the table, or it is not. -/
theorem Consistent.find_cases (hc : s.Consistent) (tid : ℤ) :
    (∃ i e, s.threadFind tid = some i ∧ s.slots i = some e ∧ e.tid = tid ∧ s.view tid = some (s.known e)) ∨
      (s.threadFind tid = none ∧ s.view tid = none) := by
  cases hf : s.threadFind tid with
  | none => exact Or.inr ⟨rfl, view_eq_none (find_eq_none.mp hf)⟩
  | some i =>
      obtain ⟨e, he, rfl⟩ := entry_of_find hf
      exact Or.inl ⟨i, e, rfl, he, rfl, hc.view_eq he⟩

section Steps

variable (hc : s.Consistent)
include hc

theorem setContext_acts (tid : ℤ) (r : SubRegs) :
    Acts s tid (knownSetContext ans r (s.view tid)) (s.setContext ans tid r) := by
  unfold setContext
  rcases hc.find_cases tid with ⟨i, e, hf, he, rfl, hv⟩ | ⟨hf, hv⟩
  · have hacts := fun f => hc.acts_withThread he f 0
    rw [known] at hv
    simp only [hf, Option.bind_some, he, putContext_eq, known] at hacts ⊢
    cases ht : s.thread e.handle with
    | none =>
        rw [ht] at hv
        rw [hv]
        exact hc.acts_same hv (-1)
    | some t =>
        rw [ht] at hv hacts
        rw [hv, knownSetContext, Option.bind_some]
        dsimp only
        split_ifs
        · exact hacts _
        · exact hc.acts_same hv (-1)
  · rw [hf, hv]
    exact hc.acts_same hv (-1)

theorem resume_acts (he : s.slots i = some e) (r : SubRegs) (tls : Word) (boot : Context) (room : Bool) :
    Acts s e.tid (knownStart boot ans room r tls (s.view e.tid))
      (match s.putContext ans e.handle r with
      | none => (-1, s)
      | some s₁ => (0, s₁.resumeThread e.handle)) := by
  have hv := hc.view_eq he
  have hacts := fun f => hc.acts_withThread he f 0
  rw [known] at hv
  simp only [putContext_eq, known] at hacts ⊢
  cases ht : s.thread e.handle with
  | none =>
      rw [ht] at hv
      rw [hv]
      exact hc.acts_same hv (-1)
  | some t =>
      rw [ht] at hv hacts
      rw [hv, knownStart, Option.bind_some]
      dsimp only
      split_ifs
      · simp only [resumeThread, withThread_withThread]
        exact hacts _
      · exact hc.acts_same hv (-1)

theorem threadInterrupt_acts (tid : ℤ) :
    Acts s tid (knownInterrupt ans (s.view tid)) (s.threadInterrupt ans tid) := by
  unfold threadInterrupt
  rcases hc.find_cases tid with ⟨i, e, hf, he, rfl, hv⟩ | ⟨hf, hv⟩
  · have hacts := fun f => hc.acts_withThread he f 0
    rw [known] at hv
    simp only [hf, he, known, suspendThread] at hacts ⊢
    by_cases hint : e.interruptible
    · simp only [if_pos hint]
      cases ht : s.thread e.handle with
      | none =>
          rw [ht] at hv
          simp only [hv, knownInterrupt, if_pos hint, Option.bind_none]
          exact hc.acts_same hv (-1)
      | some t =>
          rw [ht] at hv hacts
          simp only [hv, knownInterrupt, if_pos hint, Option.bind_some]
          split_ifs
          · exact hacts _
          · exact hc.acts_same hv (-1)
    · have hacts' := hc.acts_replace he { e with pending := true } rfl rfl 0
      simp only [hv, knownInterrupt, if_neg hint]
      exact hacts'
  · rw [hf, hv]
    exact hc.acts_same hv (-1)

theorem gateEnter_acts (tid : ℤ) : Acts s tid (knownGateEnter (s.view tid)) (s.gateEnter tid) := by
  unfold gateEnter
  rcases hc.find_cases tid with ⟨i, e, hf, he, rfl, hv⟩ | ⟨hf, hv⟩
  · have hacts := hc.acts_replace he { e with interruptible := false } rfl rfl 0
    simp only [hf, he, hv, Option.map_some]
    exact hacts
  · rw [hf, hv]
    exact hc.acts_same hv (-1)

theorem gateExit_acts (tid : ℤ) : Acts s tid (knownGateExit (s.view tid)) (s.gateExit tid) := by
  unfold gateExit
  rcases hc.find_cases tid with ⟨i, e, hf, he, rfl, hv⟩ | ⟨hf, hv⟩
  · have hacts := hc.acts_replace he { e with interruptible := true, pending := false } rfl rfl
      (if e.pending then 1 else 0)
    simp only [hf, he, hv, Option.map_some, Option.any_some]
    exact hacts
  · rw [hf, hv]
    exact hc.acts_same hv (-1)

theorem ran_acts (tid : ℤ) (c : Context) : Acts s tid (knownRan c (s.view tid)) (s.ran tid c) := by
  unfold ran
  rcases hc.find_cases tid with ⟨i, e, hf, he, rfl, hv⟩ | ⟨hf, hv⟩
  · simp only [hf, Option.bind_some, he, hv]
    exact hc.acts_withThread he _ 0
  · rw [hf, hv]
    exact hc.acts_same hv (-1)

end Steps

theorem thread_withHost (s : Threads) (t : HostThread) {h : ℕ} (hh : h ≤ s.host.length) :
    (s.withHost t).thread h = s.thread h := by
  unfold withHost thread
  split_ifs with hz
  · rfl
  · exact List.getElem?_append_left (by omega)

theorem thread_withHost_new (s : Threads) (t : HostThread) :
    (s.withHost t).thread (s.host.length + 1) = some t := by
  simp [withHost, thread]

theorem Consistent.withHost (hc : s.Consistent) (t : HostThread) :
    (s.withHost t).Consistent ∧ (s.withHost t).view = s.view := by
  constructor
  · constructor
    · exact hc.distinct
    · intro j e he
      have hlive := hc.live j e he
      simp only [Threads.withHost, List.length_append, List.length_singleton]
      omega
    · exact hc.apart
  · exact view_congr rfl fun j e he => thread_withHost s t (hc.live j e he)

/-- A new id in a free slot. -/
theorem Consistent.add (hc : s.Consistent) (hfree : s.slots i = none)
    (hnew : ∀ j e', s.slots j = some e' → e'.tid ≠ e.tid) (hlive : e.handle ≤ s.host.length)
    (hhandle : ∀ j e', s.slots j = some e' → e'.handle = e.handle → e.handle = 0) :
    (s.setSlot i (some e)).Consistent ∧
      (s.setSlot i (some e)).view = Function.update s.view e.tid (some (s.known e)) := by
  apply hc.setSlot hlive
  · exact fun j e' he' h => absurd h (hnew j e' he')
  · exact fun j e' he' h hz => absurd (hhandle j e' he' h) hz
  · intro e' he'
    rw [hfree] at he'
    cases he'

/-- A step of the id after another of the same id. -/
theorem Acts.after {s₁ : Threads} {k : Option Known} {o : ℤ × Option Known} {p : ℤ × Threads}
    (hview : s₁.view = Function.update s.view tid k) (h : Acts s₁ tid o p) : Acts s tid o p := by
  refine ⟨h.1, ?_, h.2.2⟩
  rw [h.2.1, hview, Function.update_idem]

theorem Consistent.thread_of_handle (hc : s.Consistent) (he : s.slots i = some e) (hz : e.handle ≠ 0) :
    ∃ t, s.thread e.handle = some t := by
  have hlive := hc.live i e he
  rw [thread, if_neg hz]
  exact ⟨_, List.getElem?_eq_getElem (by omega)⟩

theorem thread_zero (s : Threads) : s.thread 0 = none := rfl

theorem tpSetAt_acts (hc : s.Consistent) (he : s.slots i = some e) (room : Bool) (base : Word) :
    Acts s e.tid (knownTpSet ans room base (s.view e.tid)) (s.tpSetAt ans i e base) := by
  have hv := hc.view_eq he
  obtain ⟨hc₁, hview⟩ := hc.replace he { e with tp := base } rfl rfl
  rw [known] at hv
  unfold tpSetAt
  by_cases hz : e.handle = 0
  · have ht : s.thread e.handle = none := by rw [hz, thread_zero]
    rw [ht] at hv
    simp only [hv, knownTpSet, if_neg (not_not_intro hz)]
    simp only [known, ht] at hview
    exact ⟨rfl, hview, hc₁⟩
  · obtain ⟨t, ht⟩ := hc.thread_of_handle he hz
    rw [ht] at hv
    simp only [hv, knownTpSet, if_pos hz, carrierWrite, setSlot_thread, ht]
    split_ifs
    · have hacts := hc₁.acts_withThread (setSlot_self s i _) (fun t => { t with carrier := base }) 0
      simp only [known, setSlot_thread, ht] at hacts
      exact Acts.after hview hacts
    · simp only [known, ht] at hview
      exact ⟨rfl, hview, hc₁⟩

theorem tpSet_acts (hc : s.Consistent) (tid : ℤ) (base : Word) :
    Acts s tid (knownTpSet ans s.room base (s.view tid)) (s.tpSet ans tid base) := by
  unfold tpSet
  rcases hc.find_cases tid with ⟨i, e, hf, he, rfl, -⟩ | ⟨hf, hv⟩
  · simp only [hf, he]
    exact tpSetAt_acts hc he s.room base
  · rcases Option.eq_none_or_eq_some s.threadAlloc with ha | ⟨i, ha⟩
    · simp only [hf, hv, knownTpSet, room, ha]
      exact hc.acts_same hv (-1)
    · have hadd := hc.add (e := ⟨tid, 0, base, true, false⟩) (slot_of_alloc ha) (find_eq_none.mp hf)
        (Nat.zero_le _) (fun _ _ _ _ => rfl)
      simp only [hf, hv, knownTpSet, room, ha]
      exact ⟨rfl, hadd.2, hadd.1⟩

/-- A failed creation gives the slot back. -/
theorem acts_freed (hc : s.Consistent) (hfree : s.slots i = none) (hv : s.view tid = none) (t : HostThread)
    (e : Option ThreadEntry) :
    Acts s tid (-1, none) (-1, ((s.withHost t).setSlot i e).setSlot i none) := by
  have hslots : (((s.withHost t).setSlot i e).setSlot i none).slots = s.slots := by
    simp only [setSlot, withHost, Function.update_idem]
    rw [← hfree, Function.update_eq_self]
  obtain ⟨hc₁, hview⟩ := hc.withHost t
  refine ⟨rfl, ?_, ?_⟩
  · rw [← hv, Function.update_eq_self]
    exact view_congr hslots fun j e' he' => thread_withHost s t (hc.live j e' he')
  · constructor
    · rw [hslots]
      exact hc.distinct
    · rw [hslots]
      exact hc₁.live
    · rw [hslots]
      exact hc.apart

/-- Neither the table nor the host's threads are seen through the memory. -/
theorem Acts.withMemory {o : ℤ × Option Known} {p : ℤ × Threads} (h : Acts s tid o p) (m : Memory) :
    Acts s tid o (p.1, p.2.withMemory m) :=
  ⟨h.1, h.2.1, ⟨h.2.2.distinct, h.2.2.live, h.2.2.apart⟩⟩

section Start

variable (boot : Context) (threadReturn : Word) (r : SubRegs) (tls : Word)

theorem created_thread (s : Threads) (i : Fin N_MAX_THREADS) (tid : ℤ) :
    (s.created boot i tid tls).thread (s.host.length + 1) = some ⟨boot, 1, 0⟩ := thread_withHost_new ..

theorem Consistent.created (hc : s.Consistent) (hfree : s.slots i = none)
    (hnew : ∀ j e', s.slots j = some e' → e'.tid ≠ tid) :
    (s.created boot i tid tls).Consistent ∧ (s.created boot i tid tls).view =
      Function.update s.view tid (some ⟨tls, true, false, some ⟨boot, 1, 0⟩⟩) := by
  obtain ⟨hc₀, hview₀⟩ := hc.withHost ⟨boot, 1, 0⟩
  have hlength : (s.withHost ⟨boot, 1, 0⟩).host.length = s.host.length + 1 := List.length_append
  have hadd := hc₀.add (e := ⟨tid, s.host.length + 1, tls, true, false⟩) hfree hnew (le_of_eq hlength.symm)
    (fun j e' he' heq => by
      have hlive := hc.live j e' he'
      simp only at heq
      omega)
  refine ⟨hadd.1, hadd.2.trans ?_⟩
  rw [hview₀, known, thread_withHost_new]

def launchedThread (ans : HostAnswers) (wc : Context) (t : HostThread) : HostThread :=
  ⟨startContext r wc, t.suspends - 1, if ans.query then tls else t.carrier⟩

theorem withMemory_withThread (s : Threads) (m : Memory) (h : ℕ) (f : HostThread → HostThread) :
    (s.withMemory m).withThread h f = (s.withThread h f).withMemory m := by
  unfold withThread
  split_ifs <;> rfl

theorem launched_eq {h : ℕ} {t : HostThread} (ht : s.thread h = some t) (wc : Context) :
    s.launched ans threadReturn h r wc tls =
      if ans.setContext then
        some ((s.withThread h (launchedThread r tls ans wc)).withMemory
          (store s.memory (startSp (r.gpr .rsp)) threadReturn))
      else none := by
  have ht' : ∀ m, (s.withMemory m).thread h = some t := fun _ => ht
  rw [launched, setThreadContext, ht', Option.bind_some]
  by_cases hs : ans.setContext
  · rw [if_pos hs, if_pos hs, Option.map_some, carrierWrite, thread_withThread, if_pos rfl, ht',
      Option.map_some]
    have hfun : launchedThread r tls ans wc =
        HostThread.resumed ∘ (if ans.query then fun t => { t with carrier := tls } else id) ∘
          fun t => { t with context := startContext r wc } := by
      funext t
      rw [launchedThread]
      cases ans.query <;> rfl
    rw [hfun]
    cases ans.query with
    | true => simp only [if_true, resumeThread, withThread_withThread, withMemory_withThread]
    | false => simp [resumeThread, withThread_withThread, withMemory_withThread]
  · rw [if_neg hs, if_neg hs, Option.map_none]

theorem startNew_acts (hc : s.Consistent) (hfree : s.slots i = none) (hnew : s.threadFind tid = none) :
    Acts s tid (knownStart boot ans true r tls none) (s.startNew ans boot threadReturn i tid r tls) := by
  have hv : s.view tid = none := view_eq_none (find_eq_none.mp hnew)
  obtain ⟨hc₁, hview⟩ := hc.created boot tls hfree (find_eq_none.mp hnew)
  have ht := created_thread boot tls s i tid
  have hfreed := acts_freed hc hfree hv ⟨boot, 1, 0⟩ (some ⟨tid, s.host.length + 1, tls, true, false⟩)
  unfold startNew knownStart
  by_cases hcreate : ans.create
  · by_cases hg : ans.getContext
    · by_cases hs : ans.setContext
      · have hacts := hc₁.acts_withThread (setSlot_self ..) (launchedThread r tls ans boot) 0
        simp only [known, ht] at hacts
        simp only [hcreate, hg, hs, getThreadContext, ht, launched_eq threadReturn r tls ht]
        exact (Acts.after hview hacts).withMemory _
      · simp only [hcreate, hg, hs, getThreadContext, ht, launched_eq threadReturn r tls ht]
        exact hfreed.withMemory _
    · simp only [hcreate, hg, getThreadContext, ht]
      exact hfreed
  · have hsame : s.setSlot i none = s := by
      rw [setSlot, ← hfree, Function.update_eq_self]
    simp only [hcreate, hsame]
    exact hc.acts_same hv (-1)

theorem threadStart_acts (hc : s.Consistent) (tid : ℤ) :
    Acts s tid (knownStart boot ans s.room r tls (s.view tid))
      (s.threadStart ans boot threadReturn tid r tls) := by
  unfold threadStart
  rcases hc.find_cases tid with ⟨i, e, hf, he, rfl, -⟩ | ⟨hf, hv⟩
  · simp only [hf, Option.bind_some, he]
    exact resume_acts hc he r tls boot s.room
  · rcases Option.eq_none_or_eq_some s.threadAlloc with ha | ⟨i, ha⟩
    · simp only [hf, hv, knownStart, room, ha, Option.bind_none]
      exact hc.acts_same hv (-1)
    · have hacts : Acts s tid (knownStart boot ans true r tls none) _ :=
        startNew_acts boot threadReturn r tls hc (slot_of_alloc ha) hf
      simp only [hf, hv, room, ha, Option.bind_none]
      exact hacts

end Start

/-- The table refines one machine for each id: a call steps the machine of its own. -/
theorem step_acts (hc : s.Consistent) (boot : Context) (threadReturn : Word) (e : ThreadEvent) :
    Acts s e.tid (knownStep boot e.host s.room e.call (s.view e.tid)) (s.step boot threadReturn e) := by
  unfold step knownStep
  cases e.call with
  | start r tls => exact threadStart_acts boot threadReturn r tls hc e.tid
  | interrupt => exact threadInterrupt_acts hc e.tid
  | setContext r => exact setContext_acts hc e.tid r
  | tpSet base => exact tpSet_acts hc e.tid base
  | gateEnter => exact gateEnter_acts hc e.tid
  | gateExit => exact gateExit_acts hc e.tid
  | ran c => exact ran_acts hc e.tid c

end Threads

end SysvNt
