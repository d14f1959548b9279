import SysvNt.ThreadViews

/-!
# Runs of starts, interrupts and thread pointers

Each interrupt that finds the thread in user code stops it once more, and a start lets it go once,
so a start resumes the thread where at most one such interrupt came since the start before. A
started thread reads the pointer set last; an id that `tp_set` named before its first start has an
entry without a thread, and that start creates none.
-/

namespace SysvNt

open ByteMemory ActionRuns

def RunsFrom (o : Option Known) (r : SubRegs) : Prop :=
  ∃ k t, o = some k ∧ k.thread = some t ∧ t.suspends = 0 ∧ t.context.gpr = r.gpr ∧
    t.context.rip = r.rip ∧ (r.eflags ≠ 0 → t.context.eflags = r.eflags.setWidth 32)

/-- At each start of the id at most one interrupt has come since the start before that found the
thread interruptible. `up` is the flag and `n` the number of those so far. -/
def Paced (tid : ℤ) : Bool → ℕ → List ThreadEvent → Prop
  | _, _, [] => True
  | up, n, e :: es =>
    if e.tid = tid then
      match e.call with
      | .start _ _ => n ≤ 1 ∧ Paced tid up 0 es
      | .interrupt => Paced tid up (if up then n + 1 else n) es
      | .gateEnter => Paced tid false n es
      | .gateExit => Paced tid true n es
      | _ => Paced tid up n es
    else Paced tid up n es

section Runs

variable (boot : Context) (threadReturn : Word)

def ThreadEvent.next (s : Threads) (e : ThreadEvent) : Threads := (s.step boot threadReturn e).2

def Succeeds (tid : ℤ) (s : Threads) (e : ThreadEvent) : Prop :=
  e.tid = tid → ((∃ r tls, e.call = .start r tls) ∨ e.call = .interrupt) →
    (s.step boot threadReturn e).1 = 0

def Resumes (tid : ℤ) (s : Threads) (e : ThreadEvent) : Prop :=
  e.tid = tid → ∀ r tls, e.call = .start r tls → RunsFrom ((e.next boot threadReturn s).view tid) r

variable {boot threadReturn} {s : Threads} {tid : ℤ} {e : ThreadEvent}

theorem next_consistent (hc : s.Consistent) : (e.next boot threadReturn s).Consistent :=
  (Threads.step_acts hc boot threadReturn e).2.2

theorem next_view (hc : s.Consistent) :
    (e.next boot threadReturn s).view =
      Function.update s.view e.tid (knownStep boot e.host s.room e.call (s.view e.tid)).2 :=
  (Threads.step_acts hc boot threadReturn e).2.1

theorem next_answer (hc : s.Consistent) :
    (s.step boot threadReturn e).1 = (knownStep boot e.host s.room e.call (s.view e.tid)).1 :=
  (Threads.step_acts hc boot threadReturn e).1

theorem knownStart_resumes {ans : HostAnswers} {room : Bool} {r : SubRegs} {tls : Word} {k : Known}
    {t : HostThread} (ht : k.thread = some t)
    (h : (knownStart boot ans room r tls (some k)).1 = 0) :
    (knownStart boot ans room r tls (some k)).2 =
      some { k with thread := some ({ t with context := regsToCtx r t.context } : HostThread).resumed } := by
  simp only [knownStart, ht] at h ⊢
  split_ifs at h ⊢
  · rfl
  · simp at h

theorem runsFrom_iff {k : Known} {t : HostThread} {r : SubRegs} :
    RunsFrom (some { k with thread := some ({ t with context := regsToCtx r t.context } : HostThread).resumed })
      r ↔ t.suspends ≤ 1 := by
  constructor
  · rintro ⟨k', t', hk, ht, hs, -⟩
    cases hk
    cases ht
    simp only [HostThread.resumed] at hs
    omega
  · intro h
    refine ⟨_, _, rfl, rfl, ?_, rfl, rfl, fun hf => if_pos hf⟩
    simp only [HostThread.resumed]
    omega

/-- A call that is no start resumes as told. -/
theorem not_started {c : ThreadCall} (he : c = e.call) (hc : ∀ r tls, c ≠ .start r tls) :
    Resumes boot threadReturn tid s e := fun _ r tls h => absurd (he.trans h) (hc r tls)

/-- A thread that was stopped `n` times so far resumes at each start of a run exactly where the run
is paced. -/
theorem resumes_iff_paced (es : List ThreadEvent) {k : Known} {t : HostThread} (hc : s.Consistent)
    (hk : s.view tid = some k) (ht : k.thread = some t)
    (hok : Along (fun s e => e.next boot threadReturn s) (Succeeds boot threadReturn tid) s es) :
    Along (fun s e => e.next boot threadReturn s) (Resumes boot threadReturn tid) s es ↔
      Paced tid k.interruptible t.suspends es := by
  induction es generalizing s k t with
  | nil => exact Iff.rfl
  | cons e es ih =>
      obtain ⟨hfirst, hrest⟩ := hok
      have hview : (e.next boot threadReturn s).view = _ := next_view hc
      have hc' : (e.next boot threadReturn s).Consistent := next_consistent hc
      rw [Along, Paced]
      by_cases htid : e.tid = tid
      · rw [if_pos htid]
        subst htid
        have hself : (e.next boot threadReturn s).view e.tid =
            (knownStep boot e.host s.room e.call (some k)).2 := by
          rw [hview, Function.update_self, hk]
        have hanswer : (s.step boot threadReturn e).1 = _ := next_answer hc
        rw [hk] at hanswer
        cases hcall : e.call with
        | start r tls =>
            rw [hcall] at hself hanswer
            have hzero := hanswer.symm.trans (hfirst rfl (Or.inl ⟨r, tls, hcall⟩))
            rw [knownStep, knownStart_resumes ht hzero] at hself
            have hfrom : Resumes boot threadReturn e.tid s e ↔ t.suspends ≤ 1 := by
              rw [← runsFrom_iff (k := k) (r := r), ← hself]
              constructor
              · exact fun h => h rfl r tls hcall
              · intro h _ r' tls' he
                cases hcall.symm.trans he
                exact h
            rw [hfrom]
            apply and_congr_right
            intro hn
            have hstopped : t.suspends - 1 = 0 := by omega
            have hih := ih hc' hself rfl hrest
            rwa [HostThread.resumed, hstopped] at hih
        | interrupt =>
            rw [hcall] at hself hanswer
            have hzero := hanswer.symm.trans (hfirst rfl (Or.inr hcall))
            rw [and_iff_right (not_started hcall.symm (by simp))]
            simp only [knownStep, knownInterrupt, ht] at hself hzero
            split_ifs at hself hzero ⊢
            · have hih := ih hc' hself rfl hrest
              exact hih
            · simp at hzero
            · have hih := ih hc' hself rfl hrest
              exact hih
        | setContext r =>
            rw [hcall] at hself
            rw [and_iff_right (not_started hcall.symm (by simp))]
            simp only [knownStep, knownSetContext, ht] at hself
            split_ifs at hself
            · have hih := ih hc' hself rfl hrest
              exact hih
            · exact ih hc' hself ht hrest
        | tpSet base =>
            rw [hcall] at hself
            rw [and_iff_right (not_started hcall.symm (by simp))]
            simp only [knownStep, knownTpSet, ht] at hself
            split_ifs at hself
            · have hih := ih hc' hself rfl hrest
              exact hih
            · have hih := ih hc' hself rfl hrest
              exact hih
        | gateEnter =>
            rw [hcall] at hself
            rw [and_iff_right (not_started hcall.symm (by simp))]
            exact ih hc' hself ht hrest
        | gateExit =>
            rw [hcall] at hself
            rw [and_iff_right (not_started hcall.symm (by simp))]
            exact ih hc' hself ht hrest
        | ran c =>
            rw [hcall] at hself
            rw [and_iff_right (not_started hcall.symm (by simp))]
            simp only [knownStep, knownRan, ht, Option.map_some] at hself
            have hih := ih hc' hself rfl hrest
            rw [hih]
            dsimp only
            split_ifs <;> rfl
      · rw [if_neg htid]
        have hother : (e.next boot threadReturn s).view tid = some k := by
          rw [hview, Function.update_of_ne (Ne.symm htid), hk]
        rw [← ih hc' hother ht hrest]
        exact and_iff_right fun h => absurd h htid

theorem run_consistent (es : List ThreadEvent) (hc : s.Consistent) :
    (es.foldl (fun s e => e.next boot threadReturn s) s).Consistent := by
  induction es generalizing s with
  | nil => exact hc
  | cons e es ih => exact ih (next_consistent hc)

/-- Over every run of calls on any threads, a started thread that runs at first is resumed by each
start exactly where the calls are paced. -/
theorem start_resumes_iff_paced (m : Memory) (first es : List ThreadEvent) {k : Known} {t : HostThread}
    (hk : (first.foldl (fun s e => e.next boot threadReturn s) (Threads.initial m)).view tid = some k)
    (ht : k.thread = some t) (hruns : t.suspends = 0)
    (hok : Along (fun s e => e.next boot threadReturn s) (Succeeds boot threadReturn tid)
      (first.foldl (fun s e => e.next boot threadReturn s) (Threads.initial m)) es) :
    Along (fun s e => e.next boot threadReturn s) (Resumes boot threadReturn tid)
        (first.foldl (fun s e => e.next boot threadReturn s) (Threads.initial m)) es ↔
      Paced tid k.interruptible 0 es := by
  rw [← hruns]
  exact resumes_iff_paced es (run_consistent first (Threads.consistent_initial m)) hk ht hok

end Runs

def bootContext : Context := ⟨fun _ => 0, 0, 0x202⟩

def entryRegs : SubRegs := ⟨fun _ => 0x10000, 0x401000, 0⟩

def onOne (c : ThreadCall) : ThreadEvent := ⟨1, c, .willing⟩

def startOne (s : Threads) (e : ThreadEvent) : Threads := e.next bootContext 0x500000 s

def oneStarted : Threads := startOne (Threads.initial fun _ => 0) (onOne (.start entryRegs 0x7000))

theorem oneStarted_view :
    oneStarted.view 1 = some ⟨0x7000, true, false, some ⟨Threads.startContext entryRegs bootContext, 0, 0x7000⟩⟩ := by
  have hc := Threads.consistent_initial fun _ => 0
  rw [oneStarted, startOne, next_view hc]
  rfl

/-- Two interrupts of a thread in user code, and the start after them leaves it stopped. -/
theorem start_after_two_interrupts_leaves_stopped :
    Along startOne (Succeeds bootContext 0x500000 1) oneStarted
        [onOne .interrupt, onOne .interrupt, onOne (.start entryRegs 0)] ∧
      ¬ Along startOne (Resumes bootContext 0x500000 1) oneStarted
        [onOne .interrupt, onOne .interrupt, onOne (.start entryRegs 0)] := by
  have hok : Along startOne (Succeeds bootContext 0x500000 1) oneStarted
      [onOne .interrupt, onOne .interrupt, onOne (.start entryRegs 0)] :=
    ⟨fun _ _ => by decide +kernel, fun _ _ => by decide +kernel, fun _ _ => by decide +kernel, trivial⟩
  refine ⟨hok, fun h => ?_⟩
  have hc : oneStarted.Consistent := next_consistent (Threads.consistent_initial fun _ => 0)
  have hpaced := (resumes_iff_paced _ hc oneStarted_view rfl hok).mp h
  simp [Paced, onOne] at hpaced

theorem start_after_one_interrupt_resumes :
    Along startOne (Resumes bootContext 0x500000 1) oneStarted
      [onOne .interrupt, onOne (.start entryRegs 0), onOne .interrupt, onOne (.start entryRegs 0)] := by
  have hok : Along startOne (Succeeds bootContext 0x500000 1) oneStarted
      [onOne .interrupt, onOne (.start entryRegs 0), onOne .interrupt, onOne (.start entryRegs 0)] :=
    ⟨fun _ _ => by decide +kernel, fun _ _ => by decide +kernel, fun _ _ => by decide +kernel,
      fun _ _ => by decide +kernel, trivial⟩
  apply (start_resumes_iff_paced (fun _ => 0) [onOne (.start entryRegs 0x7000)] _ oneStarted_view rfl rfl hok).mpr
  simp [Paced, onOne]

/-- The host creates the threads asked for and serves the calls made of a thread that it has. -/
def HostAnswers.Obliges (ans : HostAnswers) : Prop :=
  ans.create = true ∧ ans.getContext = true ∧ ans.setContext = true ∧ ans.query = true

/-- The pointer that a started thread is to read: the one set last since its start, or the one that
the start planted. -/
def nextPointer : ThreadCall → Option Word → Option Word
  | .start _ tls, none => some tls
  | .tpSet base, some _ => some base
  | _, o => o

def latestPointer (tid : ℤ) (o : Option Word) (e : ThreadEvent) : Option Word :=
  if e.tid = tid then nextPointer e.call o else o

/-- What the table holds of an id agrees with the pointer that its calls have set. -/
def Pointed (o : Option Word) : Option Known → Prop
  | none => o = none
  | some k => ∀ t, k.thread = some t → o = some t.carrier

section Pointers

variable {boot : Context} {threadReturn : Word} {s : Threads} {tid : ℤ} {e : ThreadEvent}

theorem pointed_step {ans : HostAnswers} {room : Bool} (c : ThreadCall) {o : Option Word}
    {v : Option Known} (hans : ans.Obliges) (hroom : v = none → room = true) (h : Pointed o v) :
    Pointed (nextPointer c o) (knownStep boot ans room c v).2 := by
  obtain ⟨hcreate, hget, hset, hquery⟩ := hans
  cases v with
  | none =>
      have hr := hroom rfl
      have ho : o = none := h
      subst ho
      cases c with
      | start r tls =>
          simp only [knownStep, knownStart, hr, hcreate, hget, hset, hquery]
          intro t ht
          cases ht
          rfl
      | tpSet base =>
          simp only [knownStep, knownTpSet, hr]
          intro t ht
          cases ht
      | interrupt => rfl
      | setContext r => rfl
      | gateEnter => rfl
      | gateExit => rfl
      | ran c => rfl
  | some k =>
      cases hk : k.thread with
      | none =>
          have hnone : ∀ o', Pointed o' (knownStep boot ans room c (some k)).2 := by
            intro o'
            cases c <;> simp only [knownStep, knownStart, knownInterrupt, knownSetContext, knownTpSet,
              knownGateEnter, knownGateExit, knownRan, hk] <;>
              (try split_ifs) <;> intro t ht <;> simp [hk] at ht
          exact hnone _
      | some t =>
          have ho := h t hk
          subst ho
          cases c with
          | start r tls =>
              simp only [knownStep, knownStart, hk, hget, hset]
              intro t' ht'
              cases ht'
              rfl
          | tpSet base =>
              simp only [knownStep, knownTpSet, hk, hquery]
              intro t' ht'
              cases ht'
              rfl
          | interrupt =>
              simp only [knownStep, knownInterrupt, hk]
              split_ifs <;> intro t' ht' <;> simp [hk] at ht' <;> subst ht' <;> rfl
          | setContext r =>
              simp only [knownStep, knownSetContext, hk, hget, hset]
              intro t' ht'
              cases ht'
              rfl
          | gateEnter => exact h
          | gateExit => exact h
          | ran c =>
              simp only [knownStep, knownRan, hk]
              intro t' ht'
              cases ht'
              simp only [nextPointer]
              split_ifs <;> rfl

theorem pointed_run (es : List ThreadEvent) {o : Option Word} (hc : s.Consistent)
    (hans : ∀ e ∈ es, e.host.Obliges)
    (hroom : Along (fun s e => e.next boot threadReturn s) (fun s e => s.view e.tid = none → s.room = true)
      s es) (h : Pointed o (s.view tid)) :
    Pointed (es.foldl (latestPointer tid) o)
      ((es.foldl (fun s e => e.next boot threadReturn s) s).view tid) := by
  induction es generalizing s o with
  | nil => exact h
  | cons e es ih =>
      apply ih (next_consistent hc) (fun e' he' => hans e' (List.mem_cons_of_mem _ he')) hroom.2
      rw [next_view hc, latestPointer]
      by_cases htid : e.tid = tid
      · subst htid
        rw [if_pos rfl, Function.update_self]
        exact pointed_step e.call (hans e List.mem_cons_self) hroom.1 h
      · rw [if_neg htid, Function.update_of_ne (Ne.symm htid)]
        exact h

/-- An id that was not started has no thread, and is in the table once `tp_set` has named it. -/
structure Unstarted (named : Prop) (v : Option Known) : Prop where
  absent_iff : v = none ↔ ¬ named
  threadless : ∀ k, v = some k → k.thread = none

theorem unstarted_step {ans : HostAnswers} {room : Bool} {c : ThreadCall} {named : Prop} {v : Option Known}
    (hstart : ∀ r tls, c ≠ .start r tls) (hroom : v = none → room = true) (h : Unstarted named v) :
    Unstarted (named ∨ ∃ base, c = .tpSet base) (knownStep boot ans room c v).2 := by
  obtain ⟨habsent, hthread⟩ := h
  cases v with
  | none =>
      have hnamed := habsent.mp rfl
      have hr := hroom rfl
      cases c <;> simp [knownStep, knownInterrupt, knownSetContext, knownTpSet, knownGateEnter,
          knownGateExit, knownRan] at hstart ⊢ <;>
        constructor <;> simp [hnamed, hr]
  | some k =>
      have hnamed : named := by
        by_contra hn
        cases habsent.mpr hn
      have ht := hthread k rfl
      have hstill : ∃ k', (knownStep boot ans room c (some k)).2 = some k' ∧ k'.thread = none := by
        cases c <;> simp [knownStep, knownInterrupt, knownSetContext, knownTpSet, knownGateEnter,
            knownGateExit, knownRan, ht] at hstart ⊢
        split_ifs <;> simp [ht]
      obtain ⟨k', hk', ht'⟩ := hstill
      rw [hk']
      constructor
      · simp [hnamed]
      · intro k'' hk''
        exact Option.some.inj hk'' ▸ ht'

theorem unstarted_run (es : List ThreadEvent) {named : Prop} (hc : s.Consistent)
    (hroom : Along (fun s e => e.next boot threadReturn s) (fun s e => s.view e.tid = none → s.room = true)
      s es) (hstart : ∀ e ∈ es, e.tid = tid → ∀ r tls, e.call ≠ .start r tls)
    (h : Unstarted named (s.view tid)) :
    Unstarted (named ∨ ∃ e ∈ es, e.tid = tid ∧ ∃ base, e.call = .tpSet base)
      ((es.foldl (fun s e => e.next boot threadReturn s) s).view tid) := by
  induction es generalizing s named with
  | nil => simpa using h
  | cons e es ih =>
      have hnext : Unstarted (named ∨ (e.tid = tid ∧ ∃ base, e.call = .tpSet base))
          ((e.next boot threadReturn s).view tid) := by
        rw [next_view hc]
        by_cases htid : e.tid = tid
        · subst htid
          rw [Function.update_self]
          simpa using unstarted_step (hstart e List.mem_cons_self rfl) hroom.1 h
        · rw [Function.update_of_ne (Ne.symm htid)]
          simpa [htid] using h
      have hrest := ih (next_consistent hc) hroom.2
        (fun e' he' => hstart e' (List.mem_cons_of_mem _ he')) hnext
      simpa [or_assoc] using hrest

def FirstStart (es pre : List ThreadEvent) (e : ThreadEvent) (r : SubRegs) (tls : Word) : Prop :=
  pre ++ [e] <+: es ∧ e.call = .start r tls ∧
    ∀ e' ∈ pre, e'.tid = e.tid → ∀ r' tls', e'.call ≠ .start r' tls'

def Creates (boot : Context) (threadReturn : Word) (s : Threads) (e : ThreadEvent) (r : SubRegs)
    (tls : Word) : Prop :=
  (s.step boot threadReturn e).1 = 0 ∧ (∀ k, s.view e.tid = some k → k.thread = none) ∧
    ∃ k, (e.next boot threadReturn s).view e.tid = some k ∧
      k.thread = some ⟨Threads.startContext r boot, 0, tls⟩

theorem creates_iff {r : SubRegs} {tls : Word} {named : Prop} (hc : s.Consistent)
    (hans : e.host.Obliges) (hroom : s.view e.tid = none → s.room = true) (hcall : e.call = .start r tls)
    (h : Unstarted named (s.view e.tid)) : Creates boot threadReturn s e r tls ↔ ¬ named := by
  obtain ⟨hcreate, hget, hset, hquery⟩ := hans
  have hanswer : (s.step boot threadReturn e).1 = _ := next_answer hc
  have hview : (e.next boot threadReturn s).view e.tid = _ := congrFun (next_view hc) e.tid
  rw [hcall] at hanswer hview
  rw [Function.update_self] at hview
  rw [← h.absent_iff]
  constructor
  · rintro ⟨hzero, -, -⟩
    rw [hanswer] at hzero
    cases hv : s.view e.tid with
    | none => rfl
    | some k =>
        rw [hv] at hzero
        simp [knownStep, knownStart, h.threadless k hv] at hzero
  · intro hv
    rw [hv] at hanswer hview
    simp only [knownStep, knownStart, hroom hv, hcreate, hget, hset, hquery] at hanswer hview
    refine ⟨hanswer, ?_, _, hview, rfl⟩
    intro k hk
    cases hv.symm.trans hk

/-- While the table has room and the host obliges, every started thread reads its latest pointer, and
the first starts create their threads exactly where none of their ids was given a pointer before. -/
theorem first_starts_create_iff (m : Memory) (es : List ThreadEvent)
    (hans : ∀ e ∈ es, e.host.Obliges)
    (hroom : Along (fun s e => e.next boot threadReturn s) (fun s e => s.view e.tid = none → s.room = true)
      (Threads.initial m) es) :
    ((∀ pre e r tls, FirstStart es pre e r tls →
        Creates boot threadReturn (pre.foldl (fun s e => e.next boot threadReturn s) (Threads.initial m)) e
          r tls) ∧
      ∀ pre, pre <+: es → ∀ tid k t,
        (pre.foldl (fun s e => e.next boot threadReturn s) (Threads.initial m)).view tid = some k →
          k.thread = some t → pre.foldl (latestPointer tid) none = some t.carrier) ↔
      ∀ pre e r tls, FirstStart es pre e r tls →
        ¬ ∃ e' ∈ pre, e'.tid = e.tid ∧ ∃ base, e'.call = .tpSet base := by
  have hc := Threads.consistent_initial m
  have hnone : ∀ tid, (Threads.initial m).view tid = none := fun tid => Threads.view_eq_none fun _ _ h => by
    cases h
  have hpre : ∀ {pre : List ThreadEvent}, pre <+: es →
      (∀ e ∈ pre, e.host.Obliges) ∧ Along (fun s e => e.next boot threadReturn s)
        (fun s e => s.view e.tid = none → s.room = true) (Threads.initial m) pre := by
    rintro pre ⟨post, rfl⟩
    exact ⟨fun e he => hans e (List.mem_append_left _ he), (along_append.mp hroom).1⟩
  have hpointed : ∀ pre, pre <+: es → ∀ tid k t,
      (pre.foldl (fun s e => e.next boot threadReturn s) (Threads.initial m)).view tid = some k →
        k.thread = some t → pre.foldl (latestPointer tid) none = some t.carrier := by
    intro pre hle tid k t hk ht
    have hstart : Pointed none ((Threads.initial m).view tid) := by
      rw [hnone]
      rfl
    have hrun := pointed_run pre hc (hpre hle).1 (hpre hle).2 hstart
    rw [hk] at hrun
    exact hrun t ht
  have hfirst : ∀ pre e r tls, FirstStart es pre e r tls →
      (Creates boot threadReturn (pre.foldl (fun s e => e.next boot threadReturn s) (Threads.initial m)) e
        r tls ↔ ¬ ∃ e' ∈ pre, e'.tid = e.tid ∧ ∃ base, e'.call = .tpSet base) := by
    rintro pre e r tls ⟨hle, hcall, hstart⟩
    obtain ⟨hans', hroom'⟩ := hpre hle
    obtain ⟨hroom₁, hroom₂⟩ := along_append.mp hroom'
    have hfresh : Unstarted False ((Threads.initial m).view e.tid) := by
      rw [hnone]
      exact ⟨by simp, fun _ h => by cases h⟩
    have hun := unstarted_run pre hc hroom₁ hstart hfresh
    rw [false_or] at hun
    exact creates_iff (run_consistent pre hc) (hans' e (by simp)) hroom₂.1 hcall hun
  constructor
  · intro h pre e r tls hstart
    exact (hfirst pre e r tls hstart).mp (h.1 pre e r tls hstart)
  · intro h
    exact ⟨fun pre e r tls hstart => (hfirst pre e r tls hstart).mpr (h pre e r tls hstart), hpointed⟩

end Pointers

/-- The pointer of thread 1 set before its first start: the start fails, and no thread is made. -/
theorem start_after_tpSet_fails :
    FirstStart [onOne (.tpSet 0x7000), onOne (.start entryRegs 0x7000)] [onOne (.tpSet 0x7000)]
        (onOne (.start entryRegs 0x7000)) entryRegs 0x7000 ∧
      ¬ Creates bootContext 0x500000 (startOne (Threads.initial fun _ => 0) (onOne (.tpSet 0x7000)))
        (onOne (.start entryRegs 0x7000)) entryRegs 0x7000 := by
  refine ⟨⟨List.prefix_refl _, rfl, by simp [onOne]⟩, ?_⟩
  rintro ⟨hzero, -⟩
  revert hzero
  decide +kernel

theorem start_then_tpSet_creates :
    Creates bootContext 0x500000 (Threads.initial fun _ => 0) (onOne (.start entryRegs 0x7000)) entryRegs
      0x7000 := by
  have hans : ∀ e ∈ [onOne (.start entryRegs 0x7000), onOne (.tpSet 0x8000)], e.host.Obliges := by
    intro e he
    simp only [List.mem_cons, List.not_mem_nil, or_false] at he
    rcases he with rfl | rfl <;> exact ⟨rfl, rfl, rfl, rfl⟩
  have hroom : Along startOne (fun s e => s.view e.tid = none → s.room = true)
      (Threads.initial fun _ => 0) [onOne (.start entryRegs 0x7000), onOne (.tpSet 0x8000)] :=
    ⟨fun _ => by decide +kernel, fun _ => by decide +kernel, trivial⟩
  apply ((first_starts_create_iff (fun _ => 0) _ hans hroom).mpr ?_).1 [] _ entryRegs 0x7000
  · exact ⟨⟨_, rfl⟩, rfl, by simp⟩
  · rintro pre e r tls ⟨⟨post, hpost⟩, hcall, hstart⟩ ⟨e', he', htid, base, hbase⟩
    cases pre with
    | nil => cases he'
    | cons a pre =>
        cases pre with
        | nil =>
            cases hpost
            cases hcall
        | cons b pre => simp at hpost

end SysvNt
