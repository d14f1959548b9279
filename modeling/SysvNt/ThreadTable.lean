import Mathlib.Data.Fin.Tuple.Basic
import Mathlib.Data.Int.Notation
import SysvNt.ActionRuns
import SysvNt.Gate

/-!
# The threads of substrate N

The table names a thread by the id that the core gave it and holds the host's handle. An entry
without a handle is one that `tp_set` made. The host counts how often a thread was suspended and
runs it while the count is zero; the word that a thread reads its pointer from lies in its own
block and is written from outside. Seen from one id, each call is a step of that id's own thread
and leaves every other alone.
-/

namespace SysvNt

open ByteMemory ActionRuns

structure Context where
  gpr : Gpr → Word
  rip : Word
  eflags : BitVec 32

structure SubRegs where
  gpr : Gpr → Word
  rip : Word
  eflags : Word

def regsToCtx (r : SubRegs) (c : Context) : Context where
  gpr := r.gpr
  rip := r.rip
  eflags := if r.eflags ≠ 0 then r.eflags.setWidth 32 else c.eflags

/-- A thread of the host, with the word at `%gs:0x1678`. -/
structure HostThread where
  context : Context
  suspends : ℕ
  carrier : Word

def HostThread.resumed (t : HostThread) : HostThread := { t with suspends := t.suspends - 1 }

/-- How the host answers the calls made of it, where they are made of a thread. -/
structure HostAnswers where
  create : Bool
  getContext : Bool
  setContext : Bool
  suspend : Bool
  query : Bool

def HostAnswers.willing : HostAnswers := ⟨true, true, true, true, true⟩

structure ThreadEntry where
  tid : ℤ
  handle : ℕ
  tp : Word
  interruptible : Bool
  pending : Bool

def N_MAX_THREADS : ℕ := 64

/-- The table, the threads that the host has made, by handle from one on, and the memory they
share. -/
structure Threads where
  slots : Fin N_MAX_THREADS → Option ThreadEntry
  host : List HostThread
  memory : Memory

namespace Threads

def initial (memory : Memory) : Threads := ⟨fun _ => none, [], memory⟩

def threadFind (s : Threads) (tid : ℤ) : Option (Fin N_MAX_THREADS) :=
  Fin.find? fun i => (s.slots i).any (·.tid = tid)

def threadAlloc (s : Threads) : Option (Fin N_MAX_THREADS) := Fin.find? fun i => (s.slots i).isNone

def setSlot (s : Threads) (i : Fin N_MAX_THREADS) (e : Option ThreadEntry) : Threads :=
  { s with slots := Function.update s.slots i e }

def withHost (s : Threads) (t : HostThread) : Threads := { s with host := s.host ++ [t] }

def withMemory (s : Threads) (m : Memory) : Threads := { s with memory := m }

def thread (s : Threads) (h : ℕ) : Option HostThread := if h = 0 then none else s.host[h - 1]?

def withThread (s : Threads) (h : ℕ) (f : HostThread → HostThread) : Threads :=
  if h = 0 then s else { s with host := s.host.modify (h - 1) f }

section Calls

variable (ans : HostAnswers)

def getThreadContext (s : Threads) (h : ℕ) : Option Context :=
  (s.thread h).bind fun t => if ans.getContext then some t.context else none

def setThreadContext (s : Threads) (h : ℕ) (c : Context) : Option Threads :=
  (s.thread h).bind fun _ =>
    if ans.setContext then some (s.withThread h fun t => { t with context := c }) else none

def suspendThread (s : Threads) (h : ℕ) : Option Threads :=
  (s.thread h).bind fun _ =>
    if ans.suspend then some (s.withThread h fun t => { t with suspends := t.suspends + 1 }) else none

def resumeThread (s : Threads) (h : ℕ) : Threads := s.withThread h HostThread.resumed

def carrierWrite (s : Threads) (h : ℕ) (value : Word) : ℤ × Threads :=
  match s.thread h with
  | none => (-1, s)
  | some _ => if ans.query then (0, s.withThread h fun t => { t with carrier := value }) else (-1, s)

/-- The entry's context read, rewritten and set, as a resume and `set_context` do. -/
def putContext (s : Threads) (h : ℕ) (r : SubRegs) : Option Threads :=
  (s.getThreadContext ans h).bind fun wc => s.setThreadContext ans h (regsToCtx r wc)

variable (boot : Context) (threadReturn : Word)

def startSp (rsp : Word) : Word := (rsp &&& ~~~15) - 8

def startContext (r : SubRegs) (wc : Context) : Context :=
  let c := regsToCtx r wc
  { c with gpr := Function.update c.gpr .rsp (startSp (r.gpr .rsp)) }

def created (s : Threads) (i : Fin N_MAX_THREADS) (tid : ℤ) (tls : Word) : Threads :=
  (s.withHost ⟨boot, 1, 0⟩).setSlot i (some ⟨tid, s.host.length + 1, tls, true, false⟩)

/-- The context set, the pointer planted and the thread let go, with the return address laid. -/
def launched (s : Threads) (h : ℕ) (r : SubRegs) (wc : Context) (tls : Word) : Option Threads :=
  ((s.withMemory (store s.memory (startSp (r.gpr .rsp)) threadReturn)).setThreadContext ans h
    (startContext r wc)).map fun s₁ => (s₁.carrierWrite ans h tls).2.resumeThread h

/-- `n_thread_start` from `thread_alloc` on, the slot found. -/
def startNew (s : Threads) (i : Fin N_MAX_THREADS) (tid : ℤ) (r : SubRegs) (tls : Word) : ℤ × Threads :=
  if ans.create then
    let h := s.host.length + 1
    let s₁ := s.created boot i tid tls
    match s₁.getThreadContext ans h with
    | none => (-1, s₁.setSlot i none)
    | some wc => match s₁.launched ans threadReturn h r wc tls with
      | none =>
        (-1, (s₁.withMemory (store s₁.memory (startSp (r.gpr .rsp)) threadReturn)).setSlot i none)
      | some s₂ => (0, s₂)
  else (-1, s.setSlot i none)

def threadStart (s : Threads) (tid : ℤ) (r : SubRegs) (tls : Word) : ℤ × Threads :=
  match (s.threadFind tid).bind s.slots with
  | some e =>
    match s.putContext ans e.handle r with
    | none => (-1, s)
    | some s₁ => (0, s₁.resumeThread e.handle)
  | none =>
    match s.threadAlloc with
    | none => (-1, s)
    | some i => s.startNew ans boot threadReturn i tid r tls

def threadInterrupt (s : Threads) (tid : ℤ) : ℤ × Threads :=
  match s.threadFind tid with
  | none => (-1, s)
  | some i => match s.slots i with
    | none => (-1, s)
    | some e =>
      if e.interruptible then
        match s.suspendThread ans e.handle with
        | none => (-1, s)
        | some s₁ => (0, s₁)
      else (0, s.setSlot i (some { e with pending := true }))

def setContext (s : Threads) (tid : ℤ) (r : SubRegs) : ℤ × Threads :=
  match (s.threadFind tid).bind s.slots with
  | none => (-1, s)
  | some e => match s.putContext ans e.handle r with
    | none => (-1, s)
    | some s₁ => (0, s₁)

def tpSetAt (s : Threads) (i : Fin N_MAX_THREADS) (e : ThreadEntry) (base : Word) : ℤ × Threads :=
  let s₁ := s.setSlot i (some { e with tp := base })
  if e.handle ≠ 0 then s₁.carrierWrite ans e.handle base else (0, s₁)

def tpSet (s : Threads) (tid : ℤ) (base : Word) : ℤ × Threads :=
  match s.threadFind tid with
  | some i => match s.slots i with
    | some e => s.tpSetAt ans i e base
    | none => (-1, s)
  | none => match s.threadAlloc with
    | none => (-1, s)
    | some i => s.tpSetAt ans i ⟨tid, 0, 0, true, false⟩ base

def gateEnter (s : Threads) (tid : ℤ) : ℤ × Threads :=
  match s.threadFind tid with
  | none => (-1, s)
  | some i => (0, s.setSlot i ((s.slots i).map fun e => { e with interruptible := false }))

def gateExit (s : Threads) (tid : ℤ) : ℤ × Threads :=
  match s.threadFind tid with
  | none => (-1, s)
  | some i =>
    (if (s.slots i).any (·.pending) then 1 else 0,
      s.setSlot i ((s.slots i).map fun e => { e with interruptible := true, pending := false }))

/-- The thread's own execution takes it to a context, while it runs. -/
def ran (s : Threads) (tid : ℤ) (c : Context) : ℤ × Threads :=
  match (s.threadFind tid).bind s.slots with
  | none => (-1, s)
  | some e => (0, s.withThread e.handle fun t => if t.suspends = 0 then { t with context := c } else t)

end Calls

end Threads

inductive ThreadCall where
  | start (r : SubRegs) (tls : Word)
  | interrupt
  | setContext (r : SubRegs)
  | tpSet (base : Word)
  | gateEnter
  | gateExit
  | ran (c : Context)

structure ThreadEvent where
  tid : ℤ
  call : ThreadCall
  host : HostAnswers

def Threads.step (boot : Context) (threadReturn : Word) (s : Threads) (e : ThreadEvent) : ℤ × Threads :=
  match e.call with
  | .start r tls => s.threadStart e.host boot threadReturn e.tid r tls
  | .interrupt => s.threadInterrupt e.host e.tid
  | .setContext r => s.setContext e.host e.tid r
  | .tpSet base => s.tpSet e.host e.tid base
  | .gateEnter => s.gateEnter e.tid
  | .gateExit => s.gateExit e.tid
  | .ran c => s.ran e.tid c

/-- What an id stands for: the flags of its entry and, once started, its thread. -/
structure Known where
  tp : Word
  interruptible : Bool
  pending : Bool
  thread : Option HostThread

namespace Threads

def known (s : Threads) (e : ThreadEntry) : Known := ⟨e.tp, e.interruptible, e.pending, s.thread e.handle⟩

def view (s : Threads) (tid : ℤ) : Option Known := ((s.threadFind tid).bind s.slots).map s.known

/-- One entry an id, one entry a thread, and every handle in the table is of a thread. -/
structure Consistent (s : Threads) : Prop where
  distinct : ∀ i j e e', s.slots i = some e → s.slots j = some e' → e.tid = e'.tid → i = j
  live : ∀ i e, s.slots i = some e → e.handle ≤ s.host.length
  apart : ∀ i j e e', s.slots i = some e → s.slots j = some e' → e.handle = e'.handle →
    e.handle ≠ 0 → i = j

theorem consistent_initial (memory : Memory) : (initial memory).Consistent where
  distinct _ _ _ _ h := by cases h
  live _ _ h := by cases h
  apart _ _ _ _ h := by cases h

variable {s : Threads} {tid : ℤ} {i : Fin N_MAX_THREADS} {e e' : ThreadEntry}

theorem entry_of_find (h : s.threadFind tid = some i) : ∃ e, s.slots i = some e ∧ e.tid = tid := by
  have hi := Fin.eq_true_of_find?_eq_some h
  cases he : s.slots i with
  | none => simp [he] at hi
  | some e =>
      rw [he] at hi
      exact ⟨e, rfl, by simpa using hi⟩

theorem find_eq_none : s.threadFind tid = none ↔ ∀ i e, s.slots i = some e → e.tid ≠ tid := by
  rw [threadFind, Fin.find?_eq_none_iff]
  constructor
  · intro h i e he
    simpa [he] using h i
  · intro h i
    cases he : s.slots i with
    | none => rfl
    | some e => simpa using h i e he

theorem Consistent.find (hc : s.Consistent) (he : s.slots i = some e) : s.threadFind e.tid = some i := by
  cases hf : s.threadFind e.tid with
  | none => exact absurd rfl (find_eq_none.mp hf i e he)
  | some j =>
      obtain ⟨e', he', htid⟩ := entry_of_find hf
      rw [hc.distinct j i e' e he' he htid]

theorem Consistent.view_eq (hc : s.Consistent) (he : s.slots i = some e) :
    s.view e.tid = some (s.known e) := by
  rw [view, hc.find he, Option.bind_some, he, Option.map_some]

theorem view_eq_none (h : ∀ i e, s.slots i = some e → e.tid ≠ tid) : s.view tid = none := by
  rw [view, find_eq_none.mpr h, Option.bind_none, Option.map_none]

theorem slot_of_alloc (h : s.threadAlloc = some i) : s.slots i = none := by
  have hi := Fin.eq_true_of_find?_eq_some h
  simpa using hi

/-- A table is seen through its entries and the threads that they have handles of. -/
theorem view_congr {t : Threads} (hslots : t.slots = s.slots)
    (hthread : ∀ i e, s.slots i = some e → t.thread e.handle = s.thread e.handle) : t.view = s.view := by
  funext tid
  have hfind : t.threadFind tid = s.threadFind tid := by rw [threadFind, threadFind, hslots]
  rw [view, view, hfind, hslots]
  cases hf : s.threadFind tid with
  | none => rfl
  | some i =>
      obtain ⟨e, he, -⟩ := entry_of_find hf
      rw [Option.bind_some, he, Option.map_some, Option.map_some, known, known, hthread i e he]

@[simp] theorem setSlot_self (s : Threads) (i : Fin N_MAX_THREADS) (e : Option ThreadEntry) :
    (s.setSlot i e).slots i = e := Function.update_self ..

theorem setSlot_of_ne (s : Threads) {i j : Fin N_MAX_THREADS} (e : Option ThreadEntry) (h : j ≠ i) :
    (s.setSlot i e).slots j = s.slots j := Function.update_of_ne h ..

@[simp] theorem setSlot_thread (s : Threads) (i : Fin N_MAX_THREADS) (e : Option ThreadEntry) (h : ℕ) :
    (s.setSlot i e).thread h = s.thread h := rfl

@[simp] theorem withThread_slots (s : Threads) (h : ℕ) (f : HostThread → HostThread) :
    (s.withThread h f).slots = s.slots := by
  unfold withThread
  split_ifs <;> rfl

theorem thread_withThread (s : Threads) (h h' : ℕ) (f : HostThread → HostThread) :
    (s.withThread h f).thread h' = if h' = h then (s.thread h).map f else s.thread h' := by
  unfold withThread thread
  by_cases hh : h = 0
  · subst hh
    rw [if_pos rfl]
    split_ifs <;> simp_all
  · by_cases hh' : h' = 0
    · simp [hh', Ne.symm hh]
    · simp only [if_neg hh, if_neg hh', List.getElem?_modify]
      by_cases heq : h' = h
      · simp [heq]
      · have hne : h - 1 ≠ h' - 1 := by omega
        simp [heq, hne]

theorem length_withThread (s : Threads) (h : ℕ) (f : HostThread → HostThread) :
    (s.withThread h f).host.length = s.host.length := by
  unfold withThread
  split_ifs
  · rfl
  · exact List.length_modify ..

/-- An entry's thread is stepped: the id sees it, the others see nothing. -/
theorem Consistent.withThread (hc : s.Consistent) (he : s.slots i = some e)
    (f : HostThread → HostThread) :
    (s.withThread e.handle f).Consistent ∧
      (s.withThread e.handle f).view =
        Function.update s.view e.tid (some { s.known e with thread := (s.thread e.handle).map f }) := by
  have hc' : (s.withThread e.handle f).Consistent := by
    constructor
    · simpa using hc.distinct
    · simpa [length_withThread] using hc.live
    · simpa using hc.apart
  refine ⟨hc', funext fun tid => ?_⟩
  by_cases htid : tid = e.tid
  · subst htid
    rw [hc'.view_eq (by simpa using he), Function.update_self, known, thread_withThread, if_pos rfl, known]
  · rw [Function.update_of_ne htid]
    have hfind : (s.withThread e.handle f).threadFind tid = s.threadFind tid := by
      rw [threadFind, threadFind, withThread_slots]
    rw [view, view, hfind, withThread_slots]
    cases hf : s.threadFind tid with
    | none => rfl
    | some j =>
        obtain ⟨e', he', rfl⟩ := entry_of_find hf
        rw [Option.bind_some, he', Option.map_some, Option.map_some, known, known, thread_withThread]
        by_cases hh : e'.handle = e.handle
        · by_cases hz : e'.handle = 0
          · simp [hz, hh ▸ hz, thread]
          · have hij := hc.apart j i e' e he' he hh hz
            subst hij
            rw [he] at he'
            cases he'
            exact absurd rfl htid
        · rw [if_neg hh]

/-- An entry is put in a slot that held the id's own entry, or into a free slot for a new id. -/
theorem Consistent.setSlot (hc : s.Consistent) (hlive : e.handle ≤ s.host.length)
    (htid : ∀ j e', s.slots j = some e' → e'.tid = e.tid → j = i)
    (hhandle : ∀ j e', s.slots j = some e' → e'.handle = e.handle → e.handle ≠ 0 → j = i)
    (hold : ∀ e', s.slots i = some e' → e'.tid = e.tid) :
    (s.setSlot i (some e)).Consistent ∧
      (s.setSlot i (some e)).view = Function.update s.view e.tid (some (s.known e)) := by
  have hslot : ∀ j e', (s.setSlot i (some e)).slots j = some e' →
      (j = i ∧ e' = e) ∨ (j ≠ i ∧ s.slots j = some e') := by
    intro j e' he'
    by_cases hj : j = i
    · subst hj
      rw [setSlot_self] at he'
      exact Or.inl ⟨rfl, (Option.some.inj he').symm⟩
    · rw [setSlot_of_ne _ _ hj] at he'
      exact Or.inr ⟨hj, he'⟩
  have hc' : (s.setSlot i (some e)).Consistent := by
    constructor
    · intro j k e₁ e₂ h₁ h₂ heq
      rcases hslot j e₁ h₁ with ⟨hj, he₁⟩ | ⟨hj, ho₁⟩ <;> rcases hslot k e₂ h₂ with ⟨hk, he₂⟩ | ⟨hk, ho₂⟩
      · rw [hj, hk]
      · exact absurd (htid k e₂ ho₂ (heq.symm.trans (congrArg _ he₁))) hk
      · exact absurd (htid j e₁ ho₁ (heq.trans (congrArg _ he₂))) hj
      · exact hc.distinct j k e₁ e₂ ho₁ ho₂ heq
    · intro j e₁ h₁
      rcases hslot j e₁ h₁ with ⟨-, he₁⟩ | ⟨-, ho₁⟩
      · exact he₁ ▸ hlive
      · exact hc.live j e₁ ho₁
    · intro j k e₁ e₂ h₁ h₂ heq hz
      rcases hslot j e₁ h₁ with ⟨hj, he₁⟩ | ⟨hj, ho₁⟩ <;> rcases hslot k e₂ h₂ with ⟨hk, he₂⟩ | ⟨hk, ho₂⟩
      · rw [hj, hk]
      · exact absurd (hhandle k e₂ ho₂ (heq.symm.trans (congrArg _ he₁)) (he₁ ▸ hz)) hk
      · exact absurd (hhandle j e₁ ho₁ (heq.trans (congrArg _ he₂)) (he₂ ▸ heq ▸ hz)) hj
      · exact hc.apart j k e₁ e₂ ho₁ ho₂ heq hz
  refine ⟨hc', funext fun tid => ?_⟩
  by_cases ht : tid = e.tid
  · subst ht
    rw [hc'.view_eq (setSlot_self ..), Function.update_self, known, known, setSlot_thread]
  · rw [Function.update_of_ne ht]
    cases hf : s.threadFind tid with
    | none =>
        rw [view_eq_none (find_eq_none.mp hf)]
        apply view_eq_none
        intro j e₁ h₁
        rcases hslot j e₁ h₁ with ⟨rfl, rfl⟩ | ⟨-, h₁⟩
        · exact Ne.symm ht
        · exact find_eq_none.mp hf j e₁ h₁
    | some j =>
        obtain ⟨e₁, h₁, rfl⟩ := entry_of_find hf
        have hj : j ≠ i := by
          rintro rfl
          exact ht (hold e₁ h₁)
        have h₁' : (s.setSlot i (some e)).slots j = some e₁ := by rw [setSlot_of_ne _ _ hj, h₁]
        rw [hc'.view_eq h₁', hc.view_eq h₁, known, known, setSlot_thread]

end Threads

end SysvNt
