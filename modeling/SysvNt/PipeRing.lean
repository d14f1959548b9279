import SysvNt.Abi
import SysvNt.ActionRuns
import SysvNt.RingQueue

/-!
# The pipe

A pipe is a ring of 65536 bytes shared by two descriptions, one for each end. A read takes
what is there, a write of at most `PIPE_BUF` bytes goes in whole or not at all, and the ring
is freed by the release that leaves neither end. `Fifo` is the bounded byte queue the pipe
is meant to be; every run of the ring is a run of the queue.
-/

namespace SysvNt

open RingQueue

def RING : ℕ := 65536

structure PipeRing where
  ring : Ring UInt8 RING
  readers : ℤ
  writers : ℤ
  ino : UInt64

/-- `pipe_read`: the bytes delivered, whose number is the value returned. -/
def pipeRead (p : PipeRing) (len : ℕ) : Except Errno Bytes × PipeRing :=
  if p.ring.count = 0 then
    if p.writers = 0 then (.ok [], p) else (.error .EAGAIN, p)
  else
    let r := p.ring.drain len
    (.ok r.1, { p with ring := r.2 })

def pipeWrite (p : PipeRing) (data : Bytes) : Except Errno ℕ × PipeRing :=
  if p.readers = 0 then (.error .EPIPE, p)
  else if data.length ≤ PIPE_BUF ∧ RING - p.ring.count < data.length then (.error .EAGAIN, p)
  else if RING - p.ring.count = 0 then (.error .EAGAIN, p)
  else
    let r := Ring.fill data p.ring
    (.ok r.1, { p with ring := r.2 })

/-- `pipe_release` by the flags of the description, and whether it frees the ring. -/
def pipeRelease (p : PipeRing) (flags : UInt32) : PipeRing × Bool :=
  let p' := if flags &&& O_ACCMODE = O_RDONLY then { p with readers := p.readers - 1 }
    else { p with writers := p.writers - 1 }
  (p', p'.readers = 0 ∧ p'.writers = 0)

inductive PipeEnd where
  | rd
  | wr
  deriving DecidableEq

/-- A ring with the descriptions that still refer to it, by their flags, and the number of
times it has been freed. -/
structure Pipe where
  p : PipeRing
  flags : PipeEnd → Option UInt32
  frees : ℕ

/-- A new pipe: `calloc`ed, with one description on each end. -/
def Pipe.new (ino : UInt64) (flags : UInt32) : Pipe where
  p := {
    ring := { buf := fun _ => 0, head := 0, tail := 0, count := 0 }
    readers := 1
    writers := 1
    ino := ino }
  flags
    | .rd => some (O_RDONLY ||| flags &&& O_NONBLOCK)
    | .wr => some (O_WRONLY ||| flags &&& O_NONBLOCK)
  frees := 0

def vfsPipe (haveRing haveRd haveWr : Bool) (ino : UInt64) (flags : UInt32) : Except Errno Pipe :=
  if !haveRing then .error .ENOMEM
  else if !haveRd || !haveWr then .error .ENOMEM
  else .ok (Pipe.new ino flags)

inductive PipeAct where
  | read (len : ℕ)
  | write (data : Bytes)
  | close (e : PipeEnd)
  | setfl (e : PipeEnd) (arg : UInt32)

inductive PipeAnswer where
  | got (r : Except Errno Bytes)
  | put (r : Except Errno ℕ)
  | done
  deriving DecidableEq

/-- One call on a pipe. A call needs the description of its end, so there is none on an end
that has been released. -/
def Pipe.step (s : Pipe) : PipeAct → Option (PipeAnswer × Pipe)
  | .read len => (s.flags .rd).map fun _ =>
    (.got (pipeRead s.p len).1, { s with p := (pipeRead s.p len).2 })
  | .write data => (s.flags .wr).map fun _ =>
    (.put (pipeWrite s.p data).1, { s with p := (pipeWrite s.p data).2 })
  | .close e => (s.flags e).map fun fl =>
    (.done, {
      p := (pipeRelease s.p fl).1
      flags := Function.update s.flags e none
      frees := s.frees + if (pipeRelease s.p fl).2 then 1 else 0 })
  | .setfl e arg => (s.flags e).map fun fl =>
    (.done, { s with flags := Function.update s.flags e (some (setfl fl arg)) })

structure Fifo where
  queue : Bytes
  isOpen : PipeEnd → Bool

def Fifo.read (q : Fifo) (len : ℕ) : Except Errno Bytes × Fifo :=
  if q.queue = [] then (if q.isOpen .wr then .error .EAGAIN else .ok [], q)
  else (.ok (q.queue.take len), { q with queue := q.queue.drop len })

/-- The bytes of a write that the queue takes. -/
def Fifo.accepts (q : Fifo) (data : Bytes) : Bytes :=
  if data.length ≤ PIPE_BUF ∧ RING - q.queue.length < data.length then []
  else data.take (RING - q.queue.length)

def Fifo.write (q : Fifo) (data : Bytes) : Except Errno ℕ × Fifo :=
  if q.isOpen .rd = false then (.error .EPIPE, q)
  else if data.length ≤ PIPE_BUF ∧ RING - q.queue.length < data.length ∨
      q.queue.length = RING then (.error .EAGAIN, q)
  else (.ok (q.accepts data).length, { q with queue := q.queue ++ q.accepts data })

def Fifo.step (q : Fifo) : PipeAct → Option (PipeAnswer × Fifo)
  | .read len => if q.isOpen .rd then some (.got (q.read len).1, (q.read len).2) else none
  | .write data => if q.isOpen .wr then some (.put (q.write data).1, (q.write data).2) else none
  | .close e =>
    if q.isOpen e then some (.done, { q with isOpen := Function.update q.isOpen e false }) else none
  | .setfl e _ => if q.isOpen e then some (.done, q) else none

def Pipe.toFifo (s : Pipe) : Fifo where
  queue := s.p.ring.contents
  isOpen e := (s.flags e).isSome

structure Pipe.Sound (s : Pipe) : Prop where
  coherent : s.p.ring.Coherent
  readers : s.p.readers = if (s.flags .rd).isSome then 1 else 0
  writers : s.p.writers = if (s.flags .wr).isSome then 1 else 0
  rdFlags : ∀ fl, s.flags .rd = some fl → fl &&& O_ACCMODE = O_RDONLY
  wrFlags : ∀ fl, s.flags .wr = some fl → fl &&& O_ACCMODE ≠ O_RDONLY
  frees : s.frees = if s.flags .rd = none ∧ s.flags .wr = none then 1 else 0

theorem vfsPipe_sound {a b c : Bool} {ino : UInt64} {flags : UInt32} {s : Pipe}
    (h : vfsPipe a b c ino flags = .ok s) :
    s.Sound ∧ s.toFifo = ⟨[], fun _ => true⟩ := by
  have hmode : ∀ b, (b ||| flags &&& O_NONBLOCK) &&& O_ACCMODE = b &&& O_ACCMODE :=
    fun b => or_masked_and (by decide) b flags
  unfold vfsPipe at h
  split_ifs at h
  cases h
  refine ⟨⟨⟨Nat.zero_lt_succ _, Nat.zero_le _, rfl⟩, rfl, rfl, ?_, ?_, rfl⟩, ?_⟩
  · intro fl hfl
    cases hfl
    rw [hmode]
    decide
  · intro fl hfl
    cases hfl
    rw [hmode]
    decide
  · simp only [Pipe.toFifo, Ring.contents, Fifo.mk.injEq]
    refine ⟨rfl, ?_⟩
    funext e
    cases e <;> rfl

theorem pipeRead_fifo {s : Pipe} (hs : s.Sound) (len : ℕ) :
    (pipeRead s.p len).1 = (s.toFifo.read len).1 ∧
      { s with p := (pipeRead s.p len).2 }.toFifo = (s.toFifo.read len).2 ∧
      { s with p := (pipeRead s.p len).2 }.Sound := by
  have hqueue : s.toFifo.queue = [] ↔ s.p.ring.count = 0 := Ring.contents_eq_nil_iff
  rw [pipeRead, Fifo.read]
  by_cases hc : s.p.ring.count = 0
  · rw [if_pos hc, if_pos (hqueue.mpr hc), hs.writers]
    cases hw : s.flags .wr with
    | none => simp [Pipe.toFifo, hw, hs]
    | some fl => simp [Pipe.toFifo, hw, hs]
  · rw [if_neg hc, if_neg (fun h => hc (hqueue.mp h))]
    obtain ⟨htake, hdrop, hcoh⟩ := Ring.drain_contents len hs.coherent
    refine ⟨congrArg _ htake, ?_, { hs with coherent := hcoh }⟩
    simp only [Pipe.toFifo, Fifo.mk.injEq, and_true]
    exact hdrop

theorem pipeWrite_fifo {s : Pipe} (hs : s.Sound) (data : Bytes) :
    (pipeWrite s.p data).1 = (s.toFifo.write data).1 ∧
      { s with p := (pipeWrite s.p data).2 }.toFifo = (s.toFifo.write data).2 ∧
      { s with p := (pipeWrite s.p data).2 }.Sound := by
  have hlen : s.toFifo.queue.length = s.p.ring.count := Ring.length_contents _
  have hle := hs.coherent.count_le
  rw [pipeWrite, Fifo.write, Fifo.accepts, hlen]
  by_cases hr : s.flags .rd = none
  · have hreaders : s.p.readers = 0 := by rw [hs.readers, hr]; rfl
    have hopen : s.toFifo.isOpen .rd = false := by simp [Pipe.toFifo, hr]
    rw [if_pos hreaders, if_pos hopen]
    exact ⟨rfl, rfl, hs⟩
  have hsome : (s.flags .rd).isSome = true := by
    rw [Option.isSome_iff_ne_none]
    exact hr
  have hreaders : s.p.readers ≠ 0 := by
    rw [hs.readers, hsome]
    decide
  have hopen : ¬ s.toFifo.isOpen .rd = false := by
    rw [Bool.not_eq_false]
    exact hsome
  rw [if_neg hreaders, if_neg hopen]
  by_cases hsmall : data.length ≤ PIPE_BUF ∧ RING - s.p.ring.count < data.length
  · rw [if_pos hsmall, if_pos (.inl hsmall)]
    exact ⟨rfl, rfl, hs⟩
  rw [if_neg hsmall]
  by_cases hfull : RING - s.p.ring.count = 0
  · rw [if_pos hfull, if_pos (.inr (by omega))]
    exact ⟨rfl, rfl, hs⟩
  have hroom : ¬ (data.length ≤ PIPE_BUF ∧ RING - s.p.ring.count < data.length ∨
      s.p.ring.count = RING) := by
    rintro (h | h)
    · exact hsmall h
    · omega
  rw [if_neg hfull, if_neg hroom, if_neg hsmall]
  obtain ⟨hn, hcont, hcoh⟩ := Ring.fill_contents data hs.coherent
  refine ⟨?_, ?_, { hs with coherent := hcoh }⟩
  · dsimp only
    rw [hn, List.length_take, Nat.min_comm]
  · simp only [Pipe.toFifo, Fifo.mk.injEq, and_true]
    rw [hcont, hn, Nat.min_comm, ← List.take_eq_take_min]

theorem pipeRelease_sound {s : Pipe} (hs : s.Sound) (e : PipeEnd) {fl : UInt32}
    (hfl : s.flags e = some fl) :
    Pipe.Sound {
      p := (pipeRelease s.p fl).1
      flags := Function.update s.flags e none
      frees := s.frees + if (pipeRelease s.p fl).2 then 1 else 0 } := by
  obtain ⟨hcoh, hr, hw, hrf, hwf, hfree⟩ := hs
  cases e with
  | rd =>
      have hmode := hrf fl hfl
      rw [hfl] at hr hfree
      refine ⟨?_, ?_, ?_, ?_, ?_, ?_⟩
      all_goals simp only [pipeRelease, if_pos hmode]
      · exact hcoh
      · simp [hr]
      · simpa using hw
      · intro f hf
        simp at hf
      · simpa using hwf
      · cases hwr : s.flags .wr <;> simp [hr, hw, hwr, hfree]
  | wr =>
      have hmode := hwf fl hfl
      rw [hfl] at hw hfree
      refine ⟨?_, ?_, ?_, ?_, ?_, ?_⟩
      all_goals simp only [pipeRelease, if_neg hmode]
      · exact hcoh
      · simpa using hr
      · simp [hw]
      · simpa using hrf
      · intro f hf
        simp at hf
      · cases hrd : s.flags .rd <;> simp [hr, hw, hrd, hfree]

theorem setfl_sound {s : Pipe} (hs : s.Sound) (e : PipeEnd) {fl : UInt32} (arg : UInt32)
    (hfl : s.flags e = some fl) :
    { s with flags := Function.update s.flags e (some (setfl fl arg)) }.Sound := by
  obtain ⟨hcoh, hr, hw, hrf, hwf, hfree⟩ := hs
  cases e with
  | rd =>
      rw [hfl] at hr hfree
      refine ⟨hcoh, by simpa using hr, by simpa using hw, ?_, by simpa using hwf,
        by simpa using hfree⟩
      intro f hf
      simp only [Function.update_self, Option.some.injEq] at hf
      rw [← hf, setfl_accmode, hrf fl hfl]
  | wr =>
      rw [hfl] at hw hfree
      refine ⟨hcoh, by simpa using hr, by simpa using hw, by simpa using hrf, ?_,
        by simpa using hfree⟩
      intro f hf
      simp only [Function.update_self, Option.some.injEq] at hf
      rw [← hf, setfl_accmode]
      exact hwf fl hfl

/-- One call on the ring is the same call on the queue. -/
theorem Pipe.step_fifo {s s' : Pipe} {a : PipeAct} {r : PipeAnswer} (hs : s.Sound)
    (h : s.step a = some (r, s')) : s.toFifo.step a = some (r, s'.toFifo) ∧ s'.Sound := by
  cases a with
  | read len =>
      obtain ⟨fl, hfl, he⟩ := Option.map_eq_some_iff.mp h
      obtain ⟨hans, hq, hsound⟩ := pipeRead_fifo hs len
      cases he
      have hopen : s.toFifo.isOpen .rd = true := by simp [Pipe.toFifo, hfl]
      rw [Fifo.step, if_pos hopen, ← hans, ← hq]
      exact ⟨rfl, hsound⟩
  | write data =>
      obtain ⟨fl, hfl, he⟩ := Option.map_eq_some_iff.mp h
      obtain ⟨hans, hq, hsound⟩ := pipeWrite_fifo hs data
      cases he
      have hopen : s.toFifo.isOpen .wr = true := by simp [Pipe.toFifo, hfl]
      rw [Fifo.step, if_pos hopen, ← hans, ← hq]
      exact ⟨rfl, hsound⟩
  | close e =>
      obtain ⟨fl, hfl, he⟩ := Option.map_eq_some_iff.mp h
      cases he
      have hopen : s.toFifo.isOpen e = true := by simp [Pipe.toFifo, hfl]
      rw [Fifo.step, if_pos hopen]
      refine ⟨?_, pipeRelease_sound hs e hfl⟩
      have hring : (pipeRelease s.p fl).1.ring = s.p.ring := by
        rw [pipeRelease]
        split_ifs <;> rfl
      simp only [Pipe.toFifo, hring, Option.some.injEq, Prod.mk.injEq, Fifo.mk.injEq, true_and]
      funext e'
      by_cases he' : e' = e <;> simp [Function.update, he']
  | setfl e arg =>
      obtain ⟨fl, hfl, he⟩ := Option.map_eq_some_iff.mp h
      cases he
      have hopen : s.toFifo.isOpen e = true := by simp [Pipe.toFifo, hfl]
      rw [Fifo.step, if_pos hopen]
      refine ⟨?_, setfl_sound hs e arg hfl⟩
      simp only [Pipe.toFifo, Option.some.injEq, Prod.mk.injEq, Fifo.mk.injEq, true_and]
      funext e'
      by_cases he' : e' = e <;> simp [Function.update, he', hfl]

def bytesRead (h : List (PipeAct × PipeAnswer)) : Bytes :=
  h.flatMap fun
    | (_, .got (.ok b)) => b
    | _ => []

def bytesAccepted (h : List (PipeAct × PipeAnswer)) : Bytes :=
  h.flatMap fun
    | (.write data, .put (.ok n)) => data.take n
    | _ => []

theorem Fifo.accepts_prefix (q : Fifo) (data : Bytes) : q.accepts data <+: data := by
  rw [Fifo.accepts]
  split_ifs
  · exact List.nil_prefix
  · exact List.take_prefix _ _

/-- One call moves bytes from the accepted to the queue or from the queue to the read. -/
theorem Fifo.step_conserves {q q' : Fifo} {a : PipeAct} {r : PipeAnswer}
    (h : q.step a = some (r, q')) :
    bytesRead [(a, r)] ++ q'.queue = q.queue ++ bytesAccepted [(a, r)] := by
  cases a with
  | read len =>
      rw [Fifo.step] at h
      split_ifs at h
      cases h
      rw [Fifo.read]
      split_ifs with hq hw
      · simp [bytesRead, bytesAccepted]
      · simp [bytesRead, bytesAccepted]
      · simp [bytesRead, bytesAccepted]
  | write data =>
      rw [Fifo.step] at h
      split_ifs at h
      cases h
      rw [Fifo.write]
      split_ifs
      · simp [bytesRead, bytesAccepted]
      · simp [bytesRead, bytesAccepted]
      · have htake : data.take (q.accepts data).length = q.accepts data :=
          (List.prefix_iff_eq_take.mp (q.accepts_prefix data)).symm
        simp [bytesRead, bytesAccepted, htake]
  | close e =>
      rw [Fifo.step] at h
      split_ifs at h
      cases h
      simp [bytesRead, bytesAccepted]
  | setfl e arg =>
      rw [Fifo.step] at h
      split_ifs at h
      cases h
      simp [bytesRead, bytesAccepted]

theorem Fifo.run_conserves {q q' : Fifo} {acts : List PipeAct}
    {h : List (PipeAct × PipeAnswer)} (hr : ActionRuns.run Fifo.step q acts = some (h, q')) :
    bytesRead h ++ q'.queue = q.queue ++ bytesAccepted h := by
  refine ActionRuns.run_history (P := fun h q' => bytesRead h ++ q'.queue =
    q.queue ++ bytesAccepted h) ?_ acts [] (by simp [bytesRead, bytesAccepted]) hr
  intro h m a r m' hm hstep
  have hone := Fifo.step_conserves hstep
  have hread : bytesRead (h ++ [(a, r)]) = bytesRead h ++ bytesRead [(a, r)] :=
    List.flatMap_append
  have hacc : bytesAccepted (h ++ [(a, r)]) = bytesAccepted h ++ bytesAccepted [(a, r)] :=
    List.flatMap_append
  rw [hread, hacc, List.append_assoc, hone, ← List.append_assoc, hm, List.append_assoc]

structure Pipe.Answers (s : Pipe) : Prop where
  read_zero : ∀ len s', 0 < len → s.step (.read len) = some (.got (.ok []), s') →
    s.toFifo.queue = [] ∧ s.flags .wr = none
  read_error : ∀ len e s', s.step (.read len) = some (.got (.error e), s') →
    e = .EAGAIN ∧ s.toFifo.queue = [] ∧ s.flags .wr ≠ none
  write_pipe : ∀ data r s', s.step (.write data) = some (.put r, s') →
    (r = .error .EPIPE ↔ s.flags .rd = none)
  write_error : ∀ data e s', s.step (.write data) = some (.put (.error e), s') →
    e = .EPIPE ∨ e = .EAGAIN ∧ s.flags .rd ≠ none ∧ (data.length ≤ PIPE_BUF ∧
      RING - s.toFifo.queue.length < data.length ∨ s.toFifo.queue.length = RING)
  write_refused : ∀ data e s', s.step (.write data) = some (.put (.error e), s') →
    s'.toFifo = s.toFifo
  write_small : ∀ data n s', data.length ≤ PIPE_BUF →
    s.step (.write data) = some (.put (.ok n), s') → n = data.length
  write_large : ∀ data n s', PIPE_BUF < data.length →
    s.step (.write data) = some (.put (.ok n), s') →
    n = min data.length (RING - s.toFifo.queue.length)

/-- A write on the queue, by its answer. -/
theorem Fifo.write_cases (q : Fifo) (data : Bytes) :
    (q.isOpen .rd = false ∧ q.write data = (.error .EPIPE, q)) ∨
    (q.isOpen .rd = true ∧ (data.length ≤ PIPE_BUF ∧ RING - q.queue.length < data.length ∨
      q.queue.length = RING) ∧ q.write data = (.error .EAGAIN, q)) ∨
    (q.isOpen .rd = true ∧ (PIPE_BUF < data.length ∨ data.length ≤ RING - q.queue.length) ∧
      (q.write data).1 = .ok (min data.length (RING - q.queue.length))) := by
  rw [Fifo.write, Fifo.accepts]
  split_ifs with hrd hblock hsmall
  · exact .inl ⟨hrd, rfl⟩
  · exact .inr (.inl ⟨by simpa using hrd, hblock, rfl⟩)
  · exact absurd (.inl hsmall) hblock
  · refine .inr (.inr ⟨by simpa using hrd, by omega, ?_⟩)
    rw [List.length_take, Nat.min_comm]

theorem Pipe.answers {s : Pipe} (hs : s.Sound) : s.Answers := by
  have hrd : s.toFifo.isOpen .rd = false ↔ s.flags .rd = none := by simp [Pipe.toFifo]
  have hwrite : ∀ {data r s'}, s.step (.write data) = some (.put r, s') →
      r = (s.toFifo.write data).1 ∧ s'.toFifo = (s.toFifo.write data).2 := by
    intro data r s' h
    obtain ⟨hstep, _⟩ := Pipe.step_fifo hs h
    rw [Fifo.step] at hstep
    split_ifs at hstep
    simp only [Option.some.injEq, Prod.mk.injEq, PipeAnswer.put.injEq] at hstep
    exact ⟨hstep.1.symm, hstep.2.symm⟩
  have hread : ∀ {len r s'}, s.step (.read len) = some (.got r, s') →
      r = (s.toFifo.read len).1 := by
    intro len r s' h
    obtain ⟨hstep, _⟩ := Pipe.step_fifo hs h
    rw [Fifo.step] at hstep
    split_ifs at hstep
    simp only [Option.some.injEq, Prod.mk.injEq, PipeAnswer.got.injEq] at hstep
    exact hstep.1.symm
  refine ⟨?_, ?_, ?_, ?_, ?_, ?_, ?_⟩
  · intro len s' hlen h
    have hr := hread h
    rw [Fifo.read] at hr
    split_ifs at hr with hq hw
    · exact ⟨hq, by simpa [Pipe.toFifo] using hw⟩
    · have htake : s.toFifo.queue.take len = [] := (Except.ok.inj hr).symm
      rw [List.take_eq_nil_iff] at htake
      rcases htake with h0 | h0
      · omega
      · exact absurd h0 hq
  · intro len e s' h
    have hr := hread h
    rw [Fifo.read] at hr
    split_ifs at hr with hq hw
    refine ⟨Except.error.inj hr, hq, ?_⟩
    simpa [Pipe.toFifo, Option.isSome_iff_ne_none] using hw
  · intro data r s' h
    obtain ⟨rfl, _⟩ := hwrite h
    rw [← hrd]
    rcases s.toFifo.write_cases data with ⟨ho, hw⟩ | ⟨ho, _, hw⟩ | ⟨ho, _, hw⟩ <;> simp [ho, hw]
  · intro data e s' h
    obtain ⟨hr, _⟩ := hwrite h
    rcases s.toFifo.write_cases data with ⟨ho, hw⟩ | ⟨ho, hb, hw⟩ | ⟨ho, _, hw⟩
    · rw [hw] at hr
      exact .inl (Except.error.inj hr)
    · rw [hw] at hr
      refine .inr ⟨Except.error.inj hr, ?_, hb⟩
      rw [Ne, ← hrd, ho]
      decide
    · rw [hw] at hr
      cases hr
  · intro data e s' h
    obtain ⟨hr, hq⟩ := hwrite h
    rcases s.toFifo.write_cases data with ⟨_, hw⟩ | ⟨_, _, hw⟩ | ⟨_, _, hw⟩
    · rw [hq, hw]
    · rw [hq, hw]
    · rw [hw] at hr
      cases hr
  · intro data n s' hlen h
    obtain ⟨hr, _⟩ := hwrite h
    rcases s.toFifo.write_cases data with ⟨_, hw⟩ | ⟨_, _, hw⟩ | ⟨_, hroom, hw⟩
    · rw [hw] at hr
      cases hr
    · rw [hw] at hr
      cases hr
    · rw [hw] at hr
      rw [Except.ok.inj hr]
      omega
  · intro data n s' hlen h
    obtain ⟨hr, _⟩ := hwrite h
    rcases s.toFifo.write_cases data with ⟨_, hw⟩ | ⟨_, _, hw⟩ | ⟨_, _, hw⟩
    · rw [hw] at hr
      cases hr
    · rw [hw] at hr
      cases hr
    · rw [hw] at hr
      exact Except.ok.inj hr

/-- Every run of a new pipe is a run of the queue: its indices agree, the bytes read are a
prefix of the bytes accepted, each answer is the queue's, and the ring is freed once, by
the release that leaves neither end. -/
theorem pipe_refines_fifo (haveRing haveRd haveWr : Bool) (ino : UInt64) (flags : UInt32)
    (s₀ s : Pipe) (acts : List PipeAct) (h : List (PipeAct × PipeAnswer))
    (h₀ : vfsPipe haveRing haveRd haveWr ino flags = .ok s₀)
    (hr : ActionRuns.run Pipe.step s₀ acts = some (h, s)) :
    ActionRuns.run Fifo.step ⟨[], fun _ => true⟩ acts = some (h, s.toFifo) ∧
    s.p.ring.count ≤ 65536 ∧ s.p.ring.tail = (s.p.ring.head + s.p.ring.count) % 65536 ∧
    bytesRead h <+: bytesAccepted h ∧ s.Answers ∧
    s.frees = if s.flags .rd = none ∧ s.flags .wr = none then 1 else 0 := by
  obtain ⟨hsound₀, hempty⟩ := vfsPipe_sound h₀
  obtain ⟨q, hq, hsound, rfl⟩ := ActionRuns.run_simulation Pipe.step Fifo.step
    (fun s q => s.Sound ∧ s.toFifo = q)
    (fun s q a r s' hrel hstep => by
      obtain ⟨hs, rfl⟩ := hrel
      obtain ⟨hf, hs'⟩ := Pipe.step_fifo hs hstep
      exact ⟨s'.toFifo, hf, hs', rfl⟩)
    ⟨hsound₀, hempty⟩ hr
  have hpre := Fifo.run_conserves hq
  rw [List.nil_append] at hpre
  exact ⟨hq, hsound.coherent.count_le, hsound.coherent.tail_eq, ⟨_, hpre⟩,
    Pipe.answers hsound, hsound.frees⟩

theorem pipe_sample_refines_fifo :
    ∃ h s, vfsPipe true true true 1 0 = .ok (Pipe.new 1 0) ∧
      ActionRuns.run Pipe.step (Pipe.new 1 0) [.write (str "hi"), .read 1, .close .wr, .read 9,
        .read 9, .close .rd] = some (h, s) ∧
      bytesRead h = str "hi" ∧ bytesRead h <+: bytesAccepted h ∧ s.frees = 1 := by
  obtain ⟨h, s, hr, hread⟩ : ∃ h s, ActionRuns.run Pipe.step (Pipe.new 1 0)
      [.write (str "hi"), .read 1, .close .wr, .read 9, .read 9, .close .rd] = some (h, s) ∧
        bytesRead h = str "hi" ∧ s.flags .rd = none ∧ s.flags .wr = none :=
    ⟨_, _, rfl, rfl, rfl, rfl⟩
  obtain ⟨_, _, _, hpre, _, hfrees⟩ := pipe_refines_fifo true true true 1 0 _ s _ h rfl hr
  exact ⟨h, s, rfl, hr, hread.1, hpre, by rw [hfrees, if_pos hread.2]⟩

end SysvNt
