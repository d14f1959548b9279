import SysvNt.PipeRing
import SysvNt.VectorCalls

/-!
# Writes into a pipe

A write of at most `PIPE_BUF` bytes is one chunk, which the ring takes whole or not at all. A write
of vectors is one such write of each, so it ends part of the way when a vector after the first one
cannot be read or does not fit.
-/

namespace SysvNt.FileOps

open FallibleCalls RingQueue Transfers

variable {η : Type}

section Ends

def onRing {α : Type} (f : PipeRing → Except Errno α × PipeRing) : Call Errno (Live PipeRing) α :=
  ExceptT.mk fun l => ((f l.host).1, { l with host := (f l.host).2 })

def pipeOps : Table PipeRing where
  read len := onRing fun p => pipeRead p len
  write b := onRing fun p => pipeWrite p b
  pread := none
  pwrite := none
  getdents := none
  truncate := none

def MayWrite (s : Pipe) : Prop :=
  ∀ fl, s.flags .wr = some fl → fl &&& O_ACCMODE = O_WRONLY ∧ has fl O_PATH = false

theorem vfsPipe_mayWrite {a b c : Bool} {ino : UInt64} {flags : UInt32} {s : Pipe}
    (h : vfsPipe a b c ino flags = .ok s) : MayWrite s := by
  unfold vfsPipe at h
  split_ifs at h
  cases h
  intro fl hfl
  cases hfl
  have hmode : (O_WRONLY ||| flags &&& O_NONBLOCK) &&& O_ACCMODE = O_WRONLY &&& O_ACCMODE :=
    or_masked_and (by decide) O_WRONLY flags
  have hpath : (O_WRONLY ||| flags &&& O_NONBLOCK) &&& O_PATH = O_WRONLY &&& O_PATH :=
    or_masked_and (by decide) O_WRONLY flags
  rw [has, hmode, hpath]
  decide

theorem setfl_path (flags arg : UInt32) : has (setfl flags arg) O_PATH = has flags O_PATH := by
  have hkeep : ~~~setflMask &&& O_PATH = O_PATH := by decide
  rw [has, has, setfl, or_masked_and (by decide), UInt32.and_assoc, hkeep]

theorem MayWrite.step {s s' : Pipe} {a : PipeAct} {r : PipeAnswer} (hs : MayWrite s)
    (h : s.step a = some (r, s')) : MayWrite s' := by
  cases a with
  | read len =>
      obtain ⟨fl, hfl, he⟩ := Option.map_eq_some_iff.mp h
      cases he
      exact hs
  | write data =>
      obtain ⟨fl, hfl, he⟩ := Option.map_eq_some_iff.mp h
      cases he
      exact hs
  | close e =>
      obtain ⟨fl, hfl, he⟩ := Option.map_eq_some_iff.mp h
      cases he
      intro f hf
      cases e with
      | rd => exact hs f (by simpa using hf)
      | wr => simp at hf
  | setfl e arg =>
      obtain ⟨fl, hfl, he⟩ := Option.map_eq_some_iff.mp h
      cases he
      intro f hf
      cases e with
      | rd => exact hs f (by simpa using hf)
      | wr =>
          simp only [Function.update_self, Option.some.injEq] at hf
          rw [← hf, setfl_accmode, setfl_path]
          exact hs fl hfl

/-- What holds of every pipe that a run of calls leads to. -/
theorem reached_pipe {a b c : Bool} {ino : UInt64} {flags : UInt32} {s₀ s : Pipe} {acts : List PipeAct}
    {h : List (PipeAct × PipeAnswer)} (hnew : vfsPipe a b c ino flags = .ok s₀)
    (hrun : ActionRuns.run Pipe.step s₀ acts = some (h, s)) : s.Sound ∧ MayWrite s :=
  ActionRuns.run_invariant (P := fun s => s.Sound ∧ MayWrite s)
    (fun _ _ _ _ hs hstep => ⟨(Pipe.step_fifo hs.1 hstep).2, hs.2.step hstep⟩)
    ⟨(vfsPipe_sound hnew).1, vfsPipe_mayWrite hnew⟩ hrun

end Ends

/-- User memory with what can be read of it, and whether there is a bounce buffer. -/
structure UserMemory {σ : Type} (io : FileIo η σ) (mem : UInt64 → Option UInt8) (ready : Bool) : Prop where
  copyIn : ∀ a n y, io.copyIn a n y = (gather mem (userRange a n), y)
  bounce : ∀ y, io.bounce y = (ready, y)

theorem UserMemory.copyIn_le {σ : Type} {io : FileIo η σ} {mem : UInt64 → Option UInt8} {ready : Bool}
    (hio : UserMemory io mem ready) (a : UInt64) (n : ℕ) (y : σ) (b : Bytes) (hb : (io.copyIn a n y).1 = some b) :
    b.length ≤ n := by
  rw [hio.copyIn] at hb
  rw [length_gather hb, length_userRange]

section Rings

variable (mem : UInt64 → Option UInt8)

/-- The ring has the bytes of another one and some more. -/
structure Grown (p q : PipeRing) (b : Bytes) : Prop where
  coherent : q.ring.Coherent
  contents : q.ring.contents = p.ring.contents ++ b
  readers : q.readers = p.readers

def Takes (p : PipeRing) (ps : List UInt64) : Prop :=
  p.readers ≠ 0 ∧ (gather mem ps).isSome ∧ p.ring.count + ps.length ≤ RING

/-- Either all the bytes enter the ring and their number is returned, or none does and the call fails. -/
def Atomic (ps : List UInt64) (l : Live PipeRing) (r : Except Errno ℕ × Live PipeRing) : Prop :=
  (r.1 = .ok ps.length ∧
      ∃ b, gather mem ps = some b ∧ r.2.host.ring.contents = l.host.ring.contents ++ b) ∨
    ∃ e, r.1 = .error e ∧ r.2.host.ring.contents = l.host.ring.contents

/-- What a write into a pipe leaves, and that it does less than it was asked only where it must. -/
def Entering (l : Live PipeRing) (ps : List UInt64) (r : Except Errno ℕ) (m : Live PipeRing) : Prop :=
  l.host.ring.Coherent → ∃ b, Grown l.host m.host b ∧ match r with
    | .ok n => gather mem (ps.take n) = some b ∧ n ≤ ps.length ∧ (n < ps.length → ¬ Takes mem l.host ps)
    | .error _ => b = [] ∧ ¬ Takes mem l.host ps

variable {mem}

theorem Grown.refl {p : PipeRing} (h : p.ring.Coherent) : Grown p p [] :=
  ⟨h, (List.append_nil _).symm, rfl⟩

theorem Grown.trans {p q t : PipeRing} {b c : Bytes} (h : Grown p q b) (h' : Grown q t c) : Grown p t (b ++ c) :=
  ⟨h'.coherent, by rw [h'.contents, h.contents, List.append_assoc], h'.readers.trans h.readers⟩

theorem Grown.count {p q : PipeRing} {b : Bytes} (h : Grown p q b) : q.ring.count = p.ring.count + b.length := by
  rw [← Ring.length_contents q.ring, h.contents, List.length_append, Ring.length_contents]

theorem takes_append {p : PipeRing} {ps qs : List UInt64} :
    Takes mem p (ps ++ qs) ↔ p.readers ≠ 0 ∧ (gather mem ps).isSome ∧ (gather mem qs).isSome ∧
      p.ring.count + ps.length + qs.length ≤ RING := by
  rw [Takes, gather_append, List.length_append, Nat.add_assoc]
  cases gather mem ps with
  | none => simp
  | some b => simp

theorem Takes.left {p : PipeRing} {ps qs : List UInt64} (h : Takes mem p (ps ++ qs)) : Takes mem p ps := by
  obtain ⟨hr, hps, _, hroom⟩ := takes_append.mp h
  exact ⟨hr, hps, by omega⟩

/-- After some bytes the ring takes the rest if it took both. -/
theorem Takes.right {p q : PipeRing} {ps qs : List UInt64} {b : Bytes} (h : Takes mem p (ps ++ qs))
    (hg : Grown p q b) (hb : b.length = ps.length) : Takes mem q qs := by
  obtain ⟨hr, _, hqs, hroom⟩ := takes_append.mp h
  refine ⟨?_, hqs, ?_⟩
  · rw [hg.readers]
    exact hr
  · rw [hg.count, hb]
    exact hroom

theorem entering_piecewise : Piecewise fun _ => Entering mem where
  done := fun _ l hcoh => ⟨[], Grown.refl hcoh, rfl, le_refl 0, fun h => absurd h (lt_irrefl 0)⟩
  onward := by
    intro _ l t u ps qs r hps hqs hcoh
    obtain ⟨b, hb, hbytes, _, _⟩ := hps hcoh
    rw [List.take_length] at hbytes
    obtain ⟨c, hc, hrest⟩ := hqs hb.coherent
    have hlen := length_gather hbytes
    refine ⟨b ++ c, hb.trans hc, ?_⟩
    cases r with
    | ok k =>
        obtain ⟨hmore, hk, hshort⟩ := hrest
        refine ⟨?_, ?_, ?_⟩
        · rw [List.take_length_add_append, gather_append, hbytes, hmore]
          rfl
        · rw [List.length_append]
          omega
        · rw [List.length_append]
          intro hlt htakes
          exact hshort (by omega) (htakes.right hb hlen)
    | error e =>
        obtain ⟨rfl, hno⟩ := hrest
        have hnone : ¬ Takes mem l.host (ps ++ qs) := fun h => hno (h.right hb hlen)
        rw [List.append_nil]
        by_cases h0 : 0 < ps.length
        · rw [after, if_pos h0]
          refine ⟨?_, ?_, fun _ => hnone⟩
          · rw [List.take_left]
            exact hbytes
          · rw [List.length_append]
            omega
        · rw [after, if_neg h0]
          have hnil : b = [] := List.length_eq_zero_iff.mp (by omega)
          exact ⟨hnil, hnone⟩
  short := by
    intro _ l t n ps qs hps hn hcoh
    obtain ⟨b, hb, hbytes, _, hno⟩ := hps hcoh
    refine ⟨b, hb, ?_, ?_, fun _ h => hno hn h.left⟩
    · rwa [List.take_append_of_le_length (le_of_lt hn)]
    · rw [List.length_append]
      omega
  failed := by
    intro _ l t e ps qs hps hcoh
    obtain ⟨b, hb, hnil, hno⟩ := hps hcoh
    exact ⟨b, hb, hnil, fun h => hno h.left⟩

end Rings

theorem fill_le {α : Type} {N : ℕ} (as : List α) (r : Ring α N) : (Ring.fill as r).1 ≤ as.length := by
  induction as generalizing r with
  | nil => exact le_refl 0
  | cons a as ih =>
      rw [Ring.fill]
      split_ifs with hc
      · exact Nat.succ_le_succ (ih (r.push a))
      · exact Nat.zero_le _

theorem pipeWrite_le (p : PipeRing) (b : Bytes) (k : ℕ) (h : (pipeWrite p b).1 = .ok k) : k ≤ b.length := by
  rw [pipeWrite] at h
  split_ifs at h
  cases h
  exact fill_le b p.ring

/-- The ring takes a small write whole when there is a reader and room for it. -/
theorem pipeWrite_whole {p : PipeRing} {b : Bytes} (hcoh : p.ring.Coherent) (h0 : b ≠ [])
    (hr : p.readers ≠ 0) (hroom : p.ring.count + b.length ≤ RING) :
    (pipeWrite p b).1 = .ok b.length ∧ Grown p (pipeWrite p b).2 b := by
  have hpos := List.length_pos_of_ne_nil h0
  obtain ⟨hn, hcont, hcoh'⟩ := Ring.fill_contents b hcoh
  have hfull : (Ring.fill b p.ring).1 = b.length := by
    rw [hn]
    omega
  rw [hfull, List.take_length] at hcont
  rw [pipeWrite, if_neg hr, if_neg (by omega), if_neg (by omega)]
  exact ⟨congrArg _ hfull, hcoh', hcont, rfl⟩

/-- Else it takes none of it. -/
theorem pipeWrite_none {p : PipeRing} {b : Bytes} (hlen : b.length ≤ PIPE_BUF)
    (h : ¬ (p.readers ≠ 0 ∧ p.ring.count + b.length ≤ RING)) : ∃ e, pipeWrite p b = (.error e, p) := by
  rw [pipeWrite]
  by_cases hr : p.readers = 0
  · rw [if_pos hr]
    exact ⟨_, rfl⟩
  · have hfull : RING - p.ring.count < b.length ∨ RING - p.ring.count = 0 := by
      have hroom : ¬ p.ring.count + b.length ≤ RING := fun hle => h ⟨hr, hle⟩
      omega
    rw [if_neg hr]
    split_ifs with hsmall hzero
    · exact ⟨_, rfl⟩
    · exact ⟨_, rfl⟩
    · exact absurd hfull (fun h => h.elim (fun h => hsmall ⟨hlen, h⟩) hzero)

section Calls

variable (io : FileIo η PipeRing) (mem : UInt64 → Option UInt8) (fl : UInt32)

def writeEnd (base : UInt64) (len : ℤ) : Call Errno (Live PipeRing) ℕ := doWrite io pipeOps fl base len none

def writevEnd (alloc : Bool) (uiov : UInt64) (cnt : ℤ) : Call Errno (Live PipeRing) ℕ :=
  sysReadvWritev io (fun p => (alloc, p)) (writeEnd io fl) uiov cnt

variable {io mem fl} {ready : Bool}

theorem writeEnd_le (hio : UserMemory io mem ready) (base : UInt64) (len : ℕ) (l : Live PipeRing) (k : ℕ)
    (h : ((writeEnd io fl base len).run l).1 = .ok k) : k ≤ len := by
  refine doWrite_le io pipeOps fl ?_ ?_ len l k h
  · exact hio.copyIn_le
  · intro op hop i b l k hk
    cases hop
    exact pipeWrite_le l.host b k hk

variable (hfl : fl &&& O_ACCMODE = O_WRONLY ∧ has fl O_PATH = false)

include hfl

/-- What is not ioRefused at once is left to the ring. -/
theorem refused_writeEnd {len : ℕ} : ioRefused O_RDONLY fl true len = none := by
  have hmode : ¬ (fl &&& O_ACCMODE = O_RDONLY ∨ fl &&& O_ACCMODE = 3) := by
    rw [hfl.1]
    decide
  rw [ioRefused, if_neg (by omega), if_neg (by decide), if_neg hmode, hfl.2]
  rfl

/-- A write of at most `PIPE_BUF` bytes is one chunk. -/
theorem run_writeEnd (hio : UserMemory io mem true) {base : UInt64} {len : ℕ} (h0 : 0 < len) (hlen : len ≤ PIPE_BUF)
    (l : Live PipeRing) : (writeEnd io fl base len).run l = match gather mem (userRange base len) with
      | none => (.error .EFAULT, l)
      | some b => ((pipeWrite l.host b).1, { l with host := (pipeWrite l.host b).2 }) := by
  have hbounced : bounced io l = l := by
    rw [bounced, hio.bounce]
  have hsmall : len ≤ BOUNCE := le_trans hlen (by decide)
  have hle : ∀ i n l k, ((writePiece io (fun _ b => pipeOps.write b) base i n).run l).1 = .ok k → k ≤ n :=
    writePiece_le io (hio.copyIn_le) fun _ b l k hk => pipeWrite_le l.host b k hk
  rw [writeEnd, run_doWrite, hio.bounce, refused_writeEnd hfl, hbounced]
  dsimp only [writeOf]
  rw [Int.toNat_natCast, pieces_single (funext (writeTurn_eq io (fun _ b => pipeOps.write b) base len)) hle h0 hsmall]
  dsimp only [writePiece, ExceptT.run_mk]
  have hzero : base + UInt64.ofNat 0 = base := UInt64.add_zero base
  rw [hio.copyIn, hzero]
  cases gather mem (userRange base len) with
  | none => rfl
  | some b => rfl

/-- The ring takes all of a small write, or none of it. -/
theorem writeEnd_spec (hio : UserMemory io mem ready) (base : UInt64) {len : ℕ} (h0 : 0 < len)
    (hlen : len ≤ PIPE_BUF) {l : Live PipeRing} (hcoh : l.host.ring.Coherent) :
    (ready = true ∧ Takes mem l.host (userRange base len) ∧ ∃ b, gather mem (userRange base len) = some b ∧
      ((writeEnd io fl base len).run l).1 = .ok len ∧ Grown l.host ((writeEnd io fl base len).run l).2.host b) ∨
    ¬ (ready = true ∧ Takes mem l.host (userRange base len)) ∧
      ∃ e, (writeEnd io fl base len).run l = (.error e, l) := by
  cases ready with
  | false =>
      refine .inr ⟨fun h => Bool.false_ne_true h.1, .ENOMEM, ?_⟩
      have hbounced : bounced io l = l := by
        rw [bounced, hio.bounce]
      have hrefused : ioRefused O_RDONLY fl false len = some .ENOMEM := by
        rw [ioRefused, if_neg (by omega), if_pos rfl]
      rw [writeEnd, run_doWrite, hio.bounce, hrefused, hbounced]
  | true =>
      rw [run_writeEnd hfl hio h0 hlen, Takes, length_userRange]
      cases hg : gather mem (userRange base len) with
      | none => exact .inr ⟨fun h => Bool.false_ne_true h.2.2.1, .EFAULT, rfl⟩
      | some b =>
          have hb : b.length = len := (length_gather hg).trans (length_userRange base len)
          dsimp only
          by_cases hgo : l.host.readers ≠ 0 ∧ l.host.ring.count + b.length ≤ RING
          · obtain ⟨hret, hgrown⟩ := pipeWrite_whole hcoh (List.ne_nil_of_length_pos (by omega)) hgo.1 hgo.2
            rw [hb] at hgo hret
            exact .inl ⟨rfl, ⟨hgo.1, rfl, hgo.2⟩, b, rfl, hret, hgrown⟩
          · obtain ⟨e, he⟩ := pipeWrite_none (by omega) hgo
            rw [hb] at hgo
            rw [he]
            exact .inr ⟨fun h => hgo ⟨h.2.1, h.2.2.2⟩, e, rfl⟩

theorem writeEnd_entering (hio : UserMemory io mem true) {base : UInt64} {len : ℕ} (h0 : 0 < len)
    (hlen : len ≤ PIPE_BUF) (l : Live PipeRing) : Entering mem l (userRange base len)
      ((writeEnd io fl base len).run l).1 ((writeEnd io fl base len).run l).2 := by
  intro hcoh
  rcases writeEnd_spec hfl hio base h0 hlen hcoh with ⟨_, _, b, hb, hret, hgrown⟩ | ⟨hno, e, he⟩
  · have htake : (userRange base len).take len = userRange base len :=
      List.take_of_length_le (length_userRange base len).le
    rw [hret, length_userRange]
    refine ⟨b, hgrown, ?_, le_refl len, fun h => absurd h (lt_irrefl len)⟩
    rw [htake]
    exact hb
  · rw [he]
    exact ⟨[], Grown.refl hcoh, rfl, fun h => hno ⟨rfl, h⟩⟩

/-- A single write is atomic. -/
theorem writeEnd_atomic (hio : UserMemory io mem ready) {base : UInt64} {len : ℕ} (h0 : 0 < len)
    (hlen : len ≤ PIPE_BUF) {l : Live PipeRing} (hcoh : l.host.ring.Coherent) :
    Atomic mem (userRange base len) l ((writeEnd io fl base len).run l) := by
  rw [Atomic, length_userRange]
  rcases writeEnd_spec hfl hio base h0 hlen hcoh with ⟨_, _, b, hb, hret, hgrown⟩ | ⟨_, e, he⟩
  · exact .inl ⟨hret, b, hb, hgrown.contents⟩
  · rw [he]
    exact .inr ⟨e, rfl, rfl⟩

end Calls

section Vectors

theorem length_places (vs : List Iovec) : (places vs).length = (vs.map Iovec.len).sum := by
  rw [places, List.length_flatMap]
  congr 1
  exact List.map_congr_left fun v _ => length_userRange v.base v.len

theorem vector_le {vs : List Iovec} {v : Iovec} (hv : v ∈ vs) : v.len ≤ (places vs).length := by
  rw [length_places]
  exact List.le_sum_of_mem (List.mem_map_of_mem hv)

def firstVector (vs : List Iovec) : Option Iovec := vs.find? fun v => v.len != 0

theorem firstVector_eq {vs : List Iovec} (h : 0 < (places vs).length) : ∃ v ws, firstVector vs = some v ∧
    v ∈ vs ∧ 0 < v.len ∧ places vs = userRange v.base v.len ++ places ws ∧
    ∀ (one : UInt64 → ℤ → Call Errno (Live PipeRing) ℕ) total,
      vectorLoop one total vs = vectorLoop one total (v :: ws) := by
  induction vs with
  | nil => exact absurd h (lt_irrefl 0)
  | cons v vs ih =>
      by_cases h0 : v.len = 0
      · rw [places_empty h0] at h ⊢
        obtain ⟨w, ws, hfirst, hw, hpos, hsplit, hloop⟩ := ih h
        refine ⟨w, ws, ?_, List.mem_cons_of_mem v hw, hpos, hsplit, fun one total => ?_⟩
        · rw [firstVector, List.find?_cons_of_neg (by simp [h0])]
          exact hfirst
        · rw [vectorLoop_empty h0]
          exact hloop one total
      · exact ⟨v, vs, List.find?_cons_of_pos (by simp [h0]), List.mem_cons_self, Nat.pos_of_ne_zero h0,
          List.flatMap_cons, fun _ _ => rfl⟩

variable {io : FileIo η PipeRing} {mem : UInt64 → Option UInt8} {fl : UInt32} {ready : Bool}
  (hfl : fl &&& O_ACCMODE = O_WRONLY ∧ has fl O_PATH = false)

include hfl

theorem vectors_entering (hio : UserMemory io mem true) {vs : List Iovec} (hmax : (places vs).length ≤ PIPE_BUF)
    (total : ℕ) (l : Live PipeRing) : ∃ r, ((vectorLoop (writeEnd io fl) total vs).run l).1 = after total r ∧
      Entering mem l (places vs) r ((vectorLoop (writeEnd io fl) total vs).run l).2 := by
  refine vectorLoop_transfers (writeEnd_le hio) entering_piecewise ?_ ?_ total l
  · intro v hv h0 _ l
    exact writeEnd_entering hfl hio (Nat.pos_of_ne_zero h0) (le_trans (vector_le hv) hmax) l
  · intro v hv hlong
    have hle := le_trans (vector_le hv) hmax
    rw [PIPE_BUF] at hle
    omega

/-- A write of small vectors is atomic if and only if the first that is not empty goes nowhere or all
of them fit. -/
theorem vectors_atomic_iff (hio : UserMemory io mem ready) {vs : List Iovec} (h0 : 0 < (places vs).length)
    (hmax : (places vs).length ≤ PIPE_BUF) {l : Live PipeRing} (hcoh : l.host.ring.Coherent) :
    Atomic mem (places vs) l ((vectorLoop (writeEnd io fl) 0 vs).run l) ↔
      ready = false ∨ (∃ v, firstVector vs = some v ∧ ¬ Takes mem l.host (userRange v.base v.len)) ∨
        Takes mem l.host (places vs) := by
  obtain ⟨v, ws, hfirst, hv, hpos, hsplit, hloop⟩ := firstVector_eq h0
  have hvmax := vector_le hv
  have hrun : (vectorLoop (writeEnd io fl) 0 (v :: ws)).run l = _ :=
    run_vectorLoop (by omega) (le_trans (le_trans hvmax hmax) (by decide)) ws 0 l
  have hspec := writeEnd_spec hfl hio v.base hpos (le_trans hvmax hmax) hcoh
  rcases hspec with ⟨hready, htakes, b, hb, hret, hgrown⟩ | ⟨hno, e, he⟩
  · rw [hready] at hio
    obtain ⟨r, hall, hentering⟩ := vectors_entering hfl hio hmax 0 l
    obtain ⟨c, hc, hend⟩ := hentering hcoh
    have hok : ∃ n, ((vectorLoop (writeEnd io fl) 0 vs).run l).1 = .ok n := by
      have hws : (places ws).length ≤ PIPE_BUF := by
        rw [hsplit, List.length_append] at hmax
        omega
      cases hfrom : (writeEnd io fl v.base v.len).run l with
      | mk q m =>
          rw [hfrom] at hrun hret
          obtain rfl : q = .ok v.len := hret
          obtain ⟨q, hrest, _⟩ := vectors_entering hfl hio hws v.len m
          dsimp only at hrun
          rw [if_neg (lt_irrefl v.len), Nat.zero_add] at hrun
          rw [hloop, hrun, hrest]
          exact after_pos hpos q
    obtain ⟨n, hn⟩ := hok
    rw [after_zero] at hall
    obtain rfl : r = .ok n := hall.symm.trans hn
    obtain ⟨hbytes, hle, hshort⟩ := hend
    constructor
    · rintro (⟨htotal, _⟩ | ⟨e, herror, _⟩)
      · obtain rfl : n = (places vs).length := Except.ok.inj (hn.symm.trans htotal)
        rw [List.take_length] at hbytes
        refine .inr (.inr ⟨htakes.1, Option.isSome_of_eq_some hbytes, ?_⟩)
        rw [← length_gather hbytes, ← hc.count]
        exact hc.coherent.count_le
      · cases hn.symm.trans herror
    · rintro (hnot | ⟨w, hw, hnot⟩ | hfits)
      · cases hready.symm.trans hnot
      · obtain rfl : v = w := Option.some.inj (hfirst.symm.trans hw)
        exact absurd htakes hnot
      · obtain rfl : n = (places vs).length := Nat.le_antisymm hle (Nat.le_of_not_lt fun h => hshort h hfits)
        rw [List.take_length] at hbytes
        exact .inl ⟨hn, c, hbytes, hc.contents⟩
  · rw [he] at hrun
    rw [hloop, hrun]
    refine iff_of_true (.inr ⟨e, rfl, rfl⟩) ?_
    cases ready with
    | false => exact .inl rfl
    | true => exact .inr (.inl ⟨v, hfirst, fun h => hno ⟨rfl, h⟩⟩)

end Vectors

/-- A single small write is atomic, and a small write of vectors is if and only if it is refused at
once, or its first vector that is not empty goes nowhere, or all of them can be read and fit. -/
theorem pipe_writes_atomic {io : FileIo η PipeRing} {mem : UInt64 → Option UInt8} {ready : Bool}
    (hio : UserMemory io mem ready) {a b c : Bool} {ino : UInt64} {flags fl : UInt32} {s₀ s : Pipe}
    {acts : List PipeAct} {h : List (PipeAct × PipeAnswer)} (hnew : vfsPipe a b c ino flags = .ok s₀)
    (hrun : ActionRuns.run Pipe.step s₀ acts = some (h, s)) (hfl : s.flags .wr = some fl)
    {l : Live PipeRing} (hl : l.host = s.p) :
    (∀ base (len : ℕ), 1 ≤ len → len ≤ PIPE_BUF →
      Atomic mem (userRange base len) l ((writeEnd io fl base len).run l)) ∧
    ∀ alloc uiov (cnt : ℤ) array, gather mem (userRange uiov (cnt.toNat * 16)) = some array →
      1 ≤ ((vectorsOf array).map Iovec.len).sum → ((vectorsOf array).map Iovec.len).sum ≤ PIPE_BUF →
        (Atomic mem (places (vectorsOf array)) l ((writevEnd io fl alloc uiov cnt).run l) ↔
          1024 < cnt ∨ alloc = false ∨ ready = false ∨
            (∃ v, firstVector (vectorsOf array) = some v ∧ ¬ Takes mem s.p (userRange v.base v.len)) ∨
            Takes mem s.p (places (vectorsOf array))) := by
  obtain ⟨hsound, hwrite⟩ := reached_pipe hnew hrun
  have hcoh : l.host.ring.Coherent := by
    rw [hl]
    exact hsound.coherent
  refine ⟨fun base len h0 hlen => writeEnd_atomic (hwrite fl hfl) hio h0 hlen hcoh, ?_⟩
  intro alloc uiov cnt array harray h0 hmax
  rw [← length_places] at h0 hmax
  have hcnt : ¬ cnt < 0 := by
    intro hneg
    rw [Int.toNat_of_nonpos (by omega)] at harray
    cases harray
    exact absurd h0 (by decide)
  rw [writevEnd, run_sysReadvWritev]
  by_cases hmany : 1024 < cnt
  · rw [if_pos (.inr hmany)]
    exact iff_of_true (.inr ⟨.EINVAL, rfl, rfl⟩) (.inl hmany)
  rw [if_neg (not_or.mpr ⟨hcnt, hmany⟩)]
  cases alloc with
  | false => exact iff_of_true (.inr ⟨.ENOMEM, rfl, rfl⟩) (.inr (.inl rfl))
  | true =>
      dsimp only
      rw [hio.copyIn, harray]
      dsimp only
      rw [vectors_atomic_iff (hwrite fl hfl) hio h0 hmax hcoh, hl]
      simp [hmany]

theorem memoryIo_userMemory (mem : UInt64 → Option UInt8) (ready : Bool) :
    UserMemory (memoryIo (σ := PipeRing) mem ready) mem ready := ⟨fun _ _ _ => rfl, fun _ => rfl⟩

def splitArray : Bytes :=
  littleEndian 8 0x2000 ++ littleEndian 8 1 ++ littleEndian 8 0x3000 ++ littleEndian 8 1

def splitMemory (a : UInt64) : Option UInt8 :=
  if a = 0x2000 then some 0x61 else if a < 0x1000 then none else splitArray[(a - 0x1000).toNat]?

def newPipe : Live PipeRing := ⟨(Pipe.new 1 0).p, 0, ⟨0, false, [], none⟩, []⟩

/-- Vectors of two bytes, of none and of one, all of which can be read. -/
def heldArray : Bytes :=
  littleEndian 8 0x2000 ++ littleEndian 8 2 ++ littleEndian 8 0x3000 ++ littleEndian 8 0 ++
    littleEndian 8 0x4000 ++ littleEndian 8 1

def heldMemory (a : UInt64) : Option UInt8 :=
  if a = 0x2000 then some 0x61
  else if a = 0x2001 then some 0x62
  else if a = 0x4000 then some 0x63
  else if a < 0x1000 then none else heldArray[(a - 0x1000).toNat]?

/-- A pipe that was given three bytes, of which one has been read. -/
def heldPipe : Pipe :=
  ((ActionRuns.run Pipe.step (Pipe.new 1 0) [.write [1, 2, 3], .read 1]).map Prod.snd).getD (Pipe.new 1 0)

def heldLive : Live PipeRing := ⟨heldPipe.p, 0, ⟨0, false, [], none⟩, []⟩

/-- The vectors are taken whole behind the bytes that the pipe holds, and so is a single write. -/
theorem pipe_takes_readable_write :
    heldLive.host.ring.contents = [2, 3] ∧ gather heldMemory (userRange 0x1000 48) = some heldArray ∧
      Atomic heldMemory (places (vectorsOf heldArray)) heldLive
        ((writevEnd (memoryIo heldMemory true) O_WRONLY true 0x1000 3).run heldLive) ∧
      ((writevEnd (memoryIo heldMemory true) O_WRONLY true 0x1000 3).run heldLive).1 = .ok 3 ∧
      ((writevEnd (memoryIo heldMemory true) O_WRONLY true 0x1000 3).run heldLive).2.host.ring.contents =
        [2, 3, 0x61, 0x62, 0x63] ∧
      Atomic heldMemory (userRange 0x2000 2) heldLive
        ((writeEnd (memoryIo heldMemory true) O_WRONLY 0x2000 2).run heldLive) := by
  have hnew : vfsPipe true true true 1 0 = .ok (Pipe.new 1 0) := rfl
  have hrun : ActionRuns.run Pipe.step (Pipe.new 1 0) [.write [1, 2, 3], .read 1] =
      some ([(.write [1, 2, 3], .put (.ok 3)), (.read 1, .got (.ok [1]))], heldPipe) := rfl
  have hsum : ((vectorsOf heldArray).map Iovec.len).sum = 3 := by decide +kernel
  have harray : gather heldMemory (userRange 0x1000 48) = some heldArray := by decide +kernel
  have htakes : Takes heldMemory heldPipe.p (places (vectorsOf heldArray)) :=
    ⟨by decide +kernel, by decide +kernel, by decide +kernel⟩
  obtain ⟨hone, hvectors⟩ := pipe_writes_atomic (memoryIo_userMemory heldMemory true) hnew hrun
    (rfl : heldPipe.flags .wr = some O_WRONLY) (rfl : heldLive.host = heldPipe.p)
  refine ⟨by decide +kernel, harray, ?_, by decide +kernel, by decide +kernel, ?_⟩
  · exact (hvectors true 0x1000 3 heldArray harray (by omega) (by rw [hsum]; decide)).mpr
      (.inr (.inr (.inr (.inr htakes))))
  · exact hone 0x2000 2 (by decide) (by decide)

/-- The byte of the first vector enters a new pipe although the second vector cannot be read. -/
theorem split_writev_not_atomic :
    vfsPipe true true true 1 0 = .ok (Pipe.new 1 0) ∧ (Pipe.new 1 0).flags .wr = some O_WRONLY ∧
      newPipe.host = (Pipe.new 1 0).p ∧
      gather splitMemory (userRange 0x1000 32) = some splitArray ∧
      ((vectorsOf splitArray).map Iovec.len).sum = 2 ∧
      ¬ Atomic splitMemory (places (vectorsOf splitArray)) newPipe
        ((writevEnd (memoryIo splitMemory true) O_WRONLY true 0x1000 2).run newPipe) := by
  have hret : ((writevEnd (memoryIo splitMemory true) O_WRONLY true 0x1000 2).run newPipe).1 = .ok 1 := by
    decide +kernel
  refine ⟨rfl, rfl, rfl, by decide +kernel, by decide +kernel, ?_⟩
  rintro (⟨h, _⟩ | ⟨e, h, _⟩)
  · exact absurd (hret.symm.trans h) (by decide +kernel)
  · exact absurd (hret.symm.trans h) (by nofun)

end SysvNt.FileOps
