import SysvNt.ActionRuns
import SysvNt.OpenedRights
import SysvNt.Seeks

/-!
# Positions and offsets

The calls that move or use a position: reads and writes, at the position or at an offset, and seeks.
A positional call adds what it has done to the offset that it was given. A file of the host ends
before 2^63, so a sum within a file is a signed word; the seeks make theirs before they look at the
range, and a write that appends goes on from an offset that the host never looks at.
-/

namespace SysvNt.FileOps

open FallibleCalls

section Calls

variable {η σ : Type}

/-- A call on a description that may look at its position. -/
inductive PositionCall where
  | read (ubuf : UInt64) (len : Int64)
  | write (ubuf : UInt64) (len : Int64)
  | readv (uiov : UInt64) (cnt : Int64)
  | writev (uiov : UInt64) (cnt : Int64)
  | pread64 (ubuf : UInt64) (len off : Int64)
  | pwrite64 (ubuf : UInt64) (len off : Int64)
  | lseek (off : Int64) (whence : Int32)
  | ftruncate (size : Int64)

/-- What becomes of a description: a call, new flags, or something that happens to the world. -/
inductive PositionAct (σ : Type) where
  | call (c : PositionCall)
  | setfl (arg : UInt32)
  | elsewhere (y : σ)

structure PositionState (σ : Type) where
  flags : UInt32
  live : Live σ

variable (H : HostStore η σ) (io : FileIo η σ) (alloc : StateM σ Bool) (f : Seekable η) (flags : UInt32)

def offsetWord (off : Int64) : UInt64 := UInt64.ofNat off.toInt.toNat

def PositionCall.run : PositionCall → Call Errno (Live σ) ℕ
  | .read ubuf len => doRead io (f.ops H io flags) flags ubuf len.toInt none
  | .write ubuf len => doWrite io (f.ops H io flags) flags ubuf len.toInt none
  | .readv uiov cnt =>
    sysReadvWritev io alloc (fun base len => doRead io (f.ops H io flags) flags base len none) uiov cnt.toInt
  | .writev uiov cnt =>
    sysReadvWritev io alloc (fun base len => doWrite io (f.ops H io flags) flags base len none) uiov cnt.toInt
  | .pread64 ubuf len off =>
    if off.toInt < 0 then throw .EINVAL
    else doRead io (f.ops H io flags) flags ubuf len.toInt (some (offsetWord off))
  | .pwrite64 ubuf len off =>
    if off.toInt < 0 then throw .EINVAL
    else doWrite io (f.ops H io flags) flags ubuf len.toInt (some (offsetWord off))
  | .lseek off whence => do
    let v ← f.lseek H off whence
    pure v.toUInt64.toNat
  | .ftruncate size => sysFtruncate (f.ops H io flags) flags size.toInt

def PositionState.step (s : PositionState σ) : PositionAct σ → PositionState σ
  | .call c => { s with live := ((c.run H io alloc f s.flags).run s.live).2 }
  | .setfl arg => { s with flags := setfl s.flags arg }
  | .elsewhere y => { s with live := { s.live with host := y } }

/-- The sums of `do_read` at an offset: one for each chunk that it asks for. -/
def readSums (ubuf : UInt64) (len : ℕ) (off : Int64) (l : Live σ) : Set ℤ :=
  { s | ioRefused O_WRONLY flags (io.bounce l.host).1 len = none ∧
    ∃ op, readOf (f.ops H io flags) (some (offsetWord off)) = some op ∧ ∃ n x,
      BoundedLoop.iterate (readTurn io op ubuf len) n (bounced io l, 0) = .inl x ∧ x.2 < len ∧
        s = off.toInt + x.2 }

/-- The sums of `do_write` at an offset: one for each chunk that it has copied in. -/
def writeSums (ubuf : UInt64) (len : ℕ) (off : Int64) (l : Live σ) : Set ℤ :=
  { s | ioRefused O_RDONLY flags (io.bounce l.host).1 len = none ∧
    ∃ op, writeOf (f.ops H io flags) (some (offsetWord off)) = some op ∧ ∃ n x,
      BoundedLoop.iterate (writeTurn io op ubuf len) n (bounced io l, 0) = .inl x ∧ x.2 < len ∧
        (io.copyIn (ubuf + UInt64.ofNat x.2) (min (len - x.2) BOUNCE) x.1.host).1 ≠ none ∧
        s = off.toInt + x.2 }

/-- The exact results of the signed additions to an offset that a call makes. -/
def PositionCall.sums (l : Live σ) : PositionCall → Set ℤ
  | .pread64 ubuf len off =>
    { s | 0 ≤ off.toInt ∧ 0 ≤ len.toInt ∧ s ∈ readSums H io f flags ubuf len.toInt.toNat off l }
  | .pwrite64 ubuf len off =>
    { s | 0 ≤ off.toInt ∧ 0 ≤ len.toInt ∧ s ∈ writeSums H io f flags ubuf len.toInt.toNat off l }
  | .lseek off whence => { s | ∃ base, ((f.base H whence).run l).1 = .ok base ∧ s = base.toInt + off.toInt }
  | _ => ∅

/-- The world once the host has taken the first `k` whole chunks of a write that appends. -/
def takesWhole (h : η) (ubuf off : UInt64) : ℕ → σ → Option σ
  | 0, y => some y
  | k + 1, y => (takesWhole h ubuf off k y).bind fun z =>
    match io.copyIn (ubuf + UInt64.ofNat (k * BOUNCE)) BOUNCE z with
    | (none, _) => none
    | (some b, z) => match (io.pwrite h b (off + UInt64.ofNat (k * BOUNCE)) true).run z with
      | (.error _, _) => none
      | (.ok n, z) => if n < BOUNCE then none else some z

/-- The chunks that a write at an offset gets to when it appends begin below 2^63. -/
def AppendsBelow (h : η) (ubuf : UInt64) (len : ℕ) (off : Int64) (l : Live σ) : Prop :=
  has flags O_APPEND = true → ioRefused O_RDONLY flags (io.bounce l.host).1 len = none →
    ∀ k y, k * BOUNCE < len → takesWhole io h ubuf (offsetWord off) k (bounced io l).host = some y →
      (io.copyIn (ubuf + UInt64.ofNat (k * BOUNCE)) (min (len - k * BOUNCE) BOUNCE) y).1 ≠ none →
        off.toInt + k * BOUNCE < 2 ^ 63

/-- A seek to below 2^63, and a write that appends no chunk at an offset from there on. -/
def PositionCall.Contained (l : Live σ) : PositionCall → Prop
  | .lseek off whence => ∀ b, f.origin H whence l = some b → b + off.toInt < 2 ^ 63
  | .pwrite64 ubuf len off => 0 ≤ off.toInt → 0 ≤ len.toInt →
    match f with
    | .host h => AppendsBelow io flags h ubuf len.toInt.toNat off l
    | .text _ => True
  | _ => True

/-- No addition to an offset leaves the signed words, and a seek for a place is exact. -/
structure PositionCall.Exact (l : Live σ) (c : PositionCall) : Prop where
  fit : ∀ s ∈ c.sums H io f flags l, SignedWords.Fits s
  sought : ∀ off whence, c = .lseek off whence → ¬ (whence = SEEK_DATA ∨ whence = SEEK_HOLE) →
    Sought (f.origin H whence l) off l ((f.lseek H off whence).run l)

namespace PositionState

def Contained (s : PositionState σ) : PositionAct σ → Prop
  | .call c => c.Contained H io f s.flags s.live
  | _ => True

/-- What is done keeps the position in range, and a call is exact. -/
structure Exact (s : PositionState σ) (a : PositionAct σ) : Prop where
  call : ∀ c, a = .call c → c.Exact H io f s.flags s.live
  inRange : InRange (s.step H io alloc f a).live

end PositionState

end Calls

section Turns

variable {η σ : Type} {io : FileIo η σ} {ubuf : UInt64} {len : ℕ}

theorem readTurn_next {op : ℕ → ℕ → Call Errno (Live σ) Bytes} {x x' : Live σ × ℕ}
    (h : readTurn io op ubuf len x = .inl x') :
    ∃ b, ((op x.2 (min (len - x.2) BOUNCE)).run x.1).1 = .ok b ∧ b ≠ [] ∧ x'.2 = x.2 + b.length := by
  rw [readTurn] at h
  split_ifs at h
  dsimp only at h
  cases hop : (op x.2 (min (len - x.2) BOUNCE)).run x.1 with
  | mk r l =>
      rw [hop] at h
      cases r with
      | error e => cases h
      | ok b =>
          dsimp only at h
          by_cases hb : b = []
          · rw [if_pos hb] at h
            cases h
          rw [if_neg hb] at h
          cases hcopy : io.copyOut (ubuf + UInt64.ofNat x.2) b l.host with
          | mk ok y =>
              rw [hcopy] at h
              cases ok with
              | false => cases h
              | true =>
                  dsimp only at h
                  split_ifs at h
                  cases h
                  exact ⟨b, rfl, hb, rfl⟩

/-- A turn of the loop of `do_write` that goes on has written its chunk whole. -/
structure Wrote (io : FileIo η σ) (op : ℕ → Bytes → Call Errno (Live σ) ℕ) (ubuf : UInt64) (len : ℕ)
    (x x' : Live σ × ℕ) (b : Bytes) (y : σ) (n : ℕ) : Prop where
  more : x.2 < len
  copied : io.copyIn (ubuf + UInt64.ofNat x.2) (min (len - x.2) BOUNCE) x.1.host = (some b, y)
  written : (op x.2 b).run { x.1 with host := y } = (.ok n, x'.1)
  whole : min (len - x.2) BOUNCE ≤ n
  next : x'.2 = x.2 + n

theorem writeTurn_iff {op : ℕ → Bytes → Call Errno (Live σ) ℕ} {x x' : Live σ × ℕ} :
    writeTurn io op ubuf len x = .inl x' ↔ ∃ b y n, Wrote io op ubuf len x x' b y n := by
  constructor
  · intro h
    rw [writeTurn] at h
    split_ifs at h with hlen
    dsimp only at h
    cases hcopy : io.copyIn (ubuf + UInt64.ofNat x.2) (min (len - x.2) BOUNCE) x.1.host with
    | mk c y =>
        rw [hcopy] at h
        cases c with
        | none => cases h
        | some b =>
            dsimp only at h
            cases hop : (op x.2 b).run { x.1 with host := y } with
            | mk r l =>
                rw [hop] at h
                cases r with
                | error e => cases h
                | ok n =>
                    dsimp only at h
                    split_ifs at h with hn
                    cases h
                    exact ⟨b, y, n, not_le.mp hlen, hcopy, hop, not_lt.mp hn, rfl⟩
  · rintro ⟨b, y, n, h⟩
    rw [writeTurn, if_neg (not_le.mpr h.more)]
    dsimp only
    rw [h.copied]
    dsimp only
    rw [h.written]
    dsimp only
    rw [if_neg (not_lt.mpr h.whole), ← h.next]

theorem toNat_offset (o : UInt64) {i : ℕ} (h : o.toNat + i < 2 ^ 63) : (o + UInt64.ofNat i).toNat = o.toNat + i := by
  rw [UInt64.toNat_add, UInt64.toNat_ofNat']
  omega

theorem toNat_offsetWord {off : Int64} (h : 0 ≤ off.toInt) : ((offsetWord off).toNat : ℤ) = off.toInt := by
  have hmax := Int64.toInt_lt off
  have hlt : off.toInt.toNat < 2 ^ 63 := by omega
  rw [offsetWord, UInt64.toNat_ofNat_of_lt' (lt_trans hlt (by decide))]
  omega

/-- Reads that end within the file stay below 2^63. -/
theorem read_stays {op : ℕ → UInt64 → Call Errno (Live σ) Bytes}
    (hop : ∀ n o l b, ((op n o).run l).1 = .ok b → b ≠ [] → o.toNat + b.length < 2 ^ 63) {o : UInt64}
    (ho : o.toNat < 2 ^ 63) {n : ℕ} {l : Live σ} {x : Live σ × ℕ}
    (h : BoundedLoop.iterate (readTurn io (fun i n => op n (o + UInt64.ofNat i)) ubuf len) n (l, 0) = .inl x) :
    o.toNat + x.2 < 2 ^ 63 := by
  induction n generalizing x with
  | zero =>
      cases h
      exact ho
  | succ n ih =>
      obtain ⟨z, hz, hturn⟩ := BoundedLoop.iterate_succ_eq_inl h
      obtain ⟨b, hb, hne, hnext⟩ := readTurn_next hturn
      have hstay := ih hz
      have hread := hop _ _ _ b hb hne
      rw [toNat_offset o hstay] at hread
      omega

/-- So do writes that the host puts where they are told. -/
theorem write_stays {op : Bytes → UInt64 → Call Errno (Live σ) ℕ}
    (hop : ∀ b o l n, ((op b o).run l).1 = .ok n → 0 < n → o.toNat + n < 2 ^ 63) {o : UInt64}
    (ho : o.toNat < 2 ^ 63) {n : ℕ} {l : Live σ} {x : Live σ × ℕ}
    (h : BoundedLoop.iterate (writeTurn io (fun i b => op b (o + UInt64.ofNat i)) ubuf len) n (l, 0) = .inl x) :
    o.toNat + x.2 < 2 ^ 63 := by
  induction n generalizing x with
  | zero =>
      cases h
      exact ho
  | succ n ih =>
      obtain ⟨z, hz, hturn⟩ := BoundedLoop.iterate_succ_eq_inl h
      obtain ⟨b, y, k, hwrote⟩ := writeTurn_iff.mp hturn
      have hstay := ih hz
      have hmore := hwrote.more
      have hwhole := hwrote.whole
      have hnext := hwrote.next
      have hk : 0 < k := by
        simp only [BOUNCE] at hwhole
        omega
      have hwrite := hop b _ _ k (by rw [hwrote.written]) hk
      rw [toNat_offset o hstay] at hwrite
      omega

section Appending

variable {H : HostStore η σ} {h : η} (hlim : HostLimits H io h) {flags : UInt32}
  (happend : has flags O_APPEND = true) (o : UInt64) {l : Live σ}

include hlim happend

abbrev appendAt (io : FileIo η σ) (h : η) (flags : UInt32) (o : UInt64) (i : ℕ) (b : Bytes) : Call Errno (Live σ) ℕ :=
  hostfilePwrite io h flags b (o + UInt64.ofNat i)

omit hlim in
theorem appendAt_written {i : ℕ} {b : Bytes} {y : σ} {k : ℕ} {l m : Live σ}
    (hrun : (appendAt io h flags o i b).run { l with host := y } = (.ok k, m)) :
    ∃ z, (io.pwrite h b (o + UInt64.ofNat i) true).run y = (.ok k, z) ∧ z = m.host := by
  rw [appendAt, hostfilePwrite, run_reach, happend] at hrun
  obtain ⟨hret, rfl⟩ := Prod.mk.inj hrun
  exact ⟨_, Prod.ext hret rfl, rfl⟩

/-- The loop goes on from whole chunks that the host has taken. -/
theorem takesWhole_of_iterate {n : ℕ} {x : Live σ × ℕ}
    (hx : BoundedLoop.iterate (writeTurn io (appendAt io h flags o) ubuf len) n (l, 0) = .inl x)
    (hlen : x.2 < len) : x.2 = n * BOUNCE ∧ takesWhole io h ubuf o n l.host = some x.1.host := by
  induction n generalizing x with
  | zero =>
      cases hx
      exact ⟨(Nat.zero_mul BOUNCE).symm, rfl⟩
  | succ n ih =>
      obtain ⟨z, hz, hturn⟩ := BoundedLoop.iterate_succ_eq_inl hx
      obtain ⟨b, y, k, hwrote⟩ := writeTurn_iff.mp hturn
      have hcopied := hwrote.copied
      have hwritten := hwrote.written
      have hwhole := hwrote.whole
      have hnext := hwrote.next
      obtain ⟨hdone, htaken⟩ := ih hz hwrote.more
      obtain ⟨w, hput, hhost⟩ := appendAt_written happend o hwritten
      have hb : b.length = min (len - z.2) BOUNCE := hlim.copyIn z.1.host _ _ b (by rw [hcopied])
      have hk : k ≤ b.length := hlim.pwrite_le y b _ _ k (by rw [hput])
      have hfull : min (len - z.2) BOUNCE = BOUNCE := by omega
      rw [hfull, hdone] at hcopied
      rw [hdone] at hput
      refine ⟨by rw [hnext, hdone, Nat.succ_mul]; omega, ?_⟩
      rw [takesWhole, htaken, Option.bind_some, hcopied]
      dsimp only
      rw [hput]
      dsimp only
      rw [if_neg (by omega), hhost]

theorem iterate_of_takesWhole {k : ℕ} {y : σ} (htaken : takesWhole io h ubuf o k l.host = some y)
    (hlen : k * BOUNCE < len) : ∃ x : Live σ × ℕ,
      BoundedLoop.iterate (writeTurn io (appendAt io h flags o) ubuf len) k (l, 0) = .inl x ∧
        x.2 = k * BOUNCE ∧ x.1.host = y := by
  induction k generalizing y with
  | zero =>
      cases htaken
      exact ⟨(l, 0), rfl, (Nat.zero_mul BOUNCE).symm, rfl⟩
  | succ k ih =>
      rw [Nat.succ_mul] at hlen
      rw [takesWhole] at htaken
      obtain ⟨z, hz, hchunk⟩ := Option.bind_eq_some_iff.mp htaken
      obtain ⟨x, hx, hdone, hhost⟩ := ih hz (by omega)
      have hfull : min (len - x.2) BOUNCE = BOUNCE := by omega
      cases hcopy : io.copyIn (ubuf + UInt64.ofNat (k * BOUNCE)) BOUNCE z with
      | mk c v =>
          rw [hcopy] at hchunk
          cases c with
          | none => cases hchunk
          | some b =>
              dsimp only at hchunk
              cases hput : (io.pwrite h b (o + UInt64.ofNat (k * BOUNCE)) true).run v with
              | mk r w =>
                  rw [hput] at hchunk
                  cases r with
                  | error e => cases hchunk
                  | ok n =>
                      dsimp only at hchunk
                      split_ifs at hchunk with hn
                      cases hchunk
                      have hb : b.length = BOUNCE := hlim.copyIn z _ _ b (by rw [hcopy])
                      have hle : n ≤ b.length := hlim.pwrite_le v b _ _ n (by rw [hput])
                      let m : Live σ := { x.1 with host := y, reached := x.1.reached ++ [.pwrite] }
                      have hwritten : (appendAt io h flags o x.2 b).run { x.1 with host := v } = (.ok n, m) := by
                        rw [appendAt, hostfilePwrite, run_reach, happend, hdone, hput]
                      have hcopied : io.copyIn (ubuf + UInt64.ofNat x.2) (min (len - x.2) BOUNCE) x.1.host =
                          (some b, v) := by
                        rw [hfull, hdone, hhost, hcopy]
                      have hturn : writeTurn io (appendAt io h flags o) ubuf len x = .inl (m, x.2 + n) :=
                        writeTurn_iff.mpr ⟨b, v, n, by omega, hcopied, hwritten, by omega, rfl⟩
                      refine ⟨(m, x.2 + n), ?_, ?_, rfl⟩
                      · rw [BoundedLoop.iterate_succ, hx]
                        exact hturn
                      · rw [Nat.succ_mul, hdone]
                        dsimp only
                        omega

end Appending

end Turns

section Ranged

variable {η σ : Type}

structure Table.Ranged (ops : Table σ) : Prop where
  read : ∀ n, Keeps InRange (ops.read n) (fun _ => True)
  write : ∀ b, Keeps InRange (ops.write b) (fun _ => True)
  pread : ∀ op, ops.pread = some op → ∀ n off, Keeps InRange (op n off) (fun _ => True)
  pwrite : ∀ op, ops.pwrite = some op → ∀ b off, Keeps InRange (op b off) (fun _ => True)
  truncate : ∀ op, ops.truncate = some op → ∀ size, Keeps InRange (op size) (fun _ => True)

theorem host_inRange (l : Live σ) (y : σ) (h : InRange l) : InRange { l with host := y } := h

theorem reach_inRange {α : Type} (es : List Reach) (m : Call Errno σ α) :
    Keeps InRange (reach es m) (fun _ => True) := fun _ h => ⟨h, fun _ _ => trivial⟩

theorem inRange_advanced {l : Live σ} (hl : InRange l) {n : ℕ} (hn : 0 < n → l.pos.toNat + n < 2 ^ 63) :
    (l.pos + UInt64.ofNat n).toNat < 2 ^ 63 := by
  rw [InRange] at hl
  have hlt : l.pos.toNat + n < 2 ^ 63 := by
    rcases Nat.eq_zero_or_pos n with rfl | h
    · exact hl
    · exact hn h
  rw [toNat_offset l.pos hlt]
  exact hlt

variable {H : HostStore η σ} {io : FileIo η σ}

theorem hostfileRead_inRange {h : η} (hlim : HostLimits H io h) (n : ℕ) :
    Keeps InRange (hostfileRead io h n) (fun _ => True) := by
  intro l hl
  refine ⟨?_, fun _ _ => trivial⟩
  have hread := hlim.pread l.host n l.pos
  rw [run_hostfileRead]
  cases hrun : (io.pread h n l.pos).run l.host with
  | mk r z =>
      rw [hrun] at hread
      cases r with
      | error e => exact hl
      | ok b => exact inRange_advanced hl fun hb => hread b rfl (List.length_pos_iff.mp hb)

theorem hostfileWrite_inRange {h : η} (hlim : HostLimits H io h) (flags : UInt32) (b : Bytes) :
    Keeps InRange (hostfileWrite H io h flags b) (fun _ => True) := by
  intro l hl
  refine ⟨?_, fun _ _ => trivial⟩
  rw [run_hostfileWrite]
  split_ifs
  · cases (io.pwrite h b 0 true).run l.host with
    | mk r z =>
        cases r with
        | error e => exact hl
        | ok n =>
            have hsize := hlim.stat z
            dsimp only
            split_ifs
            · cases hstat : (H.stat h).run z with
              | mk q w =>
                  rw [hstat] at hsize
                  cases q with
                  | error e => exact hl
                  | ok hs => exact hsize hs rfl
            · exact hl
  · have hwrite := hlim.pwrite l.host b l.pos
    cases hrun : (io.pwrite h b l.pos false).run l.host with
    | mk r z =>
        rw [hrun] at hwrite
        cases r with
        | error e => exact hl
        | ok n => exact inRange_advanced hl (hwrite n rfl)

theorem hostfileOps_ranged {h : η} (hlim : HostLimits H io h) (flags : UInt32) :
    (hostfileOps H io h flags).Ranged where
  read := hostfileRead_inRange hlim
  write := hostfileWrite_inRange hlim flags
  pread op hop n off := by
    cases hop
    exact reach_inRange _ _
  pwrite op hop b off := by
    cases hop
    exact reach_inRange _ _
  truncate op hop size := by
    cases hop
    exact reach_inRange _ _

theorem snapOps_ranged {t : Bytes} (ht : t.length < 2 ^ 63) : (snapOps t : Table σ).Ranged where
  read n := by
    intro l hl
    refine ⟨?_, fun _ _ => trivial⟩
    change (l.pos + UInt64.ofNat ((t.drop l.pos.toNat).take n).length).toNat < 2 ^ 63
    apply inRange_advanced hl
    simp
    omega
  write _ := Keeps.throw
  pread op hop n off := by
    cases hop
    exact Keeps.pure trivial
  pwrite op hop := by cases hop
  truncate op hop := by cases hop

variable {ops : Table σ} (hops : ops.Ranged) {flags : UInt32}

include hops

theorem doRead_inRange (ubuf : UInt64) (len : ℤ) (off : Option UInt64) :
    Keeps InRange (doRead io ops flags ubuf len off) (fun _ => True) := by
  unfold doRead
  refine (reach_inRange _ _).bind fun b _ => ?_
  split_ifs
  · exact Keeps.throw
  · exact Keeps.throw
  · exact Keeps.throw
  · exact Keeps.throw
  cases off with
  | none => exact readLoop_keeps host_inRange (fun _ n => hops.read n) ubuf _
  | some off =>
      cases hop : ops.pread with
      | none => exact Keeps.throw
      | some op => exact readLoop_keeps host_inRange (fun _ n => hops.pread op hop n _) ubuf _

theorem doWrite_inRange (ubuf : UInt64) (len : ℤ) (off : Option UInt64) :
    Keeps InRange (doWrite io ops flags ubuf len off) (fun _ => True) := by
  unfold doWrite
  refine (reach_inRange _ _).bind fun b _ => ?_
  split_ifs
  · exact Keeps.throw
  · exact Keeps.throw
  · exact Keeps.throw
  · exact Keeps.throw
  cases off with
  | none => exact writeLoop_keeps host_inRange (fun _ b => hops.write b) ubuf _
  | some off =>
      cases hop : ops.pwrite with
      | none => exact Keeps.throw
      | some op => exact writeLoop_keeps host_inRange (fun _ b => hops.pwrite op hop b _) ubuf _

theorem sysFtruncate_inRange (size : ℤ) : Keeps InRange (sysFtruncate ops flags size) (fun _ => True) := by
  rw [sysFtruncate]
  split_ifs
  · exact Keeps.throw
  · exact Keeps.throw
  cases hop : ops.truncate with
  | none => exact Keeps.throw
  | some op => exact (hops.truncate op hop _).bind fun _ _ => Keeps.pure trivial

omit hops in
theorem liftExcept_inRange {α : Type} (r : Except Errno α) :
    Keeps InRange (liftM r : Call Errno (Live σ) α) (fun _ => True) := by
  intro l hl
  rw [KeepsAt, run_liftExcept]
  exact ⟨hl, fun _ _ => trivial⟩

omit hops in
theorem vectorLoop_inRange {one : UInt64 → ℤ → Call Errno (Live σ) ℕ}
    (hone : ∀ base len, Keeps InRange (one base len) (fun _ => True)) (vs : List Iovec) (total : ℕ) :
    Keeps InRange (vectorLoop one total vs) (fun _ => True) := by
  induction vs generalizing total with
  | nil => exact Keeps.pure trivial
  | cons v vs ih =>
      rw [vectorLoop]
      split_ifs
      · exact ih total
      · exact liftExcept_inRange _
      refine (hone v.base v.len).attempt.bind fun r _ => ?_
      cases r with
      | error e => exact liftExcept_inRange _
      | ok n =>
          dsimp only
          split_ifs
          · exact Keeps.pure trivial
          · exact ih (total + n)

omit hops in
theorem sysReadvWritev_inRange {alloc : StateM σ Bool} {one : UInt64 → ℤ → Call Errno (Live σ) ℕ}
    (hone : ∀ base len, Keeps InRange (one base len) (fun _ => True)) (uiov : UInt64) (cnt : ℤ) :
    Keeps InRange (sysReadvWritev io alloc one uiov cnt) (fun _ => True) := by
  rw [sysReadvWritev]
  split_ifs
  · exact Keeps.throw
  refine (reach_inRange _ _).bind fun iov _ => ?_
  split_ifs
  · exact Keeps.throw
  refine (reach_inRange _ _).bind fun copied _ => ?_
  cases copied with
  | none => exact Keeps.throw
  | some b => exact vectorLoop_inRange hone _ 0

end Ranged

section Sums

variable {η σ : Type} {H : HostStore η σ} {io : FileIo η σ} {f : Seekable η} {flags : UInt32} {l : Live σ}

theorem fits_offset {off : Int64} (hoff : 0 ≤ off.toInt) (i : ℕ) :
    SignedWords.Fits (off.toInt + i) ↔ (offsetWord off).toNat + i < 2 ^ 63 := by
  have hnat := toNat_offsetWord hoff
  rw [SignedWords.Fits]
  omega

theorem offset_lt {off : Int64} (hoff : 0 ≤ off.toInt) : (offsetWord off).toNat < 2 ^ 63 := by
  have hnat := toNat_offsetWord hoff
  have hlt := Int64.toInt_lt off
  omega

theorem readSums_fit (hf : f.Limited H io) (ubuf : UInt64) (len : ℕ) {off : Int64} (hoff : 0 ≤ off.toInt) :
    ∀ s ∈ readSums H io f flags ubuf len off l, SignedWords.Fits s := by
  rintro s ⟨_, op, hop, n, x, hx, _, rfl⟩
  rw [fits_offset hoff]
  cases f with
  | host h =>
      cases hop
      refine read_stays ?_ (offset_lt hoff) hx
      intro n o l b hb hne
      rw [hostfilePread, run_reach] at hb
      exact hf.pread l.host n o b hb hne
  | text t =>
      cases hop
      refine read_stays ?_ (offset_lt hoff) hx
      intro n o l b hb hne
      have hlen : t.length < 2 ^ 63 := hf
      obtain rfl : (t.drop o.toNat).take n = b := Except.ok.inj hb
      have hpos := List.length_pos_iff.mpr hne
      simp at hpos ⊢
      omega

/-- A write at an offset keeps its sums exactly when what it appends stays below 2^63. -/
theorem writeSums_fit_iff {h : η} (hlim : HostLimits H io h) (ubuf : UInt64) (len : ℕ) {off : Int64}
    (hoff : 0 ≤ off.toInt) : (∀ s ∈ writeSums H io (.host h) flags ubuf len off l, SignedWords.Fits s) ↔
      AppendsBelow io flags h ubuf len off l := by
  have hop : writeOf (hostfileOps H io h flags) (some (offsetWord off)) =
      some (appendAt io h flags (offsetWord off)) := rfl
  cases happend : has flags O_APPEND with
  | false =>
      refine ⟨fun _ h => absurd (happend.symm.trans h) Bool.false_ne_true, fun _ => ?_⟩
      rintro s ⟨_, op, hop', n, x, hx, _, _, rfl⟩
      rw [fits_offset hoff]
      cases hop'
      refine write_stays ?_ (offset_lt hoff) hx
      intro b o l n hn hpos
      rw [hostfilePwrite, run_reach, happend] at hn
      exact hlim.pwrite l.host b o n hn hpos
  | true =>
      constructor
      · intro hfit _ hopen k y hk htaken hcopy
        obtain ⟨x, hx, hdone, rfl⟩ := iterate_of_takesWhole hlim happend (offsetWord off) htaken hk
        rw [← hdone] at hk hcopy
        have hsum := hfit _ ⟨hopen, _, hop, k, x, hx, hk, hcopy, rfl⟩
        rw [hdone] at hsum
        exact_mod_cast hsum.2
      · rintro hbelow s ⟨hopen, op, hop', n, x, hx, hlen, hcopy, rfl⟩
        obtain rfl := Option.some.inj (hop.symm.trans hop')
        obtain ⟨hdone, htaken⟩ := takesWhole_of_iterate hlim happend (offsetWord off) hx hlen
        rw [hdone] at hlen hcopy ⊢
        have hlt := hbelow happend hopen n _ hlen htaken hcopy
        rw [SignedWords.Fits]
        push_cast
        omega

end Sums

section Runs

variable {η σ : Type} {H : HostStore η σ} {io : FileIo η σ} {alloc : StateM σ Bool} {f : Seekable η}
  (hf : f.Limited H io)

include hf

theorem ops_ranged (flags : UInt32) : (f.ops H io flags).Ranged := by
  cases f with
  | host h => exact hostfileOps_ranged hf flags
  | text t => exact snapOps_ranged hf

theorem run_inRange (flags : UInt32) (c : PositionCall) :
    Keeps InRange (c.run H io alloc f flags) (fun _ => True) := by
  have hops := ops_ranged hf flags
  cases c with
  | read ubuf len => exact doRead_inRange hops ubuf _ none
  | write ubuf len => exact doWrite_inRange hops ubuf _ none
  | readv uiov cnt => exact sysReadvWritev_inRange (fun base len => doRead_inRange hops base len none) uiov _
  | writev uiov cnt => exact sysReadvWritev_inRange (fun base len => doWrite_inRange hops base len none) uiov _
  | pread64 ubuf len off =>
      rw [PositionCall.run]
      split_ifs
      · exact Keeps.throw
      · exact doRead_inRange hops ubuf _ _
  | pwrite64 ubuf len off =>
      rw [PositionCall.run]
      split_ifs
      · exact Keeps.throw
      · exact doWrite_inRange hops ubuf _ _
  | lseek off whence =>
      have hseek : Keeps InRange (f.lseek H off whence) (fun _ => True) :=
        fun l hl => ⟨lseek_inRange hf hl whence off, fun _ _ => trivial⟩
      exact hseek.bind fun _ _ => Keeps.pure trivial
  | ftruncate size => exact sysFtruncate_inRange hops _

theorem seekSum_fit_iff {l : Live σ} (hl : InRange l) (off : Int64) (whence : Int32) :
    (∀ base, ((f.base H whence).run l).1 = .ok base → SignedWords.Fits (base.toInt + off.toInt)) ↔
      ∀ b, f.origin H whence l = some b → b + off.toInt < 2 ^ 63 := by
  have hbase := base_origin hf hl whence
  have hlow := Int64.le_toInt off
  cases ho : f.origin H whence l with
  | none =>
      rw [ho] at hbase
      obtain ⟨e, m, hrun, _⟩ := hbase
      rw [hrun]
      exact ⟨fun _ _ h => (nomatch h), fun _ _ h => (nomatch h)⟩
  | some b =>
      rw [ho] at hbase
      obtain ⟨base, m, hrun, hb, _⟩ := hbase
      rw [hrun]
      constructor
      · intro h b' hb'
        obtain rfl := Option.some.inj hb'
        have hfit := (h base rfl).2
        omega
      · intro h base' hbase'
        obtain rfl := Except.ok.inj hbase'
        have hlt := h b rfl
        rw [SignedWords.Fits]
        omega

theorem exact_iff {flags : UInt32} {l : Live σ} (hl : InRange l) (c : PositionCall) :
    c.Exact H io f flags l ↔ c.Contained H io f flags l := by
  have hplain : (∀ off whence, c ≠ .lseek off whence) →
      (c.Exact H io f flags l ↔ ∀ s ∈ c.sums H io f flags l, SignedWords.Fits s) := by
    intro hc
    exact ⟨fun h => h.fit, fun h => ⟨h, fun off whence he => absurd he (hc off whence)⟩⟩
  cases c with
  | lseek off whence =>
      have hsum := seekSum_fit_iff hf hl off whence
      constructor
      · intro h
        exact hsum.mp fun base hbase => h.fit _ ⟨base, hbase, rfl⟩
      · intro h
        refine ⟨?_, ?_⟩
        · rintro s ⟨base, hbase, rfl⟩
          exact hsum.mpr h base hbase
        · rintro _ _ ⟨⟩ hplace
          exact lseek_sought hf hl whence off hplace
  | pread64 ubuf len off =>
      rw [hplain (fun _ _ => nofun)]
      refine ⟨fun _ => trivial, ?_⟩
      rintro _ s ⟨hoff, _, hs⟩
      exact readSums_fit hf ubuf _ hoff s hs
  | pwrite64 ubuf len off =>
      rw [hplain (fun _ _ => nofun)]
      cases f with
      | text t =>
          refine ⟨fun _ _ _ => trivial, ?_⟩
          rintro _ s ⟨_, _, _, op, hop, _⟩
          cases hop
      | host h =>
          constructor
          · intro hfit hoff hlen
            exact (writeSums_fit_iff hf ubuf _ hoff).mp fun s hs => hfit s ⟨hoff, hlen, hs⟩
          · rintro hbelow s ⟨hoff, hlen, hs⟩
            exact (writeSums_fit_iff hf ubuf _ hoff).mpr (hbelow hoff hlen) s hs
  | read ubuf len | write ubuf len | readv uiov cnt | writev uiov cnt | ftruncate size =>
      rw [hplain (fun _ _ => nofun)]
      exact ⟨fun _ => trivial, fun _ s hs => (nomatch hs)⟩

theorem step_inRange {s : PositionState σ} (hs : InRange s.live) (a : PositionAct σ) :
    InRange (s.step H io alloc f a).live := by
  cases a with
  | call c => exact (run_inRange hf s.flags c s.live hs).1
  | setfl arg => exact hs
  | elsewhere y => exact hs

theorem step_exact_iff {s : PositionState σ} (hs : InRange s.live) (a : PositionAct σ) :
    s.Exact H io alloc f a ↔ s.Contained H io f a := by
  have hnext := @step_inRange _ _ H io alloc f hf s hs a
  cases a with
  | call c =>
      refine ⟨fun h => (exact_iff hf hs c).mp (h.call c rfl), fun h => ⟨?_, hnext⟩⟩
      rintro _ ⟨⟩
      exact (exact_iff hf hs c).mpr h
  | setfl arg => exact ⟨fun _ => trivial, fun _ => ⟨fun _ h => (nomatch h), hnext⟩⟩
  | elsewhere y => exact ⟨fun _ => trivial, fun _ => ⟨fun _ h => (nomatch h), hnext⟩⟩

/-- The runs that keep to the mathematical positions are those whose sums all stay below 2^63. -/
theorem positions_exact {s : PositionState σ} (hs : InRange s.live) (acts : List (PositionAct σ)) :
    ActionRuns.Along (PositionState.step H io alloc f) (PositionState.Contained H io f) s acts ↔
      ActionRuns.Along (PositionState.step H io alloc f) (PositionState.Exact H io alloc f) s acts := by
  constructor
  · intro h
    have hstep : ∀ (s : PositionState σ) a, InRange s.live → s.Contained H io f a →
        InRange (s.step H io alloc f a).live ∧ s.Exact H io alloc f a := by
      intro s a hs ha
      exact ⟨step_inRange hf hs a, (step_exact_iff hf hs a).mpr ha⟩
    exact (ActionRuns.along_invariant hstep acts hs h).2
  · intro h
    have hstep : ∀ (s : PositionState σ) a, InRange s.live → s.Exact H io alloc f a →
        InRange (s.step H io alloc f a).live ∧ s.Contained H io f a := by
      intro s a hs ha
      exact ⟨ha.inRange, (step_exact_iff hf hs a).mp ha⟩
    exact (ActionRuns.along_invariant hstep acts hs h).2

end Runs

/-- The file `abc` on a host that lets it be read. -/
def abcStore : HostStore Unit Unit :=
  { HostStore.idle with stat := fun _ => ExceptT.mk fun y => (.ok { size := 3 }, y) }

def abcIo : FileIo Unit Unit :=
  { memoryIo (fun _ => some 0) true with
    pread := fun _ n off => ExceptT.mk fun y => (.ok (((str "abc").drop off.toNat).take n), y)
    copyOut := fun _ _ => pure true }

theorem abc_limits : HostLimits abcStore abcIo () where
  pread y n off b h hne := by
    obtain rfl : ((str "abc").drop off.toNat).take n = b := Except.ok.inj h
    have hlen : (str "abc").length = 3 := rfl
    have hpos := List.length_pos_iff.mpr hne
    simp [hlen] at hpos ⊢
    omega
  pwrite _ _ _ _ h := by cases h
  pwrite_le _ _ _ _ _ h := by cases h
  stat _ _ h := by
    cases h
    decide
  copyIn _ a n b h := by
    rw [Transfers.length_gather h, length_userRange]

def abcAt (pos : UInt64) : PositionState Unit := ⟨O_RDONLY, ⟨(), pos, ⟨0, false, [], none⟩, []⟩⟩

theorem abc_positions_exact :
    ActionRuns.Along (PositionState.step abcStore abcIo (pure true) (.host ()))
      (PositionState.Exact abcStore abcIo (pure true) (.host ())) (abcAt 0)
      [.call (.lseek 1 SEEK_SET), .call (.read 0x1000 1), .call (.lseek 0 SEEK_END), .call (.pread64 0x1000 2 1)] := by
  have hstart : InRange (abcAt 0).live := by
    rw [InRange]
    decide
  apply (positions_exact (f := .host ()) abc_limits hstart _).mp
  refine ⟨?_, trivial, ?_, trivial, trivial⟩
  · rintro b ⟨⟩
    decide
  · rintro b ⟨⟩
    decide

/-- A seek from the position 1 by the largest offset adds up to 2^63. -/
theorem seek_sum_overflows : (abcAt 1).live.pos = 1 ∧
    ¬ ActionRuns.Along (PositionState.step abcStore abcIo (pure true) (.host ()))
      (PositionState.Exact abcStore abcIo (pure true) (.host ())) (abcAt 1)
      [.call (.lseek Int64.maxValue SEEK_CUR)] := by
  refine ⟨rfl, fun h => ?_⟩
  have hfit := (h.1.call _ rfl).fit (1 + Int64.maxValue.toInt) ⟨(1 : UInt64).toInt64, rfl, rfl⟩
  exact absurd hfit (by decide)

end SysvNt.FileOps
