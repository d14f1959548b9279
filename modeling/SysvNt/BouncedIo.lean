import SysvNt.ReadKinds
import SysvNt.VectorCalls

/-!
# Reads and writes of a host file

A call on a host file moves its bytes through the bounce buffer, one chunk after the other and one
vector after the other. What it leaves is what one transfer over all the places would leave that
stopped where the call did.
-/

namespace SysvNt.FileOps

open FallibleCalls Transfers

/-- What a call on a file may look at: the file's bytes, user memory, and the rest. -/
structure FileView (ρ : Type) where
  data : Bytes
  mem : UInt64 → Option UInt8
  other : ρ

variable {η σ ρ : Type}

/-- A host file that nobody else writes, as `hostfs.h` says of its calls, with user memory of which some
places can be written. `ready` tells whether there is a bounce buffer. -/
structure PlainFile (H : HostStore η σ) (io : FileIo η σ) (h : η) (view : σ → FileView ρ)
    (writable : UInt64 → Prop) (ready : Bool) : Prop where
  pwrite_le : ∀ y b off append n, ((io.pwrite h b off append).run y).1 = .ok n → n ≤ b.length
  pwrite : ∀ y b off append, let start := if append then (view y).data.length else off.toNat
    start + b.length < 2 ^ 63 → match (io.pwrite h b off append).run y with
      | (.ok n, z) => view z = { view y with data := writeAt 0 (view y).data start (b.take n) }
      | (.error _, z) => view z = view y
  pread_le : ∀ y n off b, ((io.pread h n off).run y).1 = .ok b → b.length ≤ n
  pread : ∀ y n off, off.toNat + n < 2 ^ 63 → ∃ z,
    (io.pread h n off).run y = (.ok (((view y).data.drop off.toNat).take n), z) ∧ view z = view y
  stat : ∀ y, ∃ hs z, (H.stat h).run y = (.ok hs, z) ∧
    hs.size = UInt64.ofNat (view y).data.length ∧ view z = view y
  copyIn : ∀ y a n, (io.copyIn a n y).1 = gather (view y).mem (userRange a n) ∧
    view (io.copyIn a n y).2 = view y
  copyOut : ∀ y a b, (∀ p ∈ userRange a b.length, writable p) → ∃ z, io.copyOut a b y = (true, z) ∧
    view z = { view y with mem := scatter (view y).mem (userRange a b.length) b }
  bounce : ∀ y, (io.bounce y).1 = ready ∧ view (io.bounce y).2 = view y

section Specification

variable (view : σ → FileView ρ)

/-- Where a call starts that has done `i` bytes: at the end when it appends, else at the position, or
at the offset that it was given. -/
def beginAt (append : Bool) (off : Option UInt64) (i : ℕ) (l : Live σ) : ℕ :=
  if append then (view l.host).data.length else off.elim l.pos.toNat fun o => o.toNat + i

/-- One write of the first bytes that the places hold, as many as the call returns. -/
def WrittenOnce (append : Bool) (off : Option UInt64) (i : ℕ) (l : Live σ) (ps : List UInt64) (r : Except Errno ℕ)
    (m : Live σ) : Prop :=
  beginAt view append off i l + ps.length < 2 ^ 63 → match r with
    | .ok n => n ≤ ps.length ∧ ∃ b, gather (view l.host).mem (ps.take n) = some b ∧
        view m.host = { view l.host with data := writeAt 0 (view l.host).data (beginAt view append off i l) b } ∧
        m.pos = if off = none ∧ n ≠ 0 then UInt64.ofNat (beginAt view append off i l + n) else l.pos
    | .error _ => view m.host = view l.host ∧ m.pos = l.pos

/-- One read of the file's bytes from where the call starts. -/
def DeliveredOnce (writable : UInt64 → Prop) (off : Option UInt64) (i : ℕ) (l : Live σ) (ps : List UInt64)
    (r : Except Errno ℕ) (m : Live σ) : Prop :=
  beginAt view false off i l + ps.length < 2 ^ 63 → (∀ p ∈ ps, writable p) →
    let b := ((view l.host).data.drop (beginAt view false off i l)).take ps.length
    r = .ok b.length ∧ view m.host = { view l.host with mem := scatter (view l.host).mem ps b } ∧
      m.pos = if off = none then l.pos + UInt64.ofNat b.length else l.pos

end Specification

variable {view : σ → FileView ρ} {append : Bool} {off : Option UInt64} {i : ℕ} {l l' m : Live σ}

theorem beginAt_congr (hview : view l'.host = view l.host) (hpos : l'.pos = l.pos) :
    beginAt view append off i l' = beginAt view append off i l := by
  rw [beginAt, beginAt, hview, hpos]

theorem WrittenOnce.of_eq {ps : List UInt64} {r : Except Errno ℕ} (hview : view l'.host = view l.host)
    (hpos : l'.pos = l.pos) (h : WrittenOnce view append off i l' ps r m) : WrittenOnce view append off i l ps r m := by
  rw [WrittenOnce.eq_def, beginAt_congr hview hpos, hview, hpos] at h
  exact h

theorem DeliveredOnce.of_eq {writable : UInt64 → Prop} {ps : List UInt64} {r : Except Errno ℕ}
    (hview : view l'.host = view l.host) (hpos : l'.pos = l.pos) (h : DeliveredOnce view writable off i l' ps r m) :
    DeliveredOnce view writable off i l ps r m := by
  rw [DeliveredOnce, beginAt_congr hview hpos, hview, hpos] at h
  exact h

/-- What follows some bytes starts after them. -/
theorem beginAt_next {b : Bytes} {n : ℕ} (hroom : beginAt view append off i l + n < 2 ^ 63) (hb : b.length = n)
    (hdata : (view m.host).data = writeAt 0 (view l.host).data (beginAt view append off i l) b)
    (hpos : m.pos = if off = none ∧ n ≠ 0 then UInt64.ofNat (beginAt view append off i l + n) else l.pos) :
    beginAt view append off (i + n) m = beginAt view append off i l + n := by
  cases append with
  | true =>
      have hstart : beginAt view true off i l = (view l.host).data.length := rfl
      rw [beginAt, if_pos rfl, hdata, hstart, writeAt_end, List.length_append, hb]
  | false =>
      cases off with
      | some o => exact (Nat.add_assoc o.toNat i n).symm
      | none =>
          have hstart : beginAt view false none i l = l.pos.toNat := rfl
          rw [hstart] at hroom hpos ⊢
          change m.pos.toNat = _
          by_cases hn : n = 0
          · rw [hpos, if_neg (fun h => h.2 hn), hn, Nat.add_zero]
          · rw [hpos, if_pos ⟨rfl, hn⟩, UInt64.toNat_ofNat_of_lt']
            exact lt_trans hroom (by decide)

theorem written_piecewise : Piecewise (WrittenOnce view append off) where
  done := fun i l _ => by
    refine ⟨le_refl 0, [], rfl, ?_, (if_neg fun h => h.2 rfl).symm⟩
    rw [writeAt_nil]
  onward := by
    intro i l t u ps qs r hps hqs hroom
    rw [List.length_append, ← Nat.add_assoc] at hroom
    obtain ⟨_, b, hb, hview, hpos⟩ := hps (by omega)
    rw [List.take_length] at hb
    have hlen := length_gather hb
    have hnext := beginAt_next (by omega) hlen (congrArg FileView.data hview) hpos
    have hmem : (view t.host).mem = (view l.host).mem := by rw [hview]
    have hrest := hqs (by omega)
    rw [hnext, hmem] at hrest
    cases r with
    | ok k =>
        obtain ⟨hk, c, hc, hview', hpos'⟩ := hrest
        refine ⟨?_, b ++ c, ?_, ?_, ?_⟩
        · rw [List.length_append]
          omega
        · rw [List.take_length_add_append, gather_append, hb, hc]
          rfl
        · rw [hview', hview, ← writeAt_append, hlen]
        · rw [hpos', hpos]
          by_cases hk0 : k = 0
          · simp [hk0]
          · by_cases hoff : off = none
            · simp [hoff, hk0, Nat.add_assoc]
            · simp [hoff]
    | error e =>
        obtain ⟨hview', hpos'⟩ := hrest
        by_cases h0 : 0 < ps.length
        · rw [after, if_pos h0]
          refine ⟨?_, b, ?_, hview'.trans hview, hpos'.trans hpos⟩
          · rw [List.length_append]
            omega
          · rw [List.take_left]
            exact hb
        · rw [after, if_neg h0]
          have hnil : b = [] := List.length_eq_zero_iff.mp (by omega)
          rw [hnil, writeAt_nil] at hview
          rw [if_neg (fun h => h.2 (by omega))] at hpos
          exact ⟨hview'.trans hview, hpos'.trans hpos⟩
  short := by
    intro i l t n ps qs hps hn hroom
    rw [List.length_append] at hroom
    obtain ⟨_, b, hb, hview, hpos⟩ := hps (by omega)
    refine ⟨?_, b, ?_, hview, hpos⟩
    · rw [List.length_append]
      omega
    · rwa [List.take_append_of_le_length (le_of_lt hn)]
  failed := by
    intro i l t e ps qs hps hroom
    rw [List.length_append] at hroom
    exact hps (by omega)

/-- What follows some bytes that were read starts after them. -/
theorem beginAt_next_read {n : ℕ} (hroom : beginAt view false off i l + n < 2 ^ 63)
    (hpos : m.pos = if off = none then l.pos + UInt64.ofNat n else l.pos) :
    beginAt view false off (i + n) m = beginAt view false off i l + n := by
  cases off with
  | some o => exact (Nat.add_assoc o.toNat i n).symm
  | none =>
      change l.pos.toNat + n < 2 ^ 63 at hroom
      change m.pos.toNat = l.pos.toNat + n
      have hsize : n < UInt64.size := lt_trans (by omega) (by decide : 2 ^ 63 < UInt64.size)
      have hn : (UInt64.ofNat n).toNat = n := UInt64.toNat_ofNat_of_lt' hsize
      rw [hpos, if_pos rfl, UInt64.toNat_add, hn]
      omega

theorem delivered_piecewise {writable : UInt64 → Prop} : Piecewise (DeliveredOnce view writable off) where
  done := fun i l _ _ => by
    refine ⟨rfl, ?_, ?_⟩
    · rw [List.length_nil, List.take_zero, scatter_nil]
    · rw [List.length_nil, List.take_zero]
      split_ifs
      · exact (UInt64.add_zero l.pos).symm
      · rfl
  onward := by
    intro i l t u ps qs r hps hqs hroom hwritable
    rw [List.length_append, ← Nat.add_assoc] at hroom
    obtain ⟨hret, hview, hpos⟩ := hps (by omega) (fun p hp => hwritable p (List.mem_append_left qs hp))
    have hlen := (Except.ok.inj hret).symm
    rw [hlen] at hpos
    have hstart : beginAt view false off i l + ps.length < 2 ^ 63 := by omega
    have hnext := beginAt_next_read hstart hpos
    have hdata : (view t.host).data = (view l.host).data := by rw [hview]
    obtain ⟨rfl, hview', hpos'⟩ := hqs (by omega) (fun p hp => hwritable p (List.mem_append_right ps hp))
    rw [hnext, hdata, ← List.drop_drop] at hview' hpos'
    refine ⟨?_, ?_, ?_⟩
    · rw [hnext, hdata, ← List.drop_drop, List.length_append, List.take_add, List.length_append, hlen]
      rfl
    · rw [hview', hview, List.length_append, List.take_add, scatter_append _ hlen]
    · rw [hpos', hpos, List.length_append, List.take_add, List.length_append, hlen]
      split_ifs
      · exact pos_advance_add l.pos _ _
      · rfl
  short := by
    intro i l t n ps qs hps hn hroom hwritable
    rw [List.length_append] at hroom
    obtain ⟨hret, hview, hpos⟩ := hps (by omega) (fun p hp => hwritable p (List.mem_append_left qs hp))
    have hend : ((view l.host).data.drop (beginAt view false off i l)).take (ps ++ qs).length =
        ((view l.host).data.drop (beginAt view false off i l)).take ps.length := by
      have hlen := Except.ok.inj hret
      rw [List.length_take] at hlen
      rw [List.length_append, List.take_of_length_le (by omega), List.take_of_length_le (by omega)]
    dsimp only
    rw [hend]
    refine ⟨hret, ?_, hpos⟩
    rw [hview, scatter_short]
    exact List.length_take_le _ _
  failed := by
    intro i l t e ps qs hps hroom hwritable
    rw [List.length_append] at hroom
    obtain ⟨hret, _⟩ := hps (by omega) (fun p hp => hwritable p (List.mem_append_left qs hp))
    cases hret

/-- What one write of the host leaves: some of the first bytes where the call starts, or nothing. -/
def Stored (view : σ → FileView ρ) (append : Bool) (off : Option UInt64) (i : ℕ) (l : Live σ) (b : Bytes)
    (r : Except Errno ℕ × Live σ) : Prop :=
  beginAt view append off i l + b.length < 2 ^ 63 → match r with
    | (.ok n, m) => n ≤ b.length ∧
        view m.host = { view l.host with
          data := writeAt 0 (view l.host).data (beginAt view append off i l) (b.take n) } ∧
        m.pos = if off = none ∧ n ≠ 0 then UInt64.ofNat (beginAt view append off i l + n) else l.pos
    | (.error _, m) => view m.host = view l.host ∧ m.pos = l.pos

theorem run_reach {α : Type} (es : List Reach) (c : Call Errno σ α) (l : Live σ) : (reach es c).run l =
    ((c.run l.host).1, { l with host := (c.run l.host).2, reached := l.reached ++ es }) := rfl

/-- `do_read` on a host file, at the position or at an offset. -/
def readFile (H : HostStore η σ) (io : FileIo η σ) (h : η) (flags : UInt32) (off : Option UInt64) (ubuf : UInt64)
    (len : ℤ) : Call Errno (Live σ) ℕ :=
  doRead io (hostfileOps H io h flags) flags ubuf len off

/-- `do_write` on a host file, at the position or at an offset. -/
def writeFile (H : HostStore η σ) (io : FileIo η σ) (h : η) (flags : UInt32) (off : Option UInt64) (ubuf : UInt64)
    (len : ℤ) : Call Errno (Live σ) ℕ := doWrite io (hostfileOps H io h flags) flags ubuf len off

theorem run_hostfileRead (io : FileIo η σ) (h : η) (n : ℕ) (l : Live σ) :
    (hostfileRead io h n).run l = match (io.pread h n l.pos).run l.host with
      | (.error e, z) => (.error e, { l with host := z, reached := l.reached ++ [.pread] })
      | (.ok b, z) =>
        (.ok b, { l with host := z, pos := l.pos + UInt64.ofNat b.length, reached := l.reached ++ [.pread] }) := by
  rw [hostfileRead, run_bind]
  change (reach [.pread] (io.pread h n l.pos) >>= _ : Call Errno (Live σ) Bytes).run l = _
  rw [run_bind, run_reach]
  cases (io.pread h n l.pos).run l.host with
  | mk r z => cases r <;> rfl

theorem run_hostfileWrite (H : HostStore η σ) (io : FileIo η σ) (h : η) (flags : UInt32) (b : Bytes) (l : Live σ) :
    (hostfileWrite H io h flags b).run l =
      if has flags O_APPEND then match (io.pwrite h b 0 true).run l.host with
        | (.error e, z) => (.error e, { l with host := z, reached := l.reached ++ [.pwrite] })
        | (.ok n, z) =>
          if 0 < n then match (H.stat h).run z with
            | (.ok hs, w) => (.ok n, { l with host := w, pos := hs.size, reached := l.reached ++ [.pwrite] ++ [] })
            | (.error _, w) => (.ok n, { l with host := w, reached := l.reached ++ [.pwrite] ++ [] })
          else (.ok n, { l with host := z, reached := l.reached ++ [.pwrite] })
      else match (io.pwrite h b l.pos false).run l.host with
        | (.error e, z) => (.error e, { l with host := z, reached := l.reached ++ [.pwrite] })
        | (.ok n, z) =>
          (.ok n, { l with host := z, pos := l.pos + UInt64.ofNat n, reached := l.reached ++ [.pwrite] }) := by
  rw [hostfileWrite, run_bind]
  change (if has flags O_APPEND then _ else _ : Call Errno (Live σ) ℕ).run l = _
  split_ifs
  · rw [run_bind, run_reach]
    cases (io.pwrite h b 0 true).run l.host with
    | mk r z =>
        cases r with
        | error e => rfl
        | ok n =>
            dsimp only
            split_ifs
            · rw [run_bind, run_attempt, run_reach]
              cases (H.stat h).run z with
              | mk q w => cases q <;> rfl
            · rfl
  · rw [run_bind, run_reach]
    cases (io.pwrite h b l.pos false).run l.host with
    | mk r z => cases r <;> rfl

def Outcome (l : Live σ) (c : Call Errno (Live σ) ℕ) (P : Except Errno ℕ → Live σ → Prop) : Prop :=
  P (c.run l).1 (c.run l).2

def MayRead (flags : UInt32) : Prop :=
  flags &&& O_ACCMODE ≠ O_WRONLY ∧ flags &&& O_ACCMODE ≠ 3 ∧ has flags O_PATH = false

/-- The call found no memory for the kernel's own buffer and changed nothing. -/
def NoMemory (view : σ → FileView ρ) (l : Live σ) (r : Except Errno ℕ) (m : Live σ) : Prop :=
  r = .error .ENOMEM ∧ view m.host = view l.host ∧ m.pos = l.pos

theorem ioRefused_read {flags : UInt32} (h : MayRead flags) (ready : Bool) (len : ℕ) :
    ioRefused O_WRONLY flags ready len = if ready then none else some .ENOMEM := by
  have hmode : ¬ (flags &&& O_ACCMODE = O_WRONLY ∨ flags &&& O_ACCMODE = 3) := not_or.mpr ⟨h.1, h.2.1⟩
  rw [ioRefused, if_neg (by omega), if_neg hmode, h.2.2]
  cases ready <;> rfl

section Host

variable {H : HostStore η σ} {io : FileIo η σ} {h : η} {writable : UInt64 → Prop} {ready : Bool}
  (hF : PlainFile H io h view writable ready) (flags : UInt32)

include hF

theorem pwrite_stored {append : Bool} {off : Option UInt64} {i : ℕ} {l : Live σ} {b : Bytes} {o : UInt64}
    (ho : append = false → beginAt view append off i l + b.length < 2 ^ 63 → o.toNat = beginAt view append off i l)
    (hroom : beginAt view append off i l + b.length < 2 ^ 63) :
    match (io.pwrite h b o append).run l.host with
      | (.ok n, z) => n ≤ b.length ∧ view z = { view l.host with
          data := writeAt 0 (view l.host).data (beginAt view append off i l) (b.take n) }
      | (.error _, z) => view z = view l.host := by
  have hstart : (if append then (view l.host).data.length else o.toNat) = beginAt view append off i l := by
    cases append with
    | true => rfl
    | false => exact ho rfl hroom
  have hle := hF.pwrite_le l.host b o append
  have hwrite := hF.pwrite l.host b o append
  rw [hstart] at hwrite
  have hdone := hwrite hroom
  cases hrun : (io.pwrite h b o append).run l.host with
  | mk r z =>
      rw [hrun] at hdone hle
      cases r with
      | error e => exact hdone
      | ok n => exact ⟨hle n rfl, hdone⟩

theorem hostfilePwrite_stored (o : UInt64) (i : ℕ) (l : Live σ) (b : Bytes) :
    Stored view (has flags O_APPEND) (some o) i l b
      ((hostfilePwrite io h flags b (o + UInt64.ofNat i)).run l) := by
  intro hroom
  have hoff : has flags O_APPEND = false →
      beginAt view (has flags O_APPEND) (some o) i l + b.length < 2 ^ 63 →
        (o + UInt64.ofNat i).toNat = beginAt view (has flags O_APPEND) (some o) i l := by
    intro hplain hlt
    have hstart : beginAt view (has flags O_APPEND) (some o) i l = o.toNat + i := by
      rw [beginAt, hplain]
      rfl
    rw [hstart] at hlt ⊢
    rw [UInt64.toNat_add, UInt64.toNat_ofNat']
    omega
  have hdone := pwrite_stored hF hoff hroom
  rw [hostfilePwrite, run_reach]
  cases hrun : (io.pwrite h b (o + UInt64.ofNat i) (has flags O_APPEND)).run l.host with
  | mk r z =>
      rw [hrun] at hdone
      cases r with
      | error e => exact ⟨hdone, rfl⟩
      | ok n => exact ⟨hdone.1, hdone.2, (if_neg fun h => nomatch h.1).symm⟩

theorem hostfileWrite_stored (i : ℕ) (l : Live σ) (b : Bytes) :
    Stored view (has flags O_APPEND) none i l b ((hostfileWrite H io h flags b).run l) := by
  intro hroom
  rw [run_hostfileWrite]
  cases happend : has flags O_APPEND with
  | true =>
      rw [happend] at hroom
      have hdone := pwrite_stored (o := 0) hF (fun h : true = false => nomatch h) hroom
      rw [if_pos rfl]
      cases hrun : (io.pwrite h b 0 true).run l.host with
      | mk r z =>
          rw [hrun] at hdone
          cases r with
          | error e => exact ⟨hdone, rfl⟩
          | ok n =>
              obtain ⟨hle, hview⟩ := hdone
              dsimp only
              by_cases hn : 0 < n
              · obtain ⟨hs, w, hstat, hsize, hsame⟩ := hF.stat z
                rw [if_pos hn, hstat]
                refine ⟨hle, hsame.trans hview, ?_⟩
                have hdata : (view z).data = (view l.host).data ++ b.take n := by
                  rw [hview]
                  exact writeAt_end 0 _ _
                rw [if_pos ⟨rfl, by omega⟩, hsize, hdata, List.length_append, List.length_take, Nat.min_eq_left hle]
                rfl
              · rw [if_neg hn]
                exact ⟨hle, hview, (if_neg fun h => h.2 (by omega)).symm⟩
  | false =>
      rw [happend] at hroom
      have hdone := pwrite_stored (o := l.pos) hF (fun _ _ => rfl) hroom
      rw [if_neg (by decide)]
      cases hrun : (io.pwrite h b l.pos false).run l.host with
      | mk r z =>
          rw [hrun] at hdone
          cases r with
          | error e => exact ⟨hdone, rfl⟩
          | ok n =>
              refine ⟨hdone.1, hdone.2, ?_⟩
              dsimp only
              by_cases hn : n = 0
              · rw [hn, if_neg fun h => h.2 rfl]
                exact UInt64.add_zero l.pos
              · rw [if_pos ⟨rfl, hn⟩, UInt64.ofNat_add]
                exact congrArg (· + UInt64.ofNat n) (UInt64.ofNat_toNat).symm

theorem hostfileWrite_le (b : Bytes) (l : Live σ) (k : ℕ) (hk : ((hostfileWrite H io h flags b).run l).1 = .ok k) :
    k ≤ b.length := by
  rw [run_hostfileWrite] at hk
  split_ifs at hk
  · have hle := hF.pwrite_le l.host b 0 true
    cases hrun : (io.pwrite h b 0 true).run l.host with
    | mk r z =>
        rw [hrun] at hk hle
        cases r with
        | error e => cases hk
        | ok n =>
            have hn := hle n rfl
            dsimp only at hk
            split_ifs at hk
            · cases hstat : (H.stat h).run z with
              | mk q w =>
                  rw [hstat] at hk
                  cases q <;> (cases hk; exact hn)
            · cases hk
              exact hn
  · have hle := hF.pwrite_le l.host b l.pos false
    cases hrun : (io.pwrite h b l.pos false).run l.host with
    | mk r z =>
        rw [hrun] at hk hle
        cases r with
        | error e => cases hk
        | ok n =>
            cases hk
            exact hle _ rfl

theorem writeOf_stored {off : Option UInt64} {op : ℕ → Bytes → Call Errno (Live σ) ℕ}
    (hof : writeOf (hostfileOps H io h flags) off = some op) (i : ℕ) (l : Live σ) (b : Bytes) :
    Stored view (has flags O_APPEND) off i l b ((op i b).run l) := by
  cases off with
  | none =>
      cases hof
      exact hostfileWrite_stored hF flags i l b
  | some o =>
      cases hof
      exact hostfilePwrite_stored hF flags o i l b

theorem writeOf_le {off : Option UInt64} {op : ℕ → Bytes → Call Errno (Live σ) ℕ}
    (hof : writeOf (hostfileOps H io h flags) off = some op) (i : ℕ) (b : Bytes) (l : Live σ) (k : ℕ)
    (hk : ((op i b).run l).1 = .ok k) : k ≤ b.length := by
  cases off with
  | none =>
      cases hof
      exact hostfileWrite_le hF flags b l k hk
  | some o =>
      cases hof
      exact hF.pwrite_le l.host b (o + UInt64.ofNat i) (has flags O_APPEND) k hk

theorem writePiece_written {off : Option UInt64} {op : ℕ → Bytes → Call Errno (Live σ) ℕ}
    (hof : writeOf (hostfileOps H io h flags) off = some op) (ubuf : UInt64) (i n : ℕ) (l : Live σ) :
    WrittenOnce view (has flags O_APPEND) off i l (userRange (ubuf + UInt64.ofNat i) n)
      ((writePiece io op ubuf i n).run l).1 ((writePiece io op ubuf i n).run l).2 := by
  intro hroom
  rw [length_userRange] at hroom
  obtain ⟨hbytes, hsame⟩ := hF.copyIn l.host (ubuf + UInt64.ofNat i) n
  dsimp only [writePiece, ExceptT.run_mk]
  cases hcopy : io.copyIn (ubuf + UInt64.ofNat i) n l.host with
  | mk d y =>
      rw [hcopy] at hbytes hsame
      dsimp only at hbytes hsame
      cases d with
      | none => exact ⟨hsame, rfl⟩
      | some b =>
          have hlen : b.length = n := (length_gather hbytes.symm).trans (length_userRange _ n)
          have hstart : beginAt view (has flags O_APPEND) off i { l with host := y } =
              beginAt view (has flags O_APPEND) off i l := beginAt_congr hsame rfl
          have hdone := writeOf_stored hF flags hof i { l with host := y } b
          rw [Stored.eq_def, hstart, hlen, hsame] at hdone
          have hdone := hdone hroom
          dsimp only at hdone ⊢
          cases hrun : (op i b).run { l with host := y } with
          | mk r m =>
              rw [hrun] at hdone
              cases r with
              | error e => exact hdone
              | ok k =>
                  obtain ⟨hle, hview, hpos⟩ := hdone
                  refine ⟨?_, b.take k, gather_take hbytes.symm k, hview, hpos⟩
                  rwa [length_userRange]

theorem readOf_pread {off : Option UInt64} {op : ℕ → ℕ → Call Errno (Live σ) Bytes}
    (hof : readOf (hostfileOps H io h flags) off = some op) {i n : ℕ} {l : Live σ}
    (hroom : beginAt view false off i l + n < 2 ^ 63) : ∃ m, (op i n).run l =
        (.ok (((view l.host).data.drop (beginAt view false off i l)).take n), m) ∧ view m.host = view l.host ∧
      m.pos = if off = none
        then l.pos + UInt64.ofNat (((view l.host).data.drop (beginAt view false off i l)).take n).length
        else l.pos := by
  cases off with
  | none =>
      cases hof
      obtain ⟨z, hrun, hview⟩ := hF.pread l.host n l.pos hroom
      obtain ⟨b, hb⟩ : ∃ b, b = ((view l.host).data.drop l.pos.toNat).take n := ⟨_, rfl⟩
      change ∃ m, _ = (Except.ok (((view l.host).data.drop l.pos.toNat).take n), m) ∧ _
      rw [← hb] at hrun ⊢
      refine ⟨{ l with host := z, pos := l.pos + UInt64.ofNat b.length, reached := l.reached ++ [.pread] },
        ?_, hview, congrArg (l.pos + UInt64.ofNat ·) (congrArg List.length hb)⟩
      change (hostfileRead io h n).run l = _
      rw [run_hostfileRead, hrun]
  | some o =>
      cases hof
      have hoff : (o + UInt64.ofNat i).toNat = o.toNat + i := by
        change o.toNat + i + n < 2 ^ 63 at hroom
        rw [UInt64.toNat_add, UInt64.toNat_ofNat']
        omega
      obtain ⟨z, hrun, hview⟩ := hF.pread l.host n (o + UInt64.ofNat i) (by rwa [hoff])
      refine ⟨{ l with host := z, reached := l.reached ++ [.pread] }, ?_, hview, rfl⟩
      dsimp only [hostfilePread]
      rw [run_reach, hrun, hoff]
      rfl

theorem readOf_le {off : Option UInt64} {op : ℕ → ℕ → Call Errno (Live σ) Bytes}
    (hof : readOf (hostfileOps H io h flags) off = some op) (i n : ℕ) (l : Live σ) (b : Bytes)
    (hb : ((op i n).run l).1 = .ok b) : b.length ≤ n := by
  cases off with
  | none =>
      cases hof
      have hle := hF.pread_le l.host n l.pos
      change ((hostfileRead io h n).run l).1 = .ok b at hb
      rw [run_hostfileRead] at hb
      cases hrun : (io.pread h n l.pos).run l.host with
      | mk r z =>
          rw [hrun] at hb hle
          cases r with
          | error e => cases hb
          | ok d =>
              cases hb
              exact hle _ rfl
  | some o =>
      cases hof
      exact hF.pread_le l.host n (o + UInt64.ofNat i) b hb

theorem readPiece_delivered {off : Option UInt64} {op : ℕ → ℕ → Call Errno (Live σ) Bytes}
    (hof : readOf (hostfileOps H io h flags) off = some op) (ubuf : UInt64) (i n : ℕ) (l : Live σ) :
    DeliveredOnce view writable off i l (userRange (ubuf + UInt64.ofNat i) n)
      ((readPiece io op ubuf i n).run l).1 ((readPiece io op ubuf i n).run l).2 := by
  intro hroom hwritable
  rw [length_userRange] at hroom ⊢
  obtain ⟨m, hrun, hview, hpos⟩ := readOf_pread hF flags hof hroom
  obtain ⟨b, hb⟩ : ∃ b, b = ((view l.host).data.drop (beginAt view false off i l)).take n := ⟨_, rfl⟩
  have hlen : b.length ≤ n := by
    rw [hb]
    exact List.length_take_le n _
  rw [← hb] at hrun hpos ⊢
  have hsplit : userRange (ubuf + UInt64.ofNat i) n = userRange (ubuf + UInt64.ofNat i) b.length ++
      userRange (ubuf + UInt64.ofNat i + UInt64.ofNat b.length) (n - b.length) := by
    rw [← userRange_add]
    congr 1
    omega
  dsimp only [readPiece, ExceptT.run_mk]
  rw [hrun]
  dsimp only
  by_cases hnil : b = []
  · rw [if_pos hnil, hnil, scatter_nil]
    rw [hnil] at hpos
    exact ⟨rfl, hview, hpos⟩
  rw [if_neg hnil]
  obtain ⟨z, hcopy, hlanded⟩ := hF.copyOut m.host (ubuf + UInt64.ofNat i) b (fun p hp => hwritable p (by
    rw [hsplit]
    exact List.mem_append_left _ hp))
  rw [hcopy]
  refine ⟨rfl, ?_, hpos⟩
  rw [hsplit, scatter_short _ (length_userRange _ _).ge, hlanded, hview]

theorem bounced_view (l : Live σ) : view (bounced io l).host = view l.host := (hF.bounce l.host).2

theorem copyIn_le (a : UInt64) (n : ℕ) (y : σ) (b : Bytes) (hb : (io.copyIn a n y).1 = some b) : b.length ≤ n := by
  rw [(hF.copyIn y a n).1] at hb
  rw [length_gather hb, length_userRange]

theorem writeFile_written (off : Option UInt64) (ubuf : UInt64) (len : ℤ) (l : Live σ) :
    WrittenOnce view (has flags O_APPEND) off 0 l (userRange ubuf len.toNat)
      ((writeFile H io h flags off ubuf len).run l).1 ((writeFile H io h flags off ubuf len).run l).2 :=
  (doWrite_transfers io _ flags written_piecewise (copyIn_le hF) (fun _ _ => ⟨rfl, rfl⟩)
    (fun _ hof => writeOf_le hF flags hof)
    (fun _ hof i n l _ => writePiece_written hF flags hof ubuf i n l)).of_eq (bounced_view hF l) rfl

theorem writeFile_le (off : Option UInt64) (ubuf : UInt64) (len : ℕ) (l : Live σ) (k : ℕ)
    (hk : ((writeFile H io h flags off ubuf len).run l).1 = .ok k) : k ≤ len :=
  doWrite_le io _ flags (copyIn_le hF) (fun _ hof => writeOf_le hF flags hof) len l k hk

theorem vectors_written (vs : List Iovec) (l : Live σ) : WrittenOnce view (has flags O_APPEND) none 0 l (places vs)
    ((vectorLoop (writeFile H io h flags none) 0 vs).run l).1
    ((vectorLoop (writeFile H io h flags none) 0 vs).run l).2 := by
  have hany : Piecewise (WrittenOnce view (has flags O_APPEND) none) := written_piecewise
  have hT : Piecewise fun _ => WrittenOnce view (has flags O_APPEND) none 0 := hany
  obtain ⟨r, hret, hdone⟩ := vectorLoop_transfers (writeFile_le hF flags none) hT
    (fun v _ _ _ l => writeFile_written hF flags none v.base v.len l) (fun v (_ : v ∈ vs) _ _ _ => ⟨rfl, rfl⟩) 0 l
  rw [after_zero] at hret
  rw [hret]
  exact hdone

/-- A call on vectors ends at once, or goes on with the vectors of the array. -/
theorem run_vectors {one : UInt64 → ℤ → Call Errno (Live σ) ℕ} {alloc : StateM σ Bool}
    (halloc : ∀ y, view (alloc y).2 = view y) {uiov : UInt64} {cnt : ℤ} {l : Live σ} {array : Bytes}
    (harray : gather (view l.host).mem (userRange uiov (cnt.toNat * 16)) = some array) :
    ∃ m, view m.host = view l.host ∧ m.pos = l.pos ∧ (sysReadvWritev io alloc one uiov cnt).run l =
      if cnt < 0 ∨ 1024 < cnt then (.error .EINVAL, m)
      else if (alloc l.host).1 then (vectorLoop one 0 (vectorsOf array)).run m
      else (.error .ENOMEM, m) := by
  rw [run_sysReadvWritev]
  split_ifs with hcnt hok
  · exact ⟨l, rfl, rfl, rfl⟩
  · have hallocated := halloc l.host
    cases hrun : alloc l.host with
    | mk ok y =>
        rw [hrun] at hallocated hok
        obtain rfl : ok = true := hok
        obtain ⟨hbytes, hsame⟩ := hF.copyIn y uiov (cnt.toNat * 16)
        dsimp only at hallocated ⊢
        rw [hallocated, harray] at hbytes
        cases hcopy : io.copyIn uiov (cnt.toNat * 16) y with
        | mk b z =>
            rw [hcopy] at hbytes hsame
            obtain rfl : b = some array := hbytes
            exact ⟨{ l with host := z }, hsame.trans hallocated, rfl, rfl⟩
  · have hallocated := halloc l.host
    cases hrun : alloc l.host with
    | mk ok y =>
        rw [hrun] at hallocated hok
        obtain rfl : ok = false := Bool.eq_false_of_not_eq_true hok
        exact ⟨{ l with host := y }, hallocated, rfl, rfl⟩

/-- `sys_writev` on a host file. -/
theorem sysWritev_written {alloc : StateM σ Bool} (halloc : ∀ y, view (alloc y).2 = view y) {uiov : UInt64}
    {cnt : ℤ} {l : Live σ} {array : Bytes}
    (harray : gather (view l.host).mem (userRange uiov (cnt.toNat * 16)) = some array) :
    WrittenOnce view (has flags O_APPEND) none 0 l (places (vectorsOf array))
      ((sysReadvWritev io alloc (writeFile H io h flags none) uiov cnt).run l).1
      ((sysReadvWritev io alloc (writeFile H io h flags none) uiov cnt).run l).2 := by
  obtain ⟨m, hview, hpos, hrun⟩ := run_vectors hF halloc harray
  rw [hrun]
  split_ifs
  · exact fun _ => ⟨hview, hpos⟩
  · exact (vectors_written hF flags (vectorsOf array) m).of_eq hview hpos
  · exact fun _ => ⟨hview, hpos⟩

variable {flags}

theorem readFile_delivered (hflags : MayRead flags) (off : Option UInt64) (ubuf : UInt64) (len : ℕ) (l : Live σ)
    (hready : ready = true) : DeliveredOnce view writable off 0 l (userRange ubuf len)
      ((readFile H io h flags off ubuf len).run l).1 ((readFile H io h flags off ubuf len).run l).2 := by
  have hread : ioRefused O_WRONLY flags (io.bounce l.host).1 len = none := by
    rw [(hF.bounce l.host).1, ioRefused_read hflags, hready]
    rfl
  obtain ⟨op, hof⟩ : ∃ op, readOf (hostfileOps H io h flags) off = some op := by
    cases off with
    | none => exact ⟨_, rfl⟩
    | some o => exact ⟨_, rfl⟩
  exact (doRead_transfers io _ flags delivered_piecewise hread hof (readOf_le hF flags hof)
    (fun i n l _ => readPiece_delivered hF flags hof ubuf i n l)).of_eq (bounced_view hF l) rfl

theorem readFile_noMemory (hflags : MayRead flags) (off : Option UInt64) (ubuf : UInt64) (len : ℕ) (l : Live σ)
    (hready : ready = false) : NoMemory view l ((readFile H io h flags off ubuf len).run l).1
      ((readFile H io h flags off ubuf len).run l).2 := by
  rw [readFile, run_doRead, (hF.bounce l.host).1, ioRefused_read hflags, hready]
  exact ⟨rfl, bounced_view hF l, rfl⟩

theorem readFile_outcome (hflags : MayRead flags) (off : Option UInt64) (ubuf : UInt64) (len : ℕ) (l : Live σ) :
    Outcome l (readFile H io h flags off ubuf len)
      (if ready then DeliveredOnce view writable off 0 l (userRange ubuf len) else NoMemory view l) := by
  cases hready : ready with
  | true => exact readFile_delivered hF hflags off ubuf len l hready
  | false => exact readFile_noMemory hF hflags off ubuf len l hready

theorem readFile_le (off : Option UInt64) (ubuf : UInt64) (len : ℕ) (l : Live σ) (k : ℕ)
    (hk : ((readFile H io h flags off ubuf len).run l).1 = .ok k) : k ≤ len :=
  doRead_le io _ flags (fun _ hof => readOf_le hF flags hof) len l k hk

theorem vectors_delivered (hflags : MayRead flags) {vs : List Iovec} (hmax : ∀ v ∈ vs, v.len ≤ 0x7fffffff)
    (l : Live σ) (hready : ready = true) : DeliveredOnce view writable none 0 l (places vs)
      ((vectorLoop (readFile H io h flags none) 0 vs).run l).1
      ((vectorLoop (readFile H io h flags none) 0 vs).run l).2 := by
  have hany : Piecewise (DeliveredOnce view writable none) := delivered_piecewise
  have hT : Piecewise fun _ => DeliveredOnce view writable none 0 := hany
  obtain ⟨r, hret, hdone⟩ := vectorLoop_transfers (readFile_le hF none) hT
    (fun v _ _ _ l => readFile_delivered hF hflags none v.base v.len l hready)
    (fun v hv hlong _ => absurd (hmax v hv) (not_le_of_gt hlong)) 0 l
  rw [after_zero] at hret
  rw [hret]
  exact hdone

theorem vectors_noMemory (hflags : MayRead flags) {vs : List Iovec} (hmax : ∀ v ∈ vs, v.len ≤ 0x7fffffff)
    (hlen : places vs ≠ []) (l : Live σ) (hready : ready = false) :
    NoMemory view l ((vectorLoop (readFile H io h flags none) 0 vs).run l).1
      ((vectorLoop (readFile H io h flags none) 0 vs).run l).2 := by
  induction vs with
  | nil => exact absurd rfl hlen
  | cons v vs ih =>
      by_cases h0 : v.len = 0
      · rw [places_empty h0] at hlen
        rw [vectorLoop_empty h0]
        exact ih (fun w hw => hmax w (List.mem_cons_of_mem v hw)) hlen
      · obtain ⟨hret, hview, hpos⟩ := readFile_noMemory hF hflags none v.base v.len l hready
        rw [run_vectorLoop h0 (hmax v List.mem_cons_self)]
        cases hrun : (readFile H io h flags none v.base v.len).run l with
        | mk r m =>
            rw [hrun] at hret hview hpos
            obtain rfl : r = .error .ENOMEM := hret
            exact ⟨rfl, hview, hpos⟩

/-- `sys_readv` on a host file. -/
theorem sysReadv_delivered (hflags : MayRead flags) {alloc : StateM σ Bool} (halloc : ∀ y, view (alloc y).2 = view y)
    {uiov : UInt64} {cnt : ℕ} (hcnt : cnt ≤ 1024) {l : Live σ} {array : Bytes}
    (harray : gather (view l.host).mem (userRange uiov (cnt * 16)) = some array)
    (hmax : ∀ v ∈ vectorsOf array, v.len ≤ 0x7fffffff) :
    (ready = true → (alloc l.host).1 = true → DeliveredOnce view writable none 0 l (places (vectorsOf array))
        ((sysReadvWritev io alloc (readFile H io h flags none) uiov cnt).run l).1
        ((sysReadvWritev io alloc (readFile H io h flags none) uiov cnt).run l).2) ∧
      (ready = false ∨ (alloc l.host).1 = false → places (vectorsOf array) ≠ [] → NoMemory view l
        ((sysReadvWritev io alloc (readFile H io h flags none) uiov cnt).run l).1
        ((sysReadvWritev io alloc (readFile H io h flags none) uiov cnt).run l).2) := by
  rw [← Int.toNat_natCast cnt] at harray
  obtain ⟨m, hview, hpos, hrun⟩ := run_vectors hF halloc harray
  rw [hrun, if_neg (by omega)]
  refine ⟨fun hready hok => ?_, fun hnone hlen => ?_⟩
  · rw [if_pos hok]
    exact (vectors_delivered hF hflags hmax m hready).of_eq hview hpos
  · by_cases hok : (alloc l.host).1 = true
    · rw [if_pos hok]
      have hready : ready = false := hnone.resolve_right (by rw [hok]; decide)
      obtain ⟨hret, hview', hpos'⟩ := vectors_noMemory hF hflags hmax hlen m hready
      exact ⟨hret, hview'.trans hview, hpos'.trans hpos⟩
    · rw [if_neg hok]
      exact ⟨rfl, hview, hpos⟩

end Host

section Calls

variable (H : HostStore η σ) (io : FileIo η σ) (h : η) (flags : UInt32)

/-- `pread64`, which refuses an offset before the start. -/
def sysPread64 (ubuf : UInt64) (len off : ℤ) : Call Errno (Live σ) ℕ :=
  if off < 0 then throw .EINVAL else readFile H io h flags (some (UInt64.ofNat off.toNat)) ubuf len

def sysPwrite64 (ubuf : UInt64) (len off : ℤ) : Call Errno (Live σ) ℕ :=
  if off < 0 then throw .EINVAL else writeFile H io h flags (some (UInt64.ofNat off.toNat)) ubuf len

def sysReadv (alloc : StateM σ Bool) (uiov : UInt64) (cnt : ℤ) : Call Errno (Live σ) ℕ :=
  sysReadvWritev io alloc (readFile H io h flags none) uiov cnt

def sysWritev (alloc : StateM σ Bool) (uiov : UInt64) (cnt : ℤ) : Call Errno (Live σ) ℕ :=
  sysReadvWritev io alloc (writeFile H io h flags none) uiov cnt

end Calls

/-- Every write of a host file, of a range or of vectors, at the position or at an offset, is one write of
the bytes that it returns. Every read delivers what there is, unless the kernel has no memory for it. -/
theorem bounced_io_plain {H : HostStore η σ} {io : FileIo η σ} {h : η} {writable : UInt64 → Prop} {ready : Bool}
    (hF : PlainFile H io h view writable ready) {alloc : StateM σ Bool} (halloc : ∀ y, view (alloc y).2 = view y)
    (flags : UInt32) (l : Live σ) :
    (∀ ubuf len, Outcome l (writeFile H io h flags none ubuf len)
      (WrittenOnce view (has flags O_APPEND) none 0 l (userRange ubuf len.toNat))) ∧
    (∀ ubuf len off, 0 ≤ off → Outcome l (sysPwrite64 H io h flags ubuf len off)
      (WrittenOnce view (has flags O_APPEND) (some (UInt64.ofNat off.toNat)) 0 l (userRange ubuf len.toNat))) ∧
    (∀ uiov cnt array, gather (view l.host).mem (userRange uiov (cnt.toNat * 16)) = some array →
      Outcome l (sysWritev H io h flags alloc uiov cnt)
        (WrittenOnce view (has flags O_APPEND) none 0 l (places (vectorsOf array)))) ∧
    (MayRead flags →
      (∀ ubuf (len : ℕ), Outcome l (readFile H io h flags none ubuf len)
        (if ready then DeliveredOnce view writable none 0 l (userRange ubuf len) else NoMemory view l)) ∧
      (∀ ubuf (len : ℕ) off, 0 ≤ off → Outcome l (sysPread64 H io h flags ubuf len off)
        (if ready then DeliveredOnce view writable (some (UInt64.ofNat off.toNat)) 0 l (userRange ubuf len)
          else NoMemory view l)) ∧
      (∀ uiov (cnt : ℕ) array, cnt ≤ 1024 → gather (view l.host).mem (userRange uiov (cnt * 16)) = some array →
        (∀ v ∈ vectorsOf array, v.len ≤ 0x7fffffff) →
          (ready = true → (alloc l.host).1 = true → Outcome l (sysReadv H io h flags alloc uiov cnt)
            (DeliveredOnce view writable none 0 l (places (vectorsOf array)))) ∧
          (ready = false ∨ (alloc l.host).1 = false → places (vectorsOf array) ≠ [] →
            Outcome l (sysReadv H io h flags alloc uiov cnt) (NoMemory view l)))) := by
  refine ⟨fun ubuf len => writeFile_written hF flags none ubuf len l, ?_, ?_, fun hflags => ⟨?_, ?_, ?_⟩⟩
  · intro ubuf len off hoff
    rw [sysPwrite64, if_neg (by omega)]
    exact writeFile_written hF flags _ ubuf len l
  · intro uiov cnt array harray
    exact sysWritev_written hF flags halloc harray
  · intro ubuf len
    exact readFile_outcome hF hflags none ubuf len l
  · intro ubuf len off hoff
    rw [sysPread64, if_neg (by omega)]
    exact readFile_outcome hF hflags _ ubuf len l
  · intro uiov cnt array hcnt harray hmax
    exact sysReadv_delivered hF hflags halloc hcnt harray hmax

def oneFileHost : HostStore Unit (FileView Unit) :=
  { HostStore.idle with stat := fun _ => ExceptT.mk fun y => (.ok { size := UInt64.ofNat y.data.length }, y) }

def oneFileIo : FileIo Unit (FileView Unit) :=
  { memoryIo (fun _ => none) true with
    pread := fun _ n off => ExceptT.mk fun y => (.ok ((y.data.drop off.toNat).take n), y)
    pwrite := fun _ b off append => ExceptT.mk fun y =>
      (.ok b.length, { y with data := writeAt 0 y.data (if append then y.data.length else off.toNat) b })
    copyIn := fun a n y => (gather y.mem (userRange a n), y)
    copyOut := fun a b y => (true, { y with mem := scatter y.mem (userRange a b.length) b }) }

theorem oneFile_plain : PlainFile oneFileHost oneFileIo () id (fun _ => True) true where
  pwrite_le := by
    intro y b off append n h
    cases h
    exact le_refl _
  pwrite := by
    intro y b off append _ _
    change _ = { y with data := writeAt 0 y.data _ (b.take b.length) }
    rw [List.take_length]
    rfl
  pread_le := by
    intro y n off b h
    cases h
    exact List.length_take_le n _
  pread := fun y n off _ => ⟨y, rfl, rfl⟩
  stat := fun y => ⟨_, y, rfl, rfl, rfl⟩
  copyIn := fun _ _ _ => ⟨rfl, rfl⟩
  copyOut := fun _ _ _ _ => ⟨_, rfl, rfl⟩
  bounce := fun _ => ⟨rfl, rfl⟩

/-- The file `abc` at the position 1, with the byte `x` in every place of user memory. -/
def abcFile : Live (FileView Unit) := ⟨⟨str "abc", fun _ => some 0x78, ()⟩, 1, ⟨0, false, [], none⟩, []⟩

def abcVectors : Bytes :=
  littleEndian 8 0x2000 ++ littleEndian 8 2 ++ littleEndian 8 0x3000 ++ littleEndian 8 1

/-- The file `abc` at the position 1, with the vectors at 0x1000 and in every other place of user memory the
low byte of its address. -/
def abcVectored : Live (FileView Unit) :=
  ⟨⟨str "abc", fun a => if 0x1000 ≤ a ∧ a < 0x1020 then abcVectors[(a - 0x1000).toNat]? else some a.toUInt8, ()⟩,
    1, ⟨0, false, [], none⟩, []⟩

/-- A write of a range and one of two vectors, each of which moves all its bytes. -/
theorem abcFile_written :
    Outcome abcFile (writeFile oneFileHost oneFileIo () O_RDWR none 0x1000 3) (fun r m =>
      WrittenOnce id false none 0 abcFile (userRange 0x1000 3) r m ∧ r = .ok 3 ∧
        m.host.data = str "axxx" ∧ m.pos = 4) ∧
    Outcome abcVectored (sysWritev oneFileHost oneFileIo () O_RDWR (pure true) 0x1000 2) (fun r m =>
      WrittenOnce id false none 0 abcVectored (places (vectorsOf abcVectors)) r m ∧ r = .ok 3 ∧
        m.host.data = [0x61, 0, 1, 0] ∧ m.pos = 4) := by
  have halloc : ∀ y, id ((pure true : StateM (FileView Unit) Bool) y).2 = id y := fun _ => rfl
  have harray : gather (id abcVectored.host).mem (userRange 0x1000 32) = some abcVectors := by decide +kernel
  obtain ⟨hwrite, _⟩ := bounced_io_plain oneFile_plain halloc O_RDWR abcFile
  obtain ⟨_, _, hwritev, _⟩ := bounced_io_plain oneFile_plain halloc O_RDWR abcVectored
  exact ⟨⟨hwrite 0x1000 3, by decide +kernel, by decide +kernel, by decide +kernel⟩,
    hwritev 0x1000 2 abcVectors harray, by decide +kernel, by decide +kernel, by decide +kernel⟩

end SysvNt.FileOps
