import SysvNt.BouncedIo
import SysvNt.SignedWords

/-!
# Seeks of host files and generated texts

A seek adds an offset to the start, the position or the size, as signed words, and then tests the
sum. The word wraps to below zero where the sum is too large, so a seek sets the position to the
exact sum or leaves it; a description that stands below 2^63 goes on standing there.
-/

namespace SysvNt.FileOps

open FallibleCalls

def SEEK_SET : Int32 := 0
def SEEK_CUR : Int32 := 1
def SEEK_END : Int32 := 2
def SEEK_DATA : Int32 := 3
def SEEK_HOLE : Int32 := 4

/-- A file whose position is sought: one of the host, or a text that the kernel generated. -/
inductive Seekable (η : Type) where
  | host (h : η)
  | text (t : Bytes)

section Seeks

variable {η σ : Type} (H : HostStore η σ) (io : FileIo η σ)

/-- The end of both seeks: the sum, its test, and the position set to it. -/
def seekFrom (base off : Int64) : Call Errno (Live σ) Int64 :=
  if base + off < 0 then throw .EINVAL
  else do
    setPosition (base + off).toUInt64
    pure (base + off)

def hostfileBase (h : η) (whence : Int32) : Call Errno (Live σ) Int64 :=
  if whence = SEEK_SET then pure 0
  else if whence = SEEK_CUR then do
    let pos ← position
    pure pos.toInt64
  else if whence = SEEK_END then do
    let r ← attempt (reach [] (H.stat h))
    match r with
    | .ok hs => pure hs.size.toInt64
    | .error _ => throw Errno.EIO
  else throw .EINVAL

def hostfileLseek (h : η) (off : Int64) (whence : Int32) : Call Errno (Live σ) Int64 :=
  if whence = SEEK_DATA ∨ whence = SEEK_HOLE then do
    let r ← attempt (reach [] (H.stat h))
    match r with
    | .error _ => throw Errno.EIO
    | .ok hs =>
      if off < 0 ∨ hs.size ≤ off.toUInt64 then throw Errno.ENXIO
      else do
        let pos := if whence = SEEK_DATA then off.toUInt64 else hs.size
        setPosition pos
        pure pos.toInt64
  else do
    let base ← hostfileBase H h whence
    seekFrom base off

/-- The base of `snap_lseek`; one below the start stands for a whence that there is not. -/
def snapOrigin (t : Bytes) (whence : Int32) (pos : UInt64) : Int64 :=
  if whence = SEEK_SET then 0
  else if whence = SEEK_CUR then pos.toInt64
  else if whence = SEEK_END then Int64.ofNat t.length
  else -1

def snapBase (t : Bytes) (whence : Int32) : Call Errno (Live σ) Int64 := do
  let pos ← position
  if snapOrigin t whence pos < 0 then throw .EINVAL else pure (snapOrigin t whence pos)

def snapLseek (t : Bytes) (off : Int64) (whence : Int32) : Call Errno (Live σ) Int64 := do
  let base ← snapBase t whence
  seekFrom base off

namespace Seekable

variable (f : Seekable η)

def ops (flags : UInt32) : Table σ :=
  match f with
  | .host h => hostfileOps H io h flags
  | .text t => snapOps t

def base (whence : Int32) : Call Errno (Live σ) Int64 :=
  match f with
  | .host h => hostfileBase H h whence
  | .text t => snapBase t whence

def lseek (off : Int64) (whence : Int32) : Call Errno (Live σ) Int64 :=
  match f with
  | .host h => hostfileLseek H h off whence
  | .text t => snapLseek t off whence

end Seekable

end Seeks

/-- What a file of the host is to its calls: it ends before 2^63, and a transfer is of the bytes that
it was asked for. The memory of a program gives what it is asked for or nothing. -/
structure HostLimits {η σ : Type} (H : HostStore η σ) (io : FileIo η σ) (h : η) : Prop where
  pread : ∀ y n off b, ((io.pread h n off).run y).1 = .ok b → b ≠ [] → off.toNat + b.length < 2 ^ 63
  pwrite : ∀ y b off n, ((io.pwrite h b off false).run y).1 = .ok n → 0 < n → off.toNat + n < 2 ^ 63
  pwrite_le : ∀ y b off append n, ((io.pwrite h b off append).run y).1 = .ok n → n ≤ b.length
  stat : ∀ y hs, ((H.stat h).run y).1 = .ok hs → hs.size.toNat < 2 ^ 63
  copyIn : ∀ y a n b, (io.copyIn a n y).1 = some b → b.length = n

def Seekable.Limited {η σ : Type} (H : HostStore η σ) (io : FileIo η σ) : Seekable η → Prop
  | .host h => HostLimits H io h
  | .text t => t.length < 2 ^ 63

def InRange {σ : Type} (l : Live σ) : Prop := l.pos.toNat < 2 ^ 63

section Words

theorem toInt_position {u : UInt64} (h : u.toNat < 2 ^ 63) : u.toInt64.toInt = u.toNat := by
  change u.toBitVec.toInt = _
  rw [BitVec.toInt_eq_toNat_of_lt]
  · rfl
  · change 2 * u.toNat < _
    omega

theorem toNat_of_nonneg {i : Int64} (h : 0 ≤ i.toInt) : (i.toUInt64.toNat : ℤ) = i.toInt := by
  have hle : (0 : Int64) ≤ i := by
    rw [Int64.le_iff_toInt_le]
    exact h
  rw [Int64.toNat_toUInt64_of_le hle, ← Int64.toNat_toInt]
  omega

/-- A sum of a base that is not negative is below zero as a word exactly when it is below zero or
too large. -/
theorem toInt_sum {base off : Int64} (hbase : 0 ≤ base.toInt) :
    if base.toInt + off.toInt < 2 ^ 63 then (base + off).toInt = base.toInt + off.toInt
    else (base + off).toInt < 0 := by
  have hlow := Int64.le_toInt off
  have hhigh := Int64.toInt_lt off
  have hmax := Int64.toInt_lt base
  have hsum : (base + off).toInt = SignedWords.wrapped (base.toInt + off.toInt) := Int64.toInt_add base off
  split_ifs with hfit
  · rw [hsum, SignedWords.wrapped_eq_iff]
    exact ⟨by omega, hfit⟩
  · obtain ⟨k, hk⟩ := SignedWords.exists_wrapped (base.toInt + off.toInt)
    obtain ⟨hle, hlt⟩ := SignedWords.wrapped_fits (base.toInt + off.toInt)
    rw [← hsum] at hk hle hlt
    omega

end Words

section Sought

variable {η σ : Type} (H : HostStore η σ)

/-- Where a seek counts from: the start, the position or the size, if the host tells it. -/
def Seekable.origin (f : Seekable η) (whence : Int32) (l : Live σ) : Option ℕ :=
  if whence = SEEK_SET then some 0
  else if whence = SEEK_CUR then some l.pos.toNat
  else if whence = SEEK_END then
    match f with
    | .host h => ((H.stat h).run l.host).1.toOption.map fun hs => hs.size.toNat
    | .text t => some t.length
  else none

/-- A seek sets the position to the sum and returns it, when the sum is a position; else it fails
and leaves the position. -/
def Sought (origin : Option ℕ) (off : Int64) (l : Live σ) (r : Except Errno Int64 × Live σ) : Prop :=
  match origin with
  | some b =>
    if 0 ≤ b + off.toInt ∧ b + off.toInt < 2 ^ 63 then
      ∃ v, r.1 = .ok v ∧ v.toInt = b + off.toInt ∧ (r.2.pos.toNat : ℤ) = b + off.toInt
    else (∃ e, r.1 = .error e) ∧ r.2.pos = l.pos
  | none => (∃ e, r.1 = .error e) ∧ r.2.pos = l.pos

theorem seekFrom_sought {base off : Int64} (hbase : 0 ≤ base.toInt) (l : Live σ) :
    Sought (some base.toInt.toNat) off l ((seekFrom base off).run l) := by
  have hsum := @toInt_sum base off hbase
  have hnat : (base.toInt.toNat : ℤ) = base.toInt := Int.toNat_of_nonneg hbase
  have htest : base + off < 0 ↔ (base + off).toInt < 0 := Int64.lt_iff_toInt_lt
  rw [Sought, seekFrom, hnat]
  by_cases hfit : base.toInt + off.toInt < 2 ^ 63
  · rw [if_pos hfit] at hsum
    rw [hsum] at htest
    by_cases hneg : base.toInt + off.toInt < 0
    · rw [if_pos (htest.mpr hneg), if_neg (by omega)]
      exact ⟨⟨_, rfl⟩, rfl⟩
    · have hpos : 0 ≤ (base + off).toInt := by
        rw [hsum]
        exact not_lt.mp hneg
      rw [if_neg (htest.not.mpr hneg), if_pos ⟨by omega, hfit⟩]
      exact ⟨base + off, rfl, hsum, (toNat_of_nonneg hpos).trans hsum⟩
  · rw [if_neg hfit] at hsum
    rw [if_pos (htest.mpr hsum), if_neg (by omega)]
    exact ⟨⟨_, rfl⟩, rfl⟩

theorem run_snapBase (t : Bytes) (whence : Int32) (l : Live σ) :
    (snapBase t whence).run l = if snapOrigin t whence l.pos < 0 then (.error .EINVAL, l)
      else (.ok (snapOrigin t whence l.pos), l) := by
  have hpos : (position : Call Errno (Live σ) UInt64).run l = (.ok l.pos, l) := rfl
  rw [snapBase, run_bind, hpos]
  dsimp only
  split_ifs
  · rfl
  · rfl

section Base

variable {H} {io : FileIo η σ} {f : Seekable η} (hf : f.Limited H io) {l : Live σ} (hl : InRange l)
  (whence : Int32)

include hf hl

/-- The base that the code chooses is where the seek counts from. -/
theorem base_origin : match f.origin H whence l with
    | some b => ∃ base m, (f.base H whence).run l = (.ok base, m) ∧ base.toInt = b ∧ m.pos = l.pos
    | none => ∃ e m, (f.base H whence).run l = (.error e, m) ∧ m.pos = l.pos := by
  have hpos : l.pos.toInt64.toInt = l.pos.toNat := toInt_position hl
  cases f with
  | host h =>
      rw [Seekable.origin.eq_def, Seekable.base.eq_def]
      dsimp only
      rw [hostfileBase]
      split_ifs
      · exact ⟨0, l, rfl, Int64.toInt_zero, rfl⟩
      · exact ⟨l.pos.toInt64, l, rfl, hpos, rfl⟩
      · have hsize := hf.stat l.host
        rw [run_bind, run_attempt, run_reach]
        cases hstat : (H.stat h).run l.host with
        | mk r y =>
            rw [hstat] at hsize
            cases r with
            | ok hs => exact ⟨hs.size.toInt64, _, rfl, toInt_position (hsize hs rfl), rfl⟩
            | error e => exact ⟨ Errno.EIO, _, rfl, rfl⟩
      · exact ⟨.EINVAL, l, rfl, rfl⟩
  | text t =>
      have hshort : t.length < 2 ^ 63 := hf
      have hlen : (Int64.ofNat t.length).toInt = t.length := by
        rw [Int64.toInt_ofNat_of_lt hshort]
      have hzero : (0 : Int64).toInt = 0 := Int64.toInt_zero
      have hrun := run_snapBase t whence l
      have hmade : ∀ b : ℕ, (snapOrigin t whence l.pos).toInt = b → ∃ base m,
          (snapBase t whence).run l = (.ok base, m) ∧ base.toInt = b ∧ m.pos = l.pos := by
        intro b hb
        have htest : ¬ snapOrigin t whence l.pos < 0 := by
          rw [Int64.lt_iff_toInt_lt, hb, hzero]
          omega
        rw [hrun, if_neg htest]
        exact ⟨snapOrigin t whence l.pos, l, rfl, hb, rfl⟩
      rw [Seekable.origin.eq_def, Seekable.base.eq_def]
      dsimp only
      by_cases h0 : whence = SEEK_SET
      · rw [if_pos h0]
        exact hmade 0 (by rw [snapOrigin, if_pos h0, hzero]; rfl)
      by_cases h1 : whence = SEEK_CUR
      · rw [if_neg h0, if_pos h1]
        exact hmade l.pos.toNat (by rw [snapOrigin, if_neg h0, if_pos h1, hpos])
      by_cases h2 : whence = SEEK_END
      · rw [if_neg h0, if_neg h1, if_pos h2]
        exact hmade t.length (by rw [snapOrigin, if_neg h0, if_neg h1, if_pos h2, hlen])
      · have hnone : snapOrigin t whence l.pos < 0 := by
          rw [snapOrigin, if_neg h0, if_neg h1, if_neg h2]
          decide
        rw [if_neg h0, if_neg h1, if_neg h2, hrun, if_pos hnone]
        exact ⟨.EINVAL, l, rfl, rfl⟩

theorem seek_sought (off : Int64) :
    Sought (f.origin H whence l) off l ((f.base H whence >>= fun base => seekFrom base off).run l) := by
  have hbase := base_origin hf hl whence
  rw [run_bind]
  cases ho : f.origin H whence l with
  | none =>
      rw [ho] at hbase
      obtain ⟨e, m, hrun, hpos⟩ := hbase
      rw [hrun]
      exact ⟨⟨e, rfl⟩, hpos⟩
  | some b =>
      rw [ho] at hbase
      obtain ⟨base, m, hrun, hb, hpos⟩ := hbase
      have hseek := @seekFrom_sought σ base off (by omega) m
      have hnat : base.toInt.toNat = b := by omega
      rw [hnat, Sought, hpos] at hseek
      rw [hrun]
      exact hseek

omit hf in
theorem Sought.inRange {origin : Option ℕ} {off : Int64} {r : Except Errno Int64 × Live σ}
    (h : Sought origin off l r) : InRange r.2 := by
  have hsame : (∃ e, r.1 = .error e) ∧ r.2.pos = l.pos → InRange r.2 := by
    rintro ⟨_, hpos⟩
    rw [InRange, hpos]
    exact hl
  cases origin with
  | none => exact hsame h
  | some b =>
      rw [Sought] at h
      split_ifs at h with hb
      · obtain ⟨_, _, _, hpos⟩ := h
        rw [InRange]
        omega
      · exact hsame h

/-- A seek that asks for a place rather than for data or a hole is exact. -/
theorem lseek_sought (off : Int64) (h : ¬ (whence = SEEK_DATA ∨ whence = SEEK_HOLE)) :
    Sought (f.origin H whence l) off l ((f.lseek H off whence).run l) := by
  have hseek := seek_sought hf hl whence off
  cases f with
  | text t => exact hseek
  | host h' =>
      rw [Seekable.lseek.eq_def]
      dsimp only
      rw [hostfileLseek, if_neg h]
      exact hseek

theorem lseek_inRange (off : Int64) : InRange ((f.lseek H off whence).run l).2 := by
  cases f with
  | text t => exact (seek_sought hf hl whence off).inRange hl
  | host h' =>
      by_cases h : whence = SEEK_DATA ∨ whence = SEEK_HOLE
      · have hsize := hf.stat l.host
        rw [Seekable.lseek.eq_def]
        dsimp only
        rw [hostfileLseek, if_pos h, run_bind, run_attempt, run_reach]
        cases hstat : (H.stat h').run l.host with
        | mk r y =>
            rw [hstat] at hsize
            cases r with
            | error e => exact hl
            | ok hs =>
                have hlt := hsize hs rfl
                dsimp only
                by_cases hout : off < 0 ∨ hs.size ≤ off.toUInt64
                · rw [if_pos hout]
                  exact hl
                · rw [if_neg hout]
                  have hin : off.toUInt64.toNat < hs.size.toNat :=
                    UInt64.lt_iff_toNat_lt.mp (UInt64.not_le.mp (not_or.mp hout).2)
                  change (if whence = SEEK_DATA then off.toUInt64 else hs.size).toNat < 2 ^ 63
                  split_ifs
                  · omega
                  · exact hlt
      · exact (lseek_sought hf hl whence off h).inRange hl

end Base

end Sought

end SysvNt.FileOps
