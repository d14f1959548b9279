import SysvNt.DescriptorStats
import SysvNt.OpenFailure
import SysvNt.Queries
import SysvNt.StatTimes

/-!
# Setting times

`sys_utimensat` turns each timespec into nanoseconds from 1970, with two counts standing for the
current time and for no change, and `hfs_set_times` turns those into FILETIMEs, with zero for no
change. NT's clock and its `FileBasicInformation` are parameters.
-/

namespace SysvNt

open FallibleCalls SignedWords

variable {η σ : Type}

def UTIME_NOW : Int64 := 0x3fffffff
def UTIME_OMIT : Int64 := 0x3ffffffe
def HFS_TIME_OMIT : Int64 := -1
def HFS_TIME_NOW : Int64 := -2
def AT_SYMLINK_NOFOLLOW : UInt32 := 0x100

def ftOf (ns : Int64) : Int64 := ns / 100 + 116444736000000000

structure BasicInformation where
  creationTime : Int64 := 0
  lastAccessTime : Int64 := 0
  lastWriteTime : Int64 := 0
  changeTime : Int64 := 0
  fileAttributes : UInt32 := 0
  deriving DecidableEq

structure NtTimes (η σ : Type) where
  querySystemTime : StateM σ Int64
  setBasicInformation : η → BasicInformation → Call NtStatus σ Unit

/-- The FILETIME that a count asks for, zero to leave a time alone. -/
def timeField (now t : Int64) : Int64 :=
  if t = HFS_TIME_NOW then ftOf now else if t ≠ HFS_TIME_OMIT then ftOf t else 0

def hfsNow (nt : NtTimes η σ) : StateM σ Int64 := do
  let t ← nt.querySystemTime
  pure (nsOf t)

def hfsSetTimes (nt : NtTimes η σ) (h : η) (atime mtime : Int64) : Call Errno σ Unit := do
  let now ← liftM (m := StateM σ) (if atime = HFS_TIME_NOW ∨ mtime = HFS_TIME_NOW then hfsNow nt else pure 0)
  let b : BasicInformation :=
    { lastAccessTime := timeField now atime, lastWriteTime := timeField now mtime }
  if b.lastAccessTime = 0 ∧ b.lastWriteTime = 0 then pure ()
  else withErrno (nt.setBasicInformation h b)

def timedKernel (nt : NtTimes η σ) (K : Kernel η σ) : Kernel η σ :=
  { K with store := { K.store with setTimes := hfsSetTimes nt, now := hfsNow nt } }

def timeArg (ts : LxTimespec) : Except Errno Int64 :=
  if ts.tvNsec = UTIME_NOW then .ok HFS_TIME_NOW
  else if ts.tvNsec = UTIME_OMIT then .ok HFS_TIME_OMIT
  else if ts.tvNsec < 0 ∨ 1000000000 ≤ ts.tvNsec then .error .EINVAL
  else .ok (ts.tvSec * 1000000000 + ts.tvNsec)

/-- The two times of the call, from what `copy_in` brings: no pointer at all, one that cannot be
read, or two timespecs. -/
def timeArgs : Option (Option (LxTimespec × LxTimespec)) → Except Errno (Int64 × Int64)
  | none => .ok (HFS_TIME_NOW, HFS_TIME_NOW)
  | some none => .error .EFAULT
  | some (some ts) => do
    let at_ ← timeArg ts.1
    let mt ← timeArg ts.2
    pure (at_, mt)

section

variable (K : Kernel η σ) (fs : FsCtx η) (t : FdState) (dirPath : ℕ → Option Bytes)
  (file : ℕ → OpenDescription η)

/-- `sys_utimensat`, from what `copy_path` answers where there is a path. -/
def sysUtimensat (dirfd : ℤ) (copied : Option (Except Errno Bytes))
    (utimes : Option (Option (LxTimespec × LxTimespec))) (flags : UInt32) : Call Errno σ Unit :=
  if flags &&& ~~~AT_SYMLINK_NOFOLLOW ≠ 0 then throw .EINVAL
  else do
    let times ← liftM (m := Except Errno) (timeArgs utimes)
    match copied with
    | some copied => do
      let r ← liftM (m := Except Errno) (openatPath t dirPath dirfd copied)
      vfsUtimens K fs r.1 r.2 times.1 times.2 (!has flags AT_SYMLINK_NOFOLLOW)
    | none =>
      match t.fdGet dirfd with
      | none => throw .EBADF
      | some e => match file e.2 with
        | .opened f => vfsFutimens K f times.1 times.2
        | _ => throw .EPERM

def utimensObject (dirfd : ℤ) (copied : Option (Except Errno Bytes)) (flags : UInt32) :
    Call Errno σ η :=
  match copied with
  | some copied => do
    let r ← liftM (m := Except Errno) (openatPath t dirPath dirfd copied)
    let loc ← walkPath K fs r.1 r.2 (if !has flags AT_SYMLINK_NOFOLLOW then 0 else W_NOFOLLOW)
    openAttr K fs loc.abs
  | none =>
    match t.fdGet dirfd with
    | none => throw .EBADF
    | some e => match file e.2 with
      | .opened f => reopenAttr K f
      | _ => throw .EPERM

end

def instant (ts : LxTimespec) : ℤ := ts.tvSec.toInt * NSEC + ts.tvNsec.toInt

def filetime (ns : ℤ) : ℤ := ns / 100 + EPOCH_DIFF_100NS

/-- The time asked for, where there is a FILETIME for it. -/
def wantedTime (ts : LxTimespec) (clock old : Int64) : Option ℤ :=
  if ts.tvNsec = UTIME_NOW then some clock.toInt
  else if ts.tvNsec = UTIME_OMIT then some old.toInt
  else if 0 < filetime (instant ts) ∧ filetime (instant ts) < 2 ^ 63 then some (filetime (instant ts))
  else none

/-- The timespecs the call goes by: without a pointer both times are now. -/
def askedTimes (utimes : Option (LxTimespec × LxTimespec)) : LxTimespec × LxTimespec :=
  utimes.getD (⟨0, UTIME_NOW⟩, ⟨0, UTIME_NOW⟩)

structure FileTimes where
  access : Int64
  write : Int64
  deriving DecidableEq

/-- When a timespec comes out as asked: the clock can be counted in nanoseconds, or the instant
can, is not taken for one of the two special counts, and is not cut short before 1970. -/
def SetsTime (ts : LxTimespec) (clock old : Int64) : Prop :=
  if ts.tvNsec = UTIME_NOW then clock ≠ 0 ∧ Fits (unixNs clock.toInt)
  else if ts.tvNsec = UTIME_OMIT then True
  else if wrapped (instant ts) = -2 then filetime (instant ts) = (ftOf (nsOf clock)).toInt
  else if wrapped (instant ts) = -1 then filetime (instant ts) = old.toInt ∧ 0 < old.toInt
  else Fits (instant ts) ∧ (0 ≤ instant ts ∨ 100 ∣ instant ts)

instance (ts : LxTimespec) (clock old : Int64) : Decidable (SetsTime ts clock old) := by
  unfold SetsTime
  infer_instance

def newTime (now t old : Int64) : Int64 :=
  if t = HFS_TIME_NOW then ftOf now else if t = HFS_TIME_OMIT then old else ftOf t

def newTimes (now atime mtime : Int64) (old : FileTimes) : FileTimes :=
  ⟨newTime now atime old.access, newTime now mtime old.write⟩

theorem toInt_ftOf (ns : Int64) : (ftOf ns).toInt = ns.toInt.tdiv 100 + EPOCH_DIFF_100NS := by
  have hle := ns.le_toInt
  have hlt := ns.toInt_lt
  have hge : ns.toInt / 100 ≤ ns.toInt.tdiv 100 := ediv_le_tdiv (by decide)
  have hgt : ns.toInt.tdiv 100 ≤ ns.toInt / 100 + 1 := tdiv_le_ediv_add_one (by decide)
  have hdiv : (ns / 100).toInt = ns.toInt.tdiv 100 := Int64.toInt_div_of_ne_right _ _ (by decide)
  have hepoch : (116444736000000000 : Int64).toInt = EPOCH_DIFF_100NS := by decide
  rw [ftOf, Int64.toInt_add, hdiv, hepoch]
  refine wrapped_eq_iff.mpr ⟨?_, ?_⟩
  · rw [EPOCH_DIFF_100NS]
    omega
  · rw [EPOCH_DIFF_100NS]
    omega

theorem ftOf_pos (ns : Int64) : 0 < (ftOf ns).toInt := by
  have hle := ns.le_toInt
  have hge : ns.toInt / 100 ≤ ns.toInt.tdiv 100 := ediv_le_tdiv (by decide)
  rw [toInt_ftOf, EPOCH_DIFF_100NS]
  omega

theorem ftOf_ne_zero (ns : Int64) : ftOf ns ≠ 0 := by
  intro h
  have hpos := ftOf_pos ns
  rw [h] at hpos
  exact lt_irrefl _ hpos

/-- The clock comes back exactly if its distance from 1970 fits a word in nanoseconds. -/
theorem ftOf_nsOf_iff {c : Int64} : (ftOf (nsOf c)).toInt = c.toInt ↔
    c ≠ 0 ∧ Fits (unixNs c.toInt) := by
  by_cases hc : c = 0
  · rw [hc]
    decide
  · have hge : (nsOf c).toInt / 100 ≤ (nsOf c).toInt.tdiv 100 := ediv_le_tdiv (by decide)
    have hgt : (nsOf c).toInt.tdiv 100 ≤ (nsOf c).toInt / 100 + 1 := tdiv_le_ediv_add_one (by decide)
    have hunix : unixNs c.toInt = (c.toInt - EPOCH_DIFF_100NS) * 100 := rfl
    rw [toInt_ftOf]
    constructor
    · intro h
      rw [toInt_nsOf hc] at h hge hgt
      refine ⟨hc, fits_of_near ?_ ?_⟩
      · omega
      · omega
    · rintro ⟨_, hfits⟩
      rw [toInt_nsOf hc, wrapped_eq_iff.mpr hfits, hunix, Int.mul_tdiv_cancel _ (by decide)]
      omega

/-- A count that is no instant of its own gives another FILETIME, and so does one cut short. -/
theorem ftOf_eq_filetime_iff {w : Int64} {s : ℤ} (hw : w.toInt = wrapped s) :
    (ftOf w).toInt = filetime s ↔ Fits s ∧ (0 ≤ s ∨ 100 ∣ s) := by
  have hge : w.toInt / 100 ≤ w.toInt.tdiv 100 := ediv_le_tdiv (by decide)
  have hgt : w.toInt.tdiv 100 ≤ w.toInt / 100 + 1 := tdiv_le_ediv_add_one (by decide)
  rw [toInt_ftOf, filetime, hw] at *
  constructor
  · intro h
    have hfits : Fits s := fits_of_near (by omega) (by omega)
    rw [wrapped_eq_iff.mpr hfits, add_left_inj] at h
    exact ⟨hfits, (tdiv_eq_ediv_iff (by decide)).mp h⟩
  · rintro ⟨hfits, hsign⟩
    rw [wrapped_eq_iff.mpr hfits, (tdiv_eq_ediv_iff (by decide)).mpr hsign]

theorem timeArg_cases {ts : LxTimespec} {w : Int64} (h : timeArg ts = .ok w) :
    (ts.tvNsec = UTIME_NOW ∧ w = HFS_TIME_NOW) ∨
      (ts.tvNsec ≠ UTIME_NOW ∧ ts.tvNsec = UTIME_OMIT ∧ w = HFS_TIME_OMIT) ∨
      (ts.tvNsec ≠ UTIME_NOW ∧ ts.tvNsec ≠ UTIME_OMIT ∧ w.toInt = wrapped (instant ts)) := by
  rw [timeArg] at h
  split_ifs at h with hnow homit hrange
  · exact .inl ⟨hnow, (Except.ok.inj h).symm⟩
  · exact .inr (.inl ⟨hnow, homit, (Except.ok.inj h).symm⟩)
  · refine .inr (.inr ⟨hnow, homit, ?_⟩)
    rw [← Except.ok.inj h, Int64.toInt_add, Int64.toInt_mul]
    exact wrapped_mul_add _ _ _

theorem toInt_eq_neg_two_iff {w : Int64} : w.toInt = -2 ↔ w = HFS_TIME_NOW := by
  rw [← Int64.toInt_inj]
  rfl

theorem toInt_eq_neg_one_iff {w : Int64} : w.toInt = -1 ↔ w = HFS_TIME_OMIT := by
  rw [← Int64.toInt_inj]
  rfl

/-- The count that a timespec becomes leaves behind what was asked for exactly on the timespecs
that come out as asked. -/
theorem wantedTime_eq_iff {ts : LxTimespec} {w : Int64} (h : timeArg ts = .ok w)
    (clock old : Int64) :
    wantedTime ts clock old = some (newTime (nsOf clock) w old).toInt ↔ SetsTime ts clock old := by
  have hsome : ∀ {a b : ℤ}, some a = some b ↔ a = b := Option.some_inj
  rw [wantedTime, SetsTime, newTime]
  rcases timeArg_cases h with ⟨hnow, hw⟩ | ⟨hnow, homit, hw⟩ | ⟨hnow, homit, hw⟩
  · rw [if_pos hnow, if_pos hnow, if_pos hw, hsome, eq_comm]
    exact ftOf_nsOf_iff
  · rw [if_neg hnow, if_neg hnow, if_pos homit, if_pos homit, hw, if_neg (by decide), if_pos rfl]
    exact iff_of_true rfl trivial
  · rw [if_neg hnow, if_neg hnow, if_neg homit, if_neg homit, ← hw]
    have hlt := old.toInt_lt
    by_cases htwo : w = HFS_TIME_NOW
    · have hpos := ftOf_pos (nsOf clock)
      have hfits := (ftOf (nsOf clock)).toInt_lt
      rw [if_pos htwo, if_pos (toInt_eq_neg_two_iff.mpr htwo)]
      split_ifs with hrep
      · exact hsome
      · refine iff_of_false (by simp) fun heq => hrep ?_
        omega
    · rw [if_neg htwo, if_neg (mt toInt_eq_neg_two_iff.mp htwo)]
      by_cases hone : w = HFS_TIME_OMIT
      · rw [if_pos hone, if_pos (toInt_eq_neg_one_iff.mpr hone)]
        split_ifs with hrep
        · rw [hsome]
          exact ⟨fun heq => ⟨heq, heq ▸ hrep.1⟩, fun heq => heq.1⟩
        · refine iff_of_false (by simp) fun heq => hrep ?_
          omega
      · have hpos := ftOf_pos w
        have hfits := (ftOf w).toInt_lt
        rw [if_neg hone, if_neg (mt toInt_eq_neg_one_iff.mp hone), ← ftOf_eq_filetime_iff hw]
        split_ifs with hrep
        · rw [hsome, eq_comm]
        · refine iff_of_false (by simp) fun heq => hrep ?_
          omega

section Host

variable {ι : Type} [DecidableEq ι]

/-- What a request of NT leaves of the times of an object: a zero field is left alone. -/
def BasicInformation.applied (b : BasicInformation) (old : FileTimes) : FileTimes where
  access := if b.lastAccessTime = 0 then old.access else b.lastAccessTime
  write := if b.lastWriteTime = 0 then old.write else b.lastWriteTime

/-- A request that sets the times of last access and last write, or one of them. -/
structure BasicInformation.Proper (b : BasicInformation) : Prop where
  access : 0 ≤ b.lastAccessTime.toInt
  write : 0 ≤ b.lastWriteTime.toInt
  some_set : ¬(b.lastAccessTime = 0 ∧ b.lastWriteTime = 0)
  others : b = { lastAccessTime := b.lastAccessTime, lastWriteTime := b.lastWriteTime }

/-- NT's times: a handle's object takes a proper request when the handle lets its attributes be
set, and a refusal changes no time. -/
structure KeepsTimes (nt : NtTimes η σ) (times : σ → ι → FileTimes) (object : η → ι)
    (settable : σ → η → Prop) : Prop where
  clock_times : ∀ x, times (nt.querySystemTime x).2 = times x
  clock_settable : ∀ x h, settable (nt.querySystemTime x).2 h ↔ settable x h
  set : ∀ x h b, b.Proper → settable x h → ∃ y, (nt.setBasicInformation h b).run x = (.ok (), y) ∧
    times y = Function.update (times x) (object h) (b.applied (times x (object h)))
  refused : ∀ x h b, b.Proper → ¬settable x h →
    ∃ s y, (nt.setBasicInformation h b).run x = (.error s, y) ∧ times y = times x

/-- The outcome of a call for an object: both times are as asked and nothing else has changed, or
the call failed, changed nothing, and had to, since the object's times cannot be set or one of those
asked for is no FILETIME. -/
def SetAsAsked (asked : LxTimespec × LxTimespec) (clock : Int64) (i : ι) (can : Prop)
    (before after : ι → FileTimes) (r : Except Errno Unit) : Prop :=
  match wantedTime asked.1 clock (before i).access, wantedTime asked.2 clock (before i).write with
  | some a, some w =>
    match r with
    | .ok _ => (after i).access.toInt = a ∧ (after i).write.toInt = w ∧ ∀ j ≠ i, after j = before j
    | .error _ => ¬can ∧ after = before
  | _, _ => r.isOk = false ∧ after = before

/-- Both times come out as asked, or the object's times cannot be set and some time is asked for. -/
def ComesOut (asked : LxTimespec × LxTimespec) (clock : Int64) (old : FileTimes) (can : Prop) : Prop :=
  SetsTime asked.1 clock old.access ∧ SetsTime asked.2 clock old.write ∨
    ¬can ∧ ¬(timeArg asked.1 = .ok HFS_TIME_OMIT ∧ timeArg asked.2 = .ok HFS_TIME_OMIT)

theorem timeField_eq_zero_iff {now t : Int64} : timeField now t = 0 ↔ t = HFS_TIME_OMIT := by
  rw [timeField]
  split_ifs with hnow homit
  · refine iff_of_false (ftOf_ne_zero now) ?_
    rw [hnow]
    decide
  · exact iff_of_false (ftOf_ne_zero t) homit
  · exact iff_of_true rfl (not_not.mp homit)

theorem timeField_nonneg (now t : Int64) : 0 ≤ (timeField now t).toInt := by
  rw [timeField]
  split_ifs
  · exact (ftOf_pos now).le
  · exact (ftOf_pos t).le
  · exact le_refl _

theorem newTime_eq_timeField (now t old : Int64) :
    newTime now t old = if timeField now t = 0 then old else timeField now t := by
  rw [newTime]
  by_cases hnow : t = HFS_TIME_NOW
  · have homit : t ≠ HFS_TIME_OMIT := by
      rw [hnow]
      decide
    rw [if_pos hnow, if_neg (mt timeField_eq_zero_iff.mp homit), timeField, if_pos hnow]
  · rw [if_neg hnow]
    split_ifs with homit hzero hzero
    · rfl
    · exact absurd (timeField_eq_zero_iff.mpr homit) hzero
    · exact absurd (timeField_eq_zero_iff.mp hzero) homit
    · rw [timeField, if_neg hnow, if_pos homit]

variable {nt : NtTimes η σ} {times : σ → ι → FileTimes} {object : η → ι} {settable : σ → η → Prop}
  (hN : KeepsTimes nt times object settable)

include hN

/-- The clock is read only for a time that is to be the current one. -/
theorem clockRead (x : σ) (atime mtime : Int64) :
    ∃ now y, (if atime = HFS_TIME_NOW ∨ mtime = HFS_TIME_NOW then hfsNow nt else pure 0 : StateM σ Int64) x =
        (now, y) ∧
      newTimes now atime mtime = newTimes (nsOf (nt.querySystemTime x).1) atime mtime ∧
      times y = times x ∧ ∀ h, settable y h ↔ settable x h := by
  by_cases hread : atime = HFS_TIME_NOW ∨ mtime = HFS_TIME_NOW
  · rw [if_pos hread]
    exact ⟨_, _, rfl, rfl, hN.clock_times x, hN.clock_settable x⟩
  · rw [if_neg hread]
    rw [not_or] at hread
    refine ⟨0, x, rfl, ?_, rfl, fun _ => Iff.rfl⟩
    funext old
    rw [newTimes, newTimes, newTime, newTime, newTime, newTime, if_neg hread.1, if_neg hread.1,
      if_neg hread.2, if_neg hread.2]

theorem hfsSetTimes_run (x : σ) (h : η) (atime mtime : Int64) :
    ∃ r y, (hfsSetTimes nt h atime mtime).run x = (r, y) ∧
      ((r = .ok () ∧ (settable x h ∨ atime = HFS_TIME_OMIT ∧ mtime = HFS_TIME_OMIT) ∧
          times y = Function.update (times x) (object h)
            (newTimes (nsOf (nt.querySystemTime x).1) atime mtime (times x (object h)))) ∨
        (r.isOk = false ∧ times y = times x ∧ ¬settable x h ∧
          ¬(atime = HFS_TIME_OMIT ∧ mtime = HFS_TIME_OMIT))) := by
  obtain ⟨now, z, hz, hnew, htimes, hset⟩ := clockRead hN x atime mtime
  rw [hfsSetTimes, run_bind, run_lift, hz, ← hnew]
  dsimp only
  by_cases hnone : timeField now atime = 0 ∧ timeField now mtime = 0
  · have homit : atime = HFS_TIME_OMIT ∧ mtime = HFS_TIME_OMIT :=
      ⟨timeField_eq_zero_iff.mp hnone.1, timeField_eq_zero_iff.mp hnone.2⟩
    rw [if_pos hnone]
    refine ⟨_, _, rfl, .inl ⟨rfl, .inr homit, ?_⟩⟩
    rw [newTimes, newTime_eq_timeField, newTime_eq_timeField, if_pos hnone.1, if_pos hnone.2,
      Function.update_eq_self, htimes]
  · rw [if_neg hnone]
    have hb : BasicInformation.Proper
        { lastAccessTime := timeField now atime, lastWriteTime := timeField now mtime } :=
      ⟨timeField_nonneg _ _, timeField_nonneg _ _, hnone, rfl⟩
    by_cases hcan : settable x h
    · obtain ⟨y, hrun, hy⟩ := hN.set z h _ hb ((hset h).mpr hcan)
      refine ⟨_, _, by rw [withErrno]; exact rfl, .inl ⟨?_, .inl hcan, ?_⟩⟩
      · rw [hrun]
        rfl
      · rw [hrun]
        rw [htimes] at hy
        rw [hy, BasicInformation.applied, newTimes, newTime_eq_timeField, newTime_eq_timeField]
    · obtain ⟨s, y, hrun, hy⟩ := hN.refused z h _ hb (mt (hset h).mp hcan)
      refine ⟨_, _, by rw [withErrno]; exact rfl, .inr ⟨?_, ?_, hcan, ?_⟩⟩
      · rw [hrun]
        rfl
      · rw [hrun]
        exact hy.trans htimes
      · rintro ⟨ha, hm⟩
        exact hnone ⟨timeField_eq_zero_iff.mpr ha, timeField_eq_zero_iff.mpr hm⟩

theorem setAsAsked_iff {asked : LxTimespec × LxTimespec} {atime mtime : Int64}
    (ha : timeArg asked.1 = .ok atime) (hm : timeArg asked.2 = .ok mtime) (x : σ) (h : η) :
    SetAsAsked asked (nt.querySystemTime x).1 (object h) (settable x h) (times x)
        (times ((hfsSetTimes nt h atime mtime).run x).2) ((hfsSetTimes nt h atime mtime).run x).1 ↔
      ComesOut asked (nt.querySystemTime x).1 (times x (object h)) (settable x h) := by
  obtain ⟨r, y, hrun, hcases⟩ := hfsSetTimes_run hN x h atime mtime
  have hawant := wantedTime_eq_iff ha (nt.querySystemTime x).1 (times x (object h)).access
  have hmwant := wantedTime_eq_iff hm (nt.querySystemTime x).1 (times x (object h)).write
  have homit : timeArg asked.1 = .ok HFS_TIME_OMIT ∧ timeArg asked.2 = .ok HFS_TIME_OMIT ↔
      atime = HFS_TIME_OMIT ∧ mtime = HFS_TIME_OMIT := by
    rw [ha, hm, Except.ok.injEq, Except.ok.injEq]
  rw [hrun, ComesOut, SetAsAsked, ← hawant, ← hmwant, homit]
  rcases hcases with ⟨rfl, hset, hy⟩ | ⟨hr, hy, hcan, hsome⟩
  · have hno : ¬(¬settable x h ∧ ¬(atime = HFS_TIME_OMIT ∧ mtime = HFS_TIME_OMIT)) := by tauto
    rw [or_iff_left hno]
    have hother : ∀ j ≠ object h, times y j = times x j := by
      intro j hj
      rw [hy, Function.update_of_ne hj]
    have hself : times y (object h) = newTimes (nsOf (nt.querySystemTime x).1) atime mtime
        (times x (object h)) := by
      rw [hy, Function.update_self]
    cases wantedTime asked.1 (nt.querySystemTime x).1 (times x (object h)).access with
    | none => exact iff_of_false (by simp [Except.isOk, Except.toBool]) (by simp)
    | some a =>
        cases wantedTime asked.2 (nt.querySystemTime x).1 (times x (object h)).write with
        | none => exact iff_of_false (by simp [Except.isOk, Except.toBool]) (by simp)
        | some w =>
            dsimp only
            rw [hself, newTimes, Option.some_inj, Option.some_inj]
            exact ⟨fun h => ⟨h.1.symm, h.2.1.symm⟩, fun h => ⟨h.1.symm, h.2.symm, hother⟩⟩
  · refine iff_of_true ?_ (.inr ⟨hcan, hsome⟩)
    cases r with
    | ok u => cases hr
    | error e =>
        cases wantedTime asked.1 (nt.querySystemTime x).1 (times x (object h)).access with
        | none => exact ⟨hr, hy⟩
        | some a =>
            cases wantedTime asked.2 (nt.querySystemTime x).1 (times x (object h)).write with
            | none => exact ⟨hr, hy⟩
            | some w => exact ⟨hcan, hy⟩

end Host

section Call

variable {nt : NtTimes η σ} {K : Kernel η σ} {fs : FsCtx η} {t : FdState}
  {dirPath : ℕ → Option Bytes} {file : ℕ → OpenDescription η} {dirfd : ℤ}
  {copied : Option (Except Errno Bytes)} {flags : UInt32}

theorem timeArgs_eq {utimes : Option (LxTimespec × LxTimespec)} {atime mtime : Int64}
    (h : timeArgs (utimes.map some) = .ok (atime, mtime)) :
    timeArg (askedTimes utimes).1 = .ok atime ∧ timeArg (askedTimes utimes).2 = .ok mtime := by
  cases utimes with
  | none =>
      cases h
      exact ⟨rfl, rfl⟩
  | some ts =>
      change (timeArg ts.1).bind (fun a => (timeArg ts.2).bind fun m => .ok (a, m)) = _ at h
      rw [askedTimes, Option.getD_some]
      cases ha : timeArg ts.1 with
      | error e =>
          rw [ha] at h
          cases h
      | ok a =>
          cases hm : timeArg ts.2 with
          | error e =>
              rw [ha, hm] at h
              cases h
          | ok m =>
              rw [ha, hm] at h
              cases h
              exact ⟨rfl, rfl⟩

/-- A call whose arguments are accepted comes to an object and sets its times. -/
theorem sysUtimensat_eq {utimes : Option (Option (LxTimespec × LxTimespec))} {atime mtime : Int64}
    (hflags : flags &&& ~~~AT_SYMLINK_NOFOLLOW = 0) (htimes : timeArgs utimes = .ok (atime, mtime)) :
    sysUtimensat K fs t dirPath file dirfd copied utimes flags = (do
      let h ← utimensObject K fs t dirPath file dirfd copied flags
      closing (K.store.close h) (K.store.setTimes h atime mtime)) := by
  have hlift : ∀ f : Int64 × Int64 → Call Errno σ Unit,
      (liftM (m := Except Errno) (.ok (atime, mtime)) >>= f) = f (atime, mtime) := fun _ => rfl
  rw [sysUtimensat, if_neg (not_not.mpr hflags), htimes, hlift]
  cases copied with
  | some copied => simp only [utimensObject, bind_assoc, vfsUtimens, withAttr]
  | none =>
      dsimp only
      rw [utimensObject]
      cases t.fdGet dirfd with
      | none => rfl
      | some e =>
          dsimp only
          cases file e.2 <;> rfl

section Quiet

variable {ν : Type} {view : σ → ν} (hQ : Quiet K.store view)

include hQ

theorem utimensObject_quiet (hcwd : Canonical fs.cwd)
    (hdirs : ∀ f p, dirPath f = some p → Canonical p) (x : σ) :
    view ((utimensObject K fs t dirPath file dirfd copied flags).run x).2 = view x := by
  refine Keeps.view_eq (Q := fun _ => True) (fun v => ?_) x
  cases copied with
  | some copied =>
      rw [utimensObject]
      refine (Keeps.liftExcept _).bind fun r hr => ?_
      refine (walkPath_keeps (hQ.guarded v) (seated_anywhere fs.table)
        (openatPath_based hcwd hdirs hr) r.2 _).bind fun loc hl => ?_
      exact openAttr_keeps (hQ.guarded v) (seated_anywhere fs.table) hl.canonical
  | none =>
      rw [utimensObject]
      cases t.fdGet dirfd with
      | none => exact Keeps.throw
      | some e =>
          dsimp only
          cases file e.2 with
          | pipe ino => exact Keeps.throw
          | console => exact Keeps.throw
          | opened f =>
              cases f with
              | synth made path m => exact Keeps.throw
              | host h kind fl path m =>
                  exact ((hQ.guarded v).reopen h [] _ false trivial).bind fun _ _ => Keeps.pure trivial

end Quiet

variable {ι : Type} [DecidableEq ι] {times : σ → ι → FileTimes} {object : η → ι}
  {settable : σ → η → Prop}

/-- A call with two accepted timespecs fails as it finds no object, or sets the times of the object
as asked exactly if both come out. -/
theorem utimensat_sets_as_asked_iff (hN : KeepsTimes nt times object settable)
    (hQ : Quiet (timedKernel nt K).store times) (hcwd : Canonical fs.cwd)
    (hdirs : ∀ f p, dirPath f = some p → Canonical p)
    (hflags : flags &&& ~~~AT_SYMLINK_NOFOLLOW = 0) {utimes : Option (LxTimespec × LxTimespec)}
    {atime mtime : Int64} (htimes : timeArgs (utimes.map some) = .ok (atime, mtime)) {x z : σ}
    {r : Except Errno Unit}
    (hcall : (sysUtimensat (timedKernel nt K) fs t dirPath file dirfd copied (utimes.map some)
      flags).run x = (r, z)) :
    (∀ e y, (utimensObject (timedKernel nt K) fs t dirPath file dirfd copied flags).run x = (.error e, y) →
      r = .error e ∧ times z = times x) ∧
    ∀ h y, (utimensObject (timedKernel nt K) fs t dirPath file dirfd copied flags).run x = (.ok h, y) →
      (SetAsAsked (askedTimes utimes) (nt.querySystemTime y).1 (object h) (settable y h) (times x)
          (times z) r ↔
        ComesOut (askedTimes utimes) (nt.querySystemTime y).1 (times x (object h)) (settable y h)) := by
  rw [sysUtimensat_eq hflags htimes, run_bind] at hcall
  have hquiet : times ((utimensObject (timedKernel nt K) fs t dirPath file dirfd copied flags).run x).2 =
      times x := utimensObject_quiet hQ hcwd hdirs x
  refine ⟨fun e y hfound => ?_, fun h y hfound => ?_⟩
  · rw [hfound] at hcall hquiet
    cases hcall
    exact ⟨rfl, hquiet⟩
  · rw [hfound] at hcall hquiet
    dsimp only at hcall hquiet
    obtain ⟨ha, hm⟩ := timeArgs_eq htimes
    obtain ⟨w, hw, rfl⟩ := of_run_closing hcall
    have hset := setAsAsked_iff hN ha hm y h
    change (hfsSetTimes nt h atime mtime).run y = (r, w) at hw
    rw [hw, hquiet] at hset
    rw [close_quiet hQ]
    exact hset

end Call

def clockFileNt : NtTimes Unit FileTimes where
  querySystemTime := pure 133500000000000000
  setBasicInformation _ b := ExceptT.mk fun x => (.ok (), b.applied x)

def clockFileKernel : Kernel Unit FileTimes where
  store := { HostStore.idle with reopen := fun _ _ _ => pure ⟨(), {}, false⟩ }
  proc := { fds := fun _ => none, exe := [], maps := [] }
  stack := []

def fileTimes2001 : FileTimes := ⟨126227808000000000, 126227808000000000⟩

theorem clockFileNt_keepsTimes :
    KeepsTimes clockFileNt (fun x (_ : Unit) => x) (fun _ => ()) (fun _ _ => True) where
  clock_times _ := rfl
  clock_settable _ _ := Iff.rfl
  set x _ b _ _ := ⟨b.applied x, rfl, funext fun _ => rfl⟩
  refused _ _ _ _ h := absurd trivial h

theorem clockFileKernel_quiet :
    Quiet (timedKernel clockFileNt clockFileKernel).store (fun x (_ : Unit) => x) where
  guarded _ :=
    { openat := fun _ _ _ _ _ _ _ _ _ _ => Keeps.throw
      reopen := fun _ _ _ _ _ => Keeps.pure trivial
      stat := fun _ => Keeps.throw
      readlink := fun _ => Keeps.throw
      close := fun _ _ h => h
      now := fun _ h => h
      alloc := fun _ h => h }
  reparse _ _ _ _ _ _ _ _ _ _ h := nomatch h

/-- `utimensat` through a descriptor of the file. -/
def utimensFile (ts : LxTimespec × LxTimespec) : Except Errno Unit × FileTimes :=
  (sysUtimensat (timedKernel clockFileNt clockFileKernel) (FsCtx.initial () 1 true) fullTable (fun _ => none)
    (fun _ => .opened (.host () .host O_RDWR (str "/f") statMount)) 0 none (some (some ts)) 0).run
    fileTimes2001

/-- A whole second before 1970 and the current time. -/
theorem second_before_1970_set :
    SetAsAsked (⟨-1, 0⟩, ⟨0, UTIME_NOW⟩) 133500000000000000 () True (fun _ => fileTimes2001)
      (fun _ => (utimensFile (⟨-1, 0⟩, ⟨0, UTIME_NOW⟩)).2) (utimensFile (⟨-1, 0⟩, ⟨0, UTIME_NOW⟩)).1 := by
  have hcall : (sysUtimensat (timedKernel clockFileNt clockFileKernel) (FsCtx.initial () 1 true) fullTable
      (fun _ => none) (fun _ => .opened (.host () .host O_RDWR (str "/f") statMount)) 0 none
      ((some (⟨-1, 0⟩, ⟨0, UTIME_NOW⟩)).map some) 0).run fileTimes2001 =
        ((utimensFile (⟨-1, 0⟩, ⟨0, UTIME_NOW⟩)).1, (utimensFile (⟨-1, 0⟩, ⟨0, UTIME_NOW⟩)).2) := rfl
  have htimes : timeArgs ((some (⟨-1, 0⟩, ⟨0, UTIME_NOW⟩)).map some) = .ok (-1000000000, -2) := by decide
  have hset := utimensat_sets_as_asked_iff clockFileNt_keepsTimes clockFileKernel_quiet Canonical.root
    (by simp) (by decide) htimes hcall
  exact (hset.2 () fileTimes2001 rfl).mpr (.inl ⟨by decide, by decide⟩)

/-- The last nanosecond before 1970 is the count that stands for no change. -/
theorem last_nanosecond_before_1970_left_alone :
    timeArgs (some (some (⟨-1, 999999999⟩, ⟨0, UTIME_OMIT⟩))) = .ok (-1, -1) ∧
      wantedTime ⟨-1, 999999999⟩ 133500000000000000 fileTimes2001.access = some 116444735999999999 ∧
      utimensFile (⟨-1, 999999999⟩, ⟨0, UTIME_OMIT⟩) = (.ok (), fileTimes2001) ∧
      ¬SetAsAsked (⟨-1, 999999999⟩, ⟨0, UTIME_OMIT⟩) 133500000000000000 () True
        (fun _ => fileTimes2001) (fun _ => (utimensFile (⟨-1, 999999999⟩, ⟨0, UTIME_OMIT⟩)).2)
        (utimensFile (⟨-1, 999999999⟩, ⟨0, UTIME_OMIT⟩)).1 := by
  have hwant : wantedTime ⟨-1, 999999999⟩ 133500000000000000 fileTimes2001.access =
      some 116444735999999999 := by decide
  have homit : wantedTime ⟨0, UTIME_OMIT⟩ 133500000000000000 fileTimes2001.write =
      some 126227808000000000 := by decide
  have hrun : utimensFile (⟨-1, 999999999⟩, ⟨0, UTIME_OMIT⟩) = (.ok (), fileTimes2001) := rfl
  refine ⟨by decide, hwant, hrun, fun h => ?_⟩
  rw [SetAsAsked, hwant, homit, hrun] at h
  have hset : fileTimes2001.access.toInt = 116444735999999999 := h.1
  revert hset
  decide

end SysvNt
