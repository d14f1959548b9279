import SysvNt.HostOpen
import SysvNt.HostPaths
import SysvNt.SignedWords

/-!
# The times stat reports

`to_stat` and `to_statx` split each nanosecond count into seconds and the rest. A FILETIME comes
out exactly when its distance from 1970 in nanoseconds fits a word and is not a fraction of a
second before it.
-/

namespace SysvNt

open SignedWords

structure LxTimespec where
  tvSec : Int64
  tvNsec : Int64
  deriving DecidableEq

structure LxStatxTimestamp where
  tvSec : Int64
  tvNsec : UInt32
  deriving DecidableEq

structure LxStat where
  stDev : UInt64
  stIno : UInt64
  stNlink : UInt64
  stMode : UInt32
  stUid : UInt32
  stGid : UInt32
  stRdev : UInt64
  stSize : Int64
  stBlksize : Int64
  stBlocks : Int64
  stAtim : LxTimespec
  stMtim : LxTimespec
  stCtim : LxTimespec
  deriving DecidableEq

structure LxStatx where
  stxMask : UInt32
  stxBlksize : UInt32
  stxNlink : UInt32
  stxUid : UInt32
  stxGid : UInt32
  stxMode : UInt16
  stxIno : UInt64
  stxSize : UInt64
  stxBlocks : UInt64
  stxAtime : LxStatxTimestamp
  stxBtime : LxStatxTimestamp
  stxCtime : LxStatxTimestamp
  stxMtime : LxStatxTimestamp
  stxRdevMajor : UInt32
  stxRdevMinor : UInt32
  stxDevMajor : UInt32
  stxDevMinor : UInt32
  deriving DecidableEq

def STATX_BASIC_STATS : UInt32 := 0x7ff
def STATX_BTIME : UInt32 := 0x800

def toTimespec (ns : Int64) : LxTimespec := ⟨ns / 1000000000, ns % 1000000000⟩

def toStatxTimestamp (ns : Int64) : LxStatxTimestamp :=
  ⟨ns / 1000000000, (ns % 1000000000).toUInt64.toUInt32⟩

def toStat (k : KStat) : LxStat where
  stDev := k.dev
  stIno := k.ino
  stNlink := k.nlink.toUInt64
  stMode := k.mode
  stUid := k.uid
  stGid := k.gid
  stRdev := (k.rdevMajor &&& 0xfff).toUInt64 <<< 8 ||| (k.rdevMinor &&& 0xff).toUInt64 |||
    (k.rdevMinor &&& ~~~0xff).toUInt64 <<< 12 ||| (k.rdevMajor &&& ~~~0xfff).toUInt64 <<< 32
  stSize := k.size.toInt64
  stBlksize := k.blksize.toUInt64.toInt64
  stBlocks := k.blocks.toInt64
  stAtim := toTimespec k.atime
  stMtim := toTimespec k.mtime
  stCtim := toTimespec k.ctime

def toStatx (k : KStat) (mask : UInt32) : LxStatx where
  stxMask := mask &&& STATX_BASIC_STATS ||| mask &&& STATX_BTIME
  stxBlksize := k.blksize
  stxNlink := k.nlink
  stxUid := k.uid
  stxGid := k.gid
  stxMode := k.mode.toUInt16
  stxIno := k.ino
  stxSize := k.size
  stxBlocks := k.blocks
  stxAtime := toStatxTimestamp k.atime
  stxBtime := toStatxTimestamp k.btime
  stxCtime := toStatxTimestamp k.ctime
  stxMtime := toStatxTimestamp k.mtime
  stxRdevMajor := k.rdevMajor
  stxRdevMinor := k.rdevMinor
  stxDevMajor := (k.dev >>> 8).toUInt32 &&& 0xfff
  stxDevMinor := (k.dev &&& 0xff).toUInt32 ||| (k.dev >>> 12 &&& 0xfff00).toUInt32

inductive FileTime where
  | access | write | change | creation
  deriving DecidableEq

/-- The FILETIME of the host for each of them. -/
def NtInfo.time (i : NtInfo) : FileTime → Int64
  | .access => i.lastAccessTime
  | .write => i.lastWriteTime
  | .change => i.changeTime
  | .creation => i.creationTime

/-- stat has no place for the creation time. -/
def LxStat.time (st : LxStat) : FileTime → Option LxTimespec
  | .access => some st.stAtim
  | .write => some st.stMtim
  | .change => some st.stCtim
  | .creation => none

def LxStatx.time (st : LxStatx) : FileTime → LxStatxTimestamp
  | .access => st.stxAtime
  | .write => st.stxMtime
  | .change => st.stxCtime
  | .creation => st.stxBtime

def EPOCH_DIFF_100NS : ℤ := 116444736000000000

def NSEC : ℤ := 1000000000

/-- The instant of a FILETIME, in nanoseconds from 1970. -/
def unixNs (f : ℤ) : ℤ := (f - EPOCH_DIFF_100NS) * 100

/-- The seconds and nanoseconds of an instant as a time of the two structures should be. -/
structure Splits (ns sec nsec : ℤ) : Prop where
  nonneg : 0 ≤ nsec
  lt : nsec < NSEC
  exact : sec * NSEC + nsec = ns

/-- A time of stat, where it has one, and of statx, both exact and the same. -/
structure ShowsTime (f : Int64) (t : Option LxTimespec) (tx : LxStatxTimestamp) : Prop where
  stat : ∀ s ∈ t, Splits (unixNs f.toInt) s.tvSec.toInt s.tvNsec.toInt
  statx : Splits (unixNs f.toInt) tx.tvSec.toInt tx.tvNsec.toNat
  agree : ∀ s ∈ t, s.tvSec = tx.tvSec ∧ s.tvNsec.toInt = tx.tvNsec.toNat

/-- The FILETIMEs whose instants fit a word, and which are not a fraction of a second before
1970. -/
def Representable (f : ℤ) : Prop :=
  24211015631452242 ≤ f ∧ f ≤ 208678456368547758 ∧
    (EPOCH_DIFF_100NS ≤ f ∨ 10000000 ∣ f - EPOCH_DIFF_100NS)

instance (f : ℤ) : Decidable (Representable f) := inferInstanceAs (Decidable (_ ∧ _ ∧ _))

theorem toInt_nsOf {f : Int64} (hf : f ≠ 0) : (nsOf f).toInt = wrapped (unixNs f.toInt) := by
  rw [nsOf, if_neg hf, Int64.toInt_mul, Int64.toInt_sub]
  exact wrapped_sub_mul _ _ _

theorem toInt_tvSec (ns : Int64) : (toTimespec ns).tvSec.toInt = ns.toInt.tdiv NSEC :=
  Int64.toInt_div_of_ne_right _ _ (by decide)

theorem toInt_tvNsec (ns : Int64) : (toTimespec ns).tvNsec.toInt = ns.toInt.tmod NSEC :=
  Int64.toInt_mod _ _

/-- Seconds and remainder put the nanoseconds together again, whatever their signs. -/
theorem toTimespec_sum (ns : Int64) :
    (toTimespec ns).tvSec.toInt * NSEC + (toTimespec ns).tvNsec.toInt = ns.toInt := by
  rw [toInt_tvSec, toInt_tvNsec]
  exact Int.tdiv_mul_add_tmod _ _

theorem tvNsec_lt (ns : Int64) : (toTimespec ns).tvNsec.toInt < NSEC := by
  rw [toInt_tvNsec]
  exact Int.tmod_lt_of_pos _ (by decide)

theorem neg_lt_tvNsec (ns : Int64) : -NSEC < (toTimespec ns).tvNsec.toInt := by
  rw [toInt_tvNsec]
  exact Int.lt_tmod_of_pos _ (by decide)

/-- A cast to an unsigned word of 32 bits keeps what is not negative and adds 2^32 to what is. -/
theorem toNat_toUInt32 {r : Int64} (hle : -2 ^ 32 ≤ r.toInt) (hlt : r.toInt < 2 ^ 32) :
    (r.toUInt64.toUInt32.toNat : ℤ) = if 0 ≤ r.toInt then r.toInt else r.toInt + 2 ^ 32 := by
  have hcond : r.toInt = if 2 * r.toUInt64.toNat < 2 ^ 64 then (r.toUInt64.toNat : ℤ)
      else (r.toUInt64.toNat : ℤ) - (2 ^ 64 : ℕ) := BitVec.toInt_eq_toNat_cond r.toBitVec
  have hbound := r.toUInt64.toNat_lt
  rw [UInt64.toNat_toUInt32]
  split_ifs at hcond with hsign
  · rw [if_pos (by omega)]
    omega
  · rw [if_neg (by omega)]
    omega

theorem statx_tvNsec (ns : Int64) : ((toStatxTimestamp ns).tvNsec.toNat : ℤ) =
    if 0 ≤ (toTimespec ns).tvNsec.toInt then (toTimespec ns).tvNsec.toInt
    else (toTimespec ns).tvNsec.toInt + 2 ^ 32 := by
  have hlt := tvNsec_lt ns
  have hgt := neg_lt_tvNsec ns
  rw [NSEC] at hlt hgt
  exact toNat_toUInt32 (r := (toTimespec ns).tvNsec) (by omega) (by omega)

theorem fits_unixNs_iff {f : ℤ} :
    Fits (unixNs f) ↔ 24211015631452242 ≤ f ∧ f ≤ 208678456368547758 := by
  rw [Fits, unixNs, EPOCH_DIFF_100NS]
  omega

theorem unixNs_nonneg_iff {f : ℤ} : 0 ≤ unixNs f ↔ EPOCH_DIFF_100NS ≤ f := by
  rw [unixNs]
  omega

theorem dvd_unixNs_iff {f : ℤ} : NSEC ∣ unixNs f ↔ 10000000 ∣ f - EPOCH_DIFF_100NS := by
  rw [unixNs, NSEC]
  omega

/-- What stat shows is the instant exactly if the FILETIME is representable. -/
theorem splits_toTimespec_iff {f : Int64} (hf : f ≠ 0) :
    Splits (unixNs f.toInt) (toTimespec (nsOf f)).tvSec.toInt (toTimespec (nsOf f)).tvNsec.toInt ↔
      Representable f.toInt := by
  have hsum := toTimespec_sum (nsOf f)
  have hrem : 0 ≤ (toTimespec (nsOf f)).tvNsec.toInt ↔
      0 ≤ wrapped (unixNs f.toInt) ∨ NSEC ∣ wrapped (unixNs f.toInt) := by
    rw [toInt_tvNsec, toInt_nsOf hf]
    exact tmod_nonneg_iff (by decide)
  rw [toInt_nsOf hf] at hsum
  constructor
  · intro h
    have hwrap : wrapped (unixNs f.toInt) = unixNs f.toInt := hsum.symm.trans h.exact
    have hsign := hrem.mp h.nonneg
    rw [hwrap, unixNs_nonneg_iff, dvd_unixNs_iff] at hsign
    obtain ⟨hle, hge⟩ := fits_unixNs_iff.mp (wrapped_eq_iff.mp hwrap)
    exact ⟨hle, hge, hsign⟩
  · rintro ⟨hle, hge, hsign⟩
    have hwrap := wrapped_eq_iff.mpr (fits_unixNs_iff.mpr ⟨hle, hge⟩)
    rw [hwrap, unixNs_nonneg_iff, dvd_unixNs_iff] at hrem
    exact ⟨hrem.mpr hsign, tvNsec_lt _, hsum.trans hwrap⟩

/-- Where the rest is not negative, statx has the same one. -/
theorem statx_eq_of_nonneg {ns : Int64} (h : 0 ≤ (toTimespec ns).tvNsec.toInt) :
    (toTimespec ns).tvNsec.toInt = (toStatxTimestamp ns).tvNsec.toNat := by
  rw [statx_tvNsec, if_pos h]

/-- statx shows the instant exactly where stat does. -/
theorem splits_toStatxTimestamp_iff {f : Int64} (hf : f ≠ 0) :
    Splits (unixNs f.toInt) (toStatxTimestamp (nsOf f)).tvSec.toInt
        (toStatxTimestamp (nsOf f)).tvNsec.toNat ↔
      Representable f.toInt := by
  have hgt := neg_lt_tvNsec (nsOf f)
  rw [← splits_toTimespec_iff hf]
  constructor
  · intro h
    have hlt := h.lt
    rw [statx_tvNsec, NSEC] at hlt
    rw [NSEC] at hgt
    have hnonneg : 0 ≤ (toTimespec (nsOf f)).tvNsec.toInt := by
      split_ifs at hlt with hsign
      · exact hsign
      · omega
    rw [← statx_eq_of_nonneg hnonneg] at h
    exact h
  · intro h
    rw [← statx_eq_of_nonneg h.nonneg]
    exact h

/-- A time nobody shows exactly is one of the two kinds of FILETIME stat goes wrong on. -/
theorem showsTime_iff {f : Int64} (hf : f ≠ 0) {t : Option LxTimespec}
    (ht : ∀ s ∈ t, s = toTimespec (nsOf f)) :
    ShowsTime f t (toStatxTimestamp (nsOf f)) ↔ Representable f.toInt := by
  constructor
  · intro h
    exact (splits_toStatxTimestamp_iff hf).mp h.statx
  · intro h
    have hsplits := (splits_toTimespec_iff hf).mpr h
    refine ⟨?_, (splits_toStatxTimestamp_iff hf).mpr h, ?_⟩
    · intro s hs
      rw [ht s hs]
      exact hsplits
    · intro s hs
      rw [ht s hs]
      exact ⟨rfl, statx_eq_of_nonneg hsplits.nonneg⟩

section

variable {η : Type}

theorem toStatx_time (m : Mount η) (i : NtInfo) (name : Option Bytes) (mask : UInt32)
    (which : FileTime) : (toStatx (kstatOf m (statOf i) name) mask).time which =
      toStatxTimestamp (nsOf (i.time which)) := by
  cases which <;> rfl

theorem toStat_time (m : Mount η) (i : NtInfo) (name : Option Bytes) (which : FileTime) :
    ∀ s ∈ (toStat (kstatOf m (statOf i) name)).time which,
      s = toTimespec (nsOf (i.time which)) := by
  intro s hs
  cases which with
  | access => exact (Option.some.inj hs).symm
  | write => exact (Option.some.inj hs).symm
  | change => exact (Option.some.inj hs).symm
  | creation => cases hs

/-- Each time of each file the host describes comes out of stat and statx exactly if its FILETIME
is representable. -/
theorem shows_time_iff_representable (m : Mount η) (i : NtInfo) (name : Option Bytes)
    (mask : UInt32) (which : FileTime) (h : i.time which ≠ 0) :
    ShowsTime (i.time which) ((toStat (kstatOf m (statOf i) name)).time which)
        ((toStatx (kstatOf m (statOf i) name) mask).time which) ↔
      Representable (i.time which).toInt := by
  rw [toStatx_time]
  exact showsTime_iff h (toStat_time m i name which)

end

def statMount : Mount Unit := ⟨.host (), [slash], 1, true, 0, 0⟩

def written2001 : NtInfo := { lastWriteTime := 126227808000000001 }

theorem written2001_shown :
    ShowsTime (written2001.time .write)
      ((toStat (kstatOf statMount (statOf written2001) none)).time .write)
      ((toStatx (kstatOf statMount (statOf written2001) none) 0xfff).time .write) :=
  (shows_time_iff_representable statMount written2001 none 0xfff .write (by decide)).mpr
    (by decide)

def written1969 : NtInfo := { lastWriteTime := 116444735999999999 }

/-- The last tick of 1969 comes out with -100 nanoseconds in stat and 2^32 - 100 in statx. -/
theorem written1969_not_shown :
    (written1969.time .write ≠ 0 ∧ Fits (unixNs (written1969.time .write).toInt)) ∧
      (toStat (kstatOf statMount (statOf written1969) none)).stMtim = ⟨0, -100⟩ ∧
      (toStatx (kstatOf statMount (statOf written1969) none) 0xfff).stxMtime = ⟨0, 4294967196⟩ ∧
      ¬ShowsTime (written1969.time .write)
        ((toStat (kstatOf statMount (statOf written1969) none)).time .write)
        ((toStatx (kstatOf statMount (statOf written1969) none) 0xfff).time .write) := by
  refine ⟨by decide, by decide, by decide, ?_⟩
  intro h
  have hlt := h.statx.lt
  revert hlt
  decide

end SysvNt
