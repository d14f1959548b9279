import SysvNt.DescriptorStats
import SysvNt.WrittenModes

/-!
# Device numbers

`sys_mknodat` splits the number of a device into a major and a minor part, `make_reparse` writes the
parts as `$LXDEV` unless both are zero, and `to_stat` puts what the host returns together again. The
parts of a number lie interleaved in it: eight bits of the minor, twelve of the major, twenty-four of
the minor and twenty of the major.
-/

namespace SysvNt

open FallibleCalls

def mknodMajor (dev : UInt64) : UInt32 :=
  UInt64.toUInt32 ((dev >>> 8 &&& (0xfff : UInt64)) ||| (dev >>> 32 &&& ~~~(0xfff : UInt64)))

def mknodMinor (dev : UInt64) : UInt32 :=
  UInt64.toUInt32 ((dev &&& (0xff : UInt64)) ||| (dev >>> 12 &&& ~~~(0xff : UInt64)))

def gnuDevMajor (dev : UInt64) : UInt32 :=
  UInt64.toUInt32 ((dev &&& (0xfff00 : UInt64)) >>> 8 ||| (dev &&& (0xfffff00000000000 : UInt64)) >>> 32)

def gnuDevMinor (dev : UInt64) : UInt32 :=
  UInt64.toUInt32 ((dev &&& (0xff : UInt64)) ||| (dev &&& (0xffffff00000 : UInt64)) >>> 12)

/-- The number that `to_stat` makes of the parts. -/
def makedev (major minor : UInt32) : UInt64 :=
  (major &&& 0xfff).toUInt64 <<< 8 ||| (minor &&& 0xff).toUInt64 |||
    (minor &&& ~~~0xff).toUInt64 <<< 12 ||| (major &&& ~~~0xfff).toUInt64 <<< 32

section Bits

/-- The masks bit by bit. -/
theorem mask32 : ∀ i < 32, (255#32).getLsbD i = decide (i < 8) ∧ (4095#32).getLsbD i = decide (i < 12) ∧
    (4294967040#32).getLsbD i = decide (8 ≤ i) ∧ (4294963200#32).getLsbD i = decide (12 ≤ i) ∧
    (1048320#32).getLsbD i = decide (8 ≤ i ∧ i < 20) := by
  decide

theorem mask64 : ∀ i < 64, (255#64).getLsbD i = decide (i < 8) ∧ (4095#64).getLsbD i = decide (i < 12) ∧
    (4294967040#64).getLsbD i = decide (8 ≤ i ∧ i < 32) ∧
    (4294963200#64).getLsbD i = decide (12 ≤ i ∧ i < 32) := by
  decide

theorem field64 : ∀ i < 64, (1048320#64).getLsbD i = decide (8 ≤ i ∧ i < 20) ∧
    (17592184995840#64).getLsbD i = decide (20 ≤ i ∧ i < 44) ∧
    (18446726481523507200#64).getLsbD i = decide (44 ≤ i) := by
  decide

theorem mknodMajor_bit (dev : UInt64) {i : ℕ} (hi : i < 32) :
    (mknodMajor dev).toBitVec.getLsbD i = dev.toBitVec.getLsbD (if i < 12 then i + 8 else i + 32) := by
  have hmask := mask32 i hi
  rw [mknodMajor]
  simp
  grind

theorem mknodMinor_bit (dev : UInt64) {i : ℕ} (hi : i < 32) :
    (mknodMinor dev).toBitVec.getLsbD i = dev.toBitVec.getLsbD (if i < 8 then i else i + 12) := by
  have hmask := mask32 i hi
  rw [mknodMinor]
  simp
  grind

theorem makedev_bit (major minor : UInt32) {i : ℕ} (hi : i < 64) :
    (makedev major minor).toBitVec.getLsbD i =
      if i < 8 then minor.toBitVec.getLsbD i else if i < 20 then major.toBitVec.getLsbD (i - 8)
      else if i < 44 then minor.toBitVec.getLsbD (i - 12) else major.toBitVec.getLsbD (i - 32) := by
  have hmask := mask64 i hi
  have hmask8 := mask64 (i - 8) (by omega)
  have hmask12 := mask64 (i - 12) (by omega)
  have hmask32 := mask64 (i - 32) (by omega)
  rw [makedev]
  simp
  grind

theorem gnuDevMajor_eq (dev : UInt64) : gnuDevMajor dev = mknodMajor dev := by
  apply UInt32.toBitVec_inj.1
  apply BitVec.eq_of_getLsbD_eq
  intro i hi
  have hlow := field64 (8 + i) (by omega)
  have hhigh := field64 (32 + i) (by omega)
  rw [mknodMajor_bit dev hi, gnuDevMajor]
  simp
  grind

theorem gnuDevMinor_eq (dev : UInt64) : gnuDevMinor dev = mknodMinor dev := by
  apply UInt32.toBitVec_inj.1
  apply BitVec.eq_of_getLsbD_eq
  intro i hi
  have hlow := mask64 i (by omega)
  have hhigh := field64 (12 + i) (by omega)
  have hmask := mask32 i (by omega)
  rw [mknodMinor_bit dev hi, gnuDevMinor]
  simp
  grind

theorem makedev_split (dev : UInt64) : makedev (mknodMajor dev) (mknodMinor dev) = dev := by
  apply UInt64.toBitVec_inj.1
  apply BitVec.eq_of_getLsbD_eq
  intro i hi
  rw [makedev_bit _ _ hi]
  split_ifs with h8 h20 h44
  · rw [mknodMinor_bit dev (by omega), if_pos h8]
  · rw [mknodMajor_bit dev (by omega), if_pos (by omega), Nat.sub_add_cancel (by omega)]
  · rw [mknodMinor_bit dev (by omega), if_neg (by omega), Nat.sub_add_cancel (by omega)]
  · rw [mknodMajor_bit dev (by omega), if_neg (by omega), Nat.sub_add_cancel (by omega)]

theorem mknodMajor_makedev (major minor : UInt32) : mknodMajor (makedev major minor) = major := by
  apply UInt32.toBitVec_inj.1
  apply BitVec.eq_of_getLsbD_eq
  intro i hi
  rw [mknodMajor_bit _ hi]
  split_ifs with h12
  · rw [makedev_bit _ _ (by omega), if_neg (by omega), if_pos (by omega), Nat.add_sub_cancel]
  · rw [makedev_bit _ _ (by omega), if_neg (by omega), if_neg (by omega), if_neg (by omega), Nat.add_sub_cancel]

theorem mknodMinor_makedev (major minor : UInt32) : mknodMinor (makedev major minor) = minor := by
  apply UInt32.toBitVec_inj.1
  apply BitVec.eq_of_getLsbD_eq
  intro i hi
  rw [mknodMinor_bit _ hi]
  split_ifs with h8
  · rw [makedev_bit _ _ (by omega), if_pos h8]
  · rw [makedev_bit _ _ (by omega), if_neg (by omega), if_neg (by omega), if_pos (by omega), Nat.add_sub_cancel]

end Bits

theorem toStat_rdev (k : KStat) : (toStat k).stRdev = makedev k.rdevMajor k.rdevMinor := rfl

/-- The number of the device that `to_stat` shows has the parts that `to_statx` shows. -/
theorem rdev_agrees (k : KStat) (mask : UInt32) :
    (toStatx k mask).stxRdevMajor = gnuDevMajor (toStat k).stRdev ∧
      (toStatx k mask).stxRdevMinor = gnuDevMinor (toStat k).stRdev := by
  rw [toStat_rdev, gnuDevMajor_eq, gnuDevMinor_eq, mknodMajor_makedev, mknodMinor_makedev]
  exact ⟨rfl, rfl⟩

/-- The shorter formulas of `to_statx` are enough for a number of 32 bits. -/
theorem dev_agrees {k : KStat} (h : k.dev.toNat < 2 ^ 32) (mask : UInt32) :
    (toStatx k mask).stxDevMajor = gnuDevMajor (toStat k).stDev ∧
      (toStatx k mask).stxDevMinor = gnuDevMinor (toStat k).stDev := by
  have hzero : ∀ j, 32 ≤ j → k.dev.toBitVec.getLsbD j = false := fun j hj =>
    Nat.testBit_eq_false_of_lt (lt_of_lt_of_le h (Nat.pow_le_pow_right (by decide) hj))
  change (k.dev >>> 8).toUInt32 &&& 0xfff = gnuDevMajor k.dev ∧
    (k.dev &&& 0xff).toUInt32 ||| (k.dev >>> 12 &&& 0xfff00).toUInt32 = gnuDevMinor k.dev
  constructor
  · apply UInt32.toBitVec_inj.1
    apply BitVec.eq_of_getLsbD_eq
    intro i hi
    have hmask := mask32 i hi
    have hhigh := hzero (i + 32) (by omega)
    rw [gnuDevMajor_eq, mknodMajor_bit k.dev hi]
    simp
    grind
  · apply UInt32.toBitVec_inj.1
    apply BitVec.eq_of_getLsbD_eq
    intro i hi
    have hmask := mask32 i hi
    have hhigh := hzero (i + 12)
    rw [gnuDevMinor_eq, mknodMinor_bit k.dev hi]
    simp
    grind

def SameTime (t : LxTimespec) (tx : LxStatxTimestamp) : Prop :=
  t.tvSec = tx.tvSec ∧ t.tvNsec.toInt = tx.tvNsec.toNat

/-- The fields that the two structures share say the same, the devices by their parts. -/
structure SharedAgree (st : LxStat) (sx : LxStatx) : Prop where
  dev : sx.stxDevMajor = gnuDevMajor st.stDev ∧ sx.stxDevMinor = gnuDevMinor st.stDev
  ino : sx.stxIno = st.stIno
  nlink : sx.stxNlink.toNat = st.stNlink.toNat
  mode : sx.stxMode.toNat = st.stMode.toNat
  uid : sx.stxUid = st.stUid
  gid : sx.stxGid = st.stGid
  rdev : sx.stxRdevMajor = gnuDevMajor st.stRdev ∧ sx.stxRdevMinor = gnuDevMinor st.stRdev
  size : (sx.stxSize.toNat : ℤ) = st.stSize.toInt
  blksize : (sx.stxBlksize.toNat : ℤ) = st.stBlksize.toInt
  blocks : (sx.stxBlocks.toNat : ℤ) = st.stBlocks.toInt
  atime : SameTime st.stAtim sx.stxAtime
  mtime : SameTime st.stMtim sx.stxMtime
  ctime : SameTime st.stCtim sx.stxCtime

/-- A number that both a word and a signed word hold. -/
theorem toInt_toInt64_iff (x : UInt64) : (x.toNat : ℤ) = x.toInt64.toInt ↔ x.toNat < 2 ^ 63 := by
  have hcond : x.toInt64.toInt = if 2 * x.toNat < 2 ^ 64 then (x.toNat : ℤ)
      else (x.toNat : ℤ) - (2 ^ 64 : ℕ) := BitVec.toInt_eq_toNat_cond x.toBitVec
  rw [hcond]
  split_ifs <;> omega

theorem sameTime_of_nonneg {ns : Int64} (h : 0 ≤ ns.toInt) : SameTime (toTimespec ns) (toStatxTimestamp ns) := by
  refine ⟨rfl, statx_eq_of_nonneg ?_⟩
  rw [toInt_tvNsec]
  exact Int.tmod_nonneg _ h

/-- stat and statx agree as far as the fields of the one hold what those of the other do. -/
theorem shared_agree_iff {k : KStat} (mask : UInt32) (hdev : k.dev.toNat < 2 ^ 32) (hatime : 0 ≤ k.atime.toInt)
    (hmtime : 0 ≤ k.mtime.toInt) (hctime : 0 ≤ k.ctime.toInt) :
    SharedAgree (toStat k) (toStatx k mask) ↔
      k.mode.toNat < 2 ^ 16 ∧ k.size.toNat < 2 ^ 63 ∧ k.blocks.toNat < 2 ^ 63 := by
  have hmode : (toStatx k mask).stxMode.toNat = k.mode.toNat % 2 ^ 16 := UInt32.toNat_toUInt16 _
  constructor
  · intro h
    have hsame := h.mode
    rw [hmode] at hsame
    change _ = k.mode.toNat at hsame
    exact ⟨by omega, (toInt_toInt64_iff _).mp h.size, (toInt_toInt64_iff _).mp h.blocks⟩
  · rintro ⟨hm, hsize, hblocks⟩
    have hblk : k.blksize.toUInt64.toNat < 2 ^ 63 := by
      have hlt := k.blksize.toNat_lt
      rw [UInt32.toNat_toUInt64]
      omega
    refine ⟨dev_agrees hdev mask, rfl, (UInt32.toNat_toUInt64 _).symm, ?_, rfl, rfl, rdev_agrees k mask,
      (toInt_toInt64_iff _).mpr hsize, ?_, (toInt_toInt64_iff _).mpr hblocks, sameTime_of_nonneg hatime,
      sameTime_of_nonneg hmtime, sameTime_of_nonneg hctime⟩
    · rw [hmode]
      exact Nat.mod_eq_of_lt hm
    · change (k.blksize.toNat : ℤ) = k.blksize.toUInt64.toInt64.toInt
      rw [← (toInt_toInt64_iff _).mpr hblk]
      exact congrArg Nat.cast (UInt32.toNat_toUInt64 _).symm

variable {η σ ι : Type}

def sysMknodat (K : Kernel η σ) (fs : FsCtx η) (t : FdState) (dirPath : ℕ → Option Bytes) (dirfd : ℤ)
    (copied : Except Errno Bytes) (mode : UInt32) (dev : UInt64) : Call Errno σ Unit := do
  let path ← liftM copied
  let base ← liftM (m := Except Errno) (baseOf t dirPath dirfd path)
  vfsMknod K fs base path mode (mknodMajor dev) (mknodMinor dev)

/-- A host that returns the attributes an object was made with: it has no others, and reparse data
leaves them. -/
structure ReturnsAttributes (nt₀ : Nt η σ) (nt : NtObjects η σ) (attrs : σ → ι → Option (List LxEa))
    (object : η → ι) : Prop where
  created : ∀ d w a o eas x h y, (nt.create d w a o eas).run x = (.ok h, y) → attrs y (object h) = some eas
  stamped : ∀ h rp x y, (nt.setReparse h rp).run x = (.ok (), y) → attrs y (object h) = attrs x (object h)
  closed : ∀ h x, attrs (nt₀.close h x).2 = attrs x
  closedNew : ∀ h x, attrs (nt.close h x).2 = attrs x
  query : ∀ h x i y eas, (nt₀.queryStat h).run x = (.ok i, y) → attrs x (object h) = some eas →
    ∃ i₀, has i₀.lxFlags HFS_LX_DEV = false ∧ i = eas.foldl LxEa.applied i₀

/-- A stat by path or of a description that asks the host about a handle in a state. -/
inductive StatAsks (nt₀ : Nt η σ) (nt : NtObjects η σ) (K : Kernel η σ) (fs : FsCtx η) (z : σ) (h : η) :
    KStat → Prop
  | path {base : Option Bytes} {p : Bytes} {follow : Bool} {loc : VfsLoc η} {root d : η} {w : List UInt16}
      {x x₁ x₂ y : σ} {k : KStat}
      (hwalk : (walkPath (ntKernel nt₀ nt K) fs base p (if follow then 0 else W_NOFOLLOW)).run x = (.ok loc, x₁))
      (htype : (fs.table.mountOf loc.abs).type = .host root) (hrel : pathRel (fs.table.mountOf loc.abs) loc.abs ≠ [])
      (hdir : (openHostDir (ntKernel nt₀ nt K).store root (fs.table.mountOf loc.abs) (pathParent loc.abs)).run x₁ =
        (.ok d, x₂))
      (hname : nameToWide (lastName loc.abs) 255 = some w) (hlen : w.length ≠ 0)
      (hopen : (nt₀.createFile d w (accessOf HFS_O_REPARSE) (dispositionOf HFS_O_REPARSE 0 0 0)
        (optionsOf HFS_O_REPARSE)).run x₂ = (.ok h, z))
      (hrun : (vfsStat (ntKernel nt₀ nt K) fs base p follow).run x = (.ok k, y)) : StatAsks nt₀ nt K fs z h k
  | file {kind : HostFileKind} {flags : UInt32} {path : Bytes} {m : Mount η} {k : KStat} {y : σ}
      (hrun : (vfsFstat (ntKernel nt₀ nt K) (.opened (.host h kind flags path m))).run z = (.ok k, y)) :
      StatAsks nt₀ nt K fs z h k

section Calls

variable {nt₀ : Nt η σ} {nt : NtObjects η σ} {K : Kernel η σ} {fs : FsCtx η}

/-- The query that a stat of an open object starts with. -/
theorem of_run_stat {h : η} {z y : σ} {hs : HfsStat}
    (hrun : ((ntKernel nt₀ nt K).store.stat h).run z = (.ok hs, y)) :
    ∃ i, (nt₀.queryStat h).run z = (.ok i, y) ∧ hs = statOf i := by
  change (statHandle nt₀ h).run z = _ at hrun
  rw [statHandle] at hrun
  obtain ⟨i, y', hquery, hpure⟩ := of_run_bind hrun
  cases hpure
  exact ⟨i, of_run_withErrno hquery, rfl⟩

/-- A link's size is filled in from its target, and nothing else of its stat. -/
theorem resized_rdev {c : Prop} [Decidable c] {m : Call Errno σ Bytes} {st k : KStat} {z y : σ}
    (hrun : (if c then do
        let r ← attempt m
        match r with
        | .ok t => pure (if 0 < t.length then { st with size := UInt64.ofNat t.length } else st)
        | .error _ => pure st
      else pure st : Call Errno σ KStat).run z = (.ok k, y)) :
    k.rdevMajor = st.rdevMajor ∧ k.rdevMinor = st.rdevMinor := by
  split_ifs at hrun
  · obtain ⟨r, z', _, hrest⟩ := of_run_bind hrun
    cases r with
    | error e =>
        cases hrest
        exact ⟨rfl, rfl⟩
    | ok t =>
        cases hrest
        split_ifs <;> exact ⟨rfl, rfl⟩
  · cases hrun
    exact ⟨rfl, rfl⟩

/-- The stat of a name whose open comes to a handle. -/
theorem of_run_statat {d h : η} {name : Bytes} {w : List UInt16} (hname : nameToWide name 255 = some w)
    (hlen : w.length ≠ 0) {x z y : σ} {hs : HfsStat}
    (hopen : (nt₀.createFile d w (accessOf HFS_O_REPARSE) (dispositionOf HFS_O_REPARSE 0 0 0)
      (optionsOf HFS_O_REPARSE)).run x = (.ok h, z))
    (hrun : ((ntKernel nt₀ nt K).store.statat d name).run x = (.ok hs, y)) :
    ∃ i z', (nt₀.queryStat h).run z = (.ok i, z') ∧ hs = statOf i := by
  rw [HostStore.statat] at hrun
  obtain ⟨o, z', hopened, hrest⟩ := of_run_bind hrun
  change (hfsOpenat nt₀ d name HFS_O_REPARSE 0 0 0 true).run x = _ at hopened
  rw [run_hfsOpenat nt₀ hname hlen, hopen] at hopened
  change (withStat nt₀ h false).run z = _ at hopened
  rw [withStat] at hopened
  obtain ⟨r, z₁, hstat, hopened⟩ := of_run_bind hopened
  have hstat : ((ntKernel nt₀ nt K).store.stat h).run z = (r, z₁) := of_run_attempt hstat
  obtain ⟨z₂, hpure, _⟩ := of_run_closing hrest
  cases r with
  | error e =>
      obtain ⟨_, hthrow, _⟩ := of_run_closing hopened
      cases hthrow
  | ok st =>
      obtain ⟨i, hquery, rfl⟩ := of_run_stat hstat
      cases hopened
      cases hpure
      exact ⟨i, _, hquery, rfl⟩

/-- What a stat reports of the number is what the host told. -/
theorem StatAsks.answer {z : σ} {h : η} {k : KStat} (hs : StatAsks nt₀ nt K fs z h k) :
    ∃ (i : NtInfo) (y : σ) (m : Mount η) (name : Option Bytes), (nt₀.queryStat h).run z = (.ok i, y) ∧
      k.rdevMajor = (kstatOf m (statOf i) name).rdevMajor ∧
      k.rdevMinor = (kstatOf m (statOf i) name).rdevMinor := by
  cases hs with
  | @file kind flags path m k y hrun =>
      rw [vfsFstat, hostfileStat] at hrun
      obtain ⟨st, y', hstat, hrest⟩ := of_run_bind hrun
      obtain ⟨i, hquery, rfl⟩ := of_run_stat hstat
      exact ⟨i, y', m, _, hquery, resized_rdev hrest⟩
  | @path base p follow loc root d w x x₁ x₂ y k hwalk htype hrel hdir hname hlen hopen hrun =>
      rw [vfsStat, run_bind, hwalk] at hrun
      obtain ⟨st, y', hstat, hrest⟩ := of_run_bind hrun
      rw [statAbs, htype] at hstat
      dsimp only at hstat
      rw [if_neg hrel, run_bind, hdir] at hstat
      obtain ⟨hs, y₁, hstatat, hpure⟩ := of_run_bind hstat
      obtain ⟨y₂, hstatat, _⟩ := of_run_closing hstatat
      obtain ⟨i, z', hquery, rfl⟩ := of_run_statat hname hlen hopen hstatat
      cases hpure
      exact ⟨i, z', _, _, hquery, resized_rdev hrest⟩

def deviceEas (uid gid mode : UInt32) (dev : UInt64) : List LxEa :=
  buildLxEas (HFS_LX_UID ||| HFS_LX_GID ||| HFS_LX_MODE |||
    (if mknodMajor dev ≠ 0 ∨ mknodMinor dev ≠ 0 then HFS_LX_DEV else 0)) uid gid mode (mknodMajor dev) (mknodMinor dev)

/-- What the host tells of an object with the attributes of a device is its number, also where there is
nothing to write. -/
theorem deviceEas_rdev {i₀ : NtInfo} (h₀ : has i₀.lxFlags HFS_LX_DEV = false) (uid gid mode : UInt32) (dev : UInt64)
    (m : Mount η) (name : Option Bytes) :
    (kstatOf m (statOf ((deviceEas uid gid mode dev).foldl LxEa.applied i₀)) name).rdevMajor = mknodMajor dev ∧
      (kstatOf m (statOf ((deviceEas uid gid mode dev).foldl LxEa.applied i₀)) name).rdevMinor = mknodMinor dev := by
  obtain ⟨i, hi⟩ : ∃ i, i = (deviceEas uid gid mode dev).foldl LxEa.applied i₀ := ⟨_, rfl⟩
  rw [← hi]
  obtain ⟨hmajor, hminor⟩ := reported_rdev m i name
  rw [hmajor, hminor]
  by_cases hnz : mknodMajor dev ≠ 0 ∨ mknodMinor dev ≠ 0
  · have hwhole : i = ([.uid uid, .gid gid, .mod mode, .dev (mknodMajor dev) (mknodMinor dev)] : List LxEa).foldl
        LxEa.applied i₀ := by
      rw [hi, deviceEas, if_pos hnz]
      rfl
    have hdev : has i.lxFlags HFS_LX_DEV = true := by
      rw [hwhole]
      simp only [LxEa.applied, List.foldl_cons, List.foldl_nil, has_or, Bool.or_eq_true]
      exact .inr (by decide)
    rw [if_pos hdev, if_pos hdev, hwhole]
    exact ⟨rfl, rfl⟩
  · have hrest : i = ([.uid uid, .gid gid, .mod mode] : List LxEa).foldl LxEa.applied i₀ := by
      rw [hi, deviceEas, if_neg hnz]
      rfl
    have hdev : has i.lxFlags HFS_LX_DEV = false := by
      rw [hrest]
      simp [LxEa.applied, has_or, lxBits, h₀]
    rw [hdev]
    simp only [not_or, not_not] at hnz
    exact ⟨hnz.1.symm, hnz.2.symm⟩

/-- The object of this handle was made in the parent that a path comes to, under the last name. -/
def MadeAt (nt₀ : Nt η σ) (nt : NtObjects η σ) (K : Kernel η σ) (fs : FsCtx η) (base : Option Bytes) (path : Bytes)
    (x : σ) (h : η) : Prop :=
  ∃ r y w access options eas z, (hostParent (ntKernel nt₀ nt K) fs base path).run x = (.ok r, y) ∧
    nameToWide r.1.last 255 = some w ∧ (nt.create r.2 w access options eas).run y = (.ok h, z)

section Made

variable {attrs : σ → ι → Option (List LxEa)} {object : η → ι} (hR : ReturnsAttributes nt₀ nt attrs object)

include hR

theorem ReturnsAttributes.stampReparse {h : η} {rp : Reparse} {x y : σ}
    (hrun : (stampReparse nt h rp).run x = (.ok (), y)) : attrs y (object h) = attrs x (object h) := by
  obtain ⟨r, z, hstamp, hrest⟩ := of_run_bind hrun
  cases r with
  | error e =>
      obtain ⟨_, w, _, hrest⟩ := of_run_bind hrest
      obtain ⟨v, hthrow, _⟩ := of_run_closing hrest
      cases hthrow
  | ok u =>
      obtain ⟨v, hpure, rfl⟩ := of_run_closing hrest
      cases hpure
      rw [hR.closedNew, hR.stamped _ _ _ _ (of_run_withErrno (of_run_attempt hstamp))]

theorem ReturnsAttributes.makeReparse {d : η} {name : Bytes} {mode uid gid : UInt32} {dev : UInt64} {rp : Reparse}
    {x y : σ} (hrun : (makeReparse nt d name mode uid gid (mknodMajor dev) (mknodMinor dev) rp).run x = (.ok (), y)) :
    ∃ w access options h z, nameToWide name 255 = some w ∧
      (nt.create d w access options (deviceEas uid gid mode dev)).run x = (.ok h, z) ∧
      attrs y (object h) = some (deviceEas uid gid mode dev) := by
  rw [SysvNt.makeReparse] at hrun
  cases hname : nameToWide name 255 with
  | none =>
      rw [hname] at hrun
      cases hrun
  | some w =>
      rw [hname] at hrun
      dsimp only at hrun
      by_cases hempty : w.length = 0
      · rw [if_pos hempty] at hrun
        cases hrun
      · rw [if_neg hempty] at hrun
        obtain ⟨h, z, hcreate, hstamp⟩ := of_run_bind hrun
        have hcreate := of_run_withErrno hcreate
        refine ⟨w, _, _, h, z, rfl, hcreate, ?_⟩
        rw [hR.stampReparse hstamp]
        exact hR.created _ _ _ _ _ _ _ _ hcreate

/-- A device that was made is an object with the attributes of its number. -/
theorem ReturnsAttributes.vfsMknod {base : Option Bytes} {path : Bytes} {mode : UInt32} {dev : UInt64} {x y : σ}
    (hmode : mode &&& S_IFMT = S_IFCHR ∨ mode &&& S_IFMT = S_IFBLK)
    (hrun : (vfsMknod (ntKernel nt₀ nt K) fs base path mode (mknodMajor dev) (mknodMinor dev)).run x = (.ok (), y)) :
    ∃ h uid gid m, MadeAt nt₀ nt K fs base path x h ∧ attrs y (object h) = some (deviceEas uid gid m dev) := by
  have hkind : ∃ kind t, specialKind mode = some kind ∧ specialTag kind = some t := by
    rcases hmode with h | h
    · exact ⟨.chr, _, by rw [specialKind, h]; decide, rfl⟩
    · exact ⟨.blk, _, by rw [specialKind, h]; decide, rfl⟩
  have hspecial : ¬(mode &&& S_IFMT = 0 ∨ mode &&& S_IFMT = S_IFREG) := by
    rcases hmode with h | h <;> rw [h] <;> decide
  obtain ⟨kind, t, hkind, htag⟩ := hkind
  rw [SysvNt.vfsMknod, if_neg hspecial, hkind] at hrun
  obtain ⟨r, z, hparent, hrest⟩ := of_run_bind hrun
  obtain ⟨y', hmknod, hy⟩ := of_run_closing hrest
  change (hfsMknod nt r.2 r.1.last kind _ _ _ _ _).run z = _ at hmknod
  rw [hfsMknod, htag] at hmknod
  obtain ⟨w, access, options, h, z', hname, hcreate, hattrs⟩ := hR.makeReparse hmknod
  have hkept : attrs y (object h) = attrs y' (object h) := by
    rw [hy]
    exact congrFun (hR.closed r.2 y') (object h)
  exact ⟨h, _, _, _, ⟨r, z, w, access, options, _, z', hparent, hname, hcreate⟩, hkept.trans hattrs⟩

end Made

/-- Device numbers come out of stat and statx as they went into `mknodat`, and stat and statx agree as far as
the mode is one of sixteen bits and the size and the blocks are those of a signed word. -/
theorem device_numbers {attrs : σ → ι → Option (List LxEa)} {object : η → ι}
    (hR : ReturnsAttributes nt₀ nt attrs object) :
    (∀ (fs : FsCtx η) t dirPath dirfd path mode dev x y, mode &&& S_IFMT = S_IFCHR ∨ mode &&& S_IFMT = S_IFBLK →
      (sysMknodat (ntKernel nt₀ nt K) fs t dirPath dirfd (.ok path) mode dev).run x = (.ok (), y) →
      ∃ base h, baseOf t dirPath dirfd path = .ok base ∧ MadeAt nt₀ nt K fs base path x h ∧
        ∀ (fs' : FsCtx η) z h' k mask, StatAsks nt₀ nt K fs' z h' k → object h' = object h →
          attrs z (object h) = attrs y (object h) → (toStat k).stRdev = dev ∧
            (toStatx k mask).stxRdevMajor = gnuDevMajor dev ∧ (toStatx k mask).stxRdevMinor = gnuDevMinor dev) ∧
    ∀ k mask, k.dev.toNat < 2 ^ 32 → 0 ≤ k.atime.toInt → 0 ≤ k.mtime.toInt → 0 ≤ k.ctime.toInt →
      k.mode.toNat < 2 ^ 16 → k.size.toNat < 2 ^ 63 → k.blocks.toNat < 2 ^ 63 →
      SharedAgree (toStat k) (toStatx k mask) := by
  refine ⟨?_, fun k mask hdev ha hm hc hmode hsize hblocks =>
    (shared_agree_iff mask hdev ha hm hc).mpr ⟨hmode, hsize, hblocks⟩⟩
  intro fs t dirPath dirfd path mode dev x y hmode hrun
  change (liftM (m := Except Errno) (baseOf t dirPath dirfd path) >>= fun base => vfsMknod (ntKernel nt₀ nt K) fs base
    path mode (mknodMajor dev) (mknodMinor dev)).run x = _ at hrun
  cases hbase : baseOf t dirPath dirfd path with
  | error e =>
      rw [hbase] at hrun
      cases hrun
  | ok base =>
      rw [hbase] at hrun
      change (vfsMknod (ntKernel nt₀ nt K) fs base path mode _ _).run x = _ at hrun
      obtain ⟨h, uid, gid, m, hmade, hattrs⟩ := hR.vfsMknod hmode hrun
      refine ⟨base, h, rfl, hmade, fun fs' z h' k mask hasks hobject hsame => ?_⟩
      obtain ⟨i, y', mount, name, hquery, hmajor, hminor⟩ := hasks.answer
      obtain ⟨i₀, h₀, rfl⟩ := hR.query h' z i y' _ hquery (by rw [hobject, hsame, hattrs])
      obtain ⟨hmajor', hminor'⟩ := deviceEas_rdev h₀ uid gid m dev mount name
      have hrdev : (toStat k).stRdev = dev := by
        rw [toStat_rdev, hmajor, hminor, hmajor', hminor', makedev_split]
      obtain ⟨hx, hx'⟩ := rdev_agrees k mask
      rw [hrdev] at hx hx'
      exact ⟨hrdev, hx, hx'⟩

end Calls

/-- A host with one place for a device: no handle but that of the root and that of the device. -/
def deviceNt : Nt Bool (Option (List LxEa)) where
  createFile d w _ _ _ := fun x => if w = [] then (.ok d, x) else
    match x with
    | none => (.error .objectNameNotFound, x)
    | some _ => (.ok true, x)
  queryStat h := fun x => match h, x with
    | false, _ => (.ok { fileAttributes := 0x10 }, x)
    | true, none => (.error .objectNameNotFound, x)
    | true, some eas => (.ok (eas.foldl LxEa.applied { fileAttributes := 0x400, reparseTag := 0x80000025 }), x)
  close _ := pure ()

def deviceObjects : NtObjects Bool (Option (List LxEa)) where
  create _ _ _ _ eas := fun _ => (.ok true, some eas)
  setReparse _ _ := pure ()
  getReparse _ := throw .notAReparsePoint
  setDisposition _ := throw .accessDenied
  setCaseSensitive _ := throw .accessDenied
  setEa _ _ := throw .accessDenied
  close _ := pure ()

def deviceKernel : Kernel Bool (Option (List LxEa)) where
  store := HostStore.idle
  proc := { fds := fun _ => none, exe := [], maps := [] }
  stack := []

theorem deviceNt_returns : ReturnsAttributes deviceNt deviceObjects
    (fun x (h : Bool) => if h then x else none) id where
  created _ _ _ _ _ _ _ _ hrun := by
    cases hrun
    rfl
  stamped _ _ _ _ hrun := by
    cases hrun
    rfl
  closed _ _ := rfl
  closedNew _ _ := rfl
  query h x i y eas hrun hattrs := by
    cases h with
    | false => cases hattrs
    | true =>
        change x = some eas at hattrs
        subst hattrs
        cases hrun
        exact ⟨{ fileAttributes := 0x400, reparseTag := 0x80000025 }, rfl, rfl⟩

/-- `mknodat` of `/d` by root, and a stat of it. -/
def makeDevice (mode : UInt32) (dev : UInt64) : Except Errno Unit × Option (List LxEa) :=
  (sysMknodat (ntKernel deviceNt deviceObjects deviceKernel) (FsCtx.initial false 1 true) fdtableInit (fun _ => none)
    AT_FDCWD (.ok (str "/d")) mode dev).run none

def statDevice (x : Option (List LxEa)) : Except Errno KStat × Option (List LxEa) :=
  (vfsStat (ntKernel deviceNt deviceObjects deviceKernel) (FsCtx.initial false 1 true) none (str "/d") true).run x

def deviceMade : Option (List LxEa) := (makeDevice (S_IFCHR ||| 0o600) 0x123456789abcdef0).2

def deviceStat : KStat := ((statDevice deviceMade).1.toOption).getD {}

theorem statDevice_asks : StatAsks deviceNt deviceObjects deviceKernel (FsCtx.initial false 1 true) deviceMade true
    deviceStat := by
  have hwalk : (walkPath (ntKernel deviceNt deviceObjects deviceKernel) (FsCtx.initial false 1 true) none (str "/d")
      (if true then 0 else W_NOFOLLOW)).run deviceMade =
        (.ok ⟨(FsCtx.initial false 1 true).table.mountOf (str "/d"), str "/d", [], str "d"⟩, deviceMade) := rfl
  have hopen : (deviceNt.createFile false [0x64] (accessOf HFS_O_REPARSE) (dispositionOf HFS_O_REPARSE 0 0 0)
      (optionsOf HFS_O_REPARSE)).run deviceMade = (.ok true, deviceMade) := rfl
  have hstat : statDevice deviceMade = (.ok deviceStat, deviceMade) := rfl
  exact .path hwalk rfl (by decide) rfl rfl (by decide) hopen hstat

theorem device_number_shown : (makeDevice (S_IFCHR ||| 0o600) 0x123456789abcdef0).1 = .ok () ∧
    (statDevice deviceMade).1 = .ok deviceStat ∧ (toStat deviceStat).stRdev = 0x123456789abcdef0 ∧
    (toStatx deviceStat 0xfff).stxRdevMajor = 0x12345cde ∧
    SharedAgree (toStat deviceStat) (toStatx deviceStat 0xfff) := by
  obtain ⟨hcalls, hshared⟩ := device_numbers (K := deviceKernel) deviceNt_returns
  obtain ⟨base, h, _, ⟨r, y, w, access, options, eas, z, _, _, hcreate⟩, hshown⟩ :=
    hcalls (FsCtx.initial false 1 true) fdtableInit (fun _ => none) AT_FDCWD (str "/d") (S_IFCHR ||| 0o600)
      0x123456789abcdef0 none deviceMade (.inl (by decide)) rfl
  cases hcreate
  obtain ⟨hstat, hmajor, _⟩ := hshown _ deviceMade true deviceStat 0xfff statDevice_asks rfl rfl
  refine ⟨rfl, rfl, hstat, hmajor.trans (by decide), ?_⟩
  exact hshared deviceStat 0xfff (by decide) (by decide) (by decide) (by decide) (by decide) (by decide) (by decide)

/-- Of a mode of more than sixteen bits statx has the lower ones only. -/
theorem wide_mode_not_shared : ({ mode := 0x10000 } : KStat).dev.toNat < 2 ^ 32 ∧
    0 ≤ ({ mode := 0x10000 } : KStat).atime.toInt ∧ 0 ≤ ({ mode := 0x10000 } : KStat).mtime.toInt ∧
    0 ≤ ({ mode := 0x10000 } : KStat).ctime.toInt ∧
    ¬SharedAgree (toStat { mode := 0x10000 }) (toStatx { mode := 0x10000 } 0xfff) := by
  refine ⟨by decide, by decide, by decide, by decide, fun h => ?_⟩
  have hmode := h.mode
  revert hmode
  decide

end SysvNt
