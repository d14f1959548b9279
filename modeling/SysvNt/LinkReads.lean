import SysvNt.LinkTargets
import SysvNt.OpenFailure
import SysvNt.Queries
import SysvNt.UserReads

/-!
# Reading a link

`hfs_readlink` answers with the length of the target and writes as much of it as the buffer takes,
and `sys_readlinkat` copies out as many bytes as that length says. Past the buffer's end they are
not the target's.
-/

namespace SysvNt

open FallibleCalls

variable {η σ : Type}

/-- The first bytes of a buffer after a call has written the beginning of a text to it; of the others
nothing is known. -/
def bufferBytes (text : Bytes) (size n : ℕ) : List (Option UInt8) :=
  (List.range n).map fun i => if i < size then text[i]? else none

/-- `sys_readlinkat`: the bytes copied out, as many as it returns. -/
def sysReadlinkat (K : Kernel η σ) (fs : FsCtx η) (t : FdState) (dirPath : ℕ → Option Bytes)
    (writable : UInt64 → Bool) (dirfd : ℤ) (copied : Except Errno Bytes) (ubuf : UInt64) (cap : Int64) :
    Call Errno σ (List (Option UInt8)) := do
  let path ← liftM copied
  if cap ≤ 0 then throw .EINVAL
  else do
    let r ← liftM (m := Except Errno) (openatPath t dirPath dirfd (.ok path))
    let target ← vfsReadlink K fs r.1 r.2
    let n := min target.length cap.toNatClampNeg
    if copyOut writable ubuf n then pure (bufferBytes target PATH_MAX n) else throw .EFAULT

def Reparse.target : Reparse → Option Bytes
  | .symlink s => some s.target
  | .lxSymlink data => if data.length < 4 then none else some (data.drop 4)
  | _ => none

/-- The reparse data of each object: what is read is what was stamped last. -/
structure KeepsLinks {ι : Type} [DecidableEq ι] (nt : NtObjects η σ) (data : σ → ι → Option Reparse)
    (object : η → ι) : Prop where
  get : ∀ x h rp y, (nt.getReparse h).run x = (.ok rp, y) → data x (object h) = some rp
  set : ∀ x h rp y, (nt.setReparse h rp).run x = (.ok (), y) →
    data y = Function.update (data x) (object h) (some rp)
  close : ∀ x h, data (nt.close h x).2 = data x

def linkKernel (nt : NtObjects η σ) (K : Kernel η σ) : Kernel η σ := { K with store := nt.store K.store }

section

variable {ι : Type} [DecidableEq ι] (nt : NtObjects η σ) (K : Kernel η σ) (fs : FsCtx η)
  (data : σ → ι → Option Reparse) (object : η → ι)

/-- The path leads to a link with this target: one of `/proc` or of `/dev`, or an object of the host
that can be read. -/
inductive LinkAt (base : Option Bytes) (path : Bytes) (x : σ) : Bytes → Prop where
  | proc {loc : VfsLoc η} {st : KStat} {y z w : σ} {target : Bytes}
      (walked : (walkPath K fs base path W_NOFOLLOW).run x = (.ok loc, y))
      (found : (statAbs K fs loc.abs).run y = (.ok st, z)) (link : isLnk st.mode = true)
      (mounted : (fs.table.mountOf loc.abs).type = .proc)
      (text : (procfsReadlink K.proc fs.cwd (pathRel (fs.table.mountOf loc.abs) loc.abs) :
        Call Errno σ Bytes).run z = (.ok target, w)) :
      LinkAt base path x target
  | dev {loc : VfsLoc η} {st : KStat} {y z w : σ} {target : Bytes}
      (walked : (walkPath K fs base path W_NOFOLLOW).run x = (.ok loc, y))
      (found : (statAbs K fs loc.abs).run y = (.ok st, z)) (link : isLnk st.mode = true)
      (mounted : (fs.table.mountOf loc.abs).type = .dev)
      (text : (devfsReadlink (pathRel (fs.table.mountOf loc.abs) loc.abs) : Call Errno σ Bytes).run z =
        (.ok target, w)) :
      LinkAt base path x target
  | host {loc : VfsLoc η} {st : KStat} {y z d1 d2 d3 : σ} {root d : η} {o : Opened η} {rp rp' : Reparse}
      {target : Bytes}
      (walked : (walkPath K fs base path W_NOFOLLOW).run x = (.ok loc, y))
      (found : (statAbs K fs loc.abs).run y = (.ok st, z)) (link : isLnk st.mode = true)
      (mounted : (fs.table.mountOf loc.abs).type = .host root)
      (named : pathRel (fs.table.mountOf loc.abs) loc.abs ≠ [])
      (parent : (openHostDir K.store root (fs.table.mountOf loc.abs) (pathParent loc.abs)).run z = (.ok d, d1))
      (opened : (K.store.openat d (lastName loc.abs) (HFS_O_READ ||| HFS_O_REPARSE) 0 0 0 false).run d1 =
        (.ok o, d2))
      (readable : (nt.getReparse o.h).run (K.store.close d d2).2 = (.ok rp, d3))
      (stamped : data (K.store.close d d2).2 (object o.h) = some rp')
      (points : rp'.target = some target) :
      LinkAt base path x target

end

section

variable {ι : Type} [DecidableEq ι] {nt : NtObjects η σ} {K : Kernel η σ} {fs : FsCtx η}
  {data : σ → ι → Option Reparse} {object : η → ι}

/-- What `hfs_readlink` answers: the target, or its beginning if `tmp` is full. -/
def Shows (target text : Bytes) : Prop :=
  text <+: target ∧ (text = target ∨ TMP_SIZE ≤ text.length + 4)

theorem Shows.refl (target : Bytes) : Shows target target := ⟨List.prefix_refl _, .inl rfl⟩

theorem hfsReadlink_shows (hL : KeepsLinks nt data object) {x y : σ} {h : η} {rp rp' : Reparse}
    {target : Bytes} (hread : (nt.getReparse h).run x = (.ok rp, y)) (hdata : data x (object h) = some rp')
    (htarget : rp'.target = some target) :
    ∃ t, (hfsReadlink nt h).run x = (.ok t, y) ∧ Shows target t := by
  have hrp : rp = rp' := Option.some.inj ((hL.get x h rp y hread).symm.trans hdata)
  subst hrp
  rw [hfsReadlink, run_bind, run_withErrno, hread]
  cases rp with
  | symlink s =>
      cases htarget
      exact ⟨_, rfl, linkText_starts s, linkText_eq_or_full s⟩
  | lxSymlink bytes =>
      rw [Reparse.target] at htarget
      split_ifs at htarget with hshort
      cases htarget
      refine ⟨_, ?_, Shows.refl _⟩
      change (if bytes.length < 4 then throw Errno.EINVAL else pure (bytes.drop 4) :
        Call Errno σ Bytes).run y = _
      rw [if_neg hshort]
      rfl
  | bare tag => cases htarget
  | other tag bytes => cases htarget

/-- A link that a path leads to is read, and what is read shows its target. -/
theorem vfsReadlink_shows (hL : KeepsLinks nt data object) {base : Option Bytes} {path target : Bytes}
    {x : σ} (h : LinkAt nt (linkKernel nt K) fs data object base path x target) :
    ∃ t y, (vfsReadlink (linkKernel nt K) fs base path).run x = (.ok t, y) ∧ Shows target t := by
  cases h with
  | proc walked found link mounted text =>
      rw [vfsReadlink, run_bind, walked]
      dsimp only
      rw [run_bind, found]
      dsimp only
      rw [if_pos link, readlinkAbs, mounted]
      exact ⟨_, _, text, Shows.refl _⟩
  | dev walked found link mounted text =>
      rw [vfsReadlink, run_bind, walked]
      dsimp only
      rw [run_bind, found]
      dsimp only
      rw [if_pos link, readlinkAbs, mounted]
      exact ⟨_, _, text, Shows.refl _⟩
  | host walked found link mounted named parent opened readable stamped points =>
      obtain ⟨t, ht, hshows⟩ := hfsReadlink_shows hL readable stamped points
      rw [vfsReadlink, run_bind, walked]
      dsimp only
      rw [run_bind, found]
      dsimp only
      rw [if_pos link, readlinkAbs, mounted]
      dsimp only
      rw [if_neg named, run_bind, parent]
      dsimp only
      rw [run_bind, run_closing, opened]
      dsimp only
      rw [run_closing]
      change ∃ t' y', (((hfsReadlink nt _).run _).1, _) = _ ∧ _
      rw [ht]
      exact ⟨_, _, rfl, hshows⟩

theorem bufferBytes_eq_take {text : Bytes} {size n : ℕ} (hsize : n ≤ size) (hlen : n ≤ text.length) :
    bufferBytes text size n = (text.take n).map some := by
  refine List.ext_getElem (by simp [bufferBytes, hlen]) fun i hi hi' => ?_
  have hin : i < n := by simpa [bufferBytes] using hi
  simp only [bufferBytes, List.getElem_map, List.getElem_range, List.getElem_take]
  rw [if_pos (by omega), List.getElem?_eq_getElem]

/-- Past its end the buffer does not say what is copied. -/
theorem not_written {text : Bytes} {size n : ℕ} (h : size < n) : none ∈ bufferBytes text size n := by
  refine List.mem_map.mpr ⟨size, List.mem_range.mpr h, ?_⟩
  rw [if_neg (lt_irrefl size)]

theorem shows_length {target text : Bytes} (h : Shows target text)
    (hlen : target.length ≤ PATH_MAX) : text = target := by
  obtain ⟨hstart, heq | hfull⟩ := h
  · exact heq
  · have hle := hstart.length_le
    rw [TMP_SIZE] at hfull
    rw [PATH_MAX] at hlen
    omega

/-- The bytes copied out are the target's exactly if the buffer holds all that are asked for. -/
theorem bufferBytes_exact_iff {target text : Bytes} (h : Shows target text) (cap : ℕ) :
    bufferBytes text PATH_MAX (min text.length cap) = (target.take cap).map some ↔
      cap ≤ PATH_MAX ∨ target.length ≤ PATH_MAX := by
  have hmin : text.take (min text.length cap) = text.take cap := by
    rw [min_comm, ← List.take_take, List.take_length]
  by_cases hlen : target.length ≤ PATH_MAX
  · refine iff_of_true ?_ (.inr hlen)
    have heq := shows_length h hlen
    rw [bufferBytes_eq_take (by rw [heq]; omega) (min_le_left _ _), hmin, heq]
  · by_cases hcap : cap ≤ PATH_MAX
    · refine iff_of_true ?_ (.inl hcap)
      have htake : text.take cap = target.take cap := by
        obtain ⟨⟨rest, hrest⟩, heq | hfull⟩ := h
        · rw [heq]
        · rw [TMP_SIZE] at hfull
          rw [PATH_MAX] at hcap
          rw [← hrest, List.take_append_of_le_length (by omega)]
      rw [bufferBytes_eq_take (by omega) (min_le_left _ _), hmin, htake]
    · refine iff_of_false (fun heq => ?_) (by tauto)
      have hlong : PATH_MAX < text.length := by
        obtain ⟨hstart, htext | hfull⟩ := h
        · rw [htext]
          omega
        · rw [TMP_SIZE] at hfull
          rw [PATH_MAX]
          omega
      have hmem : none ∈ bufferBytes text PATH_MAX (min text.length cap) := not_written (by omega)
      rw [heq] at hmem
      obtain ⟨b, _, hb⟩ := List.mem_map.mp hmem
      cases hb

theorem stampReparse_stamps (hL : KeepsLinks nt data object) {o : η} {rp : Reparse} {x y : σ}
    (h : (stampReparse nt o rp).run x = (.ok (), y)) : data y (object o) = some rp := by
  obtain ⟨r, z, hstamp, h⟩ := of_run_bind h
  cases r with
  | error e =>
      obtain ⟨_, w, _, h⟩ := of_run_bind h
      obtain ⟨v, hv, _⟩ := of_run_closing h
      cases hv
  | ok u =>
      obtain ⟨v, hv, rfl⟩ := of_run_closing h
      cases hv
      have hset := of_run_withErrno (of_run_attempt hstamp)
      rw [hL.close, hL.set _ _ _ _ hset, Function.update_self]

/-- An empty object that was made and stamped without an error holds what it was stamped with. -/
theorem makeReparse_stamps (hL : KeepsLinks nt data object) {dir : η} {name : Bytes}
    {mode uid gid major minor : UInt32} {rp : Reparse} {x y : σ}
    (h : (makeReparse nt dir name mode uid gid major minor rp).run x = (.ok (), y)) :
    ∃ w access options eas o z, nameToWide name 255 = some w ∧
      (nt.create dir w access options eas).run x = (.ok o, z) ∧ data y (object o) = some rp := by
  rw [makeReparse] at h
  cases hname : nameToWide name 255 with
  | none =>
      rw [hname] at h
      cases h
  | some w =>
      rw [hname] at h
      dsimp only at h
      by_cases hempty : w.length = 0
      · rw [if_pos hempty] at h
        cases h
      · rw [if_neg hempty] at h
        obtain ⟨o, z, hcreate, h⟩ := of_run_bind h
        exact ⟨w, _, _, _, o, z, rfl, of_run_withErrno hcreate, stampReparse_stamps hL h⟩

/-- What the call copies out, when a link is read and the user's memory takes it. -/
theorem run_sysReadlinkat {t : FdState} {dirPath : ℕ → Option Bytes} {writable : UInt64 → Bool}
    {dirfd : ℤ} {p path text : Bytes} {base : Option Bytes} {ubuf : UInt64} {cap : Int64} {x y : σ}
    (hpath : openatPath t dirPath dirfd (.ok p) = .ok (base, path)) (hcap : 0 < cap)
    (hwritable : ∀ n ≤ cap.toNatClampNeg, copyOut writable ubuf n = true)
    (hread : (vfsReadlink K fs base path).run x = (.ok text, y)) :
    (sysReadlinkat K fs t dirPath writable dirfd (.ok p) ubuf cap).run x =
      (.ok (bufferBytes text PATH_MAX (min text.length cap.toNatClampNeg)), y) := by
  change (if cap ≤ 0 then throw Errno.EINVAL
    else (liftM (m := Except Errno) (openatPath t dirPath dirfd (.ok p)) >>= fun r =>
      vfsReadlink K fs r.1 r.2 >>= fun target =>
        if copyOut writable ubuf (min target.length cap.toNatClampNeg) then
          pure (bufferBytes target PATH_MAX (min target.length cap.toNatClampNeg))
        else throw Errno.EFAULT) : Call Errno σ (List (Option UInt8))).run x = _
  rw [if_neg (Int64.not_le.mpr hcap), hpath]
  change (vfsReadlink K fs base path >>= fun target => _).run x = _
  rw [run_bind, hread]
  dsimp only
  rw [if_pos (hwritable _ (min_le_right _ _))]
  rfl

/-- Of a link that a path leads to `readlinkat` copies out what its capacity takes of the target,
exactly if the kernel's buffer holds that much; and a link it has made has the target it was
given. -/
theorem readlinkat_exact_iff (hL : KeepsLinks nt data object) {t : FdState}
    {dirPath : ℕ → Option Bytes} {writable : UInt64 → Bool} {dirfd : ℤ} {p path target : Bytes}
    {base : Option Bytes} {ubuf : UInt64} {cap : Int64} {x : σ}
    (hpath : openatPath t dirPath dirfd (.ok p) = .ok (base, path))
    (hlink : LinkAt nt (linkKernel nt K) fs data object base path x target) (hcap : 0 < cap)
    (hwritable : ∀ n ≤ cap.toNatClampNeg, copyOut writable ubuf n = true) :
    ((∃ y, (sysReadlinkat (linkKernel nt K) fs t dirPath writable dirfd (.ok p) ubuf cap).run x =
        (.ok ((target.take cap.toNatClampNeg).map some), y)) ↔
      cap.toNatClampNeg ≤ PATH_MAX ∨ target.length ≤ PATH_MAX) ∧
    ∀ dir name text uid gid z w, (hfsSymlink nt dir name text uid gid).run z = (.ok (), w) →
      ∃ n access options eas o z', nameToWide name 255 = some n ∧
        (nt.create dir n access options eas).run z = (.ok o, z') ∧
        (data w (object o)).bind Reparse.target = some text := by
  obtain ⟨text, y, hread, hshows⟩ := vfsReadlink_shows hL hlink
  rw [run_sysReadlinkat hpath hcap hwritable hread, ← bufferBytes_exact_iff hshows]
  refine ⟨⟨fun ⟨y', h⟩ => ?_, fun h => ⟨y, by rw [h]⟩⟩, ?_⟩
  · exact Except.ok.inj (congrArg Prod.fst h)
  · intro dir name text uid gid z w h
    rw [hfsSymlink] at h
    split_ifs at h with hlen
    · cases h
    · obtain ⟨n, access, options, eas, o, z', hn, hcreate, hdata⟩ := makeReparse_stamps hL h
      refine ⟨n, access, options, eas, o, z', hn, hcreate, ?_⟩
      rw [hdata]
      change (if ([2, 0, 0, 0] ++ text).length < 4 then none else some (([2, 0, 0, 0] ++ text).drop 4)) = _
      rw [if_neg (by simp)]
      rfl

end

def linkHostKernel : Kernel Unit Unit where
  store := { HostStore.idle with
    openat := fun _ _ _ _ _ _ _ => pure ⟨(), { kind := .winlink }, false⟩
    reopen := fun _ _ _ => pure ⟨(), { kind := .dir }, false⟩ }
  proc := { fds := fun _ => none, exe := [], maps := [] }
  stack := []

theorem oneLinkNt_keepsLinks (rp : Reparse) :
    KeepsLinks (oneLinkNt rp) (fun _ _ => some rp) (fun _ : Unit => ()) where
  get _ _ _ _ h := by
    cases h
    rfl
  set _ _ _ _ h := by cases h
  close _ _ := rfl

theorem linkHost_linkAt {s : SymbolicLink} {target : Bytes} (h : s.target = target) :
    LinkAt (oneLinkNt (.symlink s)) (linkKernel (oneLinkNt (.symlink s)) linkHostKernel)
      (FsCtx.initial () 1 true) (fun _ _ => some (.symlink s)) (fun _ : Unit => ()) none (str "/l") ()
      target := by
  have hwalk : (walkPath (linkKernel (oneLinkNt (.symlink s)) linkHostKernel) (FsCtx.initial () 1 true)
      none (str "/l") W_NOFOLLOW).run () =
        (.ok ⟨(FsCtx.initial () 1 true).table.mountOf (str "/l"), str "/l", [], str "l"⟩, ()) := rfl
  have hopen : ((linkKernel (oneLinkNt (.symlink s)) linkHostKernel).store.openat () (str "l")
      (HFS_O_READ ||| HFS_O_REPARSE) 0 0 0 false).run () = (.ok ⟨(), { kind := .winlink }, false⟩, ()) := rfl
  exact .host hwalk rfl rfl rfl (by decide) rfl hopen rfl rfl (congrArg some h)

def readlinkL (s : SymbolicLink) (cap : Int64) : Except Errno (List (Option UInt8)) :=
  ((sysReadlinkat (linkKernel (oneLinkNt (.symlink s)) linkHostKernel) (FsCtx.initial () 1 true) fdtableInit
    (fun _ => none) (fun _ => true) AT_FDCWD (.ok (str "/l")) 0 cap).run ()).1

theorem copyOut_everywhere (u : UInt64) (n : ℕ) : copyOut (fun _ => true) u n = true := by
  simp [copyOut]

theorem plainLink_read_exactly :
    ∃ y, (sysReadlinkat (linkKernel (oneLinkNt (.symlink plainLink)) linkHostKernel)
      (FsCtx.initial () 1 true) fdtableInit (fun _ => none) (fun _ => true) AT_FDCWD (.ok (str "/l")) 0
      2).run () = (.ok (([0x64, 0x2f, 0xc3, 0xa9].take 2).map some), y) := by
  have hpath : openatPath fdtableInit (fun _ => none) AT_FDCWD (.ok (str "/l")) = .ok (none, str "/l") := by
    decide
  have hlink := linkHost_linkAt (show plainLink.target = [0x64, 0x2f, 0xc3, 0xa9] by decide)
  have hread := readlinkat_exact_iff (oneLinkNt_keepsLinks (.symlink plainLink)) hpath hlink
    (show (0 : Int64) < 2 by decide) (fun n _ => copyOut_everywhere 0 n)
  exact hread.1.mpr (.inl (by decide))

/-- A link with a name of fourteen hundred units, of three bytes each. -/
def longLink : SymbolicLink := relativeLink (List.replicate 1400 0x20ac)

/-- With a capacity past the kernel's buffer bytes come out that the store has not written. -/
theorem longLink_read_past_buffer :
    longLink.pathBuffer.length ≤ 2044 ∧ ∃ out, readlinkL longLink 8192 = .ok out ∧ none ∈ out ∧
      out ≠ (longLink.target.take 8192).map some := by
  have hlen : longLink.target.length = 4200 := by decide +kernel
  obtain ⟨text, y, hread, hstart, htext⟩ :=
    vfsReadlink_shows (oneLinkNt_keepsLinks (.symlink longLink)) (linkHost_linkAt (rfl : longLink.target = longLink.target))
  have hpath : openatPath fdtableInit (fun _ => none) AT_FDCWD (.ok (str "/l")) = .ok (none, str "/l") := by
    decide
  have hrun : (sysReadlinkat _ _ fdtableInit _ _ AT_FDCWD (.ok (str "/l")) 0 8192).run () = _ :=
    run_sysReadlinkat hpath (by decide) (fun n _ => copyOut_everywhere 0 n) hread
  have hlong : PATH_MAX < min text.length (8192 : Int64).toNatClampNeg := by
    have hcap : (8192 : Int64).toNatClampNeg = 8192 := by decide
    rw [hcap, PATH_MAX]
    rcases htext with htext | hfull
    · rw [htext, hlen]
      omega
    · rw [TMP_SIZE] at hfull
      omega
  refine ⟨by decide +kernel, _, congrArg Prod.fst hrun, not_written hlong, fun heq => ?_⟩
  have hmem : none ∈ bufferBytes text PATH_MAX _ := not_written hlong
  rw [heq] at hmem
  obtain ⟨b, _, hb⟩ := List.mem_map.mp hmem
  cases hb

end SysvNt
