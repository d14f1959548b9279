import SysvNt.DirectoryBuffers
import SysvNt.HostObjects

/-!
# The attribute buffer of the host

The Linux attributes go to NT as a chain of named values in one buffer, each aligned to four bytes and with the
distance to the next. `build_lx_eas` writes the chain, and what NT reads there are the attributes that were asked
for: the model of `HostObjects` has them as a list.
-/

namespace SysvNt

/-- A name with its value; one row of the table in `build_lx_eas`. -/
structure EaItem where
  name : Bytes
  value : Bytes
  deriving DecidableEq

namespace EaItem

/-- The space of a `FILE_FULL_EA_INFORMATION`: header, name with its terminator, value, rounded up. -/
def size (e : EaItem) : ℕ := (8 + e.name.length + 1 + e.value.length + 3) / 4 * 4

def pad (e : EaItem) : ℕ := e.size - (8 + e.name.length + 1 + e.value.length)

def bytes (e : EaItem) (next : ℕ) : Bytes :=
  littleEndian 4 next ++ littleEndian 1 0 ++ littleEndian 1 e.name.length ++ littleEndian 2 e.value.length ++ e.name ++
    [0] ++ e.value ++ List.replicate e.pad 0

structure Fits (e : EaItem) : Prop where
  name : e.name.length < 2 ^ 8
  value : e.value.length < 2 ^ 16

theorem le_size (e : EaItem) : 8 + e.name.length + 1 + e.value.length ≤ e.size := by
  rw [size]
  omega

theorem length_bytes (e : EaItem) (next : ℕ) : (e.bytes next).length = e.size := by
  have hle := e.le_size
  simp only [bytes, List.length_append, length_littleEndian, List.length_singleton, List.length_replicate, pad]
  omega

theorem size_pos (e : EaItem) : 0 < e.size := lt_of_lt_of_le (by omega) e.le_size

theorem Fits.size_lt {e : EaItem} (h : e.Fits) : e.size < 2 ^ 32 := by
  have hname := h.name
  have hvalue := h.value
  rw [size]
  omega

end EaItem

/-- The loop of `build_lx_eas`, which gives up where an item has no room. -/
def eaLoop (cap : ℕ) : List EaItem → Bytes → Option Bytes
  | [], buf => some buf
  | w :: ws, buf =>
    if cap < buf.length + w.size then none
    else eaLoop cap ws (buf ++ w.bytes (if ws = [] then 0 else w.size))

def eaAt (b : Bytes) : EaItem where
  name := (b.drop 8).take (wordAt 1 b 5)
  value := (b.drop (8 + wordAt 1 b 5 + 1)).take (wordAt 2 b 6)

def readEas (b : Bytes) : List EaItem :=
  if _h : nextEntryOffset b = 0 then [eaAt b] else eaAt b :: readEas (b.drop (nextEntryOffset b))
termination_by b.length
decreasing_by
  have hpos := List.length_pos_iff.mpr (ne_nil_of_next ‹_›)
  rw [List.length_drop]
  omega

theorem readEas_last {b : Bytes} (h : nextEntryOffset b = 0) : readEas b = [eaAt b] := by
  rw [readEas, dif_pos h]

theorem readEas_next {b c : Bytes} (h : nextEntryOffset b ≠ 0) (hc : b.drop (nextEntryOffset b) = c) :
    readEas b = eaAt b :: readEas c := by
  rw [readEas, dif_neg h, hc]

def eaChain : List EaItem → Bytes
  | [] => []
  | w :: ws => w.bytes (if ws = [] then 0 else w.size) ++ eaChain ws

theorem length_eaChain (ws : List EaItem) : (eaChain ws).length = (ws.map EaItem.size).sum := by
  induction ws with
  | nil => rfl
  | cons w ws ih => rw [eaChain, List.length_append, w.length_bytes, ih, List.map_cons, List.sum_cons]

/-- Where there is room the loop writes the chain, behind what is in the buffer. -/
theorem eaLoop_eq {cap : ℕ} (ws : List EaItem) (buf : Bytes) :
    eaLoop cap ws buf =
      if ws ≠ [] ∧ cap < buf.length + (ws.map EaItem.size).sum then none else some (buf ++ eaChain ws) := by
  induction ws generalizing buf with
  | nil => simp [eaLoop, eaChain]
  | cons w ws ih =>
      have hlen : (buf ++ w.bytes (if ws = [] then 0 else w.size)).length = buf.length + w.size := by
        rw [List.length_append, w.length_bytes]
      rw [eaLoop, ih, hlen, eaChain, List.map_cons, List.sum_cons, List.append_assoc]
      by_cases hroom : cap < buf.length + w.size
      · rw [if_pos hroom, if_pos ⟨List.cons_ne_nil w ws, by omega⟩]
      · rw [if_neg hroom]
        cases ws with
        | nil => simp [Nat.not_lt.mp hroom]
        | cons w' ws' => simp [Nat.add_assoc]

section Reading

variable {e : EaItem} {next : ℕ} {c : Bytes}

theorem next_eaBytes (hnext : next < 2 ^ 32) : nextEntryOffset (e.bytes next ++ c) = next := by
  have hlen : (littleEndian 4 next).length = 4 := length_littleEndian 4 next
  rw [nextEntryOffset, wordAt, List.drop_zero, EaItem.bytes]
  simp only [List.append_assoc]
  rw [List.take_left' hlen, fromLittleEndian_littleEndian]
  exact Nat.mod_eq_of_lt hnext

/-- What is read at an item is the item. -/
theorem eaAt_bytes (he : e.Fits) : eaAt (e.bytes next ++ c) = e := by
  let afterValue := List.replicate e.pad 0 ++ c
  let afterLen := e.name ++ ([0] ++ (e.value ++ afterValue))
  have hname : wordAt 1 (e.bytes next ++ c) 5 = e.name.length := by
    refine RawEntry.wordAt_middle (a := littleEndian 4 next ++ littleEndian 1 0)
      (c := littleEndian 2 e.value.length ++ afterLen) ?_ ?_ he.name
    · simp only [EaItem.bytes, List.append_assoc, afterLen, afterValue]
    · simp [length_littleEndian]
  have hvalue : wordAt 2 (e.bytes next ++ c) 6 = e.value.length := by
    refine RawEntry.wordAt_middle (a := littleEndian 4 next ++ littleEndian 1 0 ++ littleEndian 1 e.name.length)
      (c := afterLen) ?_ ?_ he.value
    · simp only [EaItem.bytes, List.append_assoc, afterLen, afterValue]
    · simp [length_littleEndian]
  let header := littleEndian 4 next ++ littleEndian 1 0 ++ littleEndian 1 e.name.length ++ littleEndian 2 e.value.length
  have hheader : header.length = 8 := by simp [header, length_littleEndian]
  have hbytes : e.bytes next ++ c = header ++ afterLen := by
    simp only [EaItem.bytes, List.append_assoc, header, afterLen, afterValue]
  have hsplit : e.bytes next ++ c = (header ++ e.name ++ [0]) ++ (e.value ++ afterValue) := by
    simp only [EaItem.bytes, List.append_assoc, header, afterValue]
  have hnameBytes : ((e.bytes next ++ c).drop 8).take e.name.length = e.name := by
    rw [hbytes, List.drop_left' hheader, List.take_left' rfl]
  have hvalueBytes : ((e.bytes next ++ c).drop (8 + e.name.length + 1)).take e.value.length = e.value := by
    have hbefore : (header ++ e.name ++ [0]).length = 8 + e.name.length + 1 := by
      rw [List.length_append, List.length_append, hheader, List.length_singleton]
    rw [hsplit, List.drop_left' hbefore, List.take_left' rfl]
  rw [eaAt, hname, hvalue, hnameBytes, hvalueBytes]

end Reading

/-- NT reads the items that the chain was made of. -/
theorem readEas_chain {ws : List EaItem} (hne : ws ≠ []) (hfits : ∀ w ∈ ws, w.Fits) :
    readEas (eaChain ws) = ws := by
  induction ws with
  | nil => exact absurd rfl hne
  | cons w ws ih =>
      obtain ⟨hw, hws⟩ := List.forall_mem_cons.mp hfits
      cases ws with
      | nil =>
          have hnext : nextEntryOffset (w.bytes 0 ++ []) = 0 := next_eaBytes (by decide)
          rw [eaChain, if_pos rfl, eaChain, readEas_last hnext, eaAt_bytes hw]
      | cons w' ws =>
          have hnext : nextEntryOffset (w.bytes w.size ++ eaChain (w' :: ws)) = w.size := next_eaBytes hw.size_lt
          have hrest : (w.bytes w.size ++ eaChain (w' :: ws)).drop
              (nextEntryOffset (w.bytes w.size ++ eaChain (w' :: ws))) = eaChain (w' :: ws) := by
            rw [hnext]
            exact List.drop_left' (w.length_bytes w.size)
          rw [eaChain, if_neg (List.cons_ne_nil w' ws), readEas_next (by rw [hnext]; exact w.size_pos.ne') hrest,
            eaAt_bytes hw, ih (List.cons_ne_nil w' ws) hws]

namespace LxEa

def item : LxEa → EaItem
  | .uid v => ⟨str "$LXUID", littleEndian 4 v.toNat⟩
  | .gid v => ⟨str "$LXGID", littleEndian 4 v.toNat⟩
  | .mod v => ⟨str "$LXMOD", littleEndian 4 v.toNat⟩
  | .dev major minor => ⟨str "$LXDEV", littleEndian 4 major.toNat ++ littleEndian 4 minor.toNat⟩

def word (b : Bytes) (off : ℕ) : UInt32 := UInt32.ofNat (wordAt 4 b off)

/-- The attribute of a name and a value, as the file system takes it. -/
def ofItem (e : EaItem) : Option LxEa :=
  if e.name = str "$LXUID" then some (.uid (word e.value 0))
  else if e.name = str "$LXGID" then some (.gid (word e.value 0))
  else if e.name = str "$LXMOD" then some (.mod (word e.value 0))
  else if e.name = str "$LXDEV" then some (.dev (word e.value 0) (word e.value 4))
  else none

theorem word_littleEndian (v : UInt32) {a c b : Bytes} {k : ℕ} (hb : b = a ++ (littleEndian 4 v.toNat ++ c))
    (ha : a.length = k) : word b k = v := by
  rw [word, RawEntry.wordAt_middle hb ha v.toNat_lt, UInt32.ofNat_toNat]

theorem word_alone (v : UInt32) : word (littleEndian 4 v.toNat) 0 = v :=
  word_littleEndian v (a := []) (List.append_nil _).symm rfl

theorem ofItem_item (e : LxEa) : ofItem e.item = some e := by
  cases e with
  | uid v =>
      change some (LxEa.uid (word (littleEndian 4 v.toNat) 0)) = _
      rw [word_alone]
  | gid v =>
      change some (LxEa.gid (word (littleEndian 4 v.toNat) 0)) = _
      rw [word_alone]
  | mod v =>
      change some (LxEa.mod (word (littleEndian 4 v.toNat) 0)) = _
      rw [word_alone]
  | dev major minor =>
      let b := littleEndian 4 major.toNat ++ littleEndian 4 minor.toNat
      have hmajor : word b 0 = major := word_littleEndian major (a := []) rfl rfl
      have hminor : word b 4 = minor :=
        word_littleEndian minor (a := littleEndian 4 major.toNat) (by rw [List.append_nil]) (length_littleEndian 4 _)
      change some (LxEa.dev (word b 0) (word b 4)) = _
      rw [hmajor, hminor]

theorem item_fits (e : LxEa) : e.item.Fits := by
  cases e <;> exact ⟨by simp [item, str], by simp [item, length_littleEndian]⟩

theorem item_size_le (e : LxEa) : e.item.size ≤ 24 := by
  cases e <;> simp [item, EaItem.size, length_littleEndian, str]

theorem mapM_ofItem (eas : List LxEa) : (eas.map item).mapM ofItem = some eas := by
  induction eas with
  | nil => rfl
  | cons e eas ih => rw [List.map_cons, List.mapM_cons, ofItem_item, ih]; rfl

end LxEa

/-- The table `w` of `build_lx_eas`. -/
def eaTable (which uid gid mode major minor : UInt32) : List EaItem :=
  (if has which HFS_LX_UID then [⟨str "$LXUID", littleEndian 4 uid.toNat⟩] else []) ++
    (if has which HFS_LX_GID then [⟨str "$LXGID", littleEndian 4 gid.toNat⟩] else []) ++
    (if has which HFS_LX_MODE then [⟨str "$LXMOD", littleEndian 4 mode.toNat⟩] else []) ++
    (if has which HFS_LX_DEV then
      [⟨str "$LXDEV", littleEndian 4 major.toNat ++ littleEndian 4 minor.toNat⟩] else [])

/-- What `build_lx_eas` leaves in a buffer of `cap` bytes, up to the length it answers. -/
def lxEaBytes (cap : ℕ) (which uid gid mode major minor : UInt32) : Bytes :=
  (eaLoop cap (eaTable which uid gid mode major minor) []).getD []

section Table

variable (which uid gid mode major minor : UInt32)

theorem eaTable_eq : eaTable which uid gid mode major minor =
    (buildLxEas which uid gid mode major minor).map LxEa.item := by
  rw [eaTable, buildLxEas]
  simp only [List.map_append, apply_ite (List.map LxEa.item)]
  rfl

theorem length_buildLxEas_le : (buildLxEas which uid gid mode major minor).length ≤ 4 := by
  rw [buildLxEas]
  simp only [List.length_append, apply_ite List.length, List.length_singleton, List.length_nil]
  split_ifs <;> decide

/-- Four attributes have room in the buffers of the callers. -/
theorem eaTable_room : ((eaTable which uid gid mode major minor).map EaItem.size).sum ≤ 256 := by
  have hle : ((eaTable which uid gid mode major minor).map EaItem.size).sum ≤
      ((eaTable which uid gid mode major minor).map EaItem.size).length • 24 := by
    refine List.sum_le_card_nsmul _ 24 fun k hk => ?_
    rw [eaTable_eq, List.map_map] at hk
    obtain ⟨e, -, rfl⟩ := List.mem_map.mp hk
    exact e.item_size_le
  rw [List.length_map, eaTable_eq, List.length_map, smul_eq_mul, ← eaTable_eq] at hle
  have hfour := length_buildLxEas_le which uid gid mode major minor
  omega

theorem lxEaBytes_eq : lxEaBytes 256 which uid gid mode major minor =
    eaChain (eaTable which uid gid mode major minor) := by
  have hroom := eaTable_room which uid gid mode major minor
  rw [lxEaBytes, eaLoop_eq, if_neg (fun h => absurd h.2 (by simpa using hroom)), List.nil_append]
  rfl

end Table

/-- The attributes that NT takes from a buffer, where a buffer of no length has none. -/
def attributesIn (b : Bytes) : Option (List LxEa) := if b = [] then some [] else (readEas b).mapM LxEa.ofItem

theorem eaChain_eq_nil {ws : List EaItem} : eaChain ws = [] ↔ ws = [] := by
  refine ⟨fun h => ?_, fun h => by rw [h, eaChain]⟩
  cases ws with
  | nil => rfl
  | cons w ws =>
      have hlen := length_eaChain (w :: ws)
      rw [h, List.map_cons, List.sum_cons, List.length_nil] at hlen
      have hpos := w.size_pos
      omega

/-- The attributes in the buffer are those that were asked for. -/
theorem attributesIn_lxEaBytes (which uid gid mode major minor : UInt32) :
    attributesIn (lxEaBytes 256 which uid gid mode major minor) =
      some (buildLxEas which uid gid mode major minor) := by
  rw [lxEaBytes_eq, attributesIn]
  by_cases hnone : eaTable which uid gid mode major minor = []
  · have heas : buildLxEas which uid gid mode major minor = [] := by
      rwa [eaTable_eq, List.map_eq_nil_iff] at hnone
    rw [if_pos (eaChain_eq_nil.mpr hnone), heas]
  · have hfits : ∀ w ∈ eaTable which uid gid mode major minor, w.Fits := by
      intro w hw
      rw [eaTable_eq] at hw
      obtain ⟨e, -, rfl⟩ := List.mem_map.mp hw
      exact e.item_fits
    rw [if_neg (mt eaChain_eq_nil.mp hnone), readEas_chain hnone hfits, eaTable_eq, LxEa.mapM_ofItem]

theorem lxEaBytes_eq_nil {which uid gid mode major minor : UInt32} :
    lxEaBytes 256 which uid gid mode major minor = [] ↔ buildLxEas which uid gid mode major minor = [] := by
  rw [lxEaBytes_eq, eaChain_eq_nil, eaTable_eq, List.map_eq_nil_iff]

open FallibleCalls

variable {η σ : Type}

/-- The calls of NT that take the attributes, by the bytes they are given. -/
structure NtBuffers (η σ : Type) where
  create : (dir : η) → (name : List UInt16) → (access : UInt32) → OpenOptions → (ea : Bytes) →
    Call NtStatus σ η
  setEa : η → (ea : Bytes) → Call NtStatus σ Unit

/-- NT reads the buffer first, and answers `s` to one that has other values in it. -/
def NtObjects.buffers (nt : NtObjects η σ) (s : NtStatus) : NtBuffers η σ where
  create dir w access options b :=
    match attributesIn b with
    | some eas => nt.create dir w access options eas
    | none => throw s
  setEa h b :=
    match attributesIn b with
    | some eas => nt.setEa h eas
    | none => throw s

namespace NtBuffers

variable (B : NtBuffers η σ) (nt : NtObjects η σ)

def hfsSetLx (h : η) (which uid gid mode major minor : UInt32) : Call Errno σ Unit :=
  let buf := lxEaBytes 256 which uid gid mode major minor
  if buf.length = 0 then throw .EINVAL else withErrno (B.setEa h buf)

def makeReparse (dir : η) (name : Bytes) (mode uid gid major minor : UInt32) (rp : Reparse) : Call Errno σ Unit :=
  match nameToWide name 255 with
  | none => throw .ENAMETOOLONG
  | some w =>
    if w.length = 0 then throw .ENOENT
    else do
      let ea := lxEaBytes 256 (HFS_LX_UID ||| HFS_LX_GID ||| HFS_LX_MODE |||
        (if major ≠ 0 ∨ minor ≠ 0 then HFS_LX_DEV else 0)) uid gid mode major minor
      let h ← withErrno (B.create dir w
        (FILE_WRITE_DATA ||| FILE_READ_DATA ||| FILE_WRITE_ATTRIBUTES ||| FILE_READ_ATTRIBUTES)
        { directoryFile := false, nonDirectoryFile := true, openReparsePoint := true } ea)
      stampReparse nt h rp

def hfsMkdir (dir : η) (name : Bytes) (mode uid gid : UInt32) (caseSensitive : Bool) : Call Errno σ Unit :=
  match nameToWide name 255 with
  | none => throw .ENAMETOOLONG
  | some w =>
    if w.length = 0 then throw .ENOENT
    else do
      let ea := lxEaBytes 256 (HFS_LX_UID ||| HFS_LX_GID ||| HFS_LX_MODE) uid gid (0o040000 ||| mode &&& 0o7777) 0 0
      let h ← withErrno (B.create dir w (FILE_READ_ATTRIBUTES ||| FILE_WRITE_ATTRIBUTES)
        { directoryFile := true, nonDirectoryFile := false, openReparsePoint := false } ea)
      let _ ← if caseSensitive then attempt (withErrno (nt.setCaseSensitive h)) else pure (.ok ())
      closing (nt.close h) (pure ())

end NtBuffers

section Arrival

variable (nt : NtObjects η σ) (s : NtStatus)

theorem buffers_create (dir : η) (w : List UInt16) (access : UInt32) (options : OpenOptions)
    (which uid gid mode major minor : UInt32) :
    (nt.buffers s).create dir w access options (lxEaBytes 256 which uid gid mode major minor) =
      nt.create dir w access options (buildLxEas which uid gid mode major minor) := by
  simp only [NtObjects.buffers, attributesIn_lxEaBytes]

theorem buffers_setEa (h : η) (which uid gid mode major minor : UInt32) :
    (nt.buffers s).setEa h (lxEaBytes 256 which uid gid mode major minor) =
      nt.setEa h (buildLxEas which uid gid mode major minor) := by
  simp only [NtObjects.buffers, attributesIn_lxEaBytes]

theorem buffers_hfsSetLx (h : η) (which uid gid mode major minor : UInt32) :
    (nt.buffers s).hfsSetLx h which uid gid mode major minor = hfsSetLx nt h which uid gid mode major minor := by
  rw [NtBuffers.hfsSetLx, hfsSetLx, buffers_setEa]
  by_cases hnone : buildLxEas which uid gid mode major minor = []
  · rw [if_pos (List.length_eq_zero_iff.mpr (lxEaBytes_eq_nil.mpr hnone)), if_pos hnone]
  · rw [if_neg (mt (fun h => lxEaBytes_eq_nil.mp (List.length_eq_zero_iff.mp h)) hnone), if_neg hnone]

theorem buffers_makeReparse (dir : η) (name : Bytes) (mode uid gid major minor : UInt32) (rp : Reparse) :
    (nt.buffers s).makeReparse nt dir name mode uid gid major minor rp =
      makeReparse nt dir name mode uid gid major minor rp := by
  rw [NtBuffers.makeReparse, makeReparse]
  cases nameToWide name 255 with
  | none => rfl
  | some w => simp only [buffers_create]

theorem buffers_hfsMkdir (dir : η) (name : Bytes) (mode uid gid : UInt32) (caseSensitive : Bool) :
    (nt.buffers s).hfsMkdir nt dir name mode uid gid caseSensitive =
      hfsMkdir nt dir name mode uid gid caseSensitive := by
  rw [NtBuffers.hfsMkdir, hfsMkdir]
  cases nameToWide name 255 with
  | none => rfl
  | some w => simp only [buffers_create]

end Arrival

/-- Whatever is asked for reaches NT through the buffers. -/
theorem attributes_arrive (nt : NtObjects η σ) (s : NtStatus) :
    (∀ (h : η) (which uid gid mode major minor : UInt32),
      (nt.buffers s).hfsSetLx h which uid gid mode major minor = hfsSetLx nt h which uid gid mode major minor) ∧
    (∀ (dir : η) (name : Bytes) (mode uid gid major minor : UInt32) (rp : Reparse),
      (nt.buffers s).makeReparse nt dir name mode uid gid major minor rp =
        makeReparse nt dir name mode uid gid major minor rp) ∧
    ∀ (dir : η) (name : Bytes) (mode uid gid : UInt32) (caseSensitive : Bool),
      (nt.buffers s).hfsMkdir nt dir name mode uid gid caseSensitive =
        hfsMkdir nt dir name mode uid gid caseSensitive :=
  ⟨buffers_hfsSetLx nt s, buffers_makeReparse nt s, buffers_hfsMkdir nt s⟩

end SysvNt
