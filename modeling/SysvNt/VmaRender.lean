import Mathlib.Data.Nat.Digits.Defs
import SysvNt.ElfLoad
import SysvNt.VmaArray

/-!
# The listing of the ranges

`vma_render_maps` writes a line for each range in the order of their addresses and stops before
the first one that does not fit with the terminator after it. A line is made in a buffer of its own,
which holds every line there can be. Copying out of a buffer or past the end of one is `none`.
-/

namespace SysvNt

namespace VmaArray

def LINE_SIZE : ℕ := 192

def hexField (width n : ℕ) : Bytes :=
  let digits := (Nat.toDigits 16 n).map fun c => c.toNat.toUInt8
  List.replicate (width - digits.length) 0x30 ++ digits

def perms (v : Vma) : Bytes :=
  [if has v.prot SUB_PROT_READ then 0x72 else 0x2d,
    if has v.prot SUB_PROT_WRITE then 0x77 else 0x2d,
    if has v.prot SUB_PROT_EXEC then 0x78 else 0x2d,
    if v.kind = .section then 0x73 else 0x70]

def mapsLine (v : Vma) : Bytes :=
  hexField 12 v.start.toNat ++ str "-" ++ hexField 12 v.stop.toNat ++ str " " ++ perms v ++ str " " ++
    hexField 8 v.offset.toNat ++ str " 00:00 0 " ++ List.replicate (if v.name = [] then 0 else 20) 0x20 ++
    cstr v.name ++ str "\n"

/-- `snprintf`: what it leaves in a buffer of that size, and the length of the whole text. -/
def snprintf (size : ℕ) (text : Bytes) : Bytes × ℕ := (text.take (size - 1) ++ [0], text.length)

def memcpyAt (dst : Bytes) (off : ℕ) (src : Bytes) (n : ℕ) : Option Bytes :=
  if n ≤ src.length ∧ off + n ≤ dst.length then some (dst.take off ++ src.take n ++ dst.drop (off + n)) else none

def setByte (dst : Bytes) (i : ℕ) (c : UInt8) : Option Bytes := if i < dst.length then some (dst.set i c) else none

def renderLoop (cap : ℕ) : Bytes → ℕ → List Vma → Option (ℕ × Bytes)
  | buf, used, [] => some (used, buf)
  | buf, used, v :: vs =>
    let r := snprintf LINE_SIZE (mapsLine v)
    if cap < used + r.2 + 1 then some (used, buf)
    else do
      let buf ← memcpyAt buf used r.1 r.2
      let buf ← setByte buf (used + r.2) 0
      renderLoop cap buf (used + r.2) vs

/-- `vma_render_maps`; a null buffer is none. -/
def renderMaps (a : VmaArray) (buf : Option Bytes) (cap : ℕ) : Option (ℕ × Option Bytes) :=
  match buf with
  | none => some (0, none)
  | some buf =>
    if cap = 0 then some (0, some buf)
    else do
      let buf ← setByte buf 0 0
      let r ← renderLoop cap buf 0 a.ranges
      pure (r.1, some r.2)

theorem length_hexField {width : ℕ} (hw : width ≤ 16) (x : BitVec 64) : (hexField width x.toNat).length ≤ 16 := by
  have hlen := Nat.toDigits_length 16 x.toNat 16 (by decide) x.isLt
  rw [hexField, List.length_append, List.length_replicate, List.length_map]
  omega

theorem mapsLine_fits {v : Vma} (h : v.name.length < VMA_NAME_MAX) : (mapsLine v).length < LINE_SIZE := by
  have hstart : (hexField 12 v.start.toNat).length ≤ 16 := length_hexField (by decide) _
  have hstop : (hexField 12 v.stop.toNat).length ≤ 16 := length_hexField (by decide) _
  have hoff : (hexField 8 v.offset.toNat).length ≤ 16 := length_hexField (by decide) _
  have hname : (cstr v.name).length ≤ v.name.length := (List.takeWhile_sublist _).length_le
  have hpad : (if v.name = [] then 0 else 20) ≤ 20 := by split_ifs <;> omega
  have hperms : (perms v).length = 4 := rfl
  have htexts : (str "-").length = 1 ∧ (str " ").length = 1 ∧ (str " 00:00 0 ").length = 9 ∧ (str "\n").length = 1 := by
    decide
  rw [VMA_NAME_MAX] at h
  simp only [mapsLine, List.length_append, List.length_replicate, LINE_SIZE, htexts, hperms]
  omega

/-- The lines of the listing that are in the buffer: as many as fit, with the terminator after them. -/
structure Listed (lines : List Bytes) (cap used : ℕ) (buf : Bytes) : Prop where
  size : buf.length = cap
  most : ∃ k ≤ lines.length, used = (lines.take k).flatten.length ∧ used < cap ∧
    buf.take (used + 1) = (lines.take k).flatten ++ [0] ∧
    ∀ j ≤ lines.length, (lines.take j).flatten.length < cap → j ≤ k

/-- A line that is copied in and terminated. -/
theorem line_copied {buf pre line : Bytes} (hpre : buf.take (pre.length + 1) = pre ++ [0])
    (hroom : pre.length + line.length < buf.length) (hline : line.length < LINE_SIZE) :
    ∃ b b', memcpyAt buf pre.length (snprintf LINE_SIZE line).1 line.length = some b ∧
      setByte b (pre.length + line.length) 0 = some b' ∧ b'.length = buf.length ∧
      b'.take ((pre ++ line).length + 1) = pre ++ line ++ [0] := by
  have hstart : buf.take pre.length = pre := by
    have htake := congrArg (List.take pre.length) hpre
    rwa [List.take_take, min_eq_left (Nat.le_succ _), List.take_left] at htake
  have hwhole : (snprintf LINE_SIZE line).1 = line ++ [0] := by
    rw [snprintf, List.take_of_length_le (by omega)]
  obtain ⟨c, rest, hrest⟩ : ∃ c rest, buf.drop (pre.length + line.length) = c :: rest :=
    List.exists_cons_of_length_pos (by rw [List.length_drop]; omega)
  have hlen := congrArg List.length hrest
  rw [List.length_drop, List.length_cons] at hlen
  refine ⟨pre ++ line ++ c :: rest, pre ++ line ++ 0 :: rest, ?_, ?_, ?_, ?_⟩
  · rw [memcpyAt, hwhole, if_pos ⟨by simp, by omega⟩, hstart, hrest, List.take_left]
  · rw [setByte, if_pos (by simp), ← List.length_append, List.set_append_right _ _ le_rfl]
    simp
  · simp only [List.length_append, List.length_cons]
    omega
  · rw [List.take_append, List.take_of_length_le (Nat.le_succ _)]
    simp

attribute [local irreducible] mapsLine

theorem renderLoop_lists {cap : ℕ} (vs : List Vma) (hvs : ∀ v ∈ vs, v.name.length < VMA_NAME_MAX) {buf pre : Bytes}
    (hsize : buf.length = cap) (hfits : pre.length < cap) (hpre : buf.take (pre.length + 1) = pre ++ [0]) :
    ∃ used buf', renderLoop cap buf pre.length vs = some (used, buf') ∧ buf'.length = cap ∧
      ∃ k ≤ vs.length, used = (pre ++ ((vs.map mapsLine).take k).flatten).length ∧ used < cap ∧
        buf'.take (used + 1) = pre ++ ((vs.map mapsLine).take k).flatten ++ [0] ∧
        ∀ j ≤ vs.length, (pre ++ ((vs.map mapsLine).take j).flatten).length < cap → j ≤ k := by
  induction vs generalizing buf pre with
  | nil => exact ⟨pre.length, buf, rfl, hsize, 0, le_rfl, by simp, hfits, by simpa using hpre, fun j hj _ => hj⟩
  | cons v vs ih =>
      have hline := mapsLine_fits (hvs v List.mem_cons_self)
      by_cases hroom : cap < pre.length + (mapsLine v).length + 1
      · refine ⟨pre.length, buf, by rw [renderLoop]; exact if_pos hroom, hsize, 0, Nat.zero_le _, by simp, hfits,
          by simpa using hpre, ?_⟩
        intro j _ hj
        cases j with
        | zero => exact le_rfl
        | succ j =>
            rw [List.map_cons, List.take_succ_cons, List.flatten_cons, List.length_append, List.length_append] at hj
            omega
      · obtain ⟨b, b', hcopy, hset, hlen, htake⟩ := line_copied hpre (by omega) hline
        have hnext : (pre ++ mapsLine v).length = pre.length + (mapsLine v).length := List.length_append
        obtain ⟨used, buf', hrun, hsize', k, hk, hused, hlt, hbuf, hmost⟩ :=
          ih (fun w hw => hvs w (List.mem_cons_of_mem v hw)) (hlen.trans hsize) (by omega) htake
        refine ⟨used, buf', ?_, hsize', k + 1, Nat.succ_le_succ hk, ?_, hlt, ?_, ?_⟩
        · rw [renderLoop]
          refine (if_neg hroom).trans ?_
          change (memcpyAt buf pre.length (snprintf LINE_SIZE (mapsLine v)).1 (mapsLine v).length).bind _ = _
          rw [hcopy, Option.bind_some]
          change (setByte b (pre.length + (mapsLine v).length) 0).bind _ = _
          rw [hset, Option.bind_some, ← hrun, hnext]
          rfl
        · simpa [List.append_assoc] using hused
        · simpa [List.append_assoc] using hbuf
        · intro j hj hfit
          cases j with
          | zero => exact Nat.zero_le _
          | succ j => exact Nat.succ_le_succ (hmost j (Nat.le_of_succ_le_succ hj) (by simpa using hfit))

def Refused (a : VmaArray) (c : Call) : Prop :=
  c.len = 0 ∨ 2 ^ 64 ≤ c.start.toNat + c.len.toNat ∨ a.ranges.length = VMA_MAX ∨
    ∃ w ∈ a.ranges, ∃ x : Addr, (w.start ≤ x ∧ x < w.stop) ∧ c.start ≤ x ∧ x.toNat < c.start.toNat + c.len.toNat

theorem run_holds (calls : List Call) {a : VmaArray} {t : VmaTree} (h : a.Holds t) : ∃ t', (a.run calls).Holds t' := by
  induction calls generalizing a t with
  | nil => exact ⟨t, h⟩
  | cons c calls ih =>
      rcases h.record c with ⟨_, hsame⟩ | ⟨_, a', t', hnew, h', _⟩
      · have hrun : a.run (c :: calls) = a.run calls := by rw [run, List.foldl_cons, hsame]; rfl
        rw [hrun]
        exact ih h
      · have hrun : a.run (c :: calls) = a'.run calls := by rw [run, List.foldl_cons, hnew]; rfl
        rw [hrun]
        exact ih h'

/-- Two ranges that are not empty overlap where an address is in both. -/
theorem overlaps_iff {v w : Vma} (hv : v.start < v.stop) (hw : w.start < w.stop) :
    v.overlaps w = true ↔ ∃ x : Addr, (w.start ≤ x ∧ x < w.stop) ∧ v.start ≤ x ∧ x < v.stop := by
  rw [Vma.overlaps, decide_eq_true_eq]
  constructor
  · rintro ⟨hvw, hwv⟩
    by_cases hle : v.start ≤ w.start
    · exact ⟨w.start, ⟨BitVec.le_refl _, hw⟩, hle, hwv⟩
    · rw [BitVec.not_le] at hle
      exact ⟨v.start, ⟨BitVec.le_of_lt hle, hvw⟩, BitVec.le_refl _, hv⟩
  · rintro ⟨x, ⟨hwx, hxw⟩, hvx, hxv⟩
    bv_omega

theorem Holds.refused_iff {a : VmaArray} {t : VmaTree} (h : a.Holds t) (c : Call) :
    t.refuses c.range c.len = true ↔ a.Refused c := by
  have hwraps : c.range.stop < c.start ↔ 2 ^ 64 ≤ c.start.toNat + c.len.toNat := by
    change c.start + c.len < c.start ↔ _
    bv_omega
  have hfull : a.count = VMA_MAX ↔ a.ranges.length = VMA_MAX := by rw [h.used, h.same]
  rw [refuses_iff h, hwraps, hfull, Refused]
  by_cases hlen : c.len = 0
  · exact iff_of_true (.inl (.inl hlen)) (.inl hlen)
  by_cases hwrap : 2 ^ 64 ≤ c.start.toNat + c.len.toNat
  · exact iff_of_true (.inl (.inr (.inl hwrap))) (.inr (.inl hwrap))
  have hstop : c.range.stop.toNat = c.start.toNat + c.len.toNat := by
    change (c.start + c.len).toNat = _
    bv_omega
  have hnonempty : c.range.start < c.range.stop := by
    rw [BitVec.lt_def, hstop]
    change c.start.toNat < _
    bv_omega
  have hover : a.ranges.any c.range.overlaps = true ↔ ∃ w ∈ a.ranges, ∃ x : Addr, (w.start ≤ x ∧ x < w.stop) ∧
      c.start ≤ x ∧ x.toNat < c.start.toNat + c.len.toNat := by
    rw [List.any_eq_true]
    refine exists_congr fun w => and_congr_right fun hw => ?_
    rw [overlaps_iff hnonempty (t.ordered w (h.same ▸ hw))]
    refine exists_congr fun x => and_congr_right fun _ => and_congr_right fun _ => ?_
    rw [BitVec.lt_def, hstop]
  simp only [hlen, hwrap, false_or, hover]

theorem Holds.renders {a : VmaArray} {t : VmaTree} (h : a.Holds t) (buf : Bytes) :
    ∃ used buf', a.renderMaps (some buf) buf.length = some (used, some buf') ∧
      if buf = [] then used = 0 ∧ buf' = [] else Listed (a.ranges.map mapsLine) buf.length used buf' := by
  cases buf with
  | nil => exact ⟨0, [], rfl, rfl, rfl⟩
  | cons c rest =>
      have hstart : (0 :: rest).take (([] : Bytes).length + 1) = [] ++ [0] := rfl
      have hsize : (0 :: rest).length = (c :: rest).length := rfl
      have hpos : ([] : Bytes).length < (c :: rest).length := Nat.succ_pos _
      obtain ⟨used, buf', hrun, hsize', k, hk, hused, hlt, htake, hmost⟩ := renderLoop_lists a.ranges
        (fun v hv => (h.named v hv).2) hsize hpos hstart
      refine ⟨used, buf', ?_, ?_⟩
      · rw [renderMaps]
        refine (if_neg (Nat.succ_ne_zero _)).trans ?_
        have hset : setByte (c :: rest) 0 0 = some (0 :: rest) := if_pos hpos
        change (setByte (c :: rest) 0 0).bind _ = _
        rw [hset, Option.bind_some]
        change (renderLoop _ (0 :: rest) ([] : Bytes).length a.ranges).bind _ = _
        rw [hrun]
        rfl
      · rw [if_neg (List.cons_ne_nil c rest)]
        exact ⟨hsize', k, by rwa [List.length_map], hused, hlt, htake,
          fun j hj => hmost j (by rwa [List.length_map] at hj)⟩

/-- After any calls from `vma_reset`: the ranges are in order and apart and none is empty; the next
call is refused exactly for its reasons, and nothing has changed then, otherwise one range is added;
and the listing is the lines of as many ranges as fit. -/
theorem record_and_listing (calls : List Call) (c : Call) :
    (reset.run calls).ranges.Pairwise Vma.Before ∧ (∀ v ∈ (reset.run calls).ranges, v.start < v.stop) ∧
    (((reset.run calls).record c).1 = -1 ↔ (reset.run calls).Refused c) ∧
    ((reset.run calls).Refused c → ((reset.run calls).record c).2 = reset.run calls) ∧
    (¬ (reset.run calls).Refused c → ((reset.run calls).record c).1 = 0 ∧
      ((reset.run calls).record c).2.ranges.Perm (c.range :: (reset.run calls).ranges)) ∧
    ∀ buf, ∃ used buf', (reset.run calls).renderMaps (some buf) buf.length = some (used, some buf') ∧
      if buf = [] then used = 0 ∧ buf' = []
      else Listed ((reset.run calls).ranges.map mapsLine) buf.length used buf' := by
  obtain ⟨t, h⟩ := run_holds calls reset_holds
  have hsorted := t.sorted
  have hordered := t.ordered
  rw [← h.same] at hsorted hordered
  have hiff := h.refused_iff c
  refine ⟨hsorted, hordered, ?_, fun hr => ?_, fun hr => ?_, h.renders⟩
  · rcases h.record c with ⟨hr, hsame⟩ | ⟨hr, a', _, hnew, _⟩
    · rw [hsame]
      exact iff_of_true rfl (hiff.mp hr)
    · rw [hnew]
      exact iff_of_false (fun heq => absurd heq (by decide : (0 : ℤ) ≠ -1)) fun href => by rw [hiff.mpr href] at hr; cases hr
  · rcases h.record c with ⟨_, hsame⟩ | ⟨hfree, _⟩
    · rw [hsame]
    · rw [hiff.mpr hr] at hfree
      cases hfree
  · rcases h.record c with ⟨href, _⟩ | ⟨_, a', _, hnew, _, hranges⟩
    · exact absurd (hiff.mp href) hr
    · rw [hnew]
      exact ⟨rfl, hranges ▸ insertVma_perm _ _⟩

end VmaArray

end SysvNt
