import Mathlib.Data.List.TakeWhile
import SysvNt.Vma

/-!
# The tree of ranges in its array

`g_vma` is a fixed array whose first `g_n` places are in use. `vma_record` looks for the place of
the new range, moves the rest of the used places up by one and writes the range in the gap. Over
the used places that is the insertion of `VmaTree.record`, so that each array reached from
`vma_reset` holds a tree.
-/

namespace SysvNt

/-- What `VmaTree.record` does not refuse it inserts. -/
theorem VmaTree.record_insert {t : VmaTree} {start len : BitVec 64} {prot : UInt32} {kind : BackingKind}
    {offset : BitVec 64} {name : Bytes} (h : t.refuses (rangeAt start len prot kind offset name) len = false) :
    ∃ t', t.record start len prot kind offset name = some t' ∧
      t'.ranges = insertVma (rangeAt start len prot kind offset name) t.ranges :=
  ⟨_, dif_neg (Bool.eq_false_iff.mp h), rfl⟩

/-- The array and the number of places in use. -/
structure VmaArray where
  slots : List Vma
  count : ℕ
  deriving DecidableEq

namespace VmaArray

def noVma : Vma := ⟨0, 0, 0, .anon, 0, []⟩

def reset : VmaArray := ⟨List.replicate VMA_MAX noVma, 0⟩

def ranges (a : VmaArray) : List Vma := a.slots.take a.count

/-- `memmove(&g_vma[at + 1], &g_vma[at], (g_n - at) * sizeof g_vma[0])`. -/
def shifted (a : VmaArray) (i : ℕ) : List Vma :=
  a.slots.take (i + 1) ++ (a.slots.drop i).take (a.count - i) ++ a.slots.drop (a.count + 1)

/-- The loop that looks for the first range that does not start below. -/
def place (a : VmaArray) (start : Addr) : ℕ := (a.ranges.takeWhile fun w => w.start < start).length

structure Call where
  start : Addr
  len : BitVec 64
  prot : UInt32
  kind : BackingKind
  offset : BitVec 64
  name : Option Bytes

/-- The range that is written; a null pointer leaves no name. -/
def Call.range (c : Call) : Vma :=
  VmaTree.rangeAt c.start c.len c.prot c.kind c.offset (cstr (c.name.getD []))

def record (a : VmaArray) (c : Call) : ℤ × VmaArray :=
  if c.len = 0 ∨ c.range.stop < c.start ∨ a.count = VMA_MAX then (-1, a)
  else if a.ranges.any c.range.overlaps = true then (-1, a)
  else (0, ⟨(a.shifted (a.place c.start)).set (a.place c.start) c.range, a.count + 1⟩)

def run (a : VmaArray) (calls : List Call) : VmaArray := calls.foldl (fun a c => (a.record c).2) a

theorem insertVma_eq (v : Vma) (ws : List Vma) : insertVma v ws =
    ws.takeWhile (fun w => w.start < v.start) ++ v :: ws.dropWhile fun w => w.start < v.start := by
  induction ws with
  | nil => rfl
  | cons w ws ih =>
      rw [insertVma]
      by_cases h : w.start < v.start
      · rw [if_pos h, ih, List.takeWhile_cons_of_pos (by simpa using h), List.dropWhile_cons_of_pos (by simpa using h)]
        rfl
      · rw [if_neg h, List.takeWhile_cons_of_neg (by simpa using h), List.dropWhile_cons_of_neg (by simpa using h)]
        rfl

theorem set_in_gap (pre post tail : List Vma) (t v : Vma) :
    ((pre ++ post ++ t :: tail).take (pre.length + 1) ++ ((pre ++ post ++ t :: tail).drop pre.length).take post.length ++
      (pre ++ post ++ t :: tail).drop (pre.length + post.length + 1)).set pre.length v = pre ++ v :: post ++ tail := by
  have hdrop : (pre ++ post ++ t :: tail).drop (pre.length + post.length + 1) = tail := by
    rw [← List.drop_drop, ← List.length_append, List.drop_left]
    rfl
  have hmoved : ((pre ++ post ++ t :: tail).drop pre.length).take post.length = post := by
    rw [List.append_assoc, List.drop_left, List.take_left]
  obtain ⟨x, hx⟩ : ∃ x, (pre ++ post ++ t :: tail).take (pre.length + 1) = pre ++ [x] := by
    cases post with
    | nil => exact ⟨t, by simp [List.take_append, List.take_of_length_le]⟩
    | cons p post => exact ⟨p, by simp [List.take_append, List.take_of_length_le]⟩
  rw [hdrop, hmoved, hx]
  simp

/-- Moving up and writing in the gap is the insertion. -/
theorem ranges_insert {a : VmaArray} (ha : a.count < a.slots.length) (v : Vma) :
    ((a.shifted (a.place v.start)).set (a.place v.start) v).take (a.count + 1) = insertVma v a.ranges := by
  rw [insertVma_eq, place]
  have hranges : a.ranges = a.ranges.takeWhile (fun w => w.start < v.start) ++
    a.ranges.dropWhile fun w => w.start < v.start := List.takeWhile_append_dropWhile.symm
  generalize a.ranges.takeWhile (fun w => w.start < v.start) = pre at hranges ⊢
  generalize a.ranges.dropWhile (fun w => w.start < v.start) = post at hranges ⊢
  have hcount : a.count = pre.length + post.length := by
    have hlen := congrArg List.length hranges
    rw [ranges, List.length_take, List.length_append] at hlen
    omega
  obtain ⟨t, tail, htail⟩ : ∃ t tail, a.slots.drop a.count = t :: tail :=
    List.exists_cons_of_length_pos (by rw [List.length_drop]; omega)
  have hslots : a.slots = pre ++ post ++ t :: tail := by
    rw [← hranges, ← htail, ranges, List.take_append_drop]
  have hmove : a.count - pre.length = post.length := by omega
  rw [shifted, hmove, hcount, hslots, set_in_gap]
  have hlen : (pre ++ v :: post).length = pre.length + post.length + 1 := by
    rw [List.length_append, List.length_cons]
    omega
  rw [← hlen, List.take_left]

/-- The array holds the ranges of the tree, their names as they were copied. -/
structure Holds (a : VmaArray) (t : VmaTree) : Prop where
  size : a.slots.length = VMA_MAX
  same : a.ranges = t.ranges
  used : a.count = t.ranges.length
  named : ∀ v ∈ a.ranges, 0 ∉ v.name ∧ v.name.length < VMA_NAME_MAX

theorem reset_holds : reset.Holds VmaTree.empty where
  size := List.length_replicate
  same := rfl
  used := rfl
  named v hv := by cases hv

theorem Call.range_named (c : Call) : 0 ∉ c.range.name ∧ c.range.name.length < VMA_NAME_MAX := by
  refine ⟨fun h => ?_, ?_⟩
  · have hmem : (0 : UInt8) ∈ cstr (c.name.getD []) := List.mem_of_mem_take h
    exact absurd (List.mem_takeWhile_imp hmem) (by decide)
  · change ((cstr (c.name.getD [])).take (VMA_NAME_MAX - 1)).length < VMA_NAME_MAX
    rw [List.length_take, VMA_NAME_MAX]
    omega

theorem refuses_iff {a : VmaArray} {t : VmaTree} (h : a.Holds t) (c : Call) : t.refuses c.range c.len = true ↔
    (c.len = 0 ∨ c.range.stop < c.start ∨ a.count = VMA_MAX) ∨ a.ranges.any c.range.overlaps = true := by
  rw [VmaTree.refuses, h.used, h.same]
  simp only [Bool.or_eq_true, decide_eq_true_eq, or_assoc]
  rfl

/-- A call of the array is a call of the tree. -/
theorem Holds.record {a : VmaArray} {t : VmaTree} (h : a.Holds t) (c : Call) :
    (t.refuses c.range c.len = true ∧ a.record c = (-1, a)) ∨
      (t.refuses c.range c.len = false ∧ ∃ a' t', a.record c = (0, a') ∧ a'.Holds t' ∧
        a'.ranges = insertVma c.range a.ranges) := by
  have hiff := refuses_iff h c
  by_cases hearly : c.len = 0 ∨ c.range.stop < c.start ∨ a.count = VMA_MAX
  · exact .inl ⟨hiff.mpr (.inl hearly), if_pos hearly⟩
  by_cases hover : a.ranges.any c.range.overlaps = true
  · exact .inl ⟨hiff.mpr (.inr hover), by rw [VmaArray.record, if_neg hearly, if_pos hover]⟩
  have hfree : t.refuses c.range c.len = false := by
    rw [← Bool.not_eq_true, hiff, not_or]
    exact ⟨hearly, hover⟩
  obtain ⟨t', _, hranges⟩ := VmaTree.record_insert hfree
  have hroom : a.count < a.slots.length := by
    obtain ⟨_, _, hfull, _⟩ := VmaTree.refuses_eq_false hfree
    rw [h.used, h.size]
    exact hfull
  have hinsert := ranges_insert hroom c.range
  refine .inr ⟨hfree, ⟨(a.shifted (a.place c.start)).set (a.place c.start) c.range, a.count + 1⟩, t',
    by rw [VmaArray.record, if_neg hearly, if_neg hover], ⟨?_, ?_, ?_, ?_⟩, hinsert⟩
  · rw [List.length_set, shifted, List.length_append, List.length_append, List.length_take, List.length_take,
      List.length_drop, List.length_drop, h.size]
    rw [h.size] at hroom
    have hplace : a.place c.start ≤ a.count := by
      have hle := (List.takeWhile_sublist (fun w : Vma => decide (w.start < c.start)) (l := a.ranges)).length_le
      rw [ranges, List.length_take] at hle
      exact hle.trans (min_le_left _ _)
    omega
  · rw [hranges, ← h.same]
    exact hinsert
  · rw [hranges, (insertVma_perm _ _).length_eq, List.length_cons, ← h.used]
  · intro v hv
    change v ∈ ((a.shifted (a.place c.start)).set (a.place c.start) c.range).take (a.count + 1) at hv
    have hmem := hinsert ▸ hv
    rcases List.mem_cons.mp ((insertVma_perm _ _).mem_iff.mp hmem) with rfl | hold
    · exact c.range_named
    · exact h.named v hold

end VmaArray

end SysvNt
