import Mathlib.Data.Int.Notation
import Mathlib.Data.List.Basic
import SysvNt.Abi

/-!
# The record of what is mapped where

The ranges are kept in the order of their addresses and never overlap; a range that would is
refused, as is one that ends past the last address and any one more than the tree holds.
-/

namespace SysvNt

abbrev Addr := BitVec 64

inductive BackingKind where
  | anon
  | file
  | section
  | vdso
  | stack
  deriving DecidableEq

def VMA_MAX : ℕ := 64

def VMA_NAME_MAX : ℕ := 64

structure Vma where
  start : Addr
  stop : Addr
  prot : UInt32
  kind : BackingKind
  offset : BitVec 64
  name : Bytes
  deriving DecidableEq

namespace Vma

def Before (v w : Vma) : Prop := v.stop ≤ w.start

def overlaps (v w : Vma) : Bool := decide (v.start < w.stop ∧ w.start < v.stop)

theorem before_or_of_not_overlaps {v w : Vma} (h : v.overlaps w = false) :
    v.stop ≤ w.start ∨ w.stop ≤ v.start := by
  simp only [overlaps, decide_eq_false_iff_not, not_and_or, BitVec.not_lt] at h
  exact h.symm

theorem not_overlaps_of_before_or {v w : Vma} (h : v.stop ≤ w.start ∨ w.stop ≤ v.start) :
    v.overlaps w = false := by
  simp only [overlaps, decide_eq_false_iff_not, not_and_or, BitVec.not_lt]
  exact h.symm

end Vma

def insertVma (v : Vma) : List Vma → List Vma
  | [] => [v]
  | w :: ws => if w.start < v.start then w :: insertVma v ws else v :: w :: ws

theorem insertVma_perm (v : Vma) (ws : List Vma) : (insertVma v ws).Perm (v :: ws) := by
  induction ws with
  | nil => exact List.Perm.refl _
  | cons w ws ih =>
      rw [insertVma]
      split_ifs
      · exact (ih.cons w).trans (List.Perm.swap v w ws)
      · exact List.Perm.refl _

theorem insertVma_sorted {v : Vma} {ws : List Vma} (hv : v.start < v.stop)
    (hws : ∀ w ∈ ws, w.start < w.stop) (hsorted : ws.Pairwise Vma.Before)
    (hfree : ∀ w ∈ ws, v.overlaps w = false) : (insertVma v ws).Pairwise Vma.Before := by
  induction ws with
  | nil => exact List.pairwise_singleton _ v
  | cons w ws ih =>
      obtain ⟨hw, hrest⟩ := List.pairwise_cons.mp hsorted
      have hwpos := hws w List.mem_cons_self
      have hcase := Vma.before_or_of_not_overlaps (hfree w List.mem_cons_self)
      rw [insertVma]
      split_ifs with hlt
      · have hwv : w.Before v := by
          rcases hcase with h | h
          · unfold Vma.Before
            bv_omega
          · exact h
        refine List.pairwise_cons.mpr ⟨fun u hu => ?_, ih (fun u hu => hws u (List.mem_cons_of_mem _ hu))
          hrest (fun u hu => hfree u (List.mem_cons_of_mem _ hu))⟩
        rcases List.mem_cons.mp ((insertVma_perm v ws).mem_iff.mp hu) with rfl | hu
        · exact hwv
        · exact hw u hu
      · have hvw : v.Before w := by
          rcases hcase with h | h
          · exact h
          · unfold Vma.Before
            bv_omega
        refine List.pairwise_cons.mpr ⟨fun u hu => ?_, hsorted⟩
        rcases List.mem_cons.mp hu with rfl | hu
        · exact hvw
        · have huw := hw u hu
          unfold Vma.Before at *
          bv_omega

structure VmaTree where
  ranges : List Vma
  ordered : ∀ v ∈ ranges, v.start < v.stop
  sorted : ranges.Pairwise Vma.Before
  bounded : ranges.length ≤ VMA_MAX

namespace VmaTree

def empty : VmaTree where
  ranges := []
  ordered _ h := by cases h
  sorted := List.Pairwise.nil
  bounded := Nat.zero_le _

def refuses (t : VmaTree) (v : Vma) (len : BitVec 64) : Bool :=
  len = 0 || v.stop < v.start || t.ranges.length = VMA_MAX || t.ranges.any v.overlaps

theorem refuses_eq_false {t : VmaTree} {v : Vma} {len : BitVec 64} (h : t.refuses v len = false) :
    len ≠ 0 ∧ v.start ≤ v.stop ∧ t.ranges.length < VMA_MAX ∧ ∀ w ∈ t.ranges, v.overlaps w = false := by
  simp only [refuses, Bool.or_eq_false_iff, decide_eq_false_iff_not, List.any_eq_false,
    BitVec.not_lt] at h
  obtain ⟨⟨⟨hlen, hstop⟩, hfull⟩, hfree⟩ := h
  exact ⟨hlen, hstop, Nat.lt_of_le_of_ne t.bounded hfull, fun w hw => by simpa using hfree w hw⟩

theorem refuses_eq_false_of {t : VmaTree} {v : Vma} {len : BitVec 64} (hlen : len ≠ 0)
    (hstop : v.start ≤ v.stop) (hroom : t.ranges.length < VMA_MAX)
    (hapart : ∀ w ∈ t.ranges, v.stop ≤ w.start ∨ w.stop ≤ v.start) : t.refuses v len = false := by
  simp only [refuses, Bool.or_eq_false_iff, decide_eq_false_iff_not, List.any_eq_false, BitVec.not_lt]
  refine ⟨⟨⟨hlen, hstop⟩, by omega⟩, fun w hw => ?_⟩
  rw [Bool.not_eq_true]
  exact Vma.not_overlaps_of_before_or (hapart w hw)

def rangeAt (start len : BitVec 64) (prot : UInt32) (kind : BackingKind) (offset : BitVec 64)
    (name : Bytes) : Vma :=
  ⟨start, start + len, prot, kind, offset, name.take (VMA_NAME_MAX - 1)⟩

/-- `vma_record`; `none` is its refusal. -/
def record (t : VmaTree) (start len : BitVec 64) (prot : UInt32) (kind : BackingKind)
    (offset : BitVec 64) (name : Bytes) : Option VmaTree :=
  if h : t.refuses (rangeAt start len prot kind offset name) len = true then none
  else some
    { ranges := insertVma (rangeAt start len prot kind offset name) t.ranges
      ordered := by
        intro v hv
        obtain ⟨hlen, hstop, _, _⟩ := refuses_eq_false (Bool.eq_false_iff.mpr h)
        rcases List.mem_cons.mp ((insertVma_perm _ _).mem_iff.mp hv) with rfl | hv
        · change start < start + len
          change start ≤ start + len at hstop
          bv_omega
        · exact t.ordered v hv
      sorted := by
        obtain ⟨hlen, hstop, _, hfree⟩ := refuses_eq_false (Bool.eq_false_iff.mpr h)
        refine insertVma_sorted ?_ t.ordered t.sorted hfree
        change start < start + len
        change start ≤ start + len at hstop
        bv_omega
      bounded := by
        obtain ⟨_, _, hfull, _⟩ := refuses_eq_false (Bool.eq_false_iff.mpr h)
        rw [(insertVma_perm _ _).length_eq, List.length_cons]
        exact hfull }

theorem record_eq_none {t : VmaTree} {start len : BitVec 64} {prot : UInt32} {kind : BackingKind}
    {offset : BitVec 64} {name : Bytes}
    (h : t.refuses (rangeAt start len prot kind offset name) len = true) :
    t.record start len prot kind offset name = none :=
  dif_pos h

theorem record_eq_some {t : VmaTree} {start len : BitVec 64} {prot : UInt32} {kind : BackingKind}
    {offset : BitVec 64} {name : Bytes}
    (h : t.refuses (rangeAt start len prot kind offset name) len = false) :
    ∃ t', t.record start len prot kind offset name = some t' ∧
      t'.ranges.Perm (rangeAt start len prot kind offset name :: t.ranges) :=
  ⟨_, dif_neg (Bool.eq_false_iff.mp h), insertVma_perm _ _⟩

end VmaTree

end SysvNt
