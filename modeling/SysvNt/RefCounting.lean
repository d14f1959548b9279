import Mathlib.Data.Fintype.Card
import Mathlib.Algebra.Order.BigOperators.Group.Finset
import Mathlib.Tactic

/-!
# Counting references

Objects are referred to from the slots of a table and from code that holds a reference of
its own. `Counted` says that every object's count is the number of both. The four rules
follow a reference around: taking one, dropping one, moving one from the holder into an
empty slot, and moving one out of a slot to the holder.
-/

namespace SysvNt.RefCounting

variable {ι κ : Type*} [Fintype ι] [DecidableEq κ]

def slotCount (files : ι → Option κ) (k : κ) : ℕ := ∑ i, if files i = some k then 1 else 0

def Counted (files : ι → Option κ) (held : List κ) (refs : κ → ℤ) : Prop :=
  ∀ k, refs k = slotCount files k + held.count k

theorem slotCount_update [DecidableEq ι] (files : ι → Option κ) (i : ι) (v : Option κ) (k : κ) :
    slotCount (Function.update files i v) k + (if files i = some k then 1 else 0) =
      slotCount files k + if v = some k then 1 else 0 := by
  have hold := Finset.add_sum_erase Finset.univ (fun j => if files j = some k then 1 else 0)
    (Finset.mem_univ i)
  have hnew := Finset.add_sum_erase Finset.univ
    (fun j => if Function.update files i v j = some k then 1 else 0) (Finset.mem_univ i)
  have hrest : ∑ j ∈ Finset.univ.erase i,
      (if Function.update files i v j = some k then 1 else 0) =
      ∑ j ∈ Finset.univ.erase i, if files j = some k then 1 else 0 := by
    refine Finset.sum_congr rfl fun j hj => ?_
    rw [Function.update_of_ne (Finset.ne_of_mem_erase hj)]
  simp only [Function.update_self] at hnew
  simp only [slotCount]
  omega

theorem slotCount_pos [DecidableEq ι] {files : ι → Option κ} {i : ι} {k : κ} (h : files i = some k) :
    0 < slotCount files k := by
  have hold := Finset.add_sum_erase Finset.univ (fun j => if files j = some k then 1 else 0)
    (Finset.mem_univ i)
  simp only [h, if_true] at hold
  simp only [slotCount]
  omega

theorem slotCount_eq_zero {files : ι → Option κ} (h : ∀ i, files i = none) (k : κ) :
    slotCount files k = 0 := by
  simp [slotCount, h]

namespace Counted

variable {files : ι → Option κ} {held : List κ} {refs : κ → ℤ} {i : ι} {k : κ}

theorem nonneg (h : Counted files held refs) (k : κ) : 0 ≤ refs k := by
  rw [h k]
  omega

theorem pos_of_slot [DecidableEq ι] (h : Counted files held refs) (hi : files i = some k) :
    0 < refs k := by
  have := slotCount_pos hi
  rw [h k]
  omega

theorem pos_of_held (h : Counted files held refs) (hk : k ∈ held) : 0 < refs k := by
  have := List.count_pos_iff.mpr hk
  rw [h k]
  omega

theorem get (h : Counted files held refs) (k : κ) :
    Counted files (k :: held) (Function.update refs k (refs k + 1)) := by
  intro j
  have hj := h j
  by_cases he : j = k
  · subst he
    rw [Function.update_self, List.count_cons_self]
    omega
  · rw [Function.update_of_ne he, List.count_cons_of_ne (Ne.symm he), hj]

theorem put (h : Counted files (k :: held) refs) :
    Counted files held (Function.update refs k (refs k - 1)) := by
  intro j
  have hj := h j
  by_cases he : j = k
  · subst he
    rw [List.count_cons_self] at hj
    rw [Function.update_self]
    omega
  · rw [Function.update_of_ne he, hj, List.count_cons_of_ne (Ne.symm he)]

theorem seat [DecidableEq ι] (h : Counted files (k :: held) refs) (hi : files i = none) :
    Counted (Function.update files i (some k)) held refs := by
  intro j
  have hj := h j
  have hslots := slotCount_update files i (some k) j
  rw [hi, if_neg (by simp)] at hslots
  rw [List.count_cons] at hj
  simp only [Option.some.injEq, beq_iff_eq] at hslots hj
  split_ifs at hslots hj <;> omega

theorem lift [DecidableEq ι] (h : Counted files held refs) (hi : files i = some k) :
    Counted (Function.update files i none) (k :: held) refs := by
  intro j
  have hj := h j
  have hslots := slotCount_update files i none j
  rw [hi, if_neg (show ¬ none = some j by simp)] at hslots
  rw [List.count_cons]
  simp only [Option.some.injEq, beq_iff_eq] at hslots ⊢
  split_ifs at hslots ⊢ <;> omega

theorem perm {held' : List κ} (h : Counted files held refs) (hp : held.Perm held') :
    Counted files held' refs := by
  intro j
  rw [h j, hp.count_eq]

end Counted

end SysvNt.RefCounting
