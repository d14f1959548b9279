import Mathlib.Data.Nat.ModEq
import Mathlib.Logic.Function.Basic
import Mathlib.Tactic

/-!
# A circular buffer and the queue it holds

A ring of `N` cells with a head, a tail and a count. `contents` reads the queue off the
cells; `push` and `pop` act on it at its two ends, and the loops `drain` and `fill` take
from the front and add at the back until the ring is empty or full.
-/

namespace SysvNt.RingQueue

structure Ring (α : Type*) (N : ℕ) where
  buf : ℕ → α
  head : ℕ
  tail : ℕ
  count : ℕ

namespace Ring

variable {α : Type*} {N : ℕ}

/-- The three indices agree and stay inside the ring. -/
structure Coherent (r : Ring α N) : Prop where
  head_lt : r.head < N
  count_le : r.count ≤ N
  tail_eq : r.tail = (r.head + r.count) % N

def contents (r : Ring α N) : List α := (List.range r.count).map fun i => r.buf ((r.head + i) % N)

def pop (r : Ring α N) : Ring α N :=
  { r with head := (r.head + 1) % N, count := r.count - 1 }

def push (r : Ring α N) (a : α) : Ring α N :=
  { r with
    buf := Function.update r.buf r.tail a
    tail := (r.tail + 1) % N
    count := r.count + 1 }

def drain : ℕ → Ring α N → List α × Ring α N
  | 0, r => ([], r)
  | n + 1, r =>
    if 0 < r.count then
      let rest := drain n r.pop
      (r.buf r.head :: rest.1, rest.2)
    else ([], r)

/-- Add elements at the back while there is room; how many were added. -/
def fill : List α → Ring α N → ℕ × Ring α N
  | [], r => (0, r)
  | a :: as, r =>
    if r.count < N then
      let rest := fill as (r.push a)
      (rest.1 + 1, rest.2)
    else (0, r)

@[simp] theorem length_contents (r : Ring α N) : r.contents.length = r.count := by
  simp [contents]

theorem contents_eq_nil_iff {r : Ring α N} : r.contents = [] ↔ r.count = 0 := by
  rw [← List.length_eq_zero_iff, length_contents]

theorem Coherent.pop {r : Ring α N} (h : r.Coherent) (hc : 0 < r.count) : r.pop.Coherent := by
  obtain ⟨hhead, hcount, htail⟩ := h
  refine ⟨Nat.mod_lt _ (by omega), ?_, ?_⟩
  · simp only [Ring.pop]
    omega
  · simp only [Ring.pop]
    rw [htail, Nat.mod_add_mod, show r.head + 1 + (r.count - 1) = r.head + r.count by omega]

theorem Coherent.push {r : Ring α N} (h : r.Coherent) (hc : r.count < N) (a : α) :
    (r.push a).Coherent := by
  obtain ⟨hhead, hcount, htail⟩ := h
  refine ⟨hhead, hc, ?_⟩
  simp only [Ring.push]
  rw [htail, Nat.mod_add_mod, add_assoc]

/-- The front of the queue is the cell at the head. -/
theorem contents_pop {r : Ring α N} (h : r.Coherent) (hc : 0 < r.count) :
    r.contents = r.buf r.head :: r.pop.contents := by
  obtain ⟨k, hk⟩ : ∃ k, r.count = k + 1 := ⟨r.count - 1, by omega⟩
  simp only [contents, Ring.pop, hk, Nat.add_sub_cancel, List.range_succ_eq_map, List.map_cons,
    List.map_map]
  congr 1
  · rw [add_zero, Nat.mod_eq_of_lt h.head_lt]
  · apply List.map_congr_left
    intro i _
    simp only [Function.comp_apply, Nat.mod_add_mod]
    congr 2
    omega

/-- The cell at the tail is not one of the queue's while there is room. -/
theorem tail_ne {r : Ring α N} (h : r.Coherent) (hc : r.count < N) {i : ℕ} (hi : i < r.count) :
    (r.head + i) % N ≠ r.tail := by
  rw [h.tail_eq]
  intro he
  have hmod : i % N = r.count % N := Nat.ModEq.add_left_cancel' r.head he
  rw [Nat.mod_eq_of_lt (by omega), Nat.mod_eq_of_lt hc] at hmod
  omega

theorem contents_push {r : Ring α N} (h : r.Coherent) (hc : r.count < N) (a : α) :
    (r.push a).contents = r.contents ++ [a] := by
  simp only [contents, Ring.push, List.range_succ, List.map_append, List.map_cons, List.map_nil]
  congr 1
  · apply List.map_congr_left
    intro i hi
    rw [Function.update_of_ne (tail_ne h hc (List.mem_range.mp hi))]
  · rw [← h.tail_eq, Function.update_self]

theorem drain_contents (n : ℕ) {r : Ring α N} (h : r.Coherent) :
    (drain n r).1 = r.contents.take n ∧ (drain n r).2.contents = r.contents.drop n ∧
      (drain n r).2.Coherent := by
  induction n generalizing r with
  | zero => exact ⟨rfl, rfl, h⟩
  | succ n ih =>
      rw [drain]
      split_ifs with hc
      · obtain ⟨htake, hdrop, hcoh⟩ := ih (h.pop hc)
        rw [contents_pop h hc, List.take_succ_cons, List.drop_succ_cons]
        exact ⟨by rw [← htake], hdrop, hcoh⟩
      · have hnil : r.contents = [] := contents_eq_nil_iff.mpr (by omega)
        rw [hnil]
        exact ⟨rfl, rfl, h⟩

theorem drain_count (n : ℕ) (r : Ring α N) :
    (drain n r).1.length = min n r.count ∧ (drain n r).2.count = r.count - n := by
  induction n generalizing r with
  | zero => exact ⟨by simp [drain], rfl⟩
  | succ n ih =>
      rw [drain]
      split_ifs with hc
      · obtain ⟨hlen, hcount⟩ := ih r.pop
        have hpop : r.pop.count = r.count - 1 := rfl
        dsimp only
        rw [List.length_cons, hlen, hcount, hpop]
        omega
      · dsimp only
        rw [List.length_nil]
        omega

theorem drain_add (a b : ℕ) (r : Ring α N) : (drain b (drain a r).2).2 = (drain (a + b) r).2 := by
  induction a generalizing r with
  | zero => rw [Nat.zero_add]; rfl
  | succ a ih =>
      rw [Nat.add_right_comm, drain, drain]
      split_ifs with hc
      · exact ih r.pop
      · cases b with
        | zero => rfl
        | succ b => rw [drain, if_neg hc]

/-- Asking for more than there is drains what there is. -/
theorem drain_min (n : ℕ) (r : Ring α N) : (drain (drain n r).1.length r).2 = (drain n r).2 := by
  induction n generalizing r with
  | zero => rfl
  | succ n ih =>
      by_cases hc : 0 < r.count
      · have hdrain : drain (n + 1) r = (r.buf r.head :: (drain n r.pop).1, (drain n r.pop).2) := by
          rw [drain, if_pos hc]
        rw [hdrain, List.length_cons, drain, if_pos hc]
        exact ih r.pop
      · have hdrain : drain (n + 1) r = ([], r) := by rw [drain, if_neg hc]
        rw [hdrain]
        rfl

theorem fill_contents (as : List α) {r : Ring α N} (h : r.Coherent) :
    (fill as r).1 = min as.length (N - r.count) ∧
      (fill as r).2.contents = r.contents ++ as.take (fill as r).1 ∧
      (fill as r).2.Coherent := by
  induction as generalizing r with
  | nil => exact ⟨by simp [fill], by simp [fill], h⟩
  | cons a as ih =>
      rw [fill]
      split_ifs with hc
      · obtain ⟨hn, hcont, hcoh⟩ := ih (h.push hc a)
        refine ⟨?_, ?_, hcoh⟩
        · have hcount : (r.push a).count = r.count + 1 := rfl
          dsimp only
          rw [List.length_cons, hn, hcount]
          omega
        · simp only [hcont, contents_push h hc, List.take_succ_cons, List.append_assoc,
            List.singleton_append]
      · refine ⟨?_, by simp, h⟩
        have := h.count_le
        simp only [List.length_cons]
        omega

end Ring

end SysvNt.RingQueue
