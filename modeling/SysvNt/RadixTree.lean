import Mathlib.Algebra.BigOperators.Fin
import Mathlib.Algebra.BigOperators.Group.Finset.Piecewise
import Mathlib.Tactic.Common

/-!
# Radix trees of fixed height

At each index of a node of height `n + 1` there is a tree of height `n`, which may be absent; a tree
of height zero is a value. A path leads from the root to a value. Counting the values that satisfy a
predicate is a sum over the indices, and is one or zero where they can be at one path only.
-/

namespace SysvNt.RadixTree

variable {ι α : Type}

inductive Tree (ι α : Type) : ℕ → Type where
  | absent {n : ℕ} : Tree ι α n
  | value (a : α) : Tree ι α 0
  | node {n : ℕ} (children : ι → Tree ι α n) : Tree ι α (n + 1)

inductive Path (ι : Type) : ℕ → Type where
  | nil : Path ι 0
  | cons {n : ℕ} (i : ι) (rest : Path ι n) : Path ι (n + 1)
  deriving DecidableEq

def lookup : {n : ℕ} → Tree ι α n → Path ι n → Option α
  | _, .absent, _ => none
  | _, .value a, _ => some a
  | _, .node t, .cons i p => lookup (t i) p

def map (f : α → α) : {n : ℕ} → Tree ι α n → Tree ι α n
  | _, .absent => .absent
  | _, .value a => .value (f a)
  | _, .node t => .node fun i => map f (t i)

variable {n : ℕ}

@[simp] theorem lookup_absent (p : Path ι n) : lookup (.absent : Tree ι α n) p = none := by
  cases n <;> rfl

@[simp] theorem lookup_value (a : α) (p : Path ι 0) : lookup (.value a) p = some a := rfl

@[simp] theorem lookup_node (t : ι → Tree ι α n) (i : ι) (p : Path ι n) :
    lookup (.node t) (.cons i p) = lookup (t i) p := rfl

theorem lookup_map (f : α → α) (t : Tree ι α n) (p : Path ι n) :
    lookup (map f t) p = (lookup t p).map f := by
  induction t with
  | absent => rw [map, lookup_absent, Option.map_none]
  | value a => rfl
  | node t ih =>
      cases p with
      | cons i p => exact ih i p

def Has (P : α → Prop) (t : Tree ι α n) : Prop := ∃ p e, lookup t p = some e ∧ P e

section Update

variable [DecidableEq ι]

def insert : {n : ℕ} → Tree ι α n → Path ι n → α → Tree ι α n
  | _, _, .nil, e => .value e
  | _, .absent, .cons i p, e => .node fun j => if j = i then insert .absent p e else .absent
  | _, .node t, .cons i p, e => .node fun j => if j = i then insert (t i) p e else t j

theorem lookup_insert (t : Tree ι α n) (p q : Path ι n) (e : α) :
    lookup (insert t p e) q = if q = p then some e else lookup t q := by
  induction p with
  | nil =>
      cases q
      cases t <;> rfl
  | cons i p ih =>
      cases q with
      | cons j q =>
          have hcons : (Path.cons j q = Path.cons i p) ↔ j = i ∧ q = p := by
            rw [Path.cons.injEq]
          cases t with
          | absent =>
              rw [insert, lookup_node, lookup_absent]
              by_cases hji : j = i
              · rw [if_pos hji, ih, lookup_absent]
                simp [hji]
              · rw [if_neg hji, lookup_absent]
                simp [hji]
          | node t =>
              rw [insert, lookup_node, lookup_node]
              by_cases hji : j = i
              · subst hji
                rw [if_pos rfl, ih]
                simp [hcons]
              · rw [if_neg hji]
                simp [hji]

end Update

section Count

variable [Fintype ι] {P : α → Prop} [DecidablePred P]

def count (P : α → Prop) [DecidablePred P] : {n : ℕ} → Tree ι α n → ℕ
  | _, .absent => 0
  | _, .value a => if P a then 1 else 0
  | _, .node t => ∑ i, count P (t i)

theorem count_of_not_has {t : Tree ι α n} (h : ¬ Has P t) : count P t = 0 := by
  induction t with
  | absent => rfl
  | value a =>
      apply if_neg
      intro hp
      exact h ⟨.nil, a, rfl, hp⟩
  | node t ih =>
      apply Finset.sum_eq_zero
      intro i _
      apply ih
      rintro ⟨p, e, he, hp⟩
      exact h ⟨.cons i p, e, he, hp⟩

/-- Values with the property are at one path only. -/
def Single (P : α → Prop) (t : Tree ι α n) : Prop :=
  ∀ p q e d, lookup t p = some e → P e → lookup t q = some d → P d → p = q

theorem count_of_has {t : Tree ι α n} (hs : Single P t) (h : Has P t) : count P t = 1 := by
  induction t with
  | absent =>
      obtain ⟨p, e, he, -⟩ := h
      rw [lookup_absent] at he
      cases he
  | value a =>
      obtain ⟨p, e, he, hp⟩ := h
      cases he
      exact if_pos hp
  | node t ih =>
      obtain ⟨p, e, he, hp⟩ := h
      cases p with
      | cons i p =>
          have hcount : ∑ j, count P (t j) = count P (t i) := by
            apply Finset.sum_eq_single i
            · intro j _ hj
              apply count_of_not_has
              rintro ⟨q, d, hq, hd⟩
              have heq := hs (.cons j q) (.cons i p) d e hq hd he hp
              cases heq
              exact hj rfl
            · intro hi
              exact absurd (Finset.mem_univ i) hi
          refine hcount.trans (ih i ?_ ⟨p, e, he, hp⟩)
          intro q r d c hq hd hr hc
          have heq := hs (.cons i q) (.cons i r) d c hq hd hr hc
          cases heq
          rfl

/-- The count is known from whether there is such a value. -/
theorem count_congr {t t' : Tree ι α n} (hs : Single P t) (hs' : Single P t')
    (h : Has P t ↔ Has P t') : count P t = count P t' := by
  by_cases ht : Has P t
  · rw [count_of_has hs ht, count_of_has hs' (h.mp ht)]
  · rw [count_of_not_has ht, count_of_not_has fun h' => ht (h.mpr h')]

theorem count_le_one {t : Tree ι α n} (hs : Single P t) : count P t ≤ 1 := by
  by_cases ht : Has P t
  · rw [count_of_has hs ht]
  · rw [count_of_not_has ht]
    exact Nat.zero_le 1

end Count

end SysvNt.RadixTree
