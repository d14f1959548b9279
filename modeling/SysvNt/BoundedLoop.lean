import Mathlib.Tactic.Common

/-!
# Loops with a decreasing measure

A loop body either continues with a new state or stops with a result. When every
continuing step lowers a natural measure, the loop is a total function: `run` unfolds
the body until it stops, and `iterate` is the same execution cut off after a number of
steps. Invariants are proved for one step and transported to the whole run.
-/

namespace SysvNt.BoundedLoop

variable {α β : Type*}

/-- At most `n` steps of the body: the state reached, or the result if it stopped. -/
def iterate (step : α → α ⊕ β) : ℕ → α → α ⊕ β
  | 0, a => .inl a
  | n + 1, a => match step a with
    | .inl a' => iterate step n a'
    | .inr b => .inr b

theorem iterate_succ (step : α → α ⊕ β) (n : ℕ) (a : α) :
    iterate step (n + 1) a = match iterate step n a with
      | .inl a' => step a'
      | .inr b => .inr b := by
  induction n generalizing a with
  | zero =>
      simp only [iterate]
      cases step a <;> rfl
  | succ n ih =>
      rw [iterate, iterate]
      cases step a with
      | inl a' => exact ih a'
      | inr b => rfl

/-- The step before the last of a loop that is still going on. -/
theorem iterate_succ_eq_inl {step : α → α ⊕ β} {n : ℕ} {a a' : α} (h : iterate step (n + 1) a = .inl a') :
    ∃ m, iterate step n a = .inl m ∧ step m = .inl a' := by
  rw [iterate_succ] at h
  cases hn : iterate step n a with
  | inl m =>
      rw [hn] at h
      exact ⟨m, rfl, h⟩
  | inr b =>
      rw [hn] at h
      cases h

/-- A body together with the measure that its continuing steps lower. -/
structure Body (α β : Type*) where
  step : α → α ⊕ β
  measure : α → ℕ
  decreases : ∀ a a', step a = .inl a' → measure a' < measure a

namespace Body

variable (L : Body α β)

def runWithin : (n : ℕ) → (a : α) → L.measure a < n → β
  | 0, _, h => absurd h (Nat.not_lt_zero _)
  | n + 1, a, h => match hs : L.step a with
    | .inl a' => runWithin n a' (by have := L.decreases a a' hs; omega)
    | .inr b => b

def run (a : α) : β := L.runWithin (L.measure a + 1) a (Nat.lt_succ_self _)

theorem runWithin_irrelevant (n m : ℕ) (a : α) (hn : L.measure a < n) (hm : L.measure a < m) :
    L.runWithin n a hn = L.runWithin m a hm := by
  induction n generalizing m a with
  | zero => omega
  | succ n ih =>
      cases m with
      | zero => omega
      | succ m =>
          simp only [runWithin]
          split
          · exact ih m _ _ _
          · rfl

theorem run_of_continue {a a' : α} (h : L.step a = .inl a') : L.run a = L.run a' := by
  have hlt := L.decreases a a' h
  rw [run, runWithin]
  split
  · next a'' h'' =>
      obtain rfl : a' = a'' := Sum.inl.inj (h.symm.trans h'')
      exact L.runWithin_irrelevant _ _ a' _ _
  · next b h'' => rw [h] at h''; cases h''

theorem run_of_stop {a : α} {b : β} (h : L.step a = .inr b) : L.run a = b := by
  rw [run, runWithin]
  split
  · next a'' h'' => rw [h] at h''; cases h''
  · next b' h'' => exact (Sum.inr.inj (h.symm.trans h'')).symm

/-- The loop stops within as many steps as its measure allows. -/
theorem iterate_eq_run (n : ℕ) (a : α) (hn : L.measure a < n) :
    iterate L.step n a = .inr (L.run a) := by
  induction n generalizing a with
  | zero => omega
  | succ n ih =>
      simp only [iterate]
      split
      · next a' hs =>
          have hlt := L.decreases a a' hs
          rw [ih a' (by omega), L.run_of_continue hs]
      · next b hs => rw [L.run_of_stop hs]

/-- Induction along the loop: a state may assume the property of its successor. -/
theorem step_induction {P : α → Prop}
    (h : ∀ a, (∀ a', L.step a = .inl a' → P a') → P a) (a : α) : P a := by
  induction hm : L.measure a using Nat.strongRecOn generalizing a with
  | _ m ih =>
      apply h
      intro a' hs
      have hlt := L.decreases a a' hs
      exact ih (L.measure a') (by omega) a' rfl

/-- The invariant rule: what one step keeps holds when the loop stops. -/
theorem run_invariant {P : α → Prop} {Q : β → Prop}
    (hcont : ∀ a a', P a → L.step a = .inl a' → P a')
    (hstop : ∀ a b, P a → L.step a = .inr b → Q b) (a : α) : P a → Q (L.run a) := by
  induction a using L.step_induction with
  | _ a ih =>
      intro ha
      cases hs : L.step a with
      | inl a' =>
          rw [L.run_of_continue hs]
          exact ih a' hs (hcont a a' ha hs)
      | inr b =>
          rw [L.run_of_stop hs]
          exact hstop a b ha hs

/-- Loops whose steps go together through an embedding of the states stop together. -/
theorem run_embed {γ δ : Type*} (L' : Body γ δ) {e : α → γ} {g : β → δ}
    (h : ∀ a, L'.step (e a) = (L.step a).map e g) (a : α) : L'.run (e a) = g (L.run a) := by
  induction a using L.step_induction with
  | _ a ih =>
      have hstep := h a
      cases hs : L.step a with
      | inl a' =>
          rw [hs] at hstep
          rw [L.run_of_continue hs, L'.run_of_continue hstep]
          exact ih a' hs
      | inr b =>
          rw [hs] at hstep
          rw [L.run_of_stop hs, L'.run_of_stop hstep]

end Body
end SysvNt.BoundedLoop
