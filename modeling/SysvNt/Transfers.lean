import Mathlib.Logic.Function.Basic
import Mathlib.Tactic.Common

/-!
# Transfers in pieces

A transfer goes over places of a memory one after the other, to or from a position of a file. It
is made in pieces, and it ends at the first piece that falls short or fails; a failure after some
items is reported as those items. A relation between states that goes well with this holds of the
whole as soon as it holds of each piece.
-/

namespace SysvNt.Transfers

variable {κ α ε σ : Type*}

/-- What the places hold, if all of them can be read. -/
def gather (mem : κ → Option α) : List κ → Option (List α)
  | [] => some []
  | p :: ps => (mem p).bind fun a => (gather mem ps).map fun b => a :: b

theorem gather_append (mem : κ → Option α) (ps qs : List κ) :
    gather mem (ps ++ qs) = (gather mem ps).bind fun b => (gather mem qs).map fun c => b ++ c := by
  induction ps with
  | nil => cases h : gather mem qs <;> simp [gather, h]
  | cons p ps ih =>
      rw [List.cons_append, gather, ih, gather]
      cases mem p with
      | none => rfl
      | some a =>
          cases gather mem ps with
          | none => rfl
          | some b => cases gather mem qs <;> rfl

theorem gather_append_eq_some_iff {mem : κ → Option α} {ps qs : List κ} {d : List α} :
    gather mem (ps ++ qs) = some d ↔
      ∃ b c, gather mem ps = some b ∧ gather mem qs = some c ∧ d = b ++ c := by
  rw [gather_append]
  cases gather mem ps with
  | none => simp
  | some b =>
      cases gather mem qs with
      | none => simp
      | some c => simp [eq_comm]

theorem gather_mono {mem mem' : κ → Option α} (hmem : ∀ p a, mem p = some a → mem' p = some a) {ps : List κ}
    {b : List α} (h : gather mem ps = some b) : gather mem' ps = some b := by
  induction ps generalizing b with
  | nil => exact h
  | cons p ps ih =>
      rw [gather, Option.bind_eq_some_iff] at h
      obtain ⟨a, ha, h⟩ := h
      obtain ⟨b', hb', rfl⟩ := Option.map_eq_some_iff.mp h
      rw [gather, hmem p a ha, ih hb']
      rfl

theorem gather_eq_none {mem : κ → Option α} {ps : List κ} {p : κ} (hp : p ∈ ps) (hnone : mem p = none) :
    gather mem ps = none := by
  induction ps with
  | nil => exact absurd hp List.not_mem_nil
  | cons q ps ih =>
      rw [gather]
      rcases List.mem_cons.mp hp with rfl | hp
      · rw [hnone]
        rfl
      · rw [ih hp]
        cases mem q <;> rfl

theorem length_gather {mem : κ → Option α} {ps : List κ} {b : List α} (h : gather mem ps = some b) :
    b.length = ps.length := by
  induction ps generalizing b with
  | nil =>
      cases h
      rfl
  | cons p ps ih =>
      obtain ⟨a, _, h⟩ := Option.bind_eq_some_iff.mp h
      obtain ⟨c, hc, rfl⟩ := Option.map_eq_some_iff.mp h
      rw [List.length_cons, List.length_cons, ih hc]

theorem gather_take {mem : κ → Option α} {ps : List κ} {b : List α} (h : gather mem ps = some b) (n : ℕ) :
    gather mem (ps.take n) = some (b.take n) := by
  have hlen := length_gather h
  rw [← List.take_append_drop n ps] at h
  obtain ⟨c, d, hc, _, rfl⟩ := gather_append_eq_some_iff.mp h
  have hclen := length_gather hc
  rw [List.length_take] at hclen
  rw [hc, List.take_append]
  by_cases hn : n ≤ ps.length
  · rw [List.take_of_length_le (by omega), Nat.sub_eq_zero_of_le (by omega), List.take_zero, List.append_nil]
  · have hd : d = [] := by
      rw [List.length_append] at hlen
      exact List.length_eq_zero_iff.mp (by omega)
    rw [hd, List.take_nil, List.append_nil, List.take_of_length_le (by omega)]

def scatter [DecidableEq κ] (mem : κ → Option α) : List κ → List α → κ → Option α
  | p :: ps, a :: b => scatter (Function.update mem p (some a)) ps b
  | _, _ => mem

theorem scatter_nil [DecidableEq κ] (mem : κ → Option α) (ps : List κ) : scatter mem ps [] = mem := by
  cases ps <;> rfl

theorem scatter_append [DecidableEq κ] (mem : κ → Option α) {ps : List κ} {b : List α}
    (h : b.length = ps.length) (qs : List κ) (c : List α) :
    scatter mem (ps ++ qs) (b ++ c) = scatter (scatter mem ps b) qs c := by
  induction ps generalizing mem b with
  | nil =>
      rw [List.length_eq_zero_iff.mp h]
      rfl
  | cons p ps ih =>
      cases b with
      | nil => cases h
      | cons a b => exact ih (Function.update mem p (some a)) (Nat.succ.inj h)

/-- Places that nothing is left for stay as they are. -/
theorem scatter_short [DecidableEq κ] (mem : κ → Option α) {ps : List κ} {b : List α}
    (h : b.length ≤ ps.length) (qs : List κ) : scatter mem (ps ++ qs) b = scatter mem ps b := by
  induction ps generalizing mem b with
  | nil =>
      rw [List.length_eq_zero_iff.mp (Nat.le_zero.mp h), scatter_nil, scatter_nil]
  | cons p ps ih =>
      cases b with
      | nil => rw [scatter_nil, scatter_nil]
      | cons a b => exact ih (Function.update mem p (some a)) (Nat.le_of_succ_le_succ h)

theorem scatter_of_not_mem [DecidableEq κ] {mem : κ → Option α} {p : κ} {ps : List κ} (h : p ∉ ps)
    (b : List α) : scatter mem ps b p = mem p := by
  induction ps generalizing mem b with
  | nil => rfl
  | cons q ps ih =>
      cases b with
      | nil => rfl
      | cons a b =>
          rw [List.mem_cons, not_or] at h
          rw [scatter, ih h.2, Function.update_of_ne h.1]

/-- What was put into different places is there. -/
theorem gather_scatter [DecidableEq κ] (mem : κ → Option α) {ps : List κ} {b : List α} (hps : ps.Nodup)
    (h : b.length = ps.length) : gather (scatter mem ps b) ps = some b := by
  induction ps generalizing mem b with
  | nil =>
      rw [List.length_eq_zero_iff.mp h]
      rfl
  | cons p ps ih =>
      cases b with
      | nil => cases h
      | cons a b =>
          obtain ⟨hp, hps⟩ := List.nodup_cons.mp hps
          rw [scatter, gather, scatter_of_not_mem hp, Function.update_self, ih _ hps (Nat.succ.inj h)]
          rfl

section Data

variable (fill : α)

/-- The items after some were written at a position; a gap before them is filled. -/
def writeAt (d : List α) (start : ℕ) (b : List α) : List α :=
  if b = [] then d else d.take start ++ List.replicate (start - d.length) fill ++ b ++ d.drop (start + b.length)

theorem writeAt_nil (d : List α) (start : ℕ) : writeAt fill d start [] = d := if_pos rfl

theorem writeAt_split (d e b : List α) : writeAt fill (d ++ e) d.length b = d ++ b ++ e.drop b.length := by
  by_cases hb : b = []
  · rw [hb, writeAt_nil, List.append_nil]
    rfl
  · have hgap : d.length - (d ++ e).length = 0 := by
      rw [List.length_append]
      omega
    have hdrop : (d ++ e).drop (d.length + b.length) = e.drop b.length := by
      rw [List.drop_append, List.drop_eq_nil_of_le (Nat.le_add_right _ _), Nat.add_sub_cancel_left]
      rfl
    rw [writeAt, if_neg hb, hgap, hdrop, List.take_left, List.replicate_zero, List.append_nil]

theorem writeAt_end (d b : List α) : writeAt fill d d.length b = d ++ b := by
  have hsplit := writeAt_split fill d [] b
  rwa [List.append_nil, List.drop_nil, List.append_nil] at hsplit

theorem length_writeAt (d : List α) (start : ℕ) {b : List α} (hb : b ≠ []) :
    (writeAt fill d start b).length = max d.length (start + b.length) := by
  rw [writeAt, if_neg hb]
  simp
  omega

theorem writeAt_append (d : List α) (start : ℕ) (b c : List α) :
    writeAt fill (writeAt fill d start b) (start + b.length) c = writeAt fill d start (b ++ c) := by
  by_cases hb : b = []
  · rw [hb, writeAt_nil, List.nil_append]
    rfl
  have hbc : b ++ c ≠ [] := by simp [hb]
  have hsplit := writeAt_split fill (d.take start ++ List.replicate (start - d.length) fill ++ b)
    (d.drop (start + b.length)) c
  have hhead : (d.take start ++ List.replicate (start - d.length) fill ++ b).length = start + b.length := by
    simp
    omega
  have hrest : (d.drop (start + b.length)).drop c.length = d.drop (start + (b ++ c).length) := by
    rw [List.drop_drop, List.length_append, Nat.add_assoc]
  rw [hhead, hrest] at hsplit
  rw [writeAt.eq_1 fill d start b, if_neg hb, hsplit, writeAt, if_neg hbc, List.append_assoc _ b c]

end Data

def after (n : ℕ) : Except ε ℕ → Except ε ℕ
  | .ok k => .ok (n + k)
  | .error e => if 0 < n then .ok n else .error e

theorem after_zero (r : Except ε ℕ) : after 0 r = r := by
  cases r with
  | error e => rfl
  | ok k => rw [after, Nat.zero_add]

theorem after_after (n k : ℕ) (r : Except ε ℕ) : after n (after k r) = after (n + k) r := by
  cases r with
  | ok j => rw [after, after, after, Nat.add_assoc]
  | error e =>
      by_cases hk : 0 < k
      · rw [after, if_pos hk, after, after, if_pos (by omega)]
      · have hzero : k = 0 := by omega
        rw [after, if_neg hk, hzero]
        rfl

theorem after_pos {n : ℕ} (h : 0 < n) (r : Except ε ℕ) : ∃ k, after n r = .ok k := by
  cases r with
  | ok k => exact ⟨n + k, rfl⟩
  | error e => exact ⟨n, if_pos h⟩

/-- A relation between the states around a transfer of some places, of which some were done before, that
a transfer made in pieces has if its pieces have it. -/
structure Piecewise (T : ℕ → σ → List κ → Except ε ℕ → σ → Prop) : Prop where
  done : ∀ i s, T i s [] (.ok 0) s
  onward : ∀ {i s t u ps qs r}, T i s ps (.ok ps.length) t → T (i + ps.length) t qs r u →
    T i s (ps ++ qs) (after ps.length r) u
  short : ∀ {i s t n ps} (qs), T i s ps (.ok n) t → n < ps.length → T i s (ps ++ qs) (.ok n) t
  failed : ∀ {i s t e ps} (qs), T i s ps (.error e) t → T i s (ps ++ qs) (.error e) t

end SysvNt.Transfers
