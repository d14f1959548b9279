import Mathlib.Tactic

/-!
# Signed words and exact arithmetic

A signed word of 64 bits holds an exact result when the result fits, and another integer, a
multiple of 2^64 away, when it does not. Division toward zero is division downwards when the
dividend is not negative or the divisor divides it.
-/

namespace SysvNt.SignedWords

def Fits (x : ℤ) : Prop := -2 ^ 63 ≤ x ∧ x < 2 ^ 63

instance (x : ℤ) : Decidable (Fits x) := inferInstanceAs (Decidable (_ ∧ _))

def wrapped (x : ℤ) : ℤ := x.bmod (2 ^ 64)

theorem wrapped_fits (x : ℤ) : Fits (wrapped x) := by
  have hle : -(2 ^ 64 / 2) ≤ x.bmod (2 ^ 64) := Int.le_bmod (by decide)
  have hlt : x.bmod (2 ^ 64) < (2 ^ 64 + 1) / 2 := Int.bmod_lt (by decide)
  rw [Fits, wrapped]
  omega

theorem wrapped_eq_iff {x : ℤ} : wrapped x = x ↔ Fits x := by
  constructor
  · intro h
    rw [← h]
    exact wrapped_fits x
  · rintro ⟨hle, hlt⟩
    exact Int.bmod_eq_of_le (by omega) (by omega)

/-- A result that does not fit is a multiple of 2^64 away from what the word holds. -/
theorem exists_wrapped (x : ℤ) : ∃ k, x = wrapped x + k * 2 ^ 64 := by
  obtain ⟨k, hk⟩ : ((2 ^ 64 : ℕ) : ℤ) ∣ x - x.bmod (2 ^ 64) := Int.dvd_self_sub_bmod
  refine ⟨k, ?_⟩
  have hw : ((2 ^ 64 : ℕ) : ℤ) = 2 ^ 64 := by norm_num
  rw [hw, mul_comm] at hk
  rw [wrapped, ← hk]
  ring

theorem fits_of_near {x : ℤ} (hle : wrapped x - 2 ^ 64 < x) (hlt : x < wrapped x + 2 ^ 64) :
    Fits x := by
  obtain ⟨k, hk⟩ := exists_wrapped x
  have hzero : k = 0 := by omega
  rw [hzero] at hk
  rw [← wrapped_eq_iff]
  omega

theorem wrapped_sub_mul (x y z : ℤ) : wrapped (wrapped (x - y) * z) = wrapped ((x - y) * z) :=
  Int.bmod_mul_bmod

theorem wrapped_mul_add (x y z : ℤ) : wrapped (wrapped (x * y) + z) = wrapped (x * y + z) :=
  Int.bmod_add_bmod

section Division

variable {x n : ℤ}

theorem tdiv_eq_ediv_iff (hn : 0 < n) : x.tdiv n = x / n ↔ 0 ≤ x ∨ n ∣ x := by
  rw [Int.tdiv_eq_ediv]
  split_ifs with h
  · exact iff_of_true (by omega) h
  · rw [Int.sign_eq_one_of_pos hn]
    exact iff_of_false (by omega) h

theorem ediv_le_tdiv (hn : 0 < n) : x / n ≤ x.tdiv n := by
  rw [Int.tdiv_eq_ediv]
  split_ifs with h
  · omega
  · rw [Int.sign_eq_one_of_pos hn]
    omega

theorem tdiv_le_ediv_add_one (hn : 0 < n) : x.tdiv n ≤ x / n + 1 := by
  rw [Int.tdiv_eq_ediv]
  split_ifs with h
  · omega
  · rw [Int.sign_eq_one_of_pos hn]

theorem tmod_nonneg_iff (hn : 0 < n) : 0 ≤ x.tmod n ↔ 0 ≤ x ∨ n ∣ x := by
  have hlt := Int.emod_lt_of_pos x hn
  have hge := Int.emod_nonneg x hn.ne'
  rw [Int.tmod_eq_emod]
  split_ifs with h
  · exact iff_of_true (by omega) h
  · rw [Int.natAbs_of_nonneg hn.le]
    exact iff_of_false (by omega) h

end Division

end SysvNt.SignedWords
