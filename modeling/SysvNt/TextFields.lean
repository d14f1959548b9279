import Mathlib.Data.List.Basic

/-!
# Fields of a text

A text is split at a separator into the pieces that it ends, and a number is read as far as its digits
go. What was written as pieces, or as the digits of a number with zeros before them, is read back.
-/

namespace TextFields

variable {α : Type}

section Pieces

variable [DecidableEq α]

/-- The pieces that the separator ends, and what is left after the last one. -/
def pieces (sep : α) : List α → List (List α) × List α
  | [] => ([], [])
  | c :: cs =>
    if c = sep then ([] :: (pieces sep cs).1, (pieces sep cs).2)
    else match (pieces sep cs).1 with
      | [] => ([], c :: (pieces sep cs).2)
      | p :: ps => ((c :: p) :: ps, (pieces sep cs).2)

theorem pieces_ended {sep : α} {p : List α} (hp : sep ∉ p) (rest : List α) :
    pieces sep (p ++ sep :: rest) = (p :: (pieces sep rest).1, (pieces sep rest).2) := by
  induction p with
  | nil => simp [pieces]
  | cons c p ih =>
      have hc : c ≠ sep := fun h => hp (h ▸ List.mem_cons_self)
      have hrest : sep ∉ p := fun h => hp (List.mem_cons_of_mem c h)
      rw [List.cons_append, pieces, if_neg hc, ih hrest]

/-- Pieces that are written with a separator after each are read back. -/
theorem pieces_flatMap {sep : α} {ps : List (List α)} (hps : ∀ p ∈ ps, sep ∉ p) :
    pieces sep (ps.flatMap (· ++ [sep])) = (ps, []) := by
  induction ps with
  | nil => rfl
  | cons p ps ih =>
      have hrest := ih fun q hq => hps q (List.mem_cons_of_mem p hq)
      rw [List.flatMap_cons, List.append_assoc, List.singleton_append, pieces_ended (hps p List.mem_cons_self), hrest]

end Pieces

section Numerals

variable (value : α → Option ℕ) (base : ℕ)

def number : ℕ → List α → ℕ × List α
  | n, [] => (n, [])
  | n, c :: cs => match value c with
    | some d => number (base * n + d) cs
    | none => (n, c :: cs)

/-- The number that digits make after the digits of another. -/
def withDigits (n : ℕ) (ds : List α) : ℕ := ds.foldl (fun n c => base * n + (value c).getD 0) n

variable {value base}

theorem number_stop {rest : List α} (h : ∀ c ∈ rest.head?, value c = none) (n : ℕ) :
    number value base n rest = (n, rest) := by
  cases rest with
  | nil => rfl
  | cons c cs => rw [number, h c rfl]

theorem number_append {ds : List α} (hds : ∀ c ∈ ds, (value c).isSome) {rest : List α}
    (h : ∀ c ∈ rest.head?, value c = none) (n : ℕ) :
    number value base n (ds ++ rest) = (withDigits value base n ds, rest) := by
  induction ds generalizing n with
  | nil => exact number_stop h n
  | cons c ds ih =>
      obtain ⟨d, hd⟩ := Option.isSome_iff_exists.mp (hds c List.mem_cons_self)
      rw [List.cons_append, number, hd]
      dsimp only
      rw [ih fun e he => hds e (List.mem_cons_of_mem c he)]
      simp [withDigits, hd]

theorem withDigits_append (n : ℕ) (ds es : List α) :
    withDigits value base n (ds ++ es) = withDigits value base (withDigits value base n ds) es :=
  List.foldl_append

theorem withDigits_zeros {zero : α} (hzero : value zero = some 0) (k : ℕ) :
    withDigits value base 0 (List.replicate k zero) = 0 := by
  induction k with
  | zero => rfl
  | succ k ih =>
      rw [List.replicate_succ']
      rw [withDigits_append, ih]
      simp [withDigits, hzero]

/-- The digits of a number make that number. -/
theorem withDigits_toDigits (hbase : 1 < base) {digit : Char → α}
    (hdigit : ∀ d < base, value (digit d.digitChar) = some d) (n : ℕ) :
    withDigits value base 0 ((Nat.toDigits base n).map digit) = n := by
  induction n using Nat.strongRecOn with
  | ind n ih =>
      rw [Nat.toDigits_eq_if hbase]
      split_ifs with hn
      · simp [withDigits, hdigit n hn]
      · have hlow := hdigit (n % base) (Nat.mod_lt n (by omega))
        have hhigh := ih (n / base) (Nat.div_lt_self (by omega) hbase)
        rw [List.map_append, withDigits_append, hhigh]
        simp only [List.map_cons, List.map_nil, withDigits, List.foldl_cons, List.foldl_nil, hlow, Option.getD_some]
        exact Nat.div_add_mod n base

theorem isSome_toDigits (hbase : 1 < base) {digit : Char → α}
    (hdigit : ∀ d < base, value (digit d.digitChar) = some d) (n : ℕ) :
    ∀ c ∈ (Nat.toDigits base n).map digit, (value c).isSome := by
  induction n using Nat.strongRecOn with
  | ind n ih =>
      intro c hc
      rw [Nat.toDigits_eq_if hbase] at hc
      split_ifs at hc with hn
      · rw [List.map_cons, List.map_nil, List.mem_singleton] at hc
        rw [hc, hdigit n hn]
        rfl
      · rw [List.map_append, List.mem_append] at hc
        rcases hc with hc | hc
        · exact ih (n / base) (Nat.div_lt_self (by omega) hbase) c hc
        · rw [List.map_cons, List.map_nil, List.mem_singleton] at hc
          rw [hc, hdigit _ (Nat.mod_lt n (by omega))]
          rfl

end Numerals

end TextFields
