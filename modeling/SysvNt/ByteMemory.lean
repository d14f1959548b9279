import Mathlib.Algebra.Group.Nat.Defs
import Mathlib.Tactic.Common

/-!
# A memory of bytes and the words in it

Addresses wrap. A word is eight bytes, the low one first; a store of one leaves every word alone
whose bytes it does not touch.
-/

namespace SysvNt.ByteMemory

abbrev Word := BitVec 64

abbrev Memory := Word → BitVec 8

variable {m m' : Memory} {a b v : Word}

def byteAt (m : Memory) (a : Word) (k : ℕ) : ℕ := (m (a + BitVec.ofNat 64 k)).toNat

def load (m : Memory) (a : Word) : Word :=
  BitVec.ofNat 64 (byteAt m a 0 + 0x100 * byteAt m a 1 + 0x10000 * byteAt m a 2 +
    0x1000000 * byteAt m a 3 + 0x100000000 * byteAt m a 4 + 0x10000000000 * byteAt m a 5 +
    0x1000000000000 * byteAt m a 6 + 0x100000000000000 * byteAt m a 7)

def store (m : Memory) (a v : Word) : Memory := fun x =>
  if (x - a).toNat < 8 then v.extractLsb' (8 * (x - a).toNat) 8 else m x

def Apart (a b : Word) : Prop := 8 ≤ (a - b).toNat ∧ 8 ≤ (b - a).toNat

theorem load_congr (h : ∀ k < 8, m (a + BitVec.ofNat 64 k) = m' (a + BitVec.ofNat 64 k)) :
    load m a = load m' a := by
  have hbyte : ∀ k < 8, byteAt m a k = byteAt m' a k := fun k hk => congrArg BitVec.toNat (h k hk)
  rw [load, load, hbyte 0 (by omega), hbyte 1 (by omega), hbyte 2 (by omega), hbyte 3 (by omega),
    hbyte 4 (by omega), hbyte 5 (by omega), hbyte 6 (by omega), hbyte 7 (by omega)]

theorem toNat_add_sub (a : Word) {k : ℕ} (hk : k < 8) : (a + BitVec.ofNat 64 k - a).toNat = k := by
  have hsub : a + BitVec.ofNat 64 k - a = BitVec.ofNat 64 k := by
    rw [BitVec.add_comm, BitVec.add_sub_cancel]
  rw [hsub, BitVec.toNat_ofNat]
  omega

theorem byteAt_store (m : Memory) (a v : Word) {k : ℕ} (hk : k < 8) :
    byteAt (store m a v) a k = v.toNat / 2 ^ (8 * k) % 256 := by
  rw [byteAt, store, toNat_add_sub a hk, if_pos hk, BitVec.extractLsb'_toNat, Nat.shiftRight_eq_div_pow]

@[simp] theorem load_store_self (m : Memory) (a v : Word) : load (store m a v) a = v := by
  have hv := v.isLt
  rw [load, byteAt_store m a v (by omega : 0 < 8), byteAt_store m a v (by omega : 1 < 8),
    byteAt_store m a v (by omega : 2 < 8), byteAt_store m a v (by omega : 3 < 8),
    byteAt_store m a v (by omega : 4 < 8), byteAt_store m a v (by omega : 5 < 8),
    byteAt_store m a v (by omega : 6 < 8), byteAt_store m a v (by omega : 7 < 8)]
  apply BitVec.eq_of_toNat_eq
  rw [BitVec.toNat_ofNat]
  omega

theorem load_store_of_apart (m : Memory) (v : Word) (h : Apart a b) :
    load (store m b v) a = load m a := by
  apply load_congr
  intro k hk
  have hout : ¬ (a + BitVec.ofNat 64 k - b).toNat < 8 := by
    obtain ⟨h₁, h₂⟩ := h
    rw [BitVec.toNat_sub] at *
    bv_omega
  rw [store, if_neg hout]

/-- The addresses below a stack pointer that the pushed words come to. -/
def slot (sp : Word) (k : ℕ) : Word := sp - BitVec.ofNat 64 (8 * (k + 1))

theorem slot_succ (sp : Word) (k : ℕ) : slot sp (k + 1) = slot (sp - 8) k := by
  rw [slot, slot]
  bv_omega

def pushAll (m : Memory) (sp : Word) : List Word → Memory
  | [] => m
  | v :: vs => pushAll (store m (sp - 8) v) (sp - 8) vs

theorem load_pushAll_of_apart {vs : List Word} {sp : Word}
    (h : ∀ k < vs.length, Apart a (slot sp k)) : load (pushAll m sp vs) a = load m a := by
  induction vs generalizing m sp with
  | nil => rfl
  | cons v vs ih =>
      have hrest : ∀ k < vs.length, Apart a (slot (sp - 8) k) := by
        intro k hk
        rw [← slot_succ]
        exact h (k + 1) (by simpa using hk)
      rw [pushAll, ih hrest]
      exact load_store_of_apart m v (h 0 (by simp))

theorem apart_slot (sp : Word) {k : ℕ} (hk : k < 0x10000) : Apart sp (slot sp k) := by
  unfold Apart slot
  constructor <;> bv_omega

/-- A pushed word is where it was pushed to. -/
theorem load_pushAll {vs : List Word} {sp : Word} {i : ℕ} (hi : vs[i]? = some v)
    (hlen : vs.length ≤ 0x10000) : load (pushAll m sp vs) (slot sp i) = v := by
  induction vs generalizing m sp i with
  | nil => cases hi
  | cons u vs ih =>
      rw [List.length_cons] at hlen
      cases i with
      | zero =>
          cases hi
          have hapart : ∀ k < vs.length, Apart (slot sp 0) (slot (sp - 8) k) :=
            fun k hk => apart_slot (sp - 8) (by omega)
          rw [pushAll, load_pushAll_of_apart hapart]
          exact load_store_self m (sp - 8) v
      | succ i =>
          rw [slot_succ, pushAll]
          exact ih hi (by omega)

end SysvNt.ByteMemory
