import SysvNt.ByteMemory
import Mathlib.Data.Set.Insert
import Mathlib.Order.SetNotation

/-!
# Virtual memory of the host

The host hands out reservations, whose bases it rounds down to 64 KiB, and commits pages in them.
`Documented` is what the documentation says of its five calls: a call that fails changes nothing, a
reservation is released whole, and pages are committed, protected and decommitted inside one
reservation. The flat host keeps its reservations in a list and refuses nothing else.
-/

namespace SysvNt.VirtualMemory

open ByteMemory

def PAGE : ℕ := 4096
def GRANULARITY : ℕ := 65536
def USER_END : ℕ := 2 ^ 47

inductive WinProt where
  | noaccess | readonly | readwrite | execute | executeRead | executeReadwrite
  deriving DecidableEq

structure Page where
  prot : WinProt
  bytes : Fin PAGE → UInt8

structure Region where
  base : ℕ
  len : ℕ
  deriving DecidableEq

def MeetsPage (p a n : ℕ) : Prop := p * PAGE < a + n ∧ a < (p + 1) * PAGE

instance (p a n : ℕ) : Decidable (MeetsPage p a n) := inferInstanceAs (Decidable (_ ∧ _))

namespace Region

variable (R : Region)

def Holds (a : ℕ) : Prop := R.base ≤ a ∧ a < R.base + R.len

def Has (a n : ℕ) : Prop := R.base ≤ a ∧ a + n ≤ R.base + R.len

instance (a n : ℕ) : Decidable (R.Has a n) := inferInstanceAs (Decidable (_ ∧ _))

def Apart (R' : Region) : Prop := R'.base + R'.len ≤ R.base ∨ R.base + R.len ≤ R'.base

instance (R' : Region) : Decidable (R.Apart R') := inferInstanceAs (Decidable (_ ∨ _))

end Region

theorem Region.Apart.not_holds {R R' : Region} (h : R.Apart R') {a : ℕ} (ha : R.Holds a) : ¬ R'.Holds a := by
  rw [Region.Apart] at h
  rw [Region.Holds] at ha ⊢
  omega

theorem Region.Has.holds {R : Region} {a n p : ℕ} (h : R.Has a n) (ha : PAGE ∣ a) (hp : MeetsPage p a n) :
    R.Holds (p * PAGE) := by
  obtain ⟨i, rfl⟩ := ha
  obtain ⟨hlt, hgt⟩ := hp
  have hle : i ≤ p := by
    rw [PAGE] at hgt
    omega
  have hmul : PAGE * i ≤ p * PAGE := by
    rw [Nat.mul_comm]
    exact Nat.mul_le_mul_right PAGE hle
  exact ⟨h.1.trans hmul, hlt.trans_le h.2⟩

/-- The calls on virtual memory, and what they show of it. A reservation is asked for with its pages
committed; `none` and `false` are failures. -/
structure Host (σ : Type) where
  regions : σ → Set Region
  page : σ → ℕ → Option Page
  reserve : Word → Word → σ → Option Word × σ
  commit : Word → Word → σ → Option Word × σ
  protect : Word → Word → WinProt → σ → Bool × σ
  release : Word → σ → Bool × σ
  decommit : Word → Word → σ → Bool × σ
  store : Word → List UInt8 → σ → σ

def pageUp (a : ℕ) : ℕ := (a + (PAGE - 1)) / PAGE * PAGE

/-- The reservation that is asked for at an address, or from the base that the host has chosen. -/
def asked (want len base : Word) : Region where
  base := if want = 0 then base.toNat else want.toNat / GRANULARITY * GRANULARITY
  len := pageUp ((if want = 0 then base.toNat else want.toNat) + len.toNat) -
    (if want = 0 then base.toNat else want.toNat / GRANULARITY * GRANULARITY)

def Page.zero : Page := ⟨.readwrite, fun _ => 0⟩

variable {σ : Type}

def Host.Same (H : Host σ) (x x' : σ) : Prop := H.regions x' = H.regions x ∧ H.page x' = H.page x

/-- The reservations and the pages outside the range are what they were. -/
def Host.SameBut (H : Host σ) (x x' : σ) (a n : ℕ) : Prop :=
  H.regions x' = H.regions x ∧ ∀ p, ¬ MeetsPage p a n → H.page x' p = H.page x p

/-- Reservations have a size, end in the user's part of the address space and do not overlap. -/
structure Orderly (Rs : Set Region) : Prop where
  sized : ∀ R ∈ Rs, 0 < R.len
  bounded : ∀ R ∈ Rs, R.base + R.len ≤ USER_END
  apart : ∀ R ∈ Rs, ∀ R' ∈ Rs, R ≠ R' → R.Apart R'

theorem Orderly.eq_of_holds {Rs : Set Region} (h : Orderly Rs) {R R' : Region} (hR : R ∈ Rs) (hR' : R' ∈ Rs) {a : ℕ}
    (ha : R.Holds a) (ha' : R'.Holds a) : R = R' := by
  by_contra hne
  exact (h.apart R hR R' hR' hne).not_holds ha ha'

theorem Orderly.insert {Rs : Set Region} (h : Orderly Rs) {R : Region} (hlen : 0 < R.len)
    (hend : R.base + R.len ≤ USER_END) (hfree : ∀ R' ∈ Rs, R.Apart R') : Orderly (insert R Rs) := by
  refine ⟨?_, ?_, ?_⟩
  · rintro R' (rfl | hR')
    · exact hlen
    · exact h.sized R' hR'
  · rintro R' (rfl | hR')
    · exact hend
    · exact h.bounded R' hR'
  · rintro R₁ (rfl | h₁) R₂ (rfl | h₂) hne
    · exact absurd rfl hne
    · exact hfree R₂ h₂
    · exact (hfree R₁ h₁).symm
    · exact h.apart R₁ h₁ R₂ h₂ hne

theorem Orderly.mono {Rs Rs' : Set Region} (h : Orderly Rs) (hsub : Rs' ⊆ Rs) : Orderly Rs' :=
  ⟨fun R hR => h.sized R (hsub hR), fun R hR => h.bounded R (hsub hR),
    fun R hR R' hR' => h.apart R (hsub hR) R' (hsub hR')⟩

structure Host.Documented (H : Host σ) : Prop where
  reserved : ∀ want len b x x', H.reserve want len x = (some b, x') → 0 < len.toNat →
    (asked want len b).base = b.toNat ∧ GRANULARITY ∣ b.toNat ∧ b.toNat + (asked want len b).len ≤ USER_END ∧
      (∀ R ∈ H.regions x, (asked want len b).Apart R) ∧ H.regions x' = insert (asked want len b) (H.regions x) ∧
      ∀ p, H.page x' p = if MeetsPage p b.toNat (asked want len b).len then some .zero else H.page x p
  unreserved : ∀ want len x x', H.reserve want len x = (none, x') → H.Same x x'
  committed : ∀ a n b x x', H.commit a n x = (some b, x') → 0 < n.toNat →
    b.toNat = a.toNat / PAGE * PAGE ∧ (∃ R ∈ H.regions x, R.Has a.toNat n.toNat) ∧
      H.SameBut x x' a.toNat n.toNat ∧ ∀ p, MeetsPage p a.toNat n.toNat → H.page x' p =
        some ⟨.readwrite, ((H.page x p).getD .zero).bytes⟩
  uncommitted : ∀ a n x x', H.commit a n x = (none, x') → H.Same x x'
  recommits : ∀ a n x R, R ∈ H.regions x → R.Has a.toNat n.toNat → 0 < n.toNat →
    (∀ p, MeetsPage p a.toNat n.toNat → (H.page x p).isSome) → (H.commit a n x).1.isSome
  protects : ∀ a n w x R, R ∈ H.regions x → R.Has a.toNat n.toNat → 0 < n.toNat →
    (∀ p, MeetsPage p a.toNat n.toNat → (H.page x p).isSome) → (H.protect a n w x).1 = true
  reprotected : ∀ a n w x x', H.protect a n w x = (true, x') → H.SameBut x x' a.toNat n.toNat ∧
    ∀ p, MeetsPage p a.toNat n.toNat → H.page x' p = (H.page x p).map fun pg => { pg with prot := w }
  releases : ∀ b x R, R ∈ H.regions x → R.base = b.toNat → (H.release b x).1 = true
  released : ∀ b x x', H.release b x = (true, x') → ∃ R ∈ H.regions x, R.base = b.toNat ∧
    H.regions x' = H.regions x \ {R} ∧ ∀ p, H.page x' p = if MeetsPage p R.base R.len then none else H.page x p
  decommits : ∀ a n x R, R ∈ H.regions x → R.Has a.toNat n.toNat → 0 < n.toNat → (H.decommit a n x).1 = true
  decommitted : ∀ a n x x', H.decommit a n x = (true, x') → 0 < n.toNat →
    (∃ R ∈ H.regions x, R.Has a.toNat n.toNat) ∧ H.SameBut x x' a.toNat n.toNat ∧
      ∀ p, MeetsPage p a.toNat n.toNat → H.page x' p = none
  decommitted_whole : ∀ a x x', H.decommit a 0 x = (true, x') → ∃ R ∈ H.regions x, R.base = a.toNat
  kept : ∀ a n x x', H.decommit a n x = (false, x') → H.Same x x'
  stored : ∀ a bs x, H.SameBut x (H.store a bs x) a.toNat bs.length ∧
    ∀ p, (H.page (H.store a bs x) p).map Page.prot = (H.page x p).map Page.prot

structure Flat where
  regions : List Region
  page : ℕ → Option Page

namespace Flat

def above (rs : List Region) : ℕ :=
  (rs.foldr (fun R n => R.base + R.len + n) 0 / GRANULARITY + 1) * GRANULARITY

def withPages (x : Flat) (a n : ℕ) (f : ℕ → Option Page → Option Page) : ℕ → Option Page := fun p =>
  if MeetsPage p a n then f p (x.page p) else x.page p

def reserveAt (base want len : Word) (x : Flat) : Option Word × Flat :=
  let R := asked want len base
  if R.base = base.toNat ∧ GRANULARITY ∣ base.toNat ∧ base.toNat + R.len ≤ USER_END ∧ ∀ R' ∈ x.regions, R.Apart R' then
    (some base, ⟨R :: x.regions, x.withPages base.toNat R.len fun _ _ => some .zero⟩)
  else (none, x)

def reserve (want len : Word) (x : Flat) : Option Word × Flat :=
  reserveAt (BitVec.ofNat 64 (if want = 0 then above x.regions else want.toNat / GRANULARITY * GRANULARITY)) want len x

def commit (a n : Word) (x : Flat) : Option Word × Flat :=
  if ∃ R ∈ x.regions, R.Has a.toNat n.toNat then
    (some (BitVec.ofNat 64 (a.toNat / PAGE * PAGE)),
      { x with page := x.withPages a.toNat n.toNat fun _ pg => some ⟨.readwrite, (pg.getD .zero).bytes⟩ })
  else (none, x)

def Committed (x : Flat) (a n : ℕ) : Prop :=
  ∀ k ∈ List.range (n / PAGE + 2), MeetsPage (a / PAGE + k) a n → (x.page (a / PAGE + k)).isSome = true

instance (x : Flat) (a n : ℕ) : Decidable (x.Committed a n) := inferInstanceAs (Decidable (∀ _ ∈ _, _))

def protect (a n : Word) (w : WinProt) (x : Flat) : Bool × Flat :=
  if (∃ R ∈ x.regions, R.Has a.toNat n.toNat) ∧ x.Committed a.toNat n.toNat then
    (true, { x with page := x.withPages a.toNat n.toNat fun _ pg => pg.map fun pg => { pg with prot := w } })
  else (false, x)

def release (b : Word) (x : Flat) : Bool × Flat :=
  match x.regions.find? fun R => R.base = b.toNat with
  | none => (false, x)
  | some R => (true, ⟨x.regions.filter (· ≠ R), x.withPages R.base R.len fun _ _ => none⟩)

def decommit (a n : Word) (x : Flat) : Bool × Flat :=
  match if n = 0 then x.regions.find? fun R => R.base = a.toNat
      else (x.regions.find? fun R => R.Has a.toNat n.toNat).map fun _ => ⟨a.toNat, n.toNat⟩ with
  | none => (false, x)
  | some R => (true, { x with page := x.withPages R.base R.len fun _ _ => none })

/-- The bytes of a page under those of a buffer at an address. -/
def laid (a : ℕ) (bs : List UInt8) (p : ℕ) (bytes : Fin PAGE → UInt8) (k : Fin PAGE) : UInt8 :=
  if a ≤ p * PAGE + k then bs.getD (p * PAGE + k - a) (bytes k) else bytes k

def store (a : Word) (bs : List UInt8) (x : Flat) : Flat :=
  { x with page := x.withPages a.toNat bs.length fun p pg =>
      pg.map fun pg => { pg with bytes := laid a.toNat bs p pg.bytes } }

end Flat

def flatHost : Host Flat where
  regions x := {R | R ∈ x.regions}
  page := Flat.page
  reserve := Flat.reserve
  commit := Flat.commit
  protect := Flat.protect
  release := Flat.release
  decommit := Flat.decommit
  store := Flat.store

section

variable {x : Flat} {a n p : ℕ} {f : ℕ → Option Page → Option Page}

theorem Flat.sameBut : flatHost.SameBut x { x with page := x.withPages a n f } a n :=
  ⟨rfl, fun _ hp => if_neg hp⟩

theorem Flat.touched (hp : MeetsPage p a n) :
    flatHost.page { x with page := x.withPages a n f } p = f p (flatHost.page x p) := if_pos hp

theorem Flat.committed_of (h : ∀ p, MeetsPage p a n → (x.page p).isSome = true) : x.Committed a n :=
  fun _ _ hk => h _ hk

end

theorem flatHost_documented : flatHost.Documented where
  reserved want len b x x' h hlen := by
    obtain ⟨base, h⟩ : ∃ base, Flat.reserveAt base want len x = (some b, x') := ⟨_, h⟩
    rw [Flat.reserveAt] at h
    split_ifs at h with hok
    · cases h
      obtain ⟨hbase, haligned, hend, hapart⟩ := hok
      refine ⟨hbase, haligned, hend, hapart, ?_, fun p => rfl⟩
      ext R
      exact List.mem_cons
    · cases h
  unreserved want len x x' h := by
    obtain ⟨base, h⟩ : ∃ base, Flat.reserveAt base want len x = (none, x') := ⟨_, h⟩
    rw [Flat.reserveAt] at h
    split_ifs at h
    · cases h
    · cases h
      exact ⟨rfl, rfl⟩
  committed a n b x x' h hn := by
    change Flat.commit a n x = _ at h
    rw [Flat.commit] at h
    split_ifs at h with hin
    · cases h
      refine ⟨?_, hin, Flat.sameBut, fun p hp => Flat.touched hp⟩
      rw [BitVec.toNat_ofNat, Nat.mod_eq_of_lt]
      exact (Nat.div_mul_le_self _ _).trans_lt a.isLt
    · cases h
  uncommitted a n x x' h := by
    change Flat.commit a n x = _ at h
    rw [Flat.commit] at h
    split_ifs at h
    · cases h
    · cases h
      exact ⟨rfl, rfl⟩
  recommits a n x R hR hhas _ _ := by
    change (Flat.commit a n x).1.isSome
    rw [Flat.commit, if_pos ⟨R, hR, hhas⟩]
    rfl
  protects a n w x R hR hhas _ hpages := by
    change (Flat.protect a n w x).1 = true
    rw [Flat.protect, if_pos ⟨⟨R, hR, hhas⟩, Flat.committed_of hpages⟩]
  reprotected a n w x x' h := by
    change Flat.protect a n w x = _ at h
    rw [Flat.protect] at h
    split_ifs at h
    · cases h
      exact ⟨Flat.sameBut, fun p hp => Flat.touched hp⟩
    · cases h
  releases b x R hR hbase := by
    change (Flat.release b x).1 = true
    rw [Flat.release]
    cases hfind : x.regions.find? fun R => R.base = b.toNat with
    | none => exact absurd (List.find?_eq_none.mp hfind R hR) (by simpa using hbase)
    | some R' => rfl
  released b x x' h := by
    change Flat.release b x = _ at h
    rw [Flat.release] at h
    cases hfind : x.regions.find? fun R => R.base = b.toNat with
    | none =>
        rw [hfind] at h
        cases h
    | some R =>
        rw [hfind] at h
        cases h
        refine ⟨R, List.mem_of_find?_eq_some hfind, by simpa using List.find?_some hfind, ?_, fun p => rfl⟩
        ext R'
        simp [flatHost, List.mem_filter]
  decommits a n x R hR hhas hn := by
    have hne : n ≠ 0 := by
      rintro rfl
      exact absurd hn (by decide)
    change (Flat.decommit a n x).1 = true
    rw [Flat.decommit, if_neg hne]
    cases hfind : x.regions.find? fun R => R.Has a.toNat n.toNat with
    | none => exact absurd (List.find?_eq_none.mp hfind R hR) (by simpa using hhas)
    | some R' => rfl
  decommitted a n x x' h hn := by
    have hne : n ≠ 0 := by
      rintro rfl
      exact absurd hn (by decide)
    change Flat.decommit a n x = _ at h
    rw [Flat.decommit, if_neg hne] at h
    cases hfind : x.regions.find? fun R => R.Has a.toNat n.toNat with
    | none =>
        rw [hfind] at h
        cases h
    | some R =>
        rw [hfind] at h
        cases h
        exact ⟨⟨R, List.mem_of_find?_eq_some hfind, by simpa using List.find?_some hfind⟩,
          Flat.sameBut, fun p hp => Flat.touched hp⟩
  decommitted_whole a x x' h := by
    change Flat.decommit a 0 x = _ at h
    rw [Flat.decommit, if_pos rfl] at h
    cases hfind : x.regions.find? fun R => R.base = a.toNat with
    | none =>
        rw [hfind] at h
        cases h
    | some R => exact ⟨R, List.mem_of_find?_eq_some hfind, by simpa using List.find?_some hfind⟩
  kept a n x x' h := by
    change Flat.decommit a n x = _ at h
    rw [Flat.decommit] at h
    cases hfind : (if n = 0 then x.regions.find? fun R => R.base = a.toNat
      else (x.regions.find? fun R => R.Has a.toNat n.toNat).map fun _ => (⟨a.toNat, n.toNat⟩ : Region)) with
    | none =>
        rw [hfind] at h
        cases h
        exact ⟨rfl, rfl⟩
    | some R =>
        rw [hfind] at h
        cases h
  stored a bs x := by
    refine ⟨Flat.sameBut, fun p => ?_⟩
    by_cases hp : MeetsPage p a.toNat bs.length
    · change (flatHost.page { x with page := x.withPages a.toNat bs.length _ } p).map Page.prot = _
      rw [Flat.touched hp, Option.map_map]
      rfl
    · exact congrArg (Option.map Page.prot) (Flat.sameBut.2 p hp)

end SysvNt.VirtualMemory
