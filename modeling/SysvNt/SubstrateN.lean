import SysvNt.Abi
import SysvNt.VirtualMemory
import Mathlib.Data.List.Perm.Basic

/-!
# Address spaces of substrate N

Substrate N keeps a table of the reservations that `as_map` has made. A range that one entry covers is
committed again, any other range is reserved afresh; `as_unmap` releases an entry's whole range and
decommits any other. The reservation comes back rounded down to 64 KiB, and the host decommits inside
one reservation alone.
-/

namespace SysvNt.SubstrateN

open ByteMemory VirtualMemory

def SUB_PROT_READ : UInt32 := 1
def SUB_PROT_WRITE : UInt32 := 2
def SUB_PROT_EXEC : UInt32 := 4

def toWinProt (prot : UInt32) : WinProt :=
  if has prot SUB_PROT_EXEC then
    if has prot SUB_PROT_WRITE then .executeReadwrite
    else if has prot SUB_PROT_READ then .executeRead else .execute
  else if has prot SUB_PROT_WRITE then .readwrite
  else if has prot SUB_PROT_READ then .readonly
  else .noaccess

def N_MAX_MAPS : ℕ := 256
def SIZE_MAX : Word := 0xffffffffffffffff

structure NMap where
  base : Word
  len : Word
  reservation : Bool
  deriving DecidableEq

/-- The test of `map_covering`, whose sums wrap. -/
def NMap.covers (m : NMap) (addr len : Word) : Bool := m.base ≤ addr && addr + len ≤ m.base + m.len

/-- The first entry that covers a range, with its index. -/
def mapCovering (maps : List NMap) (addr len : Word) : Option (NMap × ℕ) :=
  maps.zipIdx.find? fun e => e.1.covers addr len

def mapAdd (maps : List NMap) (base len : Word) (reservation : Bool) : List NMap :=
  if N_MAX_MAPS ≤ maps.length then maps else maps ++ [⟨base, len, reservation⟩]

/-- The last entry takes the place of the one at the index. -/
def mapDrop (maps : List NMap) (i : ℕ) : List NMap :=
  match maps.getLast? with
  | none => []
  | some l => (maps.set i l).dropLast

def fileBytes (image : List UInt8) (offset len : Word) : List UInt8 :=
  (image.drop offset.toNat).take len.toNat

section Calls

variable {σ : Type} (H : Host σ)

def layDown (backing : Option (List UInt8)) (offset base len : Word) (x : σ) : σ :=
  match backing with
  | none => x
  | some image => if fileBytes image offset len = [] then x else H.store base (fileBytes image offset len) x

def nAsMap (want len : Word) (backing : Option (List UInt8)) (offset : Word) (prot : UInt32)
    (s : σ × List NMap) : Option Word × (σ × List NMap) :=
  if len = 0 ∨ SIZE_MAX >>> 1 < len then (none, s)
  else
    let covered := want ≠ 0 ∧ (mapCovering s.2 want len).isSome = true
    match if covered then H.commit want len s.1 else H.reserve want len s.1 with
    | (none, x) => (none, (x, s.2))
    | (some base, x) =>
      match H.protect base len (toWinProt prot) (layDown H backing offset base len x) with
      | (false, x) => (none, (if covered then x else (H.release base x).2, s.2))
      | (true, x) => (some base, (x, if covered then s.2 else mapAdd s.2 base len true))

def nAsUnmap (addr len : Word) (s : σ × List NMap) : Bool × (σ × List NMap) :=
  match (mapCovering s.2 addr len).filter fun e => e.1.reservation && e.1.base = addr && e.1.len = len with
  | some e => match H.release addr s.1 with
    | (false, x) => (false, (x, s.2))
    | (true, x) => (true, (x, mapDrop s.2 e.2))
  | none => match H.decommit addr len s.1 with
    | (false, x) => (false, (x, s.2))
    | (true, x) => (true, (x, s.2))

end Calls

structure Access where
  read : Bool
  write : Bool
  exec : Bool
  deriving DecidableEq

def access : WinProt → Access
  | .noaccess => ⟨false, false, false⟩
  | .readonly => ⟨true, false, false⟩
  | .readwrite => ⟨true, true, false⟩
  | .execute => ⟨false, false, true⟩
  | .executeRead => ⟨true, false, true⟩
  | .executeReadwrite => ⟨true, true, true⟩

/-- The access that a protection asks for: the machine lets read what it lets write. -/
def askedAccess (prot : UInt32) : Access :=
  ⟨has prot SUB_PROT_READ || has prot SUB_PROT_WRITE, has prot SUB_PROT_WRITE, has prot SUB_PROT_EXEC⟩

theorem access_toWinProt (prot : UInt32) : access (toWinProt prot) = askedAccess prot := by
  rw [toWinProt, askedAccess]
  cases has prot SUB_PROT_EXEC <;> cases has prot SUB_PROT_WRITE <;> cases has prot SUB_PROT_READ <;> rfl

def pagesFrom (a n : ℕ) : Set ℕ := {p | MeetsPage p a n}

structure PageRange where
  addr : Word
  len : Word
  addr_aligned : PAGE ∣ addr.toNat
  len_aligned : PAGE ∣ len.toNat

def PageRange.pages (r : PageRange) : Set ℕ := pagesFrom r.addr.toNat r.len.toNat

inductive Call where
  | map (r : PageRange) (backing : Option (List UInt8)) (offset : Word) (prot : UInt32)
  | unmap (r : PageRange)

/-- The host, the table, and the pages that calls have realised and not dropped. -/
structure Space (σ : Type) where
  host : σ
  maps : List NMap
  realised : Set ℕ

def Space.Realised {σ : Type} (s : Space σ) (r : PageRange) : Prop := r.len ≠ 0 ∧ r.pages ⊆ s.realised

section Runs

variable {σ : Type} (H : Host σ)

def next (s : Space σ) : Call → Space σ
  | .map r backing offset prot => match nAsMap H r.addr r.len backing offset prot (s.host, s.maps) with
    | (none, t) => ⟨t.1, t.2, s.realised⟩
    | (some base, t) => ⟨t.1, t.2, s.realised ∪ pagesFrom base.toNat r.len.toNat⟩
  | .unmap r => match nAsUnmap H r.addr r.len (s.host, s.maps) with
    | (false, t) => ⟨t.1, t.2, s.realised⟩
    | (true, t) => ⟨t.1, t.2, s.realised \ r.pages⟩

/-- What a call promises of a space: what it realises is where it was asked for and as accessible as asked
for, what it drops faults and nothing else changes, and a call that fails changes nothing and is not on a
realised range. -/
def Right (s : Space σ) : Call → Prop
  | .map r backing offset prot => match nAsMap H r.addr r.len backing offset prot (s.host, s.maps) with
    | (none, t) => (H.Same s.host t.1 ∧ t.2 = s.maps) ∧ ¬ (r.addr ≠ 0 ∧ s.Realised r)
    | (some base, t) => (r.addr ≠ 0 → base = r.addr) ∧
        ∀ p ∈ pagesFrom base.toNat r.len.toNat, ∃ pg, H.page t.1 p = some pg ∧ access pg.prot = askedAccess prot
  | .unmap r => match nAsUnmap H r.addr r.len (s.host, s.maps) with
    | (false, t) => (H.Same s.host t.1 ∧ t.2 = s.maps) ∧ ¬ s.Realised r
    | (true, t) => (∀ p ∈ r.pages, H.page t.1 p = none) ∧ ∀ p ∉ r.pages, H.page t.1 p = H.page s.host p

def Taken (x : σ) (want len : Word) : Prop := ∃ R ∈ H.regions x, ¬ (asked want len 0).Apart R

/-- A range to realise is in one entry of the table; or else it is not realised yet, and its base is a
multiple of 64 KiB, or left to the host, or the reservation is taken. A range to drop is in one reservation
if it is realised, and has a page unless no reservation begins there. -/
def Fits (s : Space σ) : Call → Prop
  | .map r _ _ _ => (r.addr ≠ 0 ∧ (mapCovering s.maps r.addr r.len).isSome = true) ∨
      (r.addr = 0 ∨ GRANULARITY ∣ r.addr.toNat ∨ Taken H s.host r.addr r.len) ∧ ¬ (r.addr ≠ 0 ∧ s.Realised r)
  | .unmap r => (s.Realised r → ∃ R ∈ H.regions s.host, R.Has r.addr.toNat r.len.toNat) ∧
      (r.len = 0 → ∀ R ∈ H.regions s.host, R.base ≠ r.addr.toNat)

/-- Every call of a run is made in a space where it is as the property says. -/
def Along (P : Space σ → Call → Prop) : Space σ → List Call → Prop
  | _, [] => True
  | s, c :: cs => P s c ∧ Along P (next H s c) cs

end Runs

def NMap.region (m : NMap) : Region := ⟨m.base.toNat, m.len.toNat⟩

/-- The entries are reservations of the host, each of its own, and the realised pages are there. -/
structure Sound {σ : Type} (H : Host σ) (s : Space σ) : Prop where
  orderly : Orderly (H.regions s.host)
  seated : ∀ m ∈ s.maps, m.region ∈ H.regions s.host ∧ PAGE ∣ m.base.toNat ∧ PAGE ∣ m.len.toNat
  distinct : (s.maps.map NMap.region).Nodup
  backed : ∀ p ∈ s.realised, (∃ R ∈ H.regions s.host, R.Holds (p * PAGE)) ∧ (H.page s.host p).isSome = true

section Table

variable {maps : List NMap} {m : NMap} {addr len : Word} {i : ℕ}

theorem mapCovering_some (h : mapCovering maps addr len = some (m, i)) :
    maps[i]? = some m ∧ m.covers addr len = true :=
  ⟨List.mem_zipIdx_iff_getElem?.mp (List.mem_of_find?_eq_some h), by simpa using List.find?_some h⟩

theorem NMap.covers_has (hm : m.base.toNat + m.len.toNat ≤ USER_END) (hr : addr.toNat + len.toNat ≤ USER_END) :
    m.covers addr len = true ↔ m.region.Has addr.toNat len.toNat := by
  rw [USER_END] at hm hr
  rw [NMap.covers, Bool.and_eq_true, decide_eq_true_eq, decide_eq_true_eq, BitVec.le_def, BitVec.le_def,
    BitVec.toNat_add, BitVec.toNat_add, Nat.mod_eq_of_lt (by omega), Nat.mod_eq_of_lt (by omega)]
  rfl

theorem mapDrop_perm (h : maps[i]? = some m) : (m :: mapDrop maps i).Perm maps := by
  obtain ⟨hi, hm⟩ := List.getElem?_eq_some_iff.mp h
  have hne : maps ≠ [] := List.ne_nil_of_length_pos (Nat.zero_lt_of_lt hi)
  obtain ⟨init, l, rfl⟩ : ∃ init l, maps = init ++ [l] := ⟨_, _, (List.dropLast_append_getLast hne).symm⟩
  rw [mapDrop, List.getLast?_concat]
  dsimp only
  rcases Nat.lt_or_ge i init.length with hlt | hge
  · rw [List.set_append_left i l hlt, List.dropLast_concat]
    rw [List.getElem_append_left hlt] at hm
    have hset := (List.set_perm_cons_eraseIdx hlt l).cons m
    have hback := (List.getElem_cons_eraseIdx_perm hlt).cons l
    rw [hm] at hback
    exact hset.trans ((List.Perm.swap l m _).trans (hback.trans (List.perm_append_singleton l init).symm))
  · have hlast : i = init.length := by
      rw [List.length_append, List.length_singleton] at hi
      omega
    subst hlast
    have hml : l = m := by simpa using hm
    rw [hml]
    simpa using (List.perm_append_singleton m init).symm

end Table

section Steps

variable {σ : Type} {H : Host σ} (hH : H.Documented) {s : Space σ} (hs : Sound H s) {r : PageRange}

include hs in
theorem Sound.realised_end (h : s.Realised r) : r.addr.toNat + r.len.toNat ≤ USER_END := by
  obtain ⟨hne, hsub⟩ := h
  obtain ⟨i, hi⟩ := r.addr_aligned
  obtain ⟨j, hj⟩ := r.len_aligned
  have hpos : 0 < r.len.toNat := Nat.pos_of_ne_zero fun h => hne (BitVec.eq_of_toNat_eq h)
  have hlast : i + j - 1 ∈ s.realised := by
    apply hsub
    change MeetsPage (i + j - 1) r.addr.toNat r.len.toNat
    rw [MeetsPage, hi, hj, PAGE]
    rw [hj, PAGE] at hpos
    omega
  obtain ⟨⟨R, hR, hholds⟩, -⟩ := hs.backed _ hlast
  have hend := hs.orderly.bounded R hR
  obtain ⟨-, hlt⟩ := hholds
  rw [hi, hj]
  rw [hj] at hpos
  simp only [PAGE, USER_END] at hlt hend hpos ⊢
  omega

include hs in
/-- A realised range is in the reservation of an entry that covers it. -/
theorem Sound.covered_has (h : s.Realised r) {m : NMap} {i : ℕ}
    (hm : mapCovering s.maps r.addr r.len = some (m, i)) : m.region.Has r.addr.toNat r.len.toNat := by
  obtain ⟨hmem, hcovers⟩ := mapCovering_some hm
  obtain ⟨hregion, -⟩ := hs.seated m (List.mem_of_getElem? hmem)
  exact (NMap.covers_has (hs.orderly.bounded _ hregion) (hs.realised_end h)).mp hcovers

include hH in
/-- Committed pages of one reservation take the backing and the protection. -/
theorem protect_laid {x : σ} {a n : Word} {R : Region} (hR : R ∈ H.regions x) (hhas : R.Has a.toNat n.toNat)
    (hn : 0 < n.toNat) (hpages : ∀ p, MeetsPage p a.toNat n.toNat → (H.page x p).isSome = true)
    (backing : Option (List UInt8)) (offset : Word) (w : WinProt) :
    ∃ t, H.protect a n w (layDown H backing offset a n x) = (true, t) ∧ H.SameBut x t a.toNat n.toNat ∧
      ∀ p, MeetsPage p a.toNat n.toNat → ∃ pg, H.page t p = some pg ∧ pg.prot = w := by
  have hlaid : H.SameBut x (layDown H backing offset a n x) a.toNat n.toNat ∧
      ∀ p, (H.page (layDown H backing offset a n x) p).map Page.prot = (H.page x p).map Page.prot := by
    cases backing with
    | none => exact ⟨⟨rfl, fun _ _ => rfl⟩, fun _ => rfl⟩
    | some image =>
        rw [layDown]
        split_ifs with hnil
        · exact ⟨⟨rfl, fun _ _ => rfl⟩, fun _ => rfl⟩
        · obtain ⟨⟨hregions, hothers⟩, hprot⟩ := hH.stored a (fileBytes image offset n) x
          refine ⟨⟨hregions, fun p hp => hothers p fun ht => hp ?_⟩, hprot⟩
          have hlen : (fileBytes image offset n).length ≤ n.toNat := List.length_take_le _ _
          exact ⟨by have := ht.1; omega, ht.2⟩
  obtain ⟨⟨hregions, hothers⟩, hprot⟩ := hlaid
  have hcommitted : ∀ p, MeetsPage p a.toNat n.toNat → (H.page (layDown H backing offset a n x) p).isSome = true := by
    intro p hp
    have hsome := congrArg Option.isSome (hprot p)
    rw [Option.isSome_map, Option.isSome_map, hpages p hp] at hsome
    exact hsome
  rw [← hregions] at hR
  have hok := hH.protects a n w _ R hR hhas hn hcommitted
  refine ⟨(H.protect a n w (layDown H backing offset a n x)).2, Prod.ext hok rfl, ?_⟩
  obtain ⟨⟨hregions', hothers'⟩, hset⟩ := hH.reprotected a n w _ _ (Prod.ext hok rfl)
  refine ⟨⟨hregions'.trans hregions, fun p hp => (hothers' p hp).trans (hothers p hp)⟩, fun p hp => ?_⟩
  obtain ⟨pg, hpg⟩ := Option.isSome_iff_exists.mp (hcommitted p hp)
  exact ⟨{ pg with prot := w }, by rw [hset p hp, hpg]; rfl, rfl⟩

/-- How a call of `as_map` ends: refused, in a reservation that there was, or in a new one. -/
inductive MapEnd (H : Host σ) (s : Space σ) (r : PageRange) (prot : UInt32) : Option Word × (σ × List NMap) → Prop
  | refused {x : σ} (same : H.Same s.host x) (new : ¬ (r.addr ≠ 0 ∧ s.Realised r)) : MapEnd H s r prot (none, (x, s.maps))
  | again {x : σ} {R : Region} (mem : R ∈ H.regions s.host) (has : R.Has r.addr.toNat r.len.toNat)
      (same : H.SameBut s.host x r.addr.toNat r.len.toNat)
      (set : ∀ p, MeetsPage p r.addr.toNat r.len.toNat → ∃ pg, H.page x p = some pg ∧ pg.prot = toWinProt prot) :
      MapEnd H s r prot (some r.addr, (x, s.maps))
  | fresh {x : σ} {base : Word} (place : r.addr ≠ 0 → base = r.addr) (aligned : GRANULARITY ∣ base.toNat)
      (sized : 0 < r.len.toNat) (bounded : base.toNat + r.len.toNat ≤ USER_END)
      (apart : ∀ R ∈ H.regions s.host, (⟨base.toNat, r.len.toNat⟩ : Region).Apart R)
      (regions : H.regions x = insert ⟨base.toNat, r.len.toNat⟩ (H.regions s.host))
      (others : ∀ p, ¬ MeetsPage p base.toNat r.len.toNat → H.page x p = H.page s.host p)
      (set : ∀ p, MeetsPage p base.toNat r.len.toNat → ∃ pg, H.page x p = some pg ∧ pg.prot = toWinProt prot) :
      MapEnd H s r prot (some base, (x, mapAdd s.maps base r.len true))

theorem pageUp_of_dvd {a : ℕ} (h : PAGE ∣ a) : pageUp a = a := by
  obtain ⟨i, rfl⟩ := h
  simp only [pageUp, PAGE]
  omega

theorem asked_eq {want base : Word} (hwant : want = 0 ∨ want = base) (hbase : GRANULARITY ∣ base.toNat) {len : Word}
    (hlen : PAGE ∣ len.toNat) : asked want len base = ⟨base.toNat, len.toNat⟩ := by
  have hpage : PAGE ∣ base.toNat := Nat.dvd_trans (by decide) hbase
  have hstart : (if want = 0 then base.toNat else want.toNat) = base.toNat := by
    rcases hwant with rfl | rfl
    · exact if_pos rfl
    · split_ifs <;> rfl
  have hround : (if want = 0 then base.toNat else want.toNat / GRANULARITY * GRANULARITY) = base.toNat := by
    rcases hwant with rfl | rfl
    · exact if_pos rfl
    · rw [Nat.div_mul_cancel hbase]
      split_ifs <;> rfl
  rw [asked, hstart, hround, pageUp_of_dvd (Nat.dvd_add hpage hlen), Nat.add_sub_cancel_left]

include hH

/-- Where the reservation comes back that a fit call asks for. -/
theorem reserved_place (hlen : 0 < r.len.toNat)
    (hfits : r.addr = 0 ∨ GRANULARITY ∣ r.addr.toNat ∨ Taken H s.host r.addr r.len) {x : σ} {base : Word}
    (hreserve : H.reserve r.addr r.len s.host = (some base, x)) : r.addr = 0 ∨ r.addr = base := by
  obtain ⟨hbase, -, -, hapart, -, -⟩ := hH.reserved _ _ _ _ _ hreserve hlen
  by_cases hzero : r.addr = 0
  · exact .inl hzero
  right
  have hround : r.addr.toNat / GRANULARITY * GRANULARITY = base.toNat := by
    rw [← hbase, asked]
    exact (if_neg hzero).symm
  rcases hfits with h | h | ⟨R, hR, hmeets⟩
  · exact absurd h hzero
  · apply BitVec.eq_of_toNat_eq
    rw [← hround, Nat.div_mul_cancel h]
  · have hsame : asked r.addr r.len 0 = asked r.addr r.len base := by
      simp only [asked, if_neg hzero]
    exact absurd (hsame ▸ hapart R hR) hmeets

include hs

/-- A range that an entry covers is committed in its reservation. -/
theorem commit_end (hlen : 0 < r.len.toNat) (hcov : r.addr ≠ 0 ∧ (mapCovering s.maps r.addr r.len).isSome = true)
    (backing : Option (List UInt8)) (offset : Word) (prot : UInt32) :
    MapEnd H s r prot (match H.commit r.addr r.len s.host with
      | (none, x) => (none, (x, s.maps))
      | (some base, x) =>
        match H.protect base r.len (toWinProt prot) (layDown H backing offset base r.len x) with
        | (false, x) => (none, (x, s.maps))
        | (true, x) => (some base, (x, s.maps))) := by
  obtain ⟨⟨m, i⟩, hm⟩ := Option.isSome_iff_exists.mp hcov.2
  cases hcommit : H.commit r.addr r.len s.host with
  | mk b x =>
      cases b with
      | none =>
          refine .refused (hH.uncommitted _ _ _ _ hcommit) fun hreal => ?_
          obtain ⟨hregion, -⟩ := hs.seated m (List.mem_of_getElem? (mapCovering_some hm).1)
          have hpages : ∀ p, MeetsPage p r.addr.toNat r.len.toNat → (H.page s.host p).isSome = true :=
            fun p hp => (hs.backed p (hreal.2.2 hp)).2
          have hok := hH.recommits _ _ _ _ hregion (hs.covered_has hreal.2 hm) hlen hpages
          rw [hcommit] at hok
          cases hok
      | some base =>
          obtain ⟨hbase, ⟨R, hR, hhas⟩, ⟨hregions, hothers⟩, hset⟩ := hH.committed _ _ _ _ _ hcommit hlen
          obtain rfl : base = r.addr := by
            apply BitVec.eq_of_toNat_eq
            rw [hbase, Nat.div_mul_cancel r.addr_aligned]
          have hpages : ∀ p, MeetsPage p r.addr.toNat r.len.toNat → (H.page x p).isSome = true := by
            intro p hp
            rw [hset p hp]
            rfl
          obtain ⟨t, hprotect, ⟨hregions', hothers'⟩, hset'⟩ :=
            protect_laid hH (hregions ▸ hR) hhas hlen hpages backing offset (toWinProt prot)
          dsimp only
          rw [hprotect]
          exact .again hR hhas ⟨hregions'.trans hregions, fun p hp => (hothers' p hp).trans (hothers p hp)⟩ hset'

omit hs in
/-- Any other range is reserved afresh. -/
theorem reserve_end (hlen : 0 < r.len.toNat)
    (hfits : (r.addr = 0 ∨ GRANULARITY ∣ r.addr.toNat ∨ Taken H s.host r.addr r.len) ∧ ¬ (r.addr ≠ 0 ∧ s.Realised r))
    (backing : Option (List UInt8)) (offset : Word) (prot : UInt32) :
    MapEnd H s r prot (match H.reserve r.addr r.len s.host with
      | (none, x) => (none, (x, s.maps))
      | (some base, x) =>
        match H.protect base r.len (toWinProt prot) (layDown H backing offset base r.len x) with
        | (false, x) => (none, ((H.release base x).2, s.maps))
        | (true, x) => (some base, (x, mapAdd s.maps base r.len true))) := by
  cases hreserve : H.reserve r.addr r.len s.host with
  | mk b x =>
      cases b with
      | none => exact .refused (hH.unreserved _ _ _ _ hreserve) hfits.2
      | some base =>
          obtain ⟨-, haligned, hend, hapart, hregions, hpage⟩ := hH.reserved _ _ _ _ _ hreserve hlen
          have hplace := reserved_place hH hlen hfits.1 hreserve
          rw [asked_eq hplace haligned r.len_aligned] at hend hapart hregions hpage
          have hR : (⟨base.toNat, r.len.toNat⟩ : Region) ∈ H.regions x := hregions ▸ Set.mem_insert _ _
          have hpages : ∀ p, MeetsPage p base.toNat r.len.toNat → (H.page x p).isSome = true := by
            intro p hp
            rw [hpage p, if_pos hp]
            rfl
          obtain ⟨t, hprotect, ⟨hregions', hothers'⟩, hset'⟩ :=
            protect_laid hH hR ⟨le_rfl, le_rfl⟩ hlen hpages backing offset (toWinProt prot)
          dsimp only
          rw [hprotect]
          refine .fresh (fun hne => (hplace.resolve_left hne).symm) haligned hlen hend hapart
            (hregions'.trans hregions) (fun p hp => ?_) hset'
          rw [hothers' p hp, hpage p, if_neg hp]

theorem nAsMap_end {backing : Option (List UInt8)} {offset : Word} {prot : UInt32}
    (hfits : Fits H s (.map r backing offset prot)) :
    MapEnd H s r prot (nAsMap H r.addr r.len backing offset prot (s.host, s.maps)) := by
  rw [nAsMap]
  split_ifs with hlen
  · refine .refused ⟨rfl, rfl⟩ fun h => ?_
    rcases hlen with hzero | hlong
    · exact h.2.1 hzero
    · have hend := hs.realised_end h.2
      rw [USER_END] at hend
      have hlt : (SIZE_MAX >>> 1).toNat < r.len.toNat := hlong
      have hval : (SIZE_MAX >>> 1).toNat = 0x7fffffffffffffff := by decide
      omega
  · have hpos : 0 < r.len.toNat := Nat.pos_of_ne_zero fun h => hlen (.inl (BitVec.eq_of_toNat_eq h))
    by_cases hcov : r.addr ≠ 0 ∧ (mapCovering s.maps r.addr r.len).isSome = true
    · simp only [if_pos hcov]
      exact commit_end hH hs hpos hcov backing offset prot
    · simp only [if_neg hcov]
      exact reserve_end hH hpos (hfits.resolve_left hcov) backing offset prot

omit hH hs in
theorem MapEnd.right {prot : UInt32} {backing : Option (List UInt8)} {offset : Word}
    (h : MapEnd H s r prot (nAsMap H r.addr r.len backing offset prot (s.host, s.maps))) :
    Right H s (.map r backing offset prot) := by
  rw [Right]
  generalize nAsMap H r.addr r.len backing offset prot (s.host, s.maps) = e at h ⊢
  have haccess : ∀ {x : σ} {p : ℕ}, (∃ pg, H.page x p = some pg ∧ pg.prot = toWinProt prot) →
      ∃ pg, H.page x p = some pg ∧ access pg.prot = askedAccess prot := by
    rintro x p ⟨pg, hpg, hprot⟩
    exact ⟨pg, hpg, hprot ▸ access_toWinProt prot⟩
  cases h with
  | refused same new => exact ⟨⟨same, rfl⟩, new⟩
  | again mem has same set => exact ⟨fun _ => rfl, fun p hp => haccess (set p hp)⟩
  | fresh place aligned sized bounded apart regions others set => exact ⟨place, fun p hp => haccess (set p hp)⟩

include hs in
omit hH in
theorem MapEnd.sound {prot : UInt32} {backing : Option (List UInt8)} {offset : Word}
    (h : MapEnd H s r prot (nAsMap H r.addr r.len backing offset prot (s.host, s.maps))) :
    Sound H (next H s (.map r backing offset prot)) := by
  rw [next]
  generalize nAsMap H r.addr r.len backing offset prot (s.host, s.maps) = e at h ⊢
  cases h with
  | refused same new =>
      obtain ⟨hregions, hpage⟩ := same
      exact ⟨hregions ▸ hs.orderly, hregions ▸ hs.seated, hs.distinct, by rw [hregions, hpage]; exact hs.backed⟩
  | @again x R mem has same set =>
      obtain ⟨hregions, hothers⟩ := same
      refine ⟨hregions ▸ hs.orderly, hregions ▸ hs.seated, hs.distinct, fun p hp => ?_⟩
      dsimp only
      rw [hregions]
      by_cases ht : MeetsPage p r.addr.toNat r.len.toNat
      · obtain ⟨pg, hpg, -⟩ := set p ht
        exact ⟨⟨R, mem, has.holds r.addr_aligned ht⟩, by rw [hpg]; rfl⟩
      · rw [hothers p ht]
        exact hs.backed p (hp.resolve_right ht)
  | @fresh x base place aligned sized bounded apart regions others set =>
      have hpage : PAGE ∣ base.toNat := Nat.dvd_trans (by decide) aligned
      have hnew : ∀ m ∈ s.maps, m.region ≠ ⟨base.toNat, r.len.toNat⟩ := by
        intro m hm he
        have hmeets := apart _ (hs.seated m hm).1
        rw [he] at hmeets
        simp only [Region.Apart] at hmeets
        omega
      refine ⟨?_, ?_, ?_, fun p hp => ?_⟩
      · dsimp only
        rw [regions]
        exact hs.orderly.insert sized bounded apart
      · intro m hm
        dsimp only at hm ⊢
        rw [regions]
        rw [mapAdd] at hm
        have hold : m ∈ s.maps → m.region ∈ insert (⟨base.toNat, r.len.toNat⟩ : Region) (H.regions s.host) ∧
            PAGE ∣ m.base.toNat ∧ PAGE ∣ m.len.toNat := fun hm =>
          ⟨Set.mem_insert_of_mem _ (hs.seated m hm).1, (hs.seated m hm).2⟩
        split_ifs at hm
        · exact hold hm
        · rcases List.mem_append.mp hm with hm | hm
          · exact hold hm
          · rw [List.mem_singleton.mp hm]
            exact ⟨Set.mem_insert _ _, hpage, r.len_aligned⟩
      · dsimp only
        rw [mapAdd]
        split_ifs
        · exact hs.distinct
        · rw [List.map_append, List.nodup_append]
          refine ⟨hs.distinct, by simp, fun a ha b hb => ?_⟩
          obtain ⟨m, hm, rfl⟩ := List.mem_map.mp ha
          rw [List.mem_singleton.mp hb]
          exact hnew m hm
      · dsimp only
        rw [regions]
        by_cases ht : MeetsPage p base.toNat r.len.toNat
        · obtain ⟨pg, hpg, -⟩ := set p ht
          have hhas : (⟨base.toNat, r.len.toNat⟩ : Region).Has base.toNat r.len.toNat := ⟨le_rfl, le_rfl⟩
          exact ⟨⟨_, Set.mem_insert _ _, hhas.holds hpage ht⟩, by rw [hpg]; rfl⟩
        · rw [others p ht]
          obtain ⟨⟨R, hR, hholds⟩, hsome⟩ := hs.backed p (hp.resolve_right ht)
          exact ⟨⟨R, Set.mem_insert_of_mem _ hR, hholds⟩, hsome⟩

/-- How a call of `as_unmap` ends: refused, with a reservation released, or with pages of one decommitted. -/
inductive UnmapEnd (H : Host σ) (s : Space σ) (r : PageRange) : Bool × (σ × List NMap) → Prop
  | refused {x : σ} (same : H.Same s.host x) (new : ¬ s.Realised r) : UnmapEnd H s r (false, (x, s.maps))
  | released {x : σ} {m : NMap} {i : ℕ} (entry : s.maps[i]? = some m) (whole : m.base = r.addr ∧ m.len = r.len)
      (regions : H.regions x = H.regions s.host \ {m.region})
      (pages : ∀ p, H.page x p = if MeetsPage p r.addr.toNat r.len.toNat then none else H.page s.host p) :
      UnmapEnd H s r (true, (x, mapDrop s.maps i))
  | dropped {x : σ} (same : H.SameBut s.host x r.addr.toNat r.len.toNat)
      (gone : ∀ p, MeetsPage p r.addr.toNat r.len.toNat → H.page x p = none) : UnmapEnd H s r (true, (x, s.maps))

include hH hs

/-- The whole reservation of an entry is released. -/
theorem release_end {m : NMap} {i : ℕ} (hm : s.maps[i]? = some m) (hwhole : m.base = r.addr ∧ m.len = r.len) :
    UnmapEnd H s r (match H.release r.addr s.host with
      | (false, x) => (false, (x, s.maps))
      | (true, x) => (true, (x, mapDrop s.maps i))) := by
  obtain ⟨hregion, -⟩ := hs.seated m (List.mem_of_getElem? hm)
  have hok := hH.releases r.addr s.host m.region hregion (congrArg BitVec.toNat hwhole.1)
  cases hrelease : H.release r.addr s.host with
  | mk b x =>
      rw [hrelease] at hok
      obtain rfl : b = true := hok
      obtain ⟨R, hR, hbase, hregions, hpage⟩ := hH.released _ _ _ hrelease
      obtain rfl : R = m.region := by
        have hat : m.region.base = R.base := (congrArg BitVec.toNat hwhole.1).trans hbase.symm
        have hsized := hs.orderly.sized R hR
        have hsized' := hs.orderly.sized _ hregion
        refine hs.orderly.eq_of_holds hR hregion (a := R.base) ⟨le_rfl, by omega⟩ ⟨hat.le, by omega⟩
      refine .released hm hwhole hregions fun p => ?_
      rw [hpage p, ← hwhole.1, ← hwhole.2]
      rfl

omit hs in
/-- Any other range is decommitted. -/
theorem decommit_end (hfits : Fits H s (.unmap r)) :
    UnmapEnd H s r (match H.decommit r.addr r.len s.host with
      | (false, x) => (false, (x, s.maps))
      | (true, x) => (true, (x, s.maps))) := by
  cases hdrop : H.decommit r.addr r.len s.host with
  | mk b x =>
      cases b with
      | false =>
          refine .refused (hH.kept _ _ _ _ hdrop) fun hreal => ?_
          obtain ⟨R, hR, hhas⟩ := hfits.1 hreal
          have hpos : 0 < r.len.toNat := Nat.pos_of_ne_zero fun h => hreal.1 (BitVec.eq_of_toNat_eq h)
          have hok := hH.decommits _ _ _ R hR hhas hpos
          rw [hdrop] at hok
          cases hok
      | true =>
          by_cases hzero : r.len = 0
          · rw [hzero] at hdrop
            obtain ⟨R, hR, hbase⟩ := hH.decommitted_whole _ _ _ hdrop
            exact absurd hbase (hfits.2 hzero R hR)
          · have hpos : 0 < r.len.toNat := Nat.pos_of_ne_zero fun h => hzero (BitVec.eq_of_toNat_eq h)
            obtain ⟨-, hsame, hgone⟩ := hH.decommitted _ _ _ _ hdrop hpos
            exact .dropped hsame hgone

theorem nAsUnmap_end (hfits : Fits H s (.unmap r)) :
    UnmapEnd H s r (nAsUnmap H r.addr r.len (s.host, s.maps)) := by
  rw [nAsUnmap]
  cases hwhole : (mapCovering s.maps r.addr r.len).filter fun e =>
      e.1.reservation && e.1.base = r.addr && e.1.len = r.len with
  | none => exact decommit_end hH hfits
  | some e =>
      obtain ⟨hcov, htest⟩ := Option.filter_eq_some_iff.mp hwhole
      obtain ⟨⟨-, hbase⟩, hlen⟩ : (e.1.reservation = true ∧ e.1.base = r.addr) ∧ e.1.len = r.len := by
        simpa using htest
      exact release_end hH hs (mapCovering_some hcov).1 ⟨hbase, hlen⟩

omit hH hs in
theorem UnmapEnd.right (h : UnmapEnd H s r (nAsUnmap H r.addr r.len (s.host, s.maps))) : Right H s (.unmap r) := by
  rw [Right]
  generalize nAsUnmap H r.addr r.len (s.host, s.maps) = e at h ⊢
  cases h with
  | refused same new => exact ⟨⟨same, rfl⟩, new⟩
  | released entry whole regions pages =>
      refine ⟨fun p hp => ?_, fun p hp => ?_⟩
      · exact (pages p).trans (if_pos hp)
      · exact (pages p).trans (if_neg hp)
  | dropped same gone => exact ⟨gone, same.2⟩

omit hH in
theorem UnmapEnd.sound (h : UnmapEnd H s r (nAsUnmap H r.addr r.len (s.host, s.maps))) :
    Sound H (next H s (.unmap r)) := by
  rw [next]
  generalize nAsUnmap H r.addr r.len (s.host, s.maps) = e at h ⊢
  cases h with
  | refused same new =>
      obtain ⟨hregions, hpage⟩ := same
      exact ⟨hregions ▸ hs.orderly, hregions ▸ hs.seated, hs.distinct, by rw [hregions, hpage]; exact hs.backed⟩
  | @released x m i entry whole regions pages =>
      have hperm := mapDrop_perm entry
      have hdistinct := (hperm.map NMap.region).nodup_iff.mpr hs.distinct
      rw [List.map_cons, List.nodup_cons] at hdistinct
      refine ⟨?_, fun m' hm' => ?_, hdistinct.2, fun p hp => ?_⟩
      · dsimp only
        rw [regions]
        exact hs.orderly.mono fun R hR => hR.1
      · obtain ⟨hregion, hpages⟩ := hs.seated m' (hperm.subset (List.mem_cons_of_mem m hm'))
        dsimp only
        rw [regions]
        refine ⟨⟨hregion, fun he => hdistinct.1 ?_⟩, hpages⟩
        rw [← Set.mem_singleton_iff.mp he]
        exact List.mem_map_of_mem hm'
      · obtain ⟨hreal, hout⟩ := hp
        have hout : ¬ MeetsPage p r.addr.toNat r.len.toNat := hout
        obtain ⟨⟨R, hR, hholds⟩, hsome⟩ := hs.backed p hreal
        dsimp only
        rw [regions, pages p, if_neg hout]
        refine ⟨⟨R, ⟨hR, fun he => hout ?_⟩, hholds⟩, hsome⟩
        rw [Set.mem_singleton_iff.mp he, Region.Holds, NMap.region, whole.1, whole.2] at hholds
        exact ⟨hholds.2, hholds.1.trans_lt (by rw [Nat.add_mul, PAGE]; omega)⟩
  | @dropped x same gone =>
      obtain ⟨hregions, hothers⟩ := same
      refine ⟨hregions ▸ hs.orderly, hregions ▸ hs.seated, hs.distinct, fun p hp => ?_⟩
      dsimp only
      rw [hregions, hothers p hp.2]
      exact hs.backed p hp.1

theorem step_right {c : Call} (hfits : Fits H s c) : Right H s c ∧ Sound H (next H s c) := by
  cases c with
  | map r backing offset prot =>
      have hend := nAsMap_end hH hs hfits
      exact ⟨hend.right, hend.sound hs⟩
  | unmap r =>
      have hend := nAsUnmap_end hH hs hfits
      exact ⟨hend.right, hend.sound hs⟩

end Steps

theorem Right.base_eq {σ : Type} {H : Host σ} {s : Space σ} {r : PageRange} {backing : Option (List UInt8)}
    {offset base : Word} {prot : UInt32} (h : Right H s (.map r backing offset prot))
    (hbase : (nAsMap H r.addr r.len backing offset prot (s.host, s.maps)).1 = some base) (hne : r.addr ≠ 0) :
    base = r.addr := by
  rw [Right] at h
  generalize nAsMap H r.addr r.len backing offset prot (s.host, s.maps) = e at h hbase
  obtain ⟨b, t⟩ := e
  obtain rfl : b = some base := hbase
  exact h.1 hne

def Space.fresh {σ : Type} (x : σ) : Space σ := ⟨x, [], ∅⟩

theorem Space.fresh_sound {σ : Type} {H : Host σ} {x : σ} (hx : Orderly (H.regions x)) : Sound H (.fresh x) :=
  ⟨hx, by simp [fresh], List.nodup_nil, fun _ hp => absurd hp (Set.notMem_empty _)⟩

theorem Sound.along {σ : Type} {H : Host σ} (hH : H.Documented) {s : Space σ} (hs : Sound H s) (cs : List Call)
    (hfits : Along H (Fits H) s cs) : Along H (Right H) s cs := by
  induction cs generalizing s with
  | nil => trivial
  | cons c cs ih =>
      obtain ⟨hc, hrest⟩ := hfits
      obtain ⟨hright, hnext⟩ := step_right hH hs hc
      exact ⟨hright, ih hnext hrest⟩

/-- In a run of maps and unmaps that are fit for substrate N, each call does what the contract says. -/
theorem contract_along {σ : Type} {H : Host σ} (hH : H.Documented) {x : σ} (hx : Orderly (H.regions x))
    (cs : List Call) (hfits : Along H (Fits H) (.fresh x) cs) : Along H (Right H) (.fresh x) cs :=
  (Space.fresh_sound hx).along hH cs hfits

def emptyFlat : Flat := ⟨[], fun _ => none⟩

theorem emptyFlat_orderly : Orderly (flatHost.regions emptyFlat) := by
  refine ⟨?_, ?_, ?_⟩ <;>
  · intro R hR
    cases hR

def unevenPage : PageRange := ⟨0x401000, 0x1000, by decide, by decide⟩

/-- The page is realised at the multiple of 64 KiB below. -/
theorem uneven_page_misplaced :
    (nAsMap flatHost unevenPage.addr unevenPage.len none 0 SUB_PROT_READ (emptyFlat, [])).1 = some 0x400000 ∧
      ¬ Along flatHost (Right flatHost) (.fresh emptyFlat) [.map unevenPage none 0 SUB_PROT_READ] := by
  have hplace : (nAsMap flatHost unevenPage.addr unevenPage.len none 0 SUB_PROT_READ (emptyFlat, [])).1 =
      some 0x400000 := by decide +kernel
  exact ⟨hplace, fun h => absurd (h.1.base_eq hplace (by decide)) (by decide)⟩

def threePages : PageRange := ⟨0x400000, 0x3000, by decide, by decide⟩

def middlePage : PageRange := ⟨0x401000, 0x1000, by decide, by decide⟩

/-- Three pages are realised, the middle one is dropped and realised again. -/
theorem middle_page_realised : Along flatHost (Right flatHost) (.fresh emptyFlat)
    [.map threePages none 0 SUB_PROT_READ, .unmap middlePage, .map middlePage none 0 SUB_PROT_WRITE] := by
  refine contract_along flatHost_documented emptyFlat_orderly _ ⟨?_, ?_, ?_, trivial⟩
  · refine .inr ⟨.inr (.inl (by decide)), fun h => ?_⟩
    exact h.2.2 (show MeetsPage 0x400 0x400000 0x3000 from by decide)
  · refine ⟨fun _ => ⟨⟨0x400000, 0x3000⟩, ?_, by decide⟩, fun h => absurd h (by decide)⟩
    change _ ∈ (next flatHost (.fresh emptyFlat) (.map threePages none 0 SUB_PROT_READ)).host.regions
    decide +kernel
  · refine .inl ⟨by decide, ?_⟩
    decide +kernel

end SysvNt.SubstrateN
