import SysvNt.SubstrateN
import SysvNt.Transfers

/-!
# What a guest finds in its memory

A memory is a set of pages, each with what it lets the program do and with its bytes, as far as they
are known. `as_map` makes pages of zeros and of the bytes of a file and keeps the bytes of pages that
there were, `as_protect` changes the access alone, and the copies read and write through the access.
Substrate N keeps this memory on the host's pages.
-/

namespace SysvNt.SubstrateN

open ByteMemory VirtualMemory Transfers

structure GuestPage where
  access : Access
  bytes : Option (Fin PAGE → UInt8)

abbrev GuestMemory := ℕ → Option GuestPage

namespace GuestMemory

variable (M : GuestMemory)

/-- The bytes of a page, zeros if there was none. -/
def content (p : ℕ) : Option (Fin PAGE → UInt8) :=
  match M p with
  | none => some fun _ => 0
  | some g => g.bytes

/-- Pages of a range, with the bytes of a file over what they had. -/
def map (a n : ℕ) (file : List UInt8) (access : Access) : GuestMemory := fun p =>
  if MeetsPage p a n then some ⟨access, (M.content p).map (Flat.laid a file p)⟩ else M p

def unmap (a n : ℕ) : GuestMemory := fun p => if MeetsPage p a n then none else M p

def protect (a n : ℕ) (access : Access) : GuestMemory := fun p =>
  if MeetsPage p a n then (M p).map fun g => { g with access := access } else M p

def write (a : ℕ) (bs : List UInt8) : GuestMemory := fun p =>
  if MeetsPage p a bs.length then (M p).map fun g => { g with bytes := g.bytes.map (Flat.laid a bs p) } else M p

/-- The bytes of a range are no longer known. -/
def forget (a n : ℕ) : GuestMemory := fun p =>
  if MeetsPage p a n then (M p).map fun g => { g with bytes := none } else M p

/-- A byte, where the page can be read and its bytes are known. -/
def byte (a : ℕ) : Option UInt8 := do
  let g ← M (a / PAGE)
  let bytes ← if g.access.read then g.bytes else none
  pure (bytes ⟨a % PAGE, Nat.mod_lt a (by decide)⟩)

end GuestMemory

section Calls

variable {σ : Type} (H : Host σ) (torn : Word → List UInt8 → σ → σ)

def nAsProtect (addr len : Word) (prot : UInt32) (x : σ) : Bool × σ := H.protect addr len (toWinProt prot) x

/-- A byte that a guarded copy reads, or a fault. -/
def loadByte (x : σ) (a : ℕ) : Option UInt8 :=
  (H.page x (a / PAGE)).bind fun pg =>
    if (access pg.prot).read then some (pg.bytes ⟨a % PAGE, Nat.mod_lt a (by decide)⟩) else none

def writableAt (x : σ) (a : ℕ) : Bool := (H.page x (a / PAGE)).any fun pg => (access pg.prot).write

def nUserCopyIn (uaddr : Word) (len : ℕ) (x : σ) : Option (List UInt8) :=
  gather (loadByte H x) ((List.range len).map (uaddr.toNat + ·))

/-- `torn` is what a copy leaves that has faulted. -/
def nUserCopyOut (uaddr : Word) (bs : List UInt8) (x : σ) : Bool × σ :=
  if ∀ i ∈ List.range bs.length, writableAt H x (uaddr.toNat + i) = true then (true, H.store uaddr bs x)
  else (false, torn uaddr bs x)

end Calls

inductive MemoryCall where
  | space (c : Call)
  | protect (r : PageRange) (prot : UInt32)
  | copyIn (uaddr : Word) (len : ℕ)
  | copyOut (uaddr : Word) (bs : List UInt8)

/-- What more is documented: a store lays its bytes, a refused change of protection changes nothing, and
a copy that has faulted has written in its own range alone. -/
structure Remembers {σ : Type} (H : Host σ) (torn : Word → List UInt8 → σ → σ) : Prop where
  documented : H.Documented
  stores : ∀ a bs x p pg, H.page x p = some pg → MeetsPage p a.toNat bs.length →
    H.page (H.store a bs x) p = some ⟨pg.prot, Flat.laid a.toNat bs p pg.bytes⟩
  unprotected : ∀ a n w x x', H.protect a n w x = (false, x') → H.Same x x'
  faulted : ∀ a bs x, H.SameBut x (torn a bs x) a.toNat bs.length ∧
    ∀ p, (H.page (torn a bs x) p).map Page.prot = (H.page x p).map Page.prot

section Runs

variable {σ : Type} (H : Host σ) (torn : Word → List UInt8 → σ → σ)

namespace MemoryCall

def next (s : Space σ) : MemoryCall → Space σ
  | space c => SubstrateN.next H s c
  | protect r prot => { s with host := (nAsProtect H r.addr r.len prot s.host).2 }
  | copyIn _ _ => s
  | copyOut uaddr bs => { s with host := (nUserCopyOut H torn uaddr bs s.host).2 }

/-- What the calls that succeed make of a memory; a copy that fails leaves its range unknown. -/
def expected (s : Space σ) (M : GuestMemory) : MemoryCall → GuestMemory
  | space (.map r backing offset prot) => match (nAsMap H r.addr r.len backing offset prot (s.host, s.maps)).1 with
    | none => M
    | some base => M.map base.toNat r.len.toNat
        (backing.elim [] fun image => fileBytes image offset r.len) (askedAccess prot)
  | space (.unmap r) =>
    if (nAsUnmap H r.addr r.len (s.host, s.maps)).1 then M.unmap r.addr.toNat r.len.toNat else M
  | protect r prot =>
    if (nAsProtect H r.addr r.len prot s.host).1 then M.protect r.addr.toNat r.len.toNat (askedAccess prot) else M
  | copyIn _ _ => M
  | copyOut uaddr bs =>
    if (nUserCopyOut H torn uaddr bs s.host).1 then M.write uaddr.toNat bs else M.forget uaddr.toNat bs.length

/-- The demands on a call: those of substrate N on a map or unmap, and a realised range whose protection
is to change is in one reservation. -/
def Fits (s : Space σ) : MemoryCall → Prop
  | space c => SubstrateN.Fits H s c
  | protect r _ => s.Realised r → ∃ R ∈ H.regions s.host, R.Has r.addr.toNat r.len.toNat
  | copyIn _ _ | copyOut _ _ => True

def Answers (s : Space σ) (M : GuestMemory) : MemoryCall → Prop
  | space c => Right H s c
  | protect r prot => s.Realised r → (nAsProtect H r.addr r.len prot s.host).1 = true
  | copyIn uaddr len =>
    (∀ bs, gather M.byte ((List.range len).map (uaddr.toNat + ·)) = some bs →
      nUserCopyIn H uaddr len s.host = some bs) ∧
    ((∃ i < len, ∃ g, M ((uaddr.toNat + i) / PAGE) = some g ∧ g.access.read = false) →
      nUserCopyIn H uaddr len s.host = none)
  | copyOut uaddr bs =>
    ((∀ i < bs.length, ∃ g, M ((uaddr.toNat + i) / PAGE) = some g ∧ g.access.write = true) →
      (nUserCopyOut H torn uaddr bs s.host).1 = true) ∧
    ((∃ i < bs.length, ∃ g, M ((uaddr.toNat + i) / PAGE) = some g ∧ g.access.write = false) →
      (nUserCopyOut H torn uaddr bs s.host).1 = false)

end MemoryCall

/-- The host holds the memory: the pages that there are, with their access and what is known of their
bytes. A page of an entry that is not there is not committed. -/
structure HoldsMemory (s : Space σ) (M : GuestMemory) : Prop where
  sound : Sound H s
  present : ∀ p, (M p).isSome = true ↔ p ∈ s.realised
  pages : ∀ p g, M p = some g → ∃ pg, H.page s.host p = some pg ∧ access pg.prot = g.access ∧
    ∀ bytes, g.bytes = some bytes → pg.bytes = bytes
  vacant : ∀ m ∈ s.maps, ∀ p, m.region.Holds (p * PAGE) → p ∉ s.realised → H.page s.host p = none

def AllFit : Space σ → List MemoryCall → Prop
  | _, [] => True
  | s, c :: cs => c.Fits H s ∧ AllFit (c.next H torn s) cs

/-- Along a run the host holds the memory, and each call answers as the memory says. -/
def Faithfully : Space σ → GuestMemory → List MemoryCall → Prop
  | s, M, [] => HoldsMemory H s M
  | s, M, c :: cs => HoldsMemory H s M ∧ c.Answers H torn s M ∧
      Faithfully (c.next H torn s) (c.expected H torn s M) cs

end Runs

section Laying

variable {a p : ℕ} {bytes : Fin PAGE → UInt8}

theorem laid_of_not_meets {bs : List UInt8} (h : ¬ MeetsPage p a bs.length) : Flat.laid a bs p bytes = bytes := by
  funext k
  have hk := k.isLt
  rw [Flat.laid]
  split_ifs with hle
  · rw [MeetsPage, Nat.add_mul, Nat.one_mul] at h
    rw [List.getD_eq_getElem?_getD, List.getElem?_eq_none (by omega), Option.getD_none]
  · rfl

theorem laid_nil : Flat.laid a [] p bytes = bytes := by
  funext k
  rw [Flat.laid]
  split_ifs
  · rfl
  · rfl

end Laying

section Steps

variable {σ : Type} {H : Host σ} {torn : Word → List UInt8 → σ → σ} {s : Space σ} {M : GuestMemory}

/-- The host's pages are changed, none is made and none is dropped. -/
theorem HoldsMemory.update (h : HoldsMemory H s M) {x : σ} {M' : GuestMemory}
    (hregions : H.regions x = H.regions s.host)
    (hsome : ∀ p, (H.page x p).isSome = (H.page s.host p).isSome)
    (hpresent : ∀ p, (M' p).isSome = (M p).isSome)
    (hpages : ∀ p g, M' p = some g → ∃ pg, H.page x p = some pg ∧ access pg.prot = g.access ∧
      ∀ bytes, g.bytes = some bytes → pg.bytes = bytes) : HoldsMemory H { s with host := x } M' where
  sound := by
    refine ⟨hregions ▸ h.sound.orderly, hregions ▸ h.sound.seated, h.sound.distinct, fun p hp => ?_⟩
    dsimp only
    rw [hregions, hsome]
    exact h.sound.backed p hp
  present p := by
    rw [hpresent]
    exact h.present p
  pages := hpages
  vacant m hm p hp hout := by
    have hnone := h.vacant m hm p hp hout
    rw [← Option.not_isSome_iff_eq_none, hsome, hnone]
    exact Bool.false_ne_true

theorem HoldsMemory.of_same (h : HoldsMemory H s M) {x : σ} (hsame : H.Same s.host x) :
    HoldsMemory H { s with host := x } M :=
  h.update hsame.1 (fun p => by rw [hsame.2]) (fun _ => rfl) (by rw [hsame.2]; exact h.pages)

/-- A change of some pages, each with a change of what is known of it. -/
theorem HoldsMemory.change (h : HoldsMemory H s M) {x : σ} {a n : ℕ} {f : ℕ → Page → Page} {g : ℕ → GuestPage → GuestPage}
    (hsame : H.SameBut s.host x a n) (hset : ∀ p, MeetsPage p a n → H.page x p = (H.page s.host p).map (f p))
    (haccess : ∀ p pg gp, access pg.prot = gp.access → access (f p pg).prot = (g p gp).access)
    (hbytes : ∀ p pg gp bytes, (∀ bytes, gp.bytes = some bytes → pg.bytes = bytes) →
      (g p gp).bytes = some bytes → (f p pg).bytes = bytes) :
    HoldsMemory H { s with host := x } fun p => if MeetsPage p a n then (M p).map (g p) else M p := by
  refine h.update hsame.1 (fun p => ?_) (fun p => ?_) (fun p gp hgp => ?_)
  · by_cases hp : MeetsPage p a n
    · rw [hset p hp, Option.isSome_map]
    · rw [hsame.2 p hp]
  · split_ifs
    · exact Option.isSome_map
    · rfl
  · split_ifs at hgp with hp
    · obtain ⟨gp₀, hgp₀, rfl⟩ := Option.map_eq_some_iff.mp hgp
      obtain ⟨pg, hpg, hacc, hknown⟩ := h.pages p gp₀ hgp₀
      refine ⟨f p pg, by rw [hset p hp, hpg, Option.map_some], haccess p pg gp₀ hacc, fun bytes hb => ?_⟩
      exact hbytes p pg gp₀ bytes hknown hb
    · rw [hsame.2 p hp]
      exact h.pages p gp hgp

theorem HoldsMemory.mapped (h : HoldsMemory H s M) {x : σ} {maps : List NMap} {a n : Word} {file : List UInt8}
    {gained : Access} (hsound : Sound H ⟨x, maps, s.realised ∪ pagesFrom a.toNat n.toNat⟩)
    (hmaps : ∀ m ∈ maps, m ∈ s.maps ∨ m.region = ⟨a.toNat, n.toNat⟩)
    (hothers : ∀ p, ¬ MeetsPage p a.toNat n.toNat → H.page x p = H.page s.host p)
    (hset : ∀ p, MeetsPage p a.toNat n.toNat → ∃ pg, H.page x p = some pg ∧ access pg.prot = gained ∧
      ∀ bytes, M.content p = some bytes → pg.bytes = Flat.laid a.toNat file p bytes) :
    HoldsMemory H ⟨x, maps, s.realised ∪ pagesFrom a.toNat n.toNat⟩ (M.map a.toNat n.toNat file gained) where
  sound := hsound
  present p := by
    rw [GuestMemory.map]
    split_ifs with hp
    · exact ⟨fun _ => .inr hp, fun _ => rfl⟩
    · rw [h.present p]
      exact ⟨.inl, fun hreal => hreal.resolve_right hp⟩
  pages p g hg := by
    rw [GuestMemory.map] at hg
    split_ifs at hg with hp
    · obtain rfl := Option.some.inj hg
      obtain ⟨pg, hpg, hacc, hknown⟩ := hset p hp
      refine ⟨pg, hpg, hacc, fun bytes hb => ?_⟩
      obtain ⟨bytes₀, hbytes₀, rfl⟩ := Option.map_eq_some_iff.mp hb
      exact hknown bytes₀ hbytes₀
    · dsimp only
      rw [hothers p hp]
      exact h.pages p g hg
  vacant m hm p hholds hout := by
    have hp : ¬ MeetsPage p a.toNat n.toNat := fun hp => hout (.inr hp)
    dsimp only
    rw [hothers p hp]
    refine h.vacant m ((hmaps m hm).resolve_right fun he => hp ?_) p hholds fun hreal => hout (.inl hreal)
    rw [he] at hholds
    obtain ⟨hle, hlt⟩ := hholds
    exact ⟨hlt, hle.trans_lt (by rw [Nat.add_mul, PAGE]; omega)⟩

theorem HoldsMemory.unmapped (h : HoldsMemory H s M) {x : σ} {maps : List NMap} {r : PageRange}
    (hsound : Sound H ⟨x, maps, s.realised \ r.pages⟩) (hmaps : ∀ m ∈ maps, m ∈ s.maps)
    (hpage : ∀ p, H.page x p = if MeetsPage p r.addr.toNat r.len.toNat then none else H.page s.host p) :
    HoldsMemory H ⟨x, maps, s.realised \ r.pages⟩ (M.unmap r.addr.toNat r.len.toNat) where
  sound := hsound
  present p := by
    rw [GuestMemory.unmap]
    split_ifs with hp
    · exact ⟨fun hf => (Bool.false_ne_true hf).elim, fun hreal => absurd hp hreal.2⟩
    · rw [h.present p]
      exact ⟨fun hreal => ⟨hreal, hp⟩, And.left⟩
  pages p g hg := by
    rw [GuestMemory.unmap] at hg
    split_ifs at hg with hp
    dsimp only
    rw [hpage p, if_neg hp]
    exact h.pages p g hg
  vacant m hm p hholds hout := by
    dsimp only
    rw [hpage p]
    split_ifs with hp
    · rfl
    · exact h.vacant m (hmaps m hm) p hholds fun hreal => hout ⟨hreal, hp⟩

variable (hH : Remembers H torn) (h : HoldsMemory H s M)

include hH h

theorem HoldsMemory.protect (r : PageRange) (prot : UInt32) :
    HoldsMemory H ((MemoryCall.protect r prot).next H torn s) ((MemoryCall.protect r prot).expected H torn s M) := by
  rw [MemoryCall.next, MemoryCall.expected, nAsProtect]
  cases hrun : H.protect r.addr r.len (toWinProt prot) s.host with
  | mk b x =>
      cases b with
      | false => exact h.of_same (hH.unprotected _ _ _ _ _ hrun)
      | true =>
          obtain ⟨hsame, hset⟩ := hH.documented.reprotected _ _ _ _ _ hrun
          exact h.change hsame hset (fun _ _ _ _ => access_toWinProt prot) fun _ _ _ bytes hknown hb => hknown bytes hb

theorem HoldsMemory.copyOut (uaddr : Word) (bs : List UInt8) :
    HoldsMemory H ((MemoryCall.copyOut uaddr bs).next H torn s) ((MemoryCall.copyOut uaddr bs).expected H torn s M) := by
  have hkept {x : σ} {p : ℕ} (hprot : (H.page x p).map Page.prot = (H.page s.host p).map Page.prot) :
      (H.page x p).isSome = (H.page s.host p).isSome := by
    simpa using congrArg Option.isSome hprot
  by_cases hok : ∀ i ∈ List.range bs.length, writableAt H s.host (uaddr.toNat + i) = true
  · have hrun : nUserCopyOut H torn uaddr bs s.host = (true, H.store uaddr bs s.host) := if_pos hok
    rw [MemoryCall.next, MemoryCall.expected, hrun]
    change HoldsMemory H { s with host := H.store uaddr bs s.host } (M.write uaddr.toNat bs)
    obtain ⟨hsame, hprot⟩ := hH.documented.stored uaddr bs s.host
    refine h.change (f := fun p pg => ⟨pg.prot, Flat.laid uaddr.toNat bs p pg.bytes⟩) hsame (fun p hp => ?_)
      (fun _ _ _ hacc => hacc) fun p pg gp bytes hknown hb => ?_
    · cases hpg : H.page s.host p with
      | none =>
          have hsome := hkept (hprot p)
          rw [hpg] at hsome
          simpa using hsome
      | some pg => exact hH.stores _ _ _ _ _ hpg hp
    · obtain ⟨bytes₀, hbytes₀, rfl⟩ := Option.map_eq_some_iff.mp hb
      rw [hknown bytes₀ hbytes₀]
  · have hrun : nUserCopyOut H torn uaddr bs s.host = (false, torn uaddr bs s.host) := if_neg hok
    rw [MemoryCall.next, MemoryCall.expected, hrun]
    change HoldsMemory H { s with host := torn uaddr bs s.host } (M.forget uaddr.toNat bs.length)
    obtain ⟨hsame, hprot⟩ := hH.faulted uaddr bs s.host
    refine h.update hsame.1 (fun p => hkept (hprot p)) (fun p => ?_) fun p gp hgp => ?_
    · rw [GuestMemory.forget]
      split_ifs
      · exact Option.isSome_map
      · rfl
    · rw [GuestMemory.forget] at hgp
      split_ifs at hgp with hp
      · obtain ⟨gp₀, hgp₀, rfl⟩ := Option.map_eq_some_iff.mp hgp
        obtain ⟨pg, hpg, hacc, -⟩ := h.pages p gp₀ hgp₀
        have hprot' := hprot p
        rw [hpg, Option.map_some] at hprot'
        obtain ⟨pg', hpg', hsameprot⟩ := Option.map_eq_some_iff.mp hprot'
        exact ⟨pg', hpg', by rw [hsameprot]; exact hacc, fun bytes hb => by cases hb⟩
      · rw [hsame.2 p hp]
        exact h.pages p gp hgp

omit h in
/-- What `as_map` leaves on the pages of the range, from what it has committed there. -/
theorem laid_content {x y : σ} {base len : Word} {backing : Option (List UInt8)} {offset : Word} {w : WinProt}
    (hx : ∀ p, MeetsPage p base.toNat len.toNat → ∃ pg, H.page x p = some pg ∧
      ∀ bytes, M.content p = some bytes → pg.bytes = bytes)
    (hprotect : H.protect base len w (layDown H backing offset base len x) = (true, y)) :
    ∀ p, MeetsPage p base.toNat len.toNat → ∃ pg, H.page y p = some pg ∧ pg.prot = w ∧
      ∀ bytes, M.content p = some bytes →
        pg.bytes = Flat.laid base.toNat (backing.elim [] fun image => fileBytes image offset len) p bytes := by
  intro p hp
  obtain ⟨pg, hpg, hknown⟩ := hx p hp
  have hlaid : H.page (layDown H backing offset base len x) p = some ⟨pg.prot,
      Flat.laid base.toNat (backing.elim [] fun image => fileBytes image offset len) p pg.bytes⟩ := by
    cases backing with
    | none => rw [layDown, hpg, Option.elim_none, laid_nil]
    | some image =>
        rw [layDown, Option.elim_some]
        split_ifs with hnil
        · rw [hnil, hpg, laid_nil]
        · by_cases hmeets : MeetsPage p base.toNat (fileBytes image offset len).length
          · exact hH.stores _ _ _ _ _ hpg hmeets
          · rw [(hH.documented.stored _ _ _).1.2 p hmeets, hpg, laid_of_not_meets hmeets]
  have hset := (hH.documented.reprotected _ _ _ _ _ hprotect).2 p hp
  rw [hlaid, Option.map_some] at hset
  exact ⟨_, hset, rfl, fun bytes hb => by rw [hknown bytes hb]⟩

/-- The pages that `as_map` has committed again are what they were, or zeros. -/
theorem recommitted_content {r : PageRange} (hlen : 0 < r.len.toNat)
    (hcov : r.addr ≠ 0 ∧ (mapCovering s.maps r.addr r.len).isSome = true) {x : σ} {base : Word}
    (hcommit : H.commit r.addr r.len s.host = (some base, x)) :
    base = r.addr ∧ ∀ p, MeetsPage p r.addr.toNat r.len.toNat → ∃ pg, H.page x p = some pg ∧
      ∀ bytes, M.content p = some bytes → pg.bytes = bytes := by
  obtain ⟨hbase, ⟨R, hR, hhas⟩, -, hset⟩ := hH.documented.committed _ _ _ _ _ hcommit hlen
  refine ⟨BitVec.eq_of_toNat_eq (by rw [hbase, Nat.div_mul_cancel r.addr_aligned]), fun p hp => ?_⟩
  obtain ⟨⟨m, i⟩, hm⟩ := Option.isSome_iff_exists.mp hcov.2
  obtain ⟨hentry, hcovers⟩ := mapCovering_some hm
  have hmem := List.mem_of_getElem? hentry
  have hend := h.sound.orderly.bounded R hR
  have hin : m.region.Has r.addr.toNat r.len.toNat :=
    (NMap.covers_has (h.sound.orderly.bounded _ (h.sound.seated m hmem).1) (hhas.2.trans hend)).mp hcovers
  refine ⟨_, hset p hp, fun bytes hb => ?_⟩
  rw [GuestMemory.content] at hb
  cases hM : M p with
  | none =>
      rw [hM] at hb
      cases hb
      have hout : p ∉ s.realised := fun hp' => by
        have hsome := (h.present p).mpr hp'
        rw [hM] at hsome
        cases hsome
      rw [h.vacant m hmem p (hin.holds r.addr_aligned hp) hout]
      rfl
  | some g =>
      rw [hM] at hb
      obtain ⟨pg, hpg, -, hknown⟩ := h.pages p g hM
      rw [hpg]
      exact hknown bytes hb

/-- The pages of a new reservation were none of the memory's. -/
theorem reserved_content {r : PageRange} (hlen : 0 < r.len.toNat) {x : σ} {base : Word}
    (hreserve : H.reserve r.addr r.len s.host = (some base, x)) (hplace : r.addr = 0 ∨ r.addr = base) :
    ∀ p, MeetsPage p base.toNat r.len.toNat → M p = none ∧ ∃ pg, H.page x p = some pg ∧
      ∀ bytes, M.content p = some bytes → pg.bytes = bytes := by
  obtain ⟨-, haligned, -, hapart, -, hpage⟩ := hH.documented.reserved _ _ _ _ _ hreserve hlen
  rw [asked_eq hplace haligned r.len_aligned] at hapart hpage
  intro p hp
  have hnone : M p = none := by
    rw [← Option.not_isSome_iff_eq_none, h.present p]
    intro hreal
    obtain ⟨⟨R, hR, hholds⟩, -⟩ := h.sound.backed p hreal
    have hhas : (⟨base.toNat, r.len.toNat⟩ : Region).Has base.toNat r.len.toNat := ⟨le_rfl, le_rfl⟩
    exact (hapart R hR).not_holds (hhas.holds (Nat.dvd_trans (by decide) haligned) hp) hholds
  refine ⟨hnone, .zero, by rw [hpage p, if_pos hp], fun bytes hb => ?_⟩
  rw [GuestMemory.content, hnone] at hb
  cases hb
  rfl

theorem nAsMap_content {r : PageRange} {backing : Option (List UInt8)} {offset base : Word} {prot : UInt32}
    {t : σ × List NMap} (hfits : SubstrateN.Fits H s (.map r backing offset prot))
    (hrun : nAsMap H r.addr r.len backing offset prot (s.host, s.maps) = (some base, t)) :
    ∀ p, MeetsPage p base.toNat r.len.toNat → ∃ pg, H.page t.1 p = some pg ∧ pg.prot = toWinProt prot ∧
      ∀ bytes, M.content p = some bytes →
        pg.bytes = Flat.laid base.toNat (backing.elim [] fun image => fileBytes image offset r.len) p bytes := by
  rw [nAsMap] at hrun
  split_ifs at hrun with hbad
  · cases hrun
  have hlen : 0 < r.len.toNat := Nat.pos_of_ne_zero fun hz => hbad (.inl (BitVec.eq_of_toNat_eq hz))
  by_cases hcov : r.addr ≠ 0 ∧ (mapCovering s.maps r.addr r.len).isSome = true
  · simp only [if_pos hcov] at hrun
    cases hcommit : H.commit r.addr r.len s.host with
    | mk b x =>
        rw [hcommit] at hrun
        cases b with
        | none => cases hrun
        | some b =>
            obtain ⟨rfl, hx⟩ := recommitted_content hH h hlen hcov hcommit
            dsimp only at hrun
            cases hprotect : H.protect r.addr r.len (toWinProt prot) (layDown H backing offset r.addr r.len x) with
            | mk ok y =>
                rw [hprotect] at hrun
                cases ok with
                | false => cases hrun
                | true =>
                    cases hrun
                    exact laid_content hH hx hprotect
  · simp only [if_neg hcov] at hrun
    cases hreserve : H.reserve r.addr r.len s.host with
    | mk b x =>
        rw [hreserve] at hrun
        cases b with
        | none => cases hrun
        | some b =>
            have hplace := reserved_place hH.documented hlen (hfits.resolve_left hcov).1 hreserve
            have hx := reserved_content hH h hlen hreserve hplace
            dsimp only at hrun
            cases hprotect : H.protect b r.len (toWinProt prot) (layDown H backing offset b r.len x) with
            | mk ok y =>
                rw [hprotect] at hrun
                cases ok with
                | false => cases hrun
                | true =>
                    cases hrun
                    exact laid_content hH (fun p hp => (hx p hp).2) hprotect

theorem HoldsMemory.map {r : PageRange} {backing : Option (List UInt8)} {offset : Word} {prot : UInt32}
    (hfits : SubstrateN.Fits H s (.map r backing offset prot)) :
    HoldsMemory H ((MemoryCall.space (.map r backing offset prot)).next H torn s)
      ((MemoryCall.space (.map r backing offset prot)).expected H torn s M) := by
  have hend := nAsMap_end hH.documented h.sound hfits
  have hsound : Sound H (SubstrateN.next H s (.map r backing offset prot)) := hend.sound h.sound
  have hcontent : ∀ base t, nAsMap H r.addr r.len backing offset prot (s.host, s.maps) = (some base, t) → _ :=
    fun base t hrun => nAsMap_content hH h hfits hrun
  rw [MemoryCall.next, MemoryCall.expected]
  rw [SubstrateN.next] at hsound ⊢
  generalize nAsMap H r.addr r.len backing offset prot (s.host, s.maps) = e at hend hsound hcontent ⊢
  cases hend with
  | @refused x same new =>
      obtain ⟨hregions, hpage⟩ := same
      exact h.of_same ⟨hregions, hpage⟩
  | @again x R mem has same set =>
      refine h.mapped hsound (fun m hm => .inl hm) same.2 fun p hp => ?_
      obtain ⟨pg, hpg, hprot, hknown⟩ := hcontent _ _ rfl p hp
      exact ⟨pg, hpg, by rw [hprot]; exact access_toWinProt prot, hknown⟩
  | @fresh x base place aligned sized bounded apart regions others set =>
      refine h.mapped hsound (fun m hm => ?_) others fun p hp => ?_
      · rw [mapAdd] at hm
        split_ifs at hm
        · exact .inl hm
        · rcases List.mem_append.mp hm with hm | hm
          · exact .inl hm
          · rw [List.mem_singleton.mp hm]
            exact .inr rfl
      · obtain ⟨pg, hpg, hprot, hknown⟩ := hcontent _ _ rfl p hp
        exact ⟨pg, hpg, by rw [hprot]; exact access_toWinProt prot, hknown⟩

theorem HoldsMemory.unmap {r : PageRange} (hfits : SubstrateN.Fits H s (.unmap r)) :
    HoldsMemory H ((MemoryCall.space (.unmap r)).next H torn s)
      ((MemoryCall.space (.unmap r)).expected H torn s M) := by
  have hend := nAsUnmap_end hH.documented h.sound hfits
  have hsound : Sound H (SubstrateN.next H s (.unmap r)) := hend.sound h.sound
  rw [MemoryCall.next, MemoryCall.expected]
  rw [SubstrateN.next] at hsound ⊢
  generalize nAsUnmap H r.addr r.len (s.host, s.maps) = e at hend hsound ⊢
  cases hend with
  | @refused x same new =>
      obtain ⟨hregions, hpage⟩ := same
      exact h.of_same ⟨hregions, hpage⟩
  | @released x m i entry whole regions pages =>
      refine h.unmapped hsound (fun m' hm' => ?_) fun p => pages p
      exact (mapDrop_perm entry).subset (List.mem_cons_of_mem m hm')
  | @dropped x same gone =>
      refine h.unmapped hsound (fun m hm => hm) fun p => ?_
      split_ifs with hp
      · exact gone p hp
      · exact same.2 p hp

omit hH in
theorem HoldsMemory.loadByte {a : ℕ} {b : UInt8} (hb : M.byte a = some b) : loadByte H s.host a = some b := by
  rw [GuestMemory.byte] at hb
  cases hM : M (a / PAGE) with
  | none =>
      rw [hM] at hb
      cases hb
  | some g =>
      obtain ⟨pg, hpg, hacc, hknown⟩ := h.pages _ g hM
      rw [SubstrateN.loadByte, hpg, Option.bind_some, hacc]
      rw [hM, Option.bind_eq_bind, Option.bind_some] at hb
      split_ifs at hb ⊢ with hread
      · obtain ⟨bytes, hbytes, hb⟩ := Option.bind_eq_some_iff.mp hb
        rw [hknown bytes hbytes]
        exact hb
      · cases hb

omit hH in
theorem HoldsMemory.loadByte_none {a : ℕ} {g : GuestPage} (hM : M (a / PAGE) = some g) (hread : g.access.read = false) :
    SubstrateN.loadByte H s.host a = none := by
  obtain ⟨pg, hpg, hacc, -⟩ := h.pages _ g hM
  rw [SubstrateN.loadByte, hpg, Option.bind_some, hacc, hread]
  rfl

omit hH in
theorem HoldsMemory.writableAt {a : ℕ} {g : GuestPage} (hM : M (a / PAGE) = some g) :
    writableAt H s.host a = g.access.write := by
  obtain ⟨pg, hpg, hacc, -⟩ := h.pages _ g hM
  rw [SubstrateN.writableAt, hpg, Option.any_some, hacc]

omit hH in
theorem HoldsMemory.copyIn_answers (uaddr : Word) (len : ℕ) :
    (MemoryCall.copyIn uaddr len).Answers H torn s M := by
  rw [MemoryCall.Answers, nUserCopyIn]
  refine ⟨fun bs hbs => ?_, fun ⟨i, hi, g, hM, hread⟩ => ?_⟩
  · exact gather_mono (fun a b hb => h.loadByte hb) hbs
  · refine gather_eq_none ?_ (h.loadByte_none hM hread)
    exact List.mem_map_of_mem (List.mem_range.mpr hi)

omit hH in
theorem HoldsMemory.copyOut_answers (uaddr : Word) (bs : List UInt8) :
    (MemoryCall.copyOut uaddr bs).Answers H torn s M := by
  rw [MemoryCall.Answers, nUserCopyOut]
  refine ⟨fun hall => ?_, fun ⟨i, hi, g, hM, hwrite⟩ => ?_⟩
  · rw [if_pos]
    intro i hi
    obtain ⟨g, hM, hwrite⟩ := hall i (List.mem_range.mp hi)
    rw [h.writableAt hM, hwrite]
  · rw [if_neg]
    intro hall
    have htrue := hall i (List.mem_range.mpr hi)
    rw [h.writableAt hM, hwrite] at htrue
    cases htrue

theorem HoldsMemory.protect_answers {r : PageRange} {prot : UInt32}
    (hfits : (MemoryCall.protect r prot).Fits H s) : (MemoryCall.protect r prot).Answers H torn s M := by
  intro hreal
  obtain ⟨R, hR, hhas⟩ := hfits hreal
  have hpos : 0 < r.len.toNat := Nat.pos_of_ne_zero fun hz => hreal.1 (BitVec.eq_of_toNat_eq hz)
  exact hH.documented.protects _ _ _ _ R hR hhas hpos fun p hp => (h.sound.backed p (hreal.2 hp)).2

/-- One call keeps the host and the memory together, and answers as the memory says. -/
theorem HoldsMemory.step {c : MemoryCall} (hfits : c.Fits H s) :
    c.Answers H torn s M ∧ HoldsMemory H (c.next H torn s) (c.expected H torn s M) := by
  cases c with
  | space c =>
      refine ⟨(step_right hH.documented h.sound hfits).1, ?_⟩
      cases c with
      | map r backing offset prot => exact h.map hH hfits
      | unmap r => exact h.unmap hH hfits
  | protect r prot => exact ⟨h.protect_answers hH hfits, h.protect hH r prot⟩
  | copyIn uaddr len => exact ⟨h.copyIn_answers uaddr len, h⟩
  | copyOut uaddr bs => exact ⟨h.copyOut_answers uaddr bs, h.copyOut hH uaddr bs⟩

end Steps

theorem HoldsMemory.along {σ : Type} {H : Host σ} {torn : Word → List UInt8 → σ → σ} (hH : Remembers H torn)
    {s : Space σ} {M : GuestMemory} (h : HoldsMemory H s M) (cs : List MemoryCall) (hfits : AllFit H torn s cs) :
    Faithfully H torn s M cs := by
  induction cs generalizing s M with
  | nil => exact h
  | cons c cs ih =>
      obtain ⟨hc, hrest⟩ := hfits
      obtain ⟨hanswers, hnext⟩ := h.step hH hc
      exact ⟨h, hanswers, ih hnext hrest⟩

theorem Space.fresh_holds {σ : Type} {H : Host σ} {x : σ} (hx : Orderly (H.regions x)) :
    HoldsMemory H (.fresh x) fun _ => none where
  sound := fresh_sound hx
  present p := ⟨fun h => (Bool.false_ne_true h).elim, fun h => absurd h (Set.notMem_empty _)⟩
  pages p g hg := by cases hg
  vacant m hm := absurd hm List.not_mem_nil

/-- In a run of calls on a new space, the host holds what the calls have made of the memory, and each call
answers as the memory says. -/
theorem memory_kept {σ : Type} {H : Host σ} {torn : Word → List UInt8 → σ → σ} (hH : Remembers H torn) {x : σ}
    (hx : Orderly (H.regions x)) (cs : List MemoryCall) (hfits : AllFit H torn (.fresh x) cs) :
    Faithfully H torn (.fresh x) (fun _ => none) cs :=
  (Space.fresh_holds hx).along hH cs hfits

theorem flatHost_remembers : Remembers flatHost fun _ _ x => x where
  documented := flatHost_documented
  stores a bs x p pg hpg hp := by
    change flatHost.page { x with page := x.withPages a.toNat bs.length _ } p = _
    rw [Flat.touched hp, hpg]
    rfl
  unprotected a n w x x' h := by
    change Flat.protect a n w x = _ at h
    rw [Flat.protect] at h
    split_ifs at h
    · cases h
    · cases h
      exact ⟨rfl, rfl⟩
  faulted a bs x := ⟨⟨rfl, fun _ _ => rfl⟩, fun _ => rfl⟩

/-- Three pages begin with a file, four bytes are copied across the end of the first, and after the middle page
is gone and the first is read-only two of them are read. -/
theorem first_page_remembered : Faithfully flatHost (fun _ _ x => x) (.fresh emptyFlat) (fun _ => none)
    [.space (.map threePages (some [0x7f, 0x45]) 0 SUB_PROT_WRITE), .copyOut 0x400ffe [1, 2, 3, 4],
      .space (.unmap middlePage), .protect ⟨0x400000, 0x1000, by decide, by decide⟩ SUB_PROT_READ,
      .copyIn 0x400ffe 2] := by
  refine memory_kept flatHost_remembers emptyFlat_orderly _ ⟨?_, trivial, ?_, fun _ => ?_, trivial, trivial⟩
  · refine .inr ⟨.inr (.inl (by decide)), fun h => ?_⟩
    exact h.2.2 (show MeetsPage 0x400 0x400000 0x3000 from by decide)
  · refine ⟨fun _ => ⟨⟨0x400000, 0x3000⟩, ?_, by decide⟩, fun h => absurd h (by decide)⟩
    change _ ∈ Flat.regions _
    decide +kernel
  · refine ⟨⟨0x400000, 0x3000⟩, ?_, by decide⟩
    change _ ∈ Flat.regions _
    decide +kernel

end SysvNt.SubstrateN
