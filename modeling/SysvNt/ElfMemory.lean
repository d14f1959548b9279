import SysvNt.ElfLoad

/-!
# What user memory holds after a load

On a substrate that maps where it is asked to, gives anonymous pages that read zero and copies
what it is given, an image whose segments do not wrap and share no page leaves each of them in
memory: the file's bytes, zeros around them in its pages, and the protection of its flags. Every
other page is as it was, so the order of the program headers makes no difference.
-/

namespace SysvNt

open FallibleCalls

variable {σ : Type}

/-- User memory as a program sees it: the bytes, and the protection where there is a page. -/
structure UserView (σ : Type) where
  byte : σ → BitVec 64 → UInt8
  prot : σ → BitVec 64 → Option UInt32

def InRange (base len : BitVec 64) (a : BitVec 64) : Prop :=
  base.toNat ≤ a.toNat ∧ a.toNat < base.toNat + len.toNat

/-- What the substrate's contract says of a call that succeeds: `as_map` realises the requested
base with the protection, and an anonymous range reads zero; `as_protect` changes the protection
of its range and nothing else; `user_copy_out` writes its bytes and nothing else. -/
structure Substrate.Meets (S : Substrate σ) (V : UserView σ) : Prop where
  map : ∀ addr len prot x base x', (S.asMap addr len .anon prot).run x = (.ok base, x') →
    base = addr ∧
    (∀ a, InRange base len a → V.byte x' a = 0 ∧ V.prot x' a = some prot) ∧
    ∀ a, ¬ InRange base len a → V.byte x' a = V.byte x a ∧ V.prot x' a = V.prot x a
  protect : ∀ addr len prot x u x', (S.asProtect addr len prot).run x = (.ok u, x') →
    (∀ a, V.byte x' a = V.byte x a) ∧ (∀ a, InRange addr len a → V.prot x' a = some prot) ∧
    ∀ a, ¬ InRange addr len a → V.prot x' a = V.prot x a
  copyOut : ∀ va bs x u x', (S.userCopyOut va bs).run x = (.ok u, x') →
    (∀ a, V.prot x' a = V.prot x a) ∧
    (∀ a k, a.toNat = va.toNat + k → ∀ c, bs[k]? = some c → V.byte x' a = c) ∧
    ∀ a, (∀ k < bs.length, a.toNat ≠ va.toNat + k) → V.byte x' a = V.byte x a

namespace Phdr

variable (p : Phdr) (bias : BitVec 64)

structure NoWrap : Prop where
  memory : p.vaddr.toNat + bias.toNat + p.memsz.toNat + 4095 < 2 ^ 64
  file : p.offset.toNat + p.filesz.toNat < 2 ^ 64

/-- The addresses in the segment's pages, and those of its bytes in the file. -/
def InPages (a : BitVec 64) : Prop :=
  (p.mapStart bias).toNat ≤ a.toNat ∧ a.toNat < (p.mapEnd bias).toNat

def InFile (a : BitVec 64) : Prop :=
  (p.va bias).toNat ≤ a.toNat ∧ a.toNat < (p.va bias).toNat + p.filesz.toNat

structure Loaded (V : UserView σ) (img : Image) (x : σ) : Prop where
  file : ∀ k < p.filesz.toNat,
    img.bytes[p.offset.toNat + k]? = some (V.byte x (p.va bias + BitVec.ofNat 64 k))
  zero : ∀ a, p.InPages bias a → ¬ p.InFile bias a → V.byte x a = 0
  prot : ∀ a, p.InPages bias a → V.prot x a = some p.prot

variable {p bias}

theorem NoWrap.va (h : p.NoWrap bias) : (p.va bias).toNat = p.vaddr.toNat + bias.toNat := by
  have := h.memory
  rw [Phdr.va, BitVec.toNat_add_of_lt (by omega)]

theorem NoWrap.pages (h : p.NoWrap bias) :
    (p.mapStart bias).toNat ≤ (p.va bias).toNat ∧
      (p.va bias).toNat + p.memsz.toNat ≤ (p.mapEnd bias).toNat ∧
      (p.mapStart bias).toNat ≤ (p.mapEnd bias).toNat ∧
      (p.maplen bias).toNat = (p.mapEnd bias).toNat - (p.mapStart bias).toNat := by
  have hva := h.va
  have hmem := h.memory
  have hsum : (p.va bias + p.memsz).toNat = (p.va bias).toNat + p.memsz.toNat :=
    BitVec.toNat_add_of_lt (by omega)
  have hstart : (p.mapStart bias).toNat = (p.va bias).toNat / 4096 * 4096 := toNat_roundDn _
  have hend : (p.mapEnd bias).toNat = ((p.va bias).toNat + p.memsz.toNat + 4095) / 4096 * 4096 := by
    rw [mapEnd, toNat_roundUp (by omega), hsum]
  have hle : (p.mapStart bias).toNat ≤ (p.mapEnd bias).toNat := by omega
  refine ⟨by omega, by omega, hle, ?_⟩
  rw [maplen, BitVec.toNat_sub_of_le (by bv_omega)]

/-- With no more bytes in the file than in memory, the file's bytes are in the pages. -/
theorem NoWrap.file_pages (h : p.NoWrap bias) (hsz : p.filesz.toNat ≤ p.memsz.toNat) {a : BitVec 64}
    (ha : p.InFile bias a) : p.InPages bias a := by
  obtain ⟨hlow, hhigh, _, _⟩ := h.pages
  obtain ⟨h₁, h₂⟩ := ha
  exact ⟨by omega, by omega⟩

theorem NoWrap.va_add (h : p.NoWrap bias) (hsz : p.filesz.toNat ≤ p.memsz.toNat) {k : ℕ}
    (hk : k < p.filesz.toNat) :
    (p.va bias + BitVec.ofNat 64 k).toNat = (p.va bias).toNat + k := by
  have hva := h.va
  have hmem := h.memory
  exact toNat_add_ofNat (by omega)

theorem NoWrap.inRange_iff (h : p.NoWrap bias) (a : BitVec 64) :
    InRange (p.mapStart bias) (p.maplen bias) a ↔ p.InPages bias a := by
  obtain ⟨_, _, hle, hlen⟩ := h.pages
  rw [InRange, InPages, hlen]
  omega

end Phdr

section Load

variable {S : Substrate σ} {V : UserView σ} (hS : S.Meets V) {img : Image} {name : Bytes}

/-- The file's bytes are those of the image, where its range is within it. -/
theorem getElem?_slice {off : BitVec 64} {n : ℕ} (hlen : off.toNat + n ≤ img.bytes.length)
    (hwrap : off.toNat + n < 2 ^ 64) {k : ℕ} (hk : k < n) :
    (img.slice off n)[k]? = img.bytes[off.toNat + k]? := by
  have hoff : (off + BitVec.ofNat 64 k).toNat = off.toNat + k := toNat_add_ofNat (by omega)
  have hin : off.toNat + k < img.bytes.length := by omega
  rw [Image.slice, List.getElem?_map, List.getElem?_range hk, Option.map_some, Image.at_, hoff,
    List.getElem?_eq_getElem hin, Option.getD_some]

include hS

theorem copyFile_copies {p : Phdr} {bias : BitVec 64} {x x' : Loading σ} {u : Unit}
    (h : (copyFile S img p bias).run x = (.ok u, x')) :
    (∀ a, V.prot x'.sub a = V.prot x.sub a) ∧
    (∀ a k, a.toNat = (p.va bias).toNat + k → ∀ c,
      (img.slice p.offset p.filesz.toNat)[k]? = some c → V.byte x'.sub a = c) ∧
    ∀ a, ¬ p.InFile bias a → V.byte x'.sub a = V.byte x.sub a := by
  rw [copyFile] at h
  split_ifs at h with hempty
  · cases h
    refine ⟨fun _ => rfl, fun a k _ c hc => ?_, fun _ _ => rfl⟩
    rw [hempty] at hc
    simp [Image.slice] at hc
  · obtain ⟨_, y, hnote, h⟩ := of_run_bind h
    cases hnote
    obtain ⟨hcopy, _, _⟩ := of_run_onSub h
    obtain ⟨hprot, hbyte, hother⟩ := hS.copyOut _ _ _ _ _ hcopy
    refine ⟨hprot, hbyte, fun a ha => hother a fun k hk he => ha ?_⟩
    rw [Image.slice, List.length_map, List.length_range] at hk
    exact ⟨by omega, by omega⟩

theorem dropWrite_protects {p : Phdr} {bias addr : BitVec 64} {x x' : Loading σ} {u : Unit}
    (h : (dropWrite S p bias addr).run x = (.ok u, x')) :
    (∀ a, V.byte x'.sub a = V.byte x.sub a) ∧
    (∀ a, InRange addr (p.maplen bias) a → V.prot x.sub a = some (p.prot ||| SUB_PROT_WRITE) →
      V.prot x'.sub a = some p.prot) ∧
    ∀ a, ¬ InRange addr (p.maplen bias) a → V.prot x'.sub a = V.prot x.sub a := by
  rw [dropWrite] at h
  split_ifs at h with hsame
  · obtain ⟨hprotect, _, _⟩ := of_run_onSub h
    obtain ⟨hbyte, hin, hout⟩ := hS.protect _ _ _ _ _ _ hprotect
    exact ⟨hbyte, fun a ha _ => hin a ha, hout⟩
  · cases h
    refine ⟨fun _ => rfl, fun a _ ha => ?_, fun _ _ => rfl⟩
    rw [ha, ← not_not.mp hsame]

/-- One segment: it is in memory, and every other page is as it was. -/
theorem mapLoad_loads {p : Phdr} {bias : BitVec 64} (hwrap : p.NoWrap bias)
    (hlen : ¬ img.bytes.length < (p.offset + p.filesz).toNat) {x x' : Loading σ} {u : Unit}
    (h : (mapLoad S img name p bias).run x = (.ok u, x')) :
    p.Loaded bias V img x'.sub ∧ p.filesz.toNat ≤ p.memsz.toNat ∧
      ∀ a, ¬ p.InPages bias a → V.byte x'.sub a = V.byte x.sub a ∧ V.prot x'.sub a = V.prot x.sub a := by
  obtain ⟨hlow, hhigh, hle, hmaplen⟩ := hwrap.pages
  have hfile : p.offset.toNat + p.filesz.toNat ≤ img.bytes.length := by
    rw [BitVec.toNat_add_of_lt hwrap.file] at hlen
    omega
  rw [mapLoad] at h
  by_cases hsz : p.memsz < p.filesz
  · rw [if_pos hsz] at h
    cases h
  rw [if_neg hsz] at h
  have hsz : p.filesz.toNat ≤ p.memsz.toNat := by bv_omega
  by_cases hzero : p.maplen bias = 0
  · rw [if_pos hzero] at h
    cases h
    rw [hzero] at hmaplen
    have hmaplen : 0 = (p.mapEnd bias).toNat - (p.mapStart bias).toNat := hmaplen
    refine ⟨⟨fun k hk => by omega, fun a ha => ?_, fun a ha => ?_⟩, hsz, fun _ _ => ⟨rfl, rfl⟩⟩
    · exact absurd ha (by rw [Phdr.InPages]; omega)
    · exact absurd ha (by rw [Phdr.InPages]; omega)
  rw [if_neg hzero] at h
  obtain ⟨base, y, hmap, h⟩ := of_run_bind h
  obtain ⟨z, hasMap, rfl⟩ := of_run_mapRange hmap
  obtain ⟨rfl, hfresh, houtside⟩ := hS.map _ _ _ _ _ _ hasMap
  obtain ⟨_, y₁, hcopy, h⟩ := of_run_bind h
  obtain ⟨hprot₁, hbyte₁, hother₁⟩ := copyFile_copies hS hcopy
  obtain ⟨_, y₂, hdrop, h⟩ := of_run_bind h
  obtain ⟨hbyte₂, hin₂, hout₂⟩ := dropWrite_protects hS hdrop
  obtain ⟨_, y₃, hrecord, h⟩ := of_run_bind h
  cases h
  rw [run_recordRange] at hrecord
  cases hrecord
  refine ⟨⟨fun k hk => ?_, fun a ha hnot => ?_, fun a ha => ?_⟩, hsz, fun a ha => ⟨?_, ?_⟩⟩
  · have hin : p.offset.toNat + k < img.bytes.length := by omega
    have hbyte : (img.slice p.offset p.filesz.toNat)[k]? = some (img.bytes[p.offset.toNat + k]) := by
      rw [getElem?_slice hfile hwrap.file hk, List.getElem?_eq_getElem hin]
    rw [List.getElem?_eq_getElem hin, hbyte₂, hbyte₁ _ k (hwrap.va_add hsz hk) _ hbyte]
  · rw [hbyte₂, hother₁ a hnot]
    exact (hfresh a ((hwrap.inRange_iff a).mpr ha)).1
  · have hin := (hwrap.inRange_iff a).mpr ha
    refine hin₂ a hin ?_
    rw [hprot₁]
    exact (hfresh a hin).2
  · have hout := fun h => ha ((hwrap.inRange_iff a).mp h)
    rw [hbyte₂, hother₁ a fun h => ha (hwrap.file_pages hsz h)]
    exact (houtside a hout).1
  · have hout := fun h => ha ((hwrap.inRange_iff a).mp h)
    rw [hout₂ a hout, hprot₁]
    exact (houtside a hout).2

end Load

section Bounds

instance (img : Image) : DecidablePred img.LoadsAt :=
  fun i => inferInstanceAs (Decidable ((img.phdr (img.ehdr.headerAt i)).type = PT_LOAD))

def Image.header (img : Image) (i : ℕ) : Phdr := img.phdr (img.ehdr.headerAt i)

/-- The bounds `r` are `b` widened to the segments of some headers: the least start and the greatest
end, or what they were. -/
structure Spans (img : Image) (is : List ℕ) (b r : Bounds) : Prop where
  lo_le : r.lo ≤ b.lo
  le_hi : b.hi ≤ r.hi
  lo_least : ∀ i ∈ is, img.LoadsAt i → r.lo ≤ (img.header i).mapStart img.ehdr.bias
  hi_greatest : ∀ i ∈ is, img.LoadsAt i → (img.header i).mapEnd img.ehdr.bias ≤ r.hi
  lo_mem : r.lo = b.lo ∨ ∃ i ∈ is, img.LoadsAt i ∧ r.lo = (img.header i).mapStart img.ehdr.bias
  hi_mem : r.hi = b.hi ∨ ∃ i ∈ is, img.LoadsAt i ∧ r.hi = (img.header i).mapEnd img.ehdr.bias
  mapped : r.mapped ≠ b.mapped → ∃ i ∈ is, img.LoadsAt i

variable {img : Image} {is : List ℕ} {b r : Bounds} {i : ℕ}

theorem Spans.refl (img : Image) (b : Bounds) : Spans img [] b b where
  lo_le := BitVec.le_refl _
  le_hi := BitVec.le_refl _
  lo_least _ h := by cases h
  hi_greatest _ h := by cases h
  lo_mem := .inl rfl
  hi_mem := .inl rfl
  mapped h := absurd rfl h

theorem Spans.skip (hi : ¬ img.LoadsAt i) (h : Spans img is b r) : Spans img (i :: is) b r where
  lo_le := h.lo_le
  le_hi := h.le_hi
  lo_least := List.forall_mem_cons.mpr ⟨fun hl => (hi hl).elim, h.lo_least⟩
  hi_greatest := List.forall_mem_cons.mpr ⟨fun hl => (hi hl).elim, h.hi_greatest⟩
  lo_mem := h.lo_mem.imp_right fun ⟨j, hj, hl⟩ => ⟨j, List.mem_cons_of_mem _ hj, hl⟩
  hi_mem := h.hi_mem.imp_right fun ⟨j, hj, hl⟩ => ⟨j, List.mem_cons_of_mem _ hj, hl⟩
  mapped hm := by
    obtain ⟨j, hj, hl⟩ := h.mapped hm
    exact ⟨j, List.mem_cons_of_mem _ hj, hl⟩

theorem Bounds.widen_lo (b : Bounds) (p : Phdr) (bias : BitVec 64) :
    (b.widen p bias).lo ≤ b.lo ∧ (b.widen p bias).lo ≤ p.mapStart bias ∧
      ((b.widen p bias).lo = b.lo ∨ (b.widen p bias).lo = p.mapStart bias) := by
  simp only [Bounds.widen]
  split_ifs with h
  · exact ⟨by bv_omega, BitVec.le_refl _, .inr rfl⟩
  · exact ⟨BitVec.le_refl _, BitVec.not_lt.mp h, .inl rfl⟩

theorem Bounds.widen_hi (b : Bounds) (p : Phdr) (bias : BitVec 64) :
    b.hi ≤ (b.widen p bias).hi ∧ p.mapEnd bias ≤ (b.widen p bias).hi ∧
      ((b.widen p bias).hi = b.hi ∨ (b.widen p bias).hi = p.mapEnd bias) := by
  simp only [Bounds.widen]
  split_ifs with h
  · exact ⟨by bv_omega, BitVec.le_refl _, .inr rfl⟩
  · exact ⟨BitVec.le_refl _, BitVec.not_lt.mp h, .inl rfl⟩

theorem Spans.load (hi : img.LoadsAt i) (h : Spans img is (b.widen (img.header i) img.ehdr.bias) r) :
    Spans img (i :: is) b r := by
  obtain ⟨hlo, hlow, hlo_mem⟩ := b.widen_lo (img.header i) img.ehdr.bias
  obtain ⟨hhi, hhigh, hhi_mem⟩ := b.widen_hi (img.header i) img.ehdr.bias
  refine ⟨BitVec.le_trans h.lo_le hlo, BitVec.le_trans hhi h.le_hi, ?_, ?_, ?_, ?_, ?_⟩
  · exact List.forall_mem_cons.mpr ⟨fun _ => BitVec.le_trans h.lo_le hlow, h.lo_least⟩
  · exact List.forall_mem_cons.mpr ⟨fun _ => BitVec.le_trans hhigh h.le_hi, h.hi_greatest⟩
  · rcases h.lo_mem with hr | ⟨j, hj, hl⟩
    · rcases hlo_mem with hw | hw
      · exact .inl (hr.trans hw)
      · exact .inr ⟨i, List.mem_cons_self, hi, hr.trans hw⟩
    · exact .inr ⟨j, List.mem_cons_of_mem _ hj, hl⟩
  · rcases h.hi_mem with hr | ⟨j, hj, hl⟩
    · rcases hhi_mem with hw | hw
      · exact .inl (hr.trans hw)
      · exact .inr ⟨i, List.mem_cons_self, hi, hr.trans hw⟩
    · exact .inr ⟨j, List.mem_cons_of_mem _ hj, hl⟩
  · exact fun _ => ⟨i, List.mem_cons_self, hi⟩

end Bounds

section Headers

variable {S : Substrate σ} {V : UserView σ} {img : Image} {name : Bytes}

/-- What is in a segment's pages decides whether it is in memory. -/
theorem Phdr.Loaded.congr {p : Phdr} {bias : BitVec 64} {x y : σ} (h : p.Loaded bias V img x)
    (hwrap : p.NoWrap bias) (hsz : p.filesz.toNat ≤ p.memsz.toNat)
    (hsame : ∀ a, p.InPages bias a → V.byte y a = V.byte x a ∧ V.prot y a = V.prot x a) :
    p.Loaded bias V img y where
  file k hk := by
    have hat := hwrap.va_add hsz hk
    rw [(hsame _ (hwrap.file_pages hsz ⟨by omega, by omega⟩)).1]
    exact h.file k hk
  zero a ha hnot := by rw [(hsame a ha).1]; exact h.zero a ha hnot
  prot a ha := by rw [(hsame a ha).2]; exact h.prot a ha

/-- A segment in memory is the same in any two memories. -/
theorem Phdr.Loaded.unique {p : Phdr} {bias : BitVec 64} {x y : σ} (hx : p.Loaded bias V img x)
    (hy : p.Loaded bias V img y) {a : BitVec 64} (ha : p.InPages bias a) :
    V.byte x a = V.byte y a ∧ V.prot x a = V.prot y a := by
  refine ⟨?_, by rw [hx.prot a ha, hy.prot a ha]⟩
  by_cases hfile : p.InFile bias a
  · obtain ⟨h₁, h₂⟩ := hfile
    have hat : p.va bias + BitVec.ofNat 64 (a.toNat - (p.va bias).toNat) = a := by
      apply BitVec.eq_of_toNat_eq
      have hlt := a.isLt
      rw [toNat_add_ofNat (by omega)]
      omega
    have hboth := (hx.file (a.toNat - (p.va bias).toNat) (by omega)).symm.trans
      (hy.file (a.toNat - (p.va bias).toNat) (by omega))
    rw [hat] at hboth
    exact Option.some.inj hboth
  · rw [hx.zero a ha hfile, hy.zero a ha hfile]

def Image.Apart (img : Image) (i j : ℕ) : Prop :=
  img.LoadsAt i → img.LoadsAt j → ∀ a, (img.header i).InPages img.ehdr.bias a →
    ¬ (img.header j).InPages img.ehdr.bias a

theorem Image.apart_of_below {img : Image} {i j : ℕ} (h : ((img.header j).mapEnd img.ehdr.bias).toNat ≤
    ((img.header i).mapStart img.ehdr.bias).toNat) : img.Apart i j ∧ img.Apart j i := by
  have hnot : ∀ a, (img.header i).InPages img.ehdr.bias a → ¬ (img.header j).InPages img.ehdr.bias a :=
    fun a ha hb => absurd (Nat.lt_of_lt_of_le hb.2 h) (Nat.not_lt.mpr ha.1)
  exact ⟨fun _ _ => hnot, fun _ _ a hb ha => hnot a ha hb⟩

/-- The first pass over any headers. -/
theorem loadHeaders_loads (hS : S.Meets V) {is : List ℕ}
    (hwrap : ∀ i ∈ is, img.LoadsAt i → (img.header i).NoWrap img.ehdr.bias)
    (hapart : is.Pairwise img.Apart) {b r : Bounds} {x x' : Loading σ}
    (h : (loadHeaders S img name is b).run x = (.ok r, x')) :
    Spans img is b r ∧
    (∀ i ∈ is, img.LoadsAt i → (img.header i).Loaded img.ehdr.bias V img x'.sub ∧
      (img.header i).filesz.toNat ≤ (img.header i).memsz.toNat) ∧
    ∀ a, (∀ i ∈ is, img.LoadsAt i → ¬ (img.header i).InPages img.ehdr.bias a) →
      V.byte x'.sub a = V.byte x.sub a ∧ V.prot x'.sub a = V.prot x.sub a := by
  induction is generalizing b x with
  | nil =>
      cases h
      exact ⟨Spans.refl img _, fun i hi => (by cases hi), fun _ _ => ⟨rfl, rfl⟩⟩
  | cons i is ih =>
      obtain ⟨hhead, hrest⟩ := List.pairwise_cons.mp hapart
      obtain ⟨hwrapi, hwrap⟩ := List.forall_mem_cons.mp hwrap
      by_cases hload : img.LoadsAt i
      · by_cases hlen : img.bytes.length < ((img.header i).offset + (img.header i).filesz).toNat
        · rw [run_loadHeaders_refuse hload is b x hlen] at h
          cases h
        rw [run_loadHeaders_load hload is b x hlen] at h
        obtain ⟨_, y, hmap, h⟩ := of_run_bind h
        obtain ⟨hloaded, hsz, hother⟩ := mapLoad_loads hS (hwrapi hload) hlen hmap
        obtain ⟨_, z, hread, h⟩ := of_run_bind h
        cases hread
        obtain ⟨hspans, hall, houtside⟩ := ih hwrap hrest h
        refine ⟨hspans.load hload, ?_, fun a ha => ?_⟩
        · refine List.forall_mem_cons.mpr ⟨fun _ => ⟨?_, hsz⟩, hall⟩
          refine hloaded.congr (hwrapi hload) hsz fun a ha => houtside a fun j hj hl => ?_
          exact hhead j hj hload hl a ha
        · obtain ⟨hi, ha⟩ := List.forall_mem_cons.mp ha
          obtain ⟨hbyte, hprot⟩ := houtside a ha
          obtain ⟨hbyte', hprot'⟩ := hother a (hi hload)
          exact ⟨hbyte.trans hbyte', hprot.trans hprot'⟩
      · rw [run_loadHeaders_skip hload is b x] at h
        obtain ⟨hspans, hall, houtside⟩ := ih hwrap hrest h
        refine ⟨hspans.skip hload, ?_, fun a ha => houtside a (List.forall_mem_cons.mp ha).2⟩
        exact List.forall_mem_cons.mpr ⟨fun hl => (hload hl).elim, hall⟩

/-- The bounds are the lowest start and the highest end of the pages of all segments. -/
structure Image.SpannedBy (img : Image) (lo hi : BitVec 64) : Prop where
  lo_mem : ∃ i < img.ehdr.phnum.toNat, img.LoadsAt i ∧ lo = (img.header i).mapStart img.ehdr.bias
  lo_least : ∀ i < img.ehdr.phnum.toNat, img.LoadsAt i →
    lo ≤ (img.header i).mapStart img.ehdr.bias
  hi_mem : ∃ i < img.ehdr.phnum.toNat, img.LoadsAt i ∧ hi = (img.header i).mapEnd img.ehdr.bias
  hi_greatest : ∀ i < img.ehdr.phnum.toNat, img.LoadsAt i →
    (img.header i).mapEnd img.ehdr.bias ≤ hi

theorem Spans.spannedBy {is : List ℕ} (his : is.Perm (List.range img.ehdr.phnum.toNat)) {r : Bounds}
    (h : Spans img is Bounds.start r) (hmapped : r.mapped ≠ 0) : img.SpannedBy r.lo r.hi := by
  have hmem : ∀ i, i ∈ is ↔ i < img.ehdr.phnum.toNat := fun i => his.mem_iff.trans List.mem_range
  obtain ⟨i, hi, hload⟩ := h.mapped hmapped
  have htop : ∀ a : BitVec 64, a ≤ BitVec.allOnes 64 := by
    intro a
    rw [BitVec.le_def, BitVec.toNat_allOnes]
    have := a.isLt
    omega
  refine ⟨?_, fun j hj => h.lo_least j ((hmem j).mpr hj), ?_, fun j hj => h.hi_greatest j ((hmem j).mpr hj)⟩
  · rcases h.lo_mem with hlo | ⟨j, hj, hl⟩
    · refine ⟨i, (hmem i).mp hi, hload, ?_⟩
      have hle := h.lo_least i hi hload
      rw [hlo] at hle ⊢
      exact BitVec.le_antisymm hle (htop _)
    · exact ⟨j, (hmem j).mp hj, hl⟩
  · rcases h.hi_mem with hhi | ⟨j, hj, hl⟩
    · refine ⟨i, (hmem i).mp hi, hload, ?_⟩
      have hle := h.hi_greatest i hi hload
      rw [hhi] at hle ⊢
      exact BitVec.le_antisymm (by rw [BitVec.le_def]; exact Nat.zero_le _) hle
    · exact ⟨j, (hmem j).mp hj, hl⟩

theorem Image.SpannedBy.unique {lo hi lo' hi' : BitVec 64} (h : img.SpannedBy lo hi)
    (h' : img.SpannedBy lo' hi') : lo = lo' ∧ hi = hi' := by
  obtain ⟨i, hi, hil, rfl⟩ := h.lo_mem
  obtain ⟨j, hj, hjl, rfl⟩ := h'.lo_mem
  obtain ⟨k, hk, hkl, rfl⟩ := h.hi_mem
  obtain ⟨l, hl, hll, rfl⟩ := h'.hi_mem
  exact ⟨BitVec.le_antisymm (h.lo_least j hj hjl) (h'.lo_least i hi hil),
    BitVec.le_antisymm (h'.hi_greatest k hk hkl) (h.hi_greatest l hl hll)⟩

/-- The second pass only reads. -/
theorem findPhdrVa_reads (img : Image) (y : Loading σ) (is : List ℕ) :
    Keeps (fun x => ∃ fields, x = y.noting (fieldReads 0 fields)) (findPhdrVa img is)
      (fun _ => True) := by
  have hread : ∀ off fields, Keeps (fun x => ∃ fields, x = y.noting (fieldReads 0 fields))
      (readFields off fields) (fun _ => True) := by
    rintro off fields _ ⟨before, rfl⟩
    refine ⟨⟨fields.map (fun f => (off + f.1, f.2)) ++ before, ?_⟩, fun _ _ => trivial⟩
    rw [run_readFields]
    simp [Loading.noting, fieldReads, Function.comp_def]
  induction is with
  | nil => exact Keeps.pure trivial
  | cons i is ih =>
      rw [findPhdrVa]
      refine (hread _ _).bind fun _ _ => ?_
      split_ifs
      · exact ih
      · exact (hread _ _).bind fun _ _ => Keeps.pure trivial
      · exact (hread _ _).bind fun _ _ => ih

/-- What a load that succeeds comes to: the two passes over an admitted image. -/
theorem of_run_elfLoad {x x' : Loading σ} {info : LoadInfo}
    (h : (elfLoad S img name).run x = (.ok info, x')) :
    img.admitted = true ∧
    ∃ r y, (loadHeaders S img name (List.range img.ehdr.phnum.toNat) Bounds.start).run
        (x.noting (fieldReads 0 [(0, SIZEOF_EHDR)])) = (.ok r, y) ∧ r.mapped ≠ 0 ∧
      (findPhdrVa img (List.range img.ehdr.phnum.toNat)).run y = (.ok info.phdrVa, x') ∧
      info.entry = img.ehdr.entry + img.ehdr.bias ∧ info.loadBase = r.lo ∧ info.loadEnd = r.hi := by
  rw [elfLoad] at h
  by_cases hlen : img.bytes.length < SIZEOF_EHDR
  · rw [if_pos hlen] at h
    cases h
  rw [if_neg hlen, run_bind, run_readFields] at h
  dsimp only at h
  by_cases hadm : img.admitted = true
  · rw [if_pos hadm] at h
    obtain ⟨r, y, hheaders, h⟩ := of_run_bind h
    by_cases hnone : r.mapped = 0
    · rw [if_pos hnone] at h
      cases h
    rw [if_neg hnone] at h
    obtain ⟨va, z, hfind, h⟩ := of_run_bind h
    cases h
    exact ⟨hadm, r, y, hheaders, hnone, hfind, rfl, rfl, rfl⟩
  · rw [if_neg hadm] at h
    cases h

theorem of_run_findPhdrVa {is : List ℕ} {x x' : Loading σ} {va : BitVec 64}
    (h : (findPhdrVa img is).run x = (.ok va, x')) : ∃ fields, x' = x.noting (fieldReads 0 fields) := by
  have hreads := (findPhdrVa_reads img x is x ⟨[], rfl⟩).1
  rw [h] at hreads
  exact hreads

theorem pairwise_apart {is : List ℕ} (his : is.Perm (List.range img.ehdr.phnum.toNat))
    (hapart : ∀ i < img.ehdr.phnum.toNat, ∀ j < img.ehdr.phnum.toNat, i ≠ j → img.Apart i j) :
    is.Pairwise img.Apart := by
  have hnodup : is.Nodup := his.nodup_iff.mpr List.nodup_range
  have hmem : ∀ i ∈ is, i < img.ehdr.phnum.toNat := fun i hi =>
    List.mem_range.mp (his.mem_iff.mp hi)
  exact hnodup.imp_of_mem fun hi hj hne => hapart _ (hmem _ hi) _ (hmem _ hj) hne

/-- Memory after a load that succeeds. -/
theorem elfLoad_memory (hS : S.Meets V)
    (hwrap : ∀ i < img.ehdr.phnum.toNat, img.LoadsAt i → (img.header i).NoWrap img.ehdr.bias)
    (hapart : ∀ i < img.ehdr.phnum.toNat, ∀ j < img.ehdr.phnum.toNat, i ≠ j → img.Apart i j)
    {x x' : Loading σ} {info : LoadInfo} (h : (elfLoad S img name).run x = (.ok info, x')) :
    img.SpannedBy info.loadBase info.loadEnd ∧
    (∀ i < img.ehdr.phnum.toNat, img.LoadsAt i →
      (img.header i).Loaded img.ehdr.bias V img x'.sub ∧
        (img.header i).filesz.toNat ≤ (img.header i).memsz.toNat) ∧
    ∀ a, (∀ i < img.ehdr.phnum.toNat, img.LoadsAt i →
      ¬ (img.header i).InPages img.ehdr.bias a) →
        V.byte x'.sub a = V.byte x.sub a ∧ V.prot x'.sub a = V.prot x.sub a := by
  obtain ⟨_, r, y, hheaders, hmapped, hfind, _, hbase, hend⟩ := of_run_elfLoad h
  obtain ⟨fields, rfl⟩ := of_run_findPhdrVa hfind
  obtain ⟨hspans, hall, houtside⟩ := loadHeaders_loads hS
    (fun i hi => hwrap i (List.mem_range.mp hi)) (pairwise_apart (List.Perm.refl _) hapart) hheaders
  rw [hbase, hend]
  refine ⟨hspans.spannedBy (List.Perm.refl _) hmapped,
    fun i hi => hall i (List.mem_range.mpr hi), fun a ha => ?_⟩
  exact houtside a fun i hi => ha i (List.mem_range.mp hi)

/-- Loading an image whose segments do not wrap and share no page: every segment is in memory with
its protection and every other page is as it was, the entry and the bounds are the image's, and
the headers taken in any other order come to the same memory and the same bounds. -/
theorem elf_load_loads (hS : S.Meets V)
    (hwrap : ∀ i < img.ehdr.phnum.toNat, img.LoadsAt i → (img.header i).NoWrap img.ehdr.bias)
    (hapart : ∀ i < img.ehdr.phnum.toNat, ∀ j < img.ehdr.phnum.toNat, i ≠ j → img.Apart i j)
    {x x' : Loading σ} {info : LoadInfo} (h : (elfLoad S img name).run x = (.ok info, x')) :
    (∀ i < img.ehdr.phnum.toNat, img.LoadsAt i →
      (img.header i).Loaded img.ehdr.bias V img x'.sub) ∧
    (∀ a, (∀ i < img.ehdr.phnum.toNat, img.LoadsAt i →
      ¬ (img.header i).InPages img.ehdr.bias a) →
        V.byte x'.sub a = V.byte x.sub a ∧ V.prot x'.sub a = V.prot x.sub a) ∧
    info.entry = img.ehdr.entry + img.ehdr.bias ∧ img.SpannedBy info.loadBase info.loadEnd ∧
    ∀ is : List ℕ, is.Perm (List.range img.ehdr.phnum.toNat) → ∀ (w w' : Loading σ) (r : Bounds),
      w.sub = x.sub → (loadHeaders S img name is Bounds.start).run w = (.ok r, w') → r.mapped ≠ 0 →
        (∀ a, V.byte w'.sub a = V.byte x'.sub a ∧ V.prot w'.sub a = V.prot x'.sub a) ∧
        r.lo = info.loadBase ∧ r.hi = info.loadEnd := by
  obtain ⟨_, r, y, _, _, _, hentry, _, _⟩ := of_run_elfLoad h
  obtain ⟨hspanned, hall, houtside⟩ := elfLoad_memory hS hwrap hapart h
  refine ⟨fun i hi hl => (hall i hi hl).1, houtside, hentry, hspanned, ?_⟩
  intro is his w w' r' hw hrun hmapped'
  have hmem : ∀ i, i ∈ is ↔ i < img.ehdr.phnum.toNat := fun i => his.mem_iff.trans List.mem_range
  obtain ⟨hspans', hall', houtside'⟩ := loadHeaders_loads hS
    (fun i hi => hwrap i ((hmem i).mp hi)) (pairwise_apart his hapart) hrun
  refine ⟨fun a => ?_, (hspans'.spannedBy his hmapped').unique hspanned⟩
  by_cases hin : ∃ i ∈ is, img.LoadsAt i ∧ (img.header i).InPages img.ehdr.bias a
  · obtain ⟨i, hi, hload, hpages⟩ := hin
    exact (hall' i hi hload).1.unique (hall i ((hmem i).mp hi) hload).1 hpages
  · have hnone : ∀ i ∈ is, img.LoadsAt i → ¬ (img.header i).InPages img.ehdr.bias a :=
      fun i hi hl hp => hin ⟨i, hi, hl, hp⟩
    obtain ⟨hbyte', hprot'⟩ := houtside' a hnone
    obtain ⟨hbyte, hprot⟩ := houtside a fun i hi => hnone i ((hmem i).mpr hi)
    rw [hbyte', hprot', hbyte, hprot, hw]
    exact ⟨rfl, rfl⟩

end Headers

structure FlatMemory where
  byte : BitVec 64 → UInt8
  prot : BitVec 64 → Option UInt32

instance (base len a : BitVec 64) : Decidable (InRange base len a) :=
  inferInstanceAs (Decidable (_ ∧ _))

def FlatMemory.map (m : FlatMemory) (addr len : BitVec 64) (prot : UInt32) : FlatMemory where
  byte a := if InRange addr len a then 0 else m.byte a
  prot a := if InRange addr len a then some prot else m.prot a

def FlatMemory.protect (m : FlatMemory) (addr len : BitVec 64) (prot : UInt32) : FlatMemory :=
  { m with prot := fun a => if InRange addr len a then some prot else m.prot a }

def FlatMemory.copyOut (m : FlatMemory) (va : BitVec 64) (bs : Bytes) : FlatMemory :=
  { m with byte := fun a =>
      if va.toNat ≤ a.toNat then bs[a.toNat - va.toNat]?.getD (m.byte a) else m.byte a }

def flat : Substrate FlatMemory where
  asMap addr len _ prot := ExceptT.mk fun m => (.ok addr, m.map addr len prot)
  asUnmap _ _ := pure ()
  asProtect addr len prot := ExceptT.mk fun m => (.ok (), m.protect addr len prot)
  userCopyOut va bs := ExceptT.mk fun m => (.ok (), m.copyOut va bs)
  threadStart _ _ _ _ := pure ()

def flatView : UserView FlatMemory := ⟨FlatMemory.byte, FlatMemory.prot⟩

theorem flat_meets : flat.Meets flatView where
  map addr len prot x base x' h := by
    cases h
    refine ⟨rfl, fun a ha => ⟨if_pos ha, if_pos ha⟩, fun a ha => ⟨if_neg ha, if_neg ha⟩⟩
  protect addr len prot x u x' h := by
    cases h
    exact ⟨fun _ => rfl, fun a ha => if_pos ha, fun a ha => if_neg ha⟩
  copyOut va bs x u x' h := by
    cases h
    refine ⟨fun _ => rfl, fun a k hk c hc => ?_, fun a ha => ?_⟩
    · change (if va.toNat ≤ a.toNat then bs[a.toNat - va.toNat]?.getD (x.byte a) else x.byte a) = c
      rw [if_pos (by omega), show a.toNat - va.toNat = k by omega, hc, Option.getD_some]
    · change (if va.toNat ≤ a.toNat then bs[a.toNat - va.toNat]?.getD (x.byte a) else x.byte a) =
        x.byte a
      split_ifs with hle
      · have hout : bs.length ≤ a.toNat - va.toNat := by
          by_contra hlt
          exact ha (a.toNat - va.toNat) (by omega) (by omega)
        rw [List.getElem?_eq_none hout, Option.getD_none]
      · rfl

/-- An executable whose data come first among the headers and last in memory: two bytes of them are in the
file, the rest of the sixteen are not. -/
def dataFirstImage : Image where
  bytes := [0x7f, 0x45, 0x4c, 0x46, 2, 1, 1, 0, 0, 0, 0, 0, 0, 0, 0, 0, 2, 0, 62, 0, 1, 0, 0, 0,
    0xb0, 0, 0x40, 0, 0, 0, 0, 0, 64, 0, 0, 0, 0, 0, 0, 0, 0, 0, 0, 0, 0, 0, 0, 0,
    0, 0, 0, 0, 64, 0, 56, 0, 2, 0, 0, 0, 0, 0, 0, 0,
    1, 0, 0, 0, 6, 0, 0, 0, 178, 0, 0, 0, 0, 0, 0, 0, 0xb2, 0x10, 0x40, 0, 0, 0, 0, 0,
    0xb2, 0x10, 0x40, 0, 0, 0, 0, 0, 2, 0, 0, 0, 0, 0, 0, 0, 16, 0, 0, 0, 0, 0, 0, 0,
    0, 0x10, 0, 0, 0, 0, 0, 0,
    1, 0, 0, 0, 5, 0, 0, 0, 176, 0, 0, 0, 0, 0, 0, 0, 0xb0, 0, 0x40, 0, 0, 0, 0, 0,
    0xb0, 0, 0x40, 0, 0, 0, 0, 0, 2, 0, 0, 0, 0, 0, 0, 0, 2, 0, 0, 0, 0, 0, 0, 0,
    0, 0x10, 0, 0, 0, 0, 0, 0, 0xeb, 0xfe, 0x2a, 0x2b]
  beyond _ := 0
  length_lt := by decide +kernel

theorem dataFirst_headers : dataFirstImage.ehdr.phnum.toNat = 2 ∧ dataFirstImage.ehdr.bias = 0 ∧
    dataFirstImage.header 0 = ⟨1, 6, 178, 0x4010b2, 2, 16⟩ ∧
      dataFirstImage.header 1 = ⟨1, 5, 176, 0x4000b0, 2, 2⟩ := ⟨rfl, rfl, rfl, rfl⟩

theorem dataFirst_noWrap {i : ℕ} (hi : i < 2) : (dataFirstImage.header i).NoWrap dataFirstImage.ehdr.bias := by
  obtain ⟨-, hbias, hdata, hcode⟩ := dataFirst_headers
  rw [hbias]
  obtain rfl | rfl : i = 0 ∨ i = 1 := by omega
  · rw [hdata]
    exact ⟨by decide, by decide⟩
  · rw [hcode]
    exact ⟨by decide, by decide⟩

theorem dataFirst_apart {i j : ℕ} (hi : i < 2) (hj : j < 2) (hne : i ≠ j) : dataFirstImage.Apart i j := by
  obtain ⟨-, hbias, hdata, hcode⟩ := dataFirst_headers
  have hbelow : ((dataFirstImage.header 1).mapEnd dataFirstImage.ehdr.bias).toNat ≤
      ((dataFirstImage.header 0).mapStart dataFirstImage.ehdr.bias).toNat := by
    rw [hbias, hdata, hcode]
    decide
  obtain ⟨hfirst, hsecond⟩ := Image.apart_of_below hbelow
  obtain ⟨rfl, rfl⟩ | ⟨rfl, rfl⟩ : i = 0 ∧ j = 1 ∨ i = 1 ∧ j = 0 := by omega
  · exact hfirst
  · exact hsecond

theorem elf_load_loads_dataFirstImage :
    ∃ info x' r w', (elfLoad flat dataFirstImage []).run (Loading.start ⟨fun _ => 0xcc, fun _ => none⟩) =
        (.ok info, x') ∧
      (loadHeaders flat dataFirstImage [] [1, 0] Bounds.start).run (Loading.start ⟨fun _ => 0xcc, fun _ => none⟩) =
        (.ok r, w') ∧
      (dataFirstImage.header 0).Loaded dataFirstImage.ehdr.bias flatView dataFirstImage x'.sub ∧
      (dataFirstImage.header 1).Loaded dataFirstImage.ehdr.bias flatView dataFirstImage x'.sub ∧
      flatView.byte x'.sub 0x4010b4 = 0 ∧ info.entry = 0x4000b0 ∧
      (∀ a, flatView.byte w'.sub a = flatView.byte x'.sub a ∧ flatView.prot w'.sub a = flatView.prot x'.sub a) ∧
      r.lo = info.loadBase ∧ r.hi = info.loadEnd := by
  obtain ⟨hnum, hbias, hdata, -⟩ := dataFirst_headers
  have hload : ((elfLoad flat dataFirstImage []).run
      (Loading.start ⟨fun _ => 0xcc, fun _ => none⟩)).1.toOption.map LoadInfo.phnum = some 2 := by
    decide +kernel
  have hother : ((loadHeaders flat dataFirstImage [] [1, 0] Bounds.start).run
      (Loading.start ⟨fun _ => 0xcc, fun _ => none⟩)).1.toOption.map Bounds.mapped = some 2 := by
    decide +kernel
  obtain ⟨info, x', hrun, -⟩ := of_answered hload
  obtain ⟨r, w', hreversed, hmapped⟩ := of_answered hother
  have hall := elf_load_loads flat_meets (fun i hi _ => dataFirst_noWrap (hnum ▸ hi))
    (fun i hi j hj => dataFirst_apart (hnum ▸ hi) (hnum ▸ hj)) hrun
  have hperm : [1, 0].Perm (List.range dataFirstImage.ehdr.phnum.toNat) := by
    rw [hnum]
    decide
  have horder := hall.2.2.2.2 _ hperm _ _ _ rfl hreversed (by rw [hmapped]; decide)
  have hfirst := hall.1 0 (by omega) (by decide)
  have hbss : flatView.byte x'.sub 0x4010b4 = 0 := by
    rw [hbias, hdata] at hfirst
    exact hfirst.zero _ ⟨by decide, by decide⟩ fun h => absurd h.2 (by decide)
  exact ⟨info, x', r, w', hrun, hreversed, hfirst, hall.1 1 (by omega) (by decide), hbss, hall.2.2.1, horder⟩

end SysvNt
