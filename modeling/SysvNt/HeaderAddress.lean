import SysvNt.ElfMemory

/-!
# Where the program finds its headers

The address that a load reports is that of the table's first byte in the first segment whose file
range has it. Nothing asks whether that segment goes on to the table's end: past the segment's bytes
the program reads whatever else is there. Nor does anything keep a table at address zero apart from a
table that is in no segment.
-/

namespace SysvNt

open FallibleCalls

variable {σ : Type}

/-- The byte a program reads at an address, if it has a page there. -/
def UserView.at (V : UserView σ) (x : σ) (a : BitVec 64) : Option UInt8 :=
  (V.prot x a).map fun _ => V.byte x a

def Phdr.Has (p : Phdr) (off : ℕ) : Prop :=
  p.offset.toNat ≤ off ∧ off < p.offset.toNat + p.filesz.toNat

instance (p : Phdr) (off : ℕ) : Decidable (p.Has off) := inferInstanceAs (Decidable (_ ∧ _))

instance (p : Phdr) (bias a : BitVec 64) : Decidable (p.InPages bias a) :=
  inferInstanceAs (Decidable (_ ∧ _))

instance (p : Phdr) (bias a : BitVec 64) : Decidable (p.InFile bias a) :=
  inferInstanceAs (Decidable (_ ∧ _))

namespace Phdr

variable (p : Phdr) (bias : BitVec 64)

def addressOf (off : BitVec 64) : BitVec 64 := p.vaddr + bias + (off - p.offset)

def byteAt (img : Image) (a : BitVec 64) : Option UInt8 :=
  if p.InFile bias a then img.bytes[p.offset.toNat + (a.toNat - (p.va bias).toNat)]? else some 0

variable {p bias}

theorem NoWrap.has_iff (h : p.NoWrap bias) (off : BitVec 64) :
    p.Has off.toNat ↔ p.offset ≤ off ∧ off < p.offset + p.filesz := by
  rw [Has, BitVec.le_def, BitVec.lt_def, BitVec.toNat_add_of_lt h.file]

theorem NoWrap.toNat_addressOf (h : p.NoWrap bias) (hsz : p.filesz.toNat ≤ p.memsz.toNat)
    {off : BitVec 64} (hoff : p.Has off.toNat) :
    (p.addressOf bias off).toNat = (p.va bias).toNat + (off.toNat - p.offset.toNat) := by
  obtain ⟨hlow, hhigh⟩ := hoff
  have hmem := h.memory
  have hva := h.va
  have hsub : (off - p.offset).toNat = off.toNat - p.offset.toNat :=
    BitVec.toNat_sub_of_le hlow
  change (p.va bias + (off - p.offset)).toNat = _
  rw [BitVec.toNat_add_of_lt (by omega), hsub]

/-- A segment in memory shows its bytes to the program. -/
theorem Loaded.at {V : UserView σ} {img : Image} {x : σ} (h : p.Loaded bias V img x) {a : BitVec 64}
    (ha : p.InPages bias a) : V.at x a = p.byteAt bias img a := by
  rw [UserView.at, h.prot a ha, Option.map_some, byteAt]
  split_ifs with hfile
  · obtain ⟨hlow, hhigh⟩ := hfile
    have hat : p.va bias + BitVec.ofNat 64 (a.toNat - (p.va bias).toNat) = a := by
      apply BitVec.eq_of_toNat_eq
      have hlt := a.isLt
      rw [toNat_add_ofNat (by omega)]
      omega
    rw [h.file (a.toNat - (p.va bias).toNat) (by omega), hat]
  · rw [h.zero a ha hfile]

/-- The file's bytes are where their offsets are seen. -/
theorem NoWrap.byteAt_addressOf (h : p.NoWrap bias) (hsz : p.filesz.toNat ≤ p.memsz.toNat) (img : Image)
    {off : BitVec 64} {k : ℕ} (hoff : p.Has off.toNat) (hk : p.Has (off.toNat + k)) :
    p.InPages bias (p.addressOf bias off + BitVec.ofNat 64 k) ∧
      p.byteAt bias img (p.addressOf bias off + BitVec.ofNat 64 k) = img.bytes[off.toNat + k]? := by
  have haddr := h.toNat_addressOf hsz hoff
  have hmem := h.memory
  have hva := h.va
  obtain ⟨hlow, _⟩ := hoff
  obtain ⟨_, hhigh⟩ := hk
  have hsum : (p.addressOf bias off + BitVec.ofNat 64 k).toNat =
      (p.va bias).toNat + (off.toNat + k - p.offset.toNat) := by
    rw [toNat_add_ofNat (by omega)]
    omega
  have hfile : p.InFile bias (p.addressOf bias off + BitVec.ofNat 64 k) :=
    ⟨by omega, by omega⟩
  refine ⟨h.file_pages hsz hfile, ?_⟩
  rw [byteAt, if_pos hfile, hsum]
  congr 1
  omega

end Phdr

namespace Image

variable (img : Image)

/-- The length of the table of program headers, and its bytes. -/
def tableLen : ℕ := img.ehdr.phnum.toNat * img.ehdr.phentsize.toNat

def tableByte (k : ℕ) : Option UInt8 := img.bytes[img.ehdr.phoff.toNat + k]?

/-- The segment to load whose file range has the table's first byte, the first of them. -/
def covering : Option ℕ :=
  (List.range img.ehdr.phnum.toNat).find? fun i =>
    img.LoadsAt i ∧ (img.header i).Has img.ehdr.phoff.toNat

def HasTable (i : ℕ) : Prop :=
  img.LoadsAt i ∧ ∀ k < img.tableLen, (img.header i).Has (img.ehdr.phoff.toNat + k)

/-- Memory with the image over what it held: in a segment's pages what the segment puts there. -/
def laidOver (held : BitVec 64 → Option UInt8) (a : BitVec 64) : Option UInt8 :=
  match (List.range img.ehdr.phnum.toNat).find? fun i =>
      img.LoadsAt i ∧ (img.header i).InPages img.ehdr.bias a with
  | some i => (img.header i).byteAt img.ehdr.bias img a
  | none => held a

/-- Where the segment with the table's first byte puts it at zero, no segment has the whole table;
where it puts it elsewhere, the image over what memory held has the table's bytes after those of
the segment too. -/
def TableReachable (held : BitVec 64 → Option UInt8) : Prop :=
  ∀ i, img.covering = some i →
    ((img.header i).addressOf img.ehdr.bias img.ehdr.phoff = 0 →
      ∀ j < img.ehdr.phnum.toNat, ¬ img.HasTable j) ∧
    ((img.header i).addressOf img.ehdr.bias img.ehdr.phoff ≠ 0 → ∀ k < img.tableLen,
      ¬ (img.header i).Has (img.ehdr.phoff.toNat + k) →
        img.laidOver held ((img.header i).addressOf img.ehdr.bias img.ehdr.phoff + BitVec.ofNat 64 k) =
          img.tableByte k)

variable {img}

theorem covering_spec {i : ℕ} (h : img.covering = some i) :
    i < img.ehdr.phnum.toNat ∧ img.LoadsAt i ∧ (img.header i).Has img.ehdr.phoff.toNat := by
  refine ⟨List.mem_range.mp (List.mem_of_find?_eq_some h), ?_⟩
  simpa using List.find?_some h

theorem tableLen_pos (hadm : img.admitted = true) {i : ℕ} (hi : i < img.ehdr.phnum.toNat) :
    0 < img.tableLen := by
  have hsize : SIZEOF_PHDR ≤ img.ehdr.phentsize.toNat := by
    simp only [admitted, Bool.and_eq_true, decide_eq_true_eq] at hadm
    exact hadm.1.2
  have hpos : 0 < SIZEOF_PHDR := by decide
  exact Nat.mul_pos (by omega) (by omega)

/-- A table that no segment has the start of is whole in none. -/
theorem not_hasTable (hadm : img.admitted = true) (hnone : img.covering = none) {j : ℕ}
    (hj : j < img.ehdr.phnum.toNat) : ¬ img.HasTable j := by
  rintro ⟨hload, hhas⟩
  have hstart := hhas 0 (tableLen_pos hadm hj)
  rw [Nat.add_zero] at hstart
  have hnot := List.find?_eq_none.mp hnone j (List.mem_range.mpr hj)
  simp [hload, hstart] at hnot

end Image

/-- The reported address can be trusted: where it is not zero the program reads the whole table from
it, and it is not zero if some segment has the whole table. -/
structure HeadersTrusted (V : UserView σ) (img : Image) (va : BitVec 64) (x : σ) : Prop where
  held : va ≠ 0 → ∀ k < img.tableLen, V.at x (va + BitVec.ofNat 64 k) = img.tableByte k
  found : (∃ i < img.ehdr.phnum.toNat, img.HasTable i) → va ≠ 0

section Load

variable {S : Substrate σ} {V : UserView σ} {img : Image} {name : Bytes}

/-- The second pass over any headers. -/
theorem va_of_run_findPhdrVa {is : List ℕ}
    (hwrap : ∀ i ∈ is, img.LoadsAt i → (img.header i).NoWrap img.ehdr.bias) {x x' : Loading σ}
    {va : BitVec 64} (h : (findPhdrVa img is).run x = (.ok va, x')) :
    va = ((is.find? fun i => img.LoadsAt i ∧ (img.header i).Has img.ehdr.phoff.toNat).map fun i =>
      (img.header i).addressOf img.ehdr.bias img.ehdr.phoff).getD 0 := by
  induction is generalizing x with
  | nil =>
      cases h
      rfl
  | cons i is ih =>
      obtain ⟨hwrapi, hwrap⟩ := List.forall_mem_cons.mp hwrap
      rw [findPhdrVa, run_bind, run_readFields] at h
      dsimp only at h
      by_cases hload : img.LoadsAt i
      · have htype : ¬ (img.phdr (img.ehdr.headerAt i)).type ≠ PT_LOAD := not_not_intro hload
        have hiff : (img.header i).Has img.ehdr.phoff.toNat ↔
            (img.phdr (img.ehdr.headerAt i)).offset ≤ img.ehdr.phoff ∧
              img.ehdr.phoff < (img.phdr (img.ehdr.headerAt i)).offset +
                (img.phdr (img.ehdr.headerAt i)).filesz := (hwrapi hload).has_iff _
        rw [if_neg htype, run_bind, run_readFields] at h
        dsimp only at h
        by_cases hhas : (img.header i).Has img.ehdr.phoff.toNat
        · rw [if_pos (hiff.mp hhas), run_pure] at h
          rw [List.find?_cons_of_pos (by simp [hload, hhas])]
          exact (Except.ok.inj (congrArg Prod.fst h)).symm
        · rw [if_neg fun hc => hhas (hiff.mpr hc)] at h
          rw [List.find?_cons_of_neg (by simp [hhas])]
          exact ih hwrap h
      · rw [if_pos (show (img.phdr (img.ehdr.headerAt i)).type ≠ PT_LOAD from hload)] at h
        rw [List.find?_cons_of_neg (by simp [hload])]
        exact ih hwrap h

/-- What the program reads after a load that succeeds is the image over what it read before. -/
theorem elfLoad_over (hS : S.Meets V)
    (hwrap : ∀ i < img.ehdr.phnum.toNat, img.LoadsAt i → (img.header i).NoWrap img.ehdr.bias)
    (hapart : ∀ i < img.ehdr.phnum.toNat, ∀ j < img.ehdr.phnum.toNat, i ≠ j → img.Apart i j)
    {x x' : Loading σ} {info : LoadInfo} (h : (elfLoad S img name).run x = (.ok info, x'))
    (a : BitVec 64) : V.at x'.sub a = img.laidOver (V.at x.sub) a := by
  obtain ⟨_, hall, houtside⟩ := elfLoad_memory hS hwrap hapart h
  rw [Image.laidOver]
  split
  · rename_i i hfind
    have hmem := List.mem_range.mp (List.mem_of_find?_eq_some hfind)
    obtain ⟨hload, hpages⟩ : img.LoadsAt i ∧ (img.header i).InPages img.ehdr.bias a := by
      simpa using List.find?_some hfind
    exact (hall i hmem hload).1.at hpages
  · rename_i hfind
    obtain ⟨hbyte, hprot⟩ := houtside a fun i hi hload hpages =>
      List.find?_eq_none.mp hfind i (List.mem_range.mpr hi) (by simp [hload, hpages])
    rw [UserView.at, hbyte, hprot, UserView.at]

/-- After a load that succeeds, of an image whose segments do not wrap and share no page, the
reported address can be trusted exactly if the table is reachable. -/
theorem elf_load_headers_trusted_iff (hS : S.Meets V)
    (hwrap : ∀ i < img.ehdr.phnum.toNat, img.LoadsAt i → (img.header i).NoWrap img.ehdr.bias)
    (hapart : ∀ i < img.ehdr.phnum.toNat, ∀ j < img.ehdr.phnum.toNat, i ≠ j → img.Apart i j)
    {x x' : Loading σ} {info : LoadInfo} (h : (elfLoad S img name).run x = (.ok info, x')) :
    HeadersTrusted V img info.phdrVa x'.sub ↔ img.TableReachable (V.at x.sub) := by
  have hover := elfLoad_over hS hwrap hapart h
  obtain ⟨hadm, r, y, _, _, hfind, _, _, _⟩ := of_run_elfLoad h
  obtain ⟨_, hall, _⟩ := elfLoad_memory hS hwrap hapart h
  have hva := va_of_run_findPhdrVa (fun i hi => hwrap i (List.mem_range.mp hi)) hfind
  change _ = (img.covering.map _).getD 0 at hva
  cases hcover : img.covering with
  | none =>
      rw [hcover] at hva
      refine ⟨fun _ i hi => ?_, fun _ => ⟨fun hne => (hne hva).elim, ?_⟩⟩
      · rw [hcover] at hi
        cases hi
      · rintro ⟨j, hj, htable⟩
        exact (Image.not_hasTable hadm hcover hj htable).elim
  | some i =>
      rw [hcover] at hva
      have hva : info.phdrVa = (img.header i).addressOf img.ehdr.bias img.ehdr.phoff := hva
      obtain ⟨hi, hload, hstart⟩ := Image.covering_spec hcover
      obtain ⟨hloaded, hsz⟩ := hall i hi hload
      have hinside : ∀ k, (img.header i).Has (img.ehdr.phoff.toNat + k) →
          V.at x'.sub (info.phdrVa + BitVec.ofNat 64 k) = img.tableByte k := by
        intro k hk
        obtain ⟨hpages, hbyte⟩ := (hwrap i hi hload).byteAt_addressOf hsz img hstart hk
        rw [hva, hloaded.at hpages, hbyte, Image.tableByte]
      constructor
      · intro htrust i' hi'
        obtain rfl : i = i' := Option.some.inj (hcover.symm.trans hi')
        rw [← hva]
        refine ⟨fun hzero j hj htable => htrust.found ⟨j, hj, htable⟩ hzero, fun hne k hk _ => ?_⟩
        rw [← hover]
        exact htrust.held hne k hk
      · intro hreach
        obtain ⟨hzero, hbeyond⟩ := hreach i hcover
        rw [← hva] at hzero hbeyond
        refine ⟨fun hne k hk => ?_, fun ⟨j, hj, htable⟩ hz => hzero hz j hj htable⟩
        by_cases hhas : (img.header i).Has (img.ehdr.phoff.toNat + k)
        · exact hinside k hhas
        · rw [hover]
          exact hbeyond hne k hk hhas

end Load

/-- An executable of one segment that takes the first n bytes of the file: 64 of the file header, 56
of the only program header, two of code. -/
def headImage (n : UInt8) : Image where
  bytes := [0x7f, 0x45, 0x4c, 0x46, 2, 1, 1, 0, 0, 0, 0, 0, 0, 0, 0, 0, 2, 0, 62, 0, 1, 0, 0, 0,
    0x78, 0, 0x40, 0, 0, 0, 0, 0, 64, 0, 0, 0, 0, 0, 0, 0, 0, 0, 0, 0, 0, 0, 0, 0,
    0, 0, 0, 0, 64, 0, 56, 0, 1, 0, 0, 0, 0, 0, 0, 0,
    1, 0, 0, 0, 5, 0, 0, 0, 0, 0, 0, 0, 0, 0, 0, 0, 0, 0, 0x40, 0, 0, 0, 0, 0,
    0, 0, 0x40, 0, 0, 0, 0, 0, n, 0, 0, 0, 0, 0, 0, 0, n, 0, 0, 0, 0, 0, 0, 0,
    0, 0x10, 0, 0, 0, 0, 0, 0, 0xeb, 0xfe]
  beyond _ := 0
  length_lt := show 122 < 2 ^ 63 by decide

def headLoading : Loading FlatMemory := Loading.start ⟨fun _ => 0, fun _ => none⟩

/-- An executable whose first header is of its data, behind the table in the file, and whose second is of
its headers and code. -/
def dataThenHeadsImage : Image where
  bytes := [0x7f, 0x45, 0x4c, 0x46, 2, 1, 1, 0, 0, 0, 0, 0, 0, 0, 0, 0, 2, 0, 62, 0, 1, 0, 0, 0,
    0xb0, 0, 0x40, 0, 0, 0, 0, 0, 64, 0, 0, 0, 0, 0, 0, 0, 0, 0, 0, 0, 0, 0, 0, 0,
    0, 0, 0, 0, 64, 0, 56, 0, 2, 0, 0, 0, 0, 0, 0, 0,
    1, 0, 0, 0, 6, 0, 0, 0, 178, 0, 0, 0, 0, 0, 0, 0, 0xb2, 0x10, 0x40, 0, 0, 0, 0, 0,
    0xb2, 0x10, 0x40, 0, 0, 0, 0, 0, 2, 0, 0, 0, 0, 0, 0, 0, 16, 0, 0, 0, 0, 0, 0, 0,
    0, 0x10, 0, 0, 0, 0, 0, 0,
    1, 0, 0, 0, 5, 0, 0, 0, 0, 0, 0, 0, 0, 0, 0, 0, 0, 0, 0x40, 0, 0, 0, 0, 0,
    0, 0, 0x40, 0, 0, 0, 0, 0, 178, 0, 0, 0, 0, 0, 0, 0, 178, 0, 0, 0, 0, 0, 0, 0,
    0, 0x10, 0, 0, 0, 0, 0, 0, 0xeb, 0xfe, 0x2a, 0x2b]
  beyond _ := 0
  length_lt := by decide +kernel

/-- The table is in the second segment, and the program reads all of it there. -/
theorem whole_table_trusted :
    dataThenHeadsImage.covering = some 1 ∧ dataThenHeadsImage.tableLen = 112 ∧
      ∃ info x', (elfLoad flat dataThenHeadsImage []).run headLoading = (.ok info, x') ∧ info.phdrVa = 0x400040 ∧
        HeadersTrusted flatView dataThenHeadsImage info.phdrVa x'.sub := by
  have hnum : dataThenHeadsImage.ehdr.phnum.toNat = 2 := rfl
  have hbias : dataThenHeadsImage.ehdr.bias = 0 := rfl
  have hdata : dataThenHeadsImage.header 0 = ⟨1, 6, 178, 0x4010b2, 2, 16⟩ := rfl
  have hheads : dataThenHeadsImage.header 1 = ⟨1, 5, 0, 0x400000, 178, 178⟩ := rfl
  have hoff : dataThenHeadsImage.ehdr.phoff.toNat = 64 := rfl
  have hlen : dataThenHeadsImage.tableLen = 112 := rfl
  have hcover : dataThenHeadsImage.covering = some 1 := by decide +kernel
  have hload : ((elfLoad flat dataThenHeadsImage []).run headLoading).1.toOption.map LoadInfo.phdrVa =
      some 0x400040 := by decide +kernel
  obtain ⟨info, x', hrun, hva⟩ := of_answered hload
  have hbelow : ((dataThenHeadsImage.header 1).mapEnd dataThenHeadsImage.ehdr.bias).toNat ≤
      ((dataThenHeadsImage.header 0).mapStart dataThenHeadsImage.ehdr.bias).toNat := by
    rw [hbias, hdata, hheads]
    decide
  obtain ⟨hfirst, hsecond⟩ := Image.apart_of_below hbelow
  refine ⟨hcover, hlen, info, x', hrun, hva, (elf_load_headers_trusted_iff flat_meets (fun i hi _ => ?_)
    (fun i hi j hj hne => ?_) hrun).mpr fun i hi => ?_⟩
  · obtain rfl | rfl : i = 0 ∨ i = 1 := by omega
    · rw [hdata, hbias]
      exact ⟨by decide, by decide⟩
    · rw [hheads, hbias]
      exact ⟨by decide, by decide⟩
  · obtain ⟨rfl, rfl⟩ | ⟨rfl, rfl⟩ : i = 0 ∧ j = 1 ∨ i = 1 ∧ j = 0 := by omega
    · exact hfirst
    · exact hsecond
  · obtain rfl : 1 = i := Option.some.inj (hcover.symm.trans hi)
    rw [hheads, hbias, hoff, hlen]
    refine ⟨fun hz => absurd hz (by decide), fun _ k hk hnot => absurd ?_ hnot⟩
    exact ⟨Nat.zero_le _, show 64 + k < 0 + 178 by omega⟩

set_option maxRecDepth 4096 in
/-- With a hundred bytes of it in the segment, the memory size of the only header reads zero. -/
theorem torn_table_untrusted :
    flat.Meets flatView ∧
    (∀ i < (headImage 100).ehdr.phnum.toNat, (headImage 100).LoadsAt i →
      ((headImage 100).header i).NoWrap (headImage 100).ehdr.bias) ∧
    (∀ i < (headImage 100).ehdr.phnum.toNat, ∀ j < (headImage 100).ehdr.phnum.toNat, i ≠ j →
      (headImage 100).Apart i j) ∧
    ∃ info x', (elfLoad flat (headImage 100) []).run headLoading = (.ok info, x') ∧
      ¬ HeadersTrusted flatView (headImage 100) info.phdrVa x'.sub := by
  have hnum : (headImage 100).ehdr.phnum.toNat = 1 := rfl
  have hbias : (headImage 100).ehdr.bias = 0 := rfl
  have hheader : (headImage 100).header 0 = ⟨1, 5, 0, 0x400000, 100, 100⟩ := rfl
  have hlen : (headImage 100).tableLen = 56 := rfl
  obtain ⟨info, x', hrun, hva, hread⟩ : ∃ info x', (elfLoad flat (headImage 100) []).run headLoading =
      (.ok info, x') ∧ info.phdrVa = 0x400040 ∧
        flatView.at x'.sub (0x400040 + BitVec.ofNat 64 40) = some 0 := ⟨_, _, rfl, rfl, rfl⟩
  refine ⟨flat_meets, fun i hi _ => ?_, fun i hi j hj hne => ?_, info, x', hrun, fun htrust => ?_⟩
  · obtain rfl : i = 0 := by omega
    rw [hheader, hbias]
    exact ⟨by decide, by decide⟩
  · omega
  · have hheld := htrust.held (by rw [hva]; decide) 40 (by rw [hlen]; decide)
    rw [hva, hread] at hheld
    exact absurd hheld (by decide)

end SysvNt
