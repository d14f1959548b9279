import SysvNt.ElfMemory
import SysvNt.ExecEnter

/-!
# Whether the tree of ranges tells the truth

A load and an entry that succeed have realised some ranges through `as_map`; the tree is truthful
if it records exactly these, each with the protection in force on its pages. The loader does not
look at what `vma_record` answers, so the tree is truthful exactly when nothing can be refused:
the segments with pages share none, and with the stack and the vDSO there are no more of them
than the tree holds.
-/

namespace SysvNt

open FallibleCalls

variable {σ : Type}

def realised : List Access → List (BitVec 64 × BitVec 64)
  | [] => []
  | .map base len :: log => (base, len) :: realised log
  | .unmap base len :: log => (realised log).erase (base, len)
  | _ :: log => realised log

def InSpan (start stop a : BitVec 64) : Prop := start ≤ a ∧ a < stop

/-- What the contract says of the protection of pages: a requested base is honoured, and where the
substrate chooses, it chooses free pages; a range ends below the last address; and `as_map` and
`as_protect` alone change a protection, that of the pages they are given. -/
structure Substrate.Charts (S : Substrate σ) (prot : σ → BitVec 64 → Option UInt32) : Prop where
  map : ∀ addr len kind p x base x', (S.asMap addr len kind p).run x = (.ok base, x') →
    (addr ≠ 0 → base = addr) ∧ base.toNat + len.toNat < 2 ^ 64 ∧
    (addr = 0 → ∀ a, InSpan base (base + len) a → prot x a = none) ∧
    (∀ a, InSpan base (base + len) a → prot x' a = some p) ∧
    ∀ a, ¬ InSpan base (base + len) a → prot x' a = prot x a
  protect : ∀ addr len p x u x', (S.asProtect addr len p).run x = (.ok u, x') →
    (∀ a, InSpan addr (addr + len) a → prot x' a = some p) ∧
    ∀ a, ¬ InSpan addr (addr + len) a → prot x' a = prot x a
  copyOut : ∀ va bs x u x', (S.userCopyOut va bs).run x = (.ok u, x') → prot x' = prot x
  threadStart : ∀ tid rip rsp tls x u x', (S.threadStart tid rip rsp tls).run x = (.ok u, x') →
    prot x' = prot x

/-- The tree records exactly the ranges realised, each with the protection in force. -/
structure TreeTruthful (prot : σ → BitVec 64 → Option UInt32) (x : Loading σ) : Prop where
  ranges : (x.vmas.ranges.map fun v => (v.start, v.stop)).Perm
    ((realised x.log).map fun r => (r.1, r.1 + r.2))
  inForce : ∀ v ∈ x.vmas.ranges, ∀ a, InSpan v.start v.stop a → prot x.sub a = some v.prot

theorem realised_reads (off : BitVec 64) (fields : List (BitVec 64 × ℕ)) (log : List Access) :
    realised (fieldReads off fields ++ log) = realised log := by
  induction fields with
  | nil => rfl
  | cons f fields ih => exact ih

theorem TreeTruthful.reading {prot : σ → BitVec 64 → Option UInt32} {x : Loading σ}
    (h : TreeTruthful prot x) {off : BitVec 64} {fields : List (BitVec 64 × ℕ)} :
    TreeTruthful prot (x.noting (fieldReads off fields)) where
  ranges := by
    rw [show (x.noting (fieldReads off fields)).log = fieldReads off fields ++ x.log from rfl,
      realised_reads]
    exact h.ranges
  inForce := h.inForce

def SpansApart (r s : BitVec 64 × BitVec 64) : Prop := r.2 ≤ s.1 ∨ s.2 ≤ r.1

instance : DecidableRel SpansApart := fun _ _ => inferInstanceAs (Decidable (_ ∨ _))

theorem SpansApart.symm {r s : BitVec 64 × BitVec 64} (h : SpansApart r s) : SpansApart s r := Or.symm h

/-- Two spans that are not empty are apart if no address is in both. -/
theorem spansApart_of_disjoint {r s : BitVec 64 × BitVec 64} (hr : r.1 < r.2) (hs : s.1 < s.2)
    (h : ∀ a, InSpan r.1 r.2 a → ¬ InSpan s.1 s.2 a) : SpansApart r s := by
  by_contra hover
  simp only [SpansApart, not_or, BitVec.not_le] at hover
  by_cases hle : r.1 ≤ s.1
  · exact h s.1 ⟨hle, hover.1⟩ ⟨BitVec.le_refl _, hs⟩
  · exact h r.1 ⟨BitVec.le_refl _, hr⟩ ⟨by bv_omega, hover.2⟩

theorem SpansApart.disjoint {r s : BitVec 64 × BitVec 64} (h : SpansApart r s) {a : BitVec 64}
    (ha : InSpan r.1 r.2 a) : ¬ InSpan s.1 s.2 a := by
  rintro ⟨h₁, h₂⟩
  obtain ⟨h₃, h₄⟩ := ha
  rcases h with h | h <;> bv_omega

def Vma.span (v : Vma) : BitVec 64 × BitVec 64 := (v.start, v.stop)

def rangeSpan (r : BitVec 64 × BitVec 64) : BitVec 64 × BitVec 64 := (r.1, r.1 + r.2)

/-- From one state to the other one range was mapped, ended up with a protection, and was given to
`vma_record`, whatever that answered. -/
structure MapsOne (prot : σ → BitVec 64 → Option UInt32) (x x' : Loading σ) (base len : BitVec 64)
    (p : UInt32) : Prop where
  fits : base.toNat + len.toNat < 2 ^ 64
  realised : realised x'.log = (base, len) :: SysvNt.realised x.log
  inside : ∀ a, InSpan base (base + len) a → prot x'.sub a = some p
  outside : ∀ a, ¬ InSpan base (base + len) a → prot x'.sub a = prot x.sub a
  recorded : ∃ kind off name, x'.vmas = (x.vmas.record base len p kind off name).getD x.vmas

namespace MapsOne

variable {prot : σ → BitVec 64 → Option UInt32} {x x' : Loading σ} {base len : BitVec 64} {p : UInt32}

theorem ordered (h : MapsOne prot x x' base len p) (hlen : len ≠ 0) : base < base + len := by
  have := h.fits
  bv_omega

theorem of_reading {off : BitVec 64} {fields : List (BitVec 64 × ℕ)}
    (h : MapsOne prot (x.noting (fieldReads off fields)) x' base len p) : MapsOne prot x x' base len p where
  fits := h.fits
  realised := by
    rw [h.realised]
    exact congrArg _ (realised_reads off fields x.log)
  inside := h.inside
  outside := h.outside
  recorded := h.recorded

/-- What is recorded afterwards is the range, or was recorded before. -/
theorem span_mem (h : MapsOne prot x x' base len p) {v : Vma} (hv : v ∈ x'.vmas.ranges) :
    v.span = (base, base + len) ∨ v ∈ x.vmas.ranges := by
  obtain ⟨kind, off, name, hrecord⟩ := h.recorded
  rw [hrecord] at hv
  cases hrefuses : x.vmas.refuses (VmaTree.rangeAt base len p kind off name) len with
  | true =>
      rw [VmaTree.record_eq_none hrefuses, Option.getD_none] at hv
      exact .inr hv
  | false =>
      obtain ⟨t, ht, hperm⟩ := VmaTree.record_eq_some hrefuses
      rw [ht, Option.getD_some] at hv
      rcases List.mem_cons.mp (hperm.mem_iff.mp hv) with rfl | hv
      · exact .inl rfl
      · exact .inr hv

/-- A range that is apart from those recorded, while there is room, is recorded. -/
theorem truthful (h : MapsOne prot x x' base len p) (hx : TreeTruthful prot x) (hlen : len ≠ 0)
    (hroom : x.vmas.ranges.length < VMA_MAX)
    (hapart : ∀ v ∈ x.vmas.ranges, SpansApart (base, base + len) v.span) :
    TreeTruthful prot x' ∧ x'.vmas.ranges.length = x.vmas.ranges.length + 1 := by
  obtain ⟨kind, off, name, hrecord⟩ := h.recorded
  have hord := h.ordered hlen
  have hgrants : x.vmas.refuses (VmaTree.rangeAt base len p kind off name) len = false := by
    refine VmaTree.refuses_eq_false_of hlen ?_ hroom hapart
    change base ≤ base + len
    bv_omega
  obtain ⟨t, ht, hperm⟩ := VmaTree.record_eq_some hgrants
  rw [ht, Option.getD_some] at hrecord
  rw [hrecord]
  refine ⟨⟨?_, fun v hv a ha => ?_⟩, by rw [hperm.length_eq, List.length_cons]⟩
  · rw [hrecord, h.realised]
    refine (hperm.map _).trans ?_
    exact (hx.ranges.cons (base, base + len))
  · rw [hrecord] at hv
    rcases List.mem_cons.mp (hperm.mem_iff.mp hv) with rfl | hv
    · exact h.inside a ha
    · have hout : ¬ InSpan base (base + len) a := (hapart v hv).symm.disjoint ha
      rw [h.outside a hout]
      exact hx.inForce v hv a ha

end MapsOne

section Calls

variable {S : Substrate σ} {prot : σ → BitVec 64 → Option UInt32} (hS : S.Charts prot) {img : Image}
  {name : Bytes}

include hS

theorem copyFile_charts {p : Phdr} {bias : BitVec 64} {x x' : Loading σ} {u : Unit}
    (h : (copyFile S img p bias).run x = (.ok u, x')) :
    prot x'.sub = prot x.sub ∧ realised x'.log = realised x.log ∧ x'.vmas = x.vmas := by
  rw [copyFile] at h
  split_ifs at h with hempty
  · cases h
    exact ⟨rfl, rfl, rfl⟩
  · obtain ⟨_, y, hnote, h⟩ := of_run_bind h
    cases hnote
    obtain ⟨hcopy, hlog, hvmas⟩ := of_run_onSub h
    refine ⟨hS.copyOut _ _ _ _ _ hcopy, ?_, hvmas⟩
    rw [hlog]
    rfl

theorem dropWrite_charts {p : Phdr} {bias addr : BitVec 64} {x x' : Loading σ} {u : Unit}
    (h : (dropWrite S p bias addr).run x = (.ok u, x')) :
    (∀ a, InSpan addr (addr + p.maplen bias) a → prot x.sub a = some (p.prot ||| SUB_PROT_WRITE) →
      prot x'.sub a = some p.prot) ∧
    (∀ a, ¬ InSpan addr (addr + p.maplen bias) a → prot x'.sub a = prot x.sub a) ∧
    x'.log = x.log ∧ x'.vmas = x.vmas := by
  rw [dropWrite] at h
  split_ifs at h with hsame
  · obtain ⟨hprotect, hlog, hvmas⟩ := of_run_onSub h
    obtain ⟨hin, hout⟩ := hS.protect _ _ _ _ _ _ hprotect
    exact ⟨fun a ha _ => hin a ha, hout, hlog, hvmas⟩
  · cases h
    refine ⟨fun a _ ha => ?_, fun _ _ => rfl, rfl, rfl⟩
    rw [ha, ← not_not.mp hsame]

/-- A segment with pages maps one range: at its start, or, where that is the null page, at a base of the
substrate's choice. -/
theorem mapLoad_mapsOne {p : Phdr} {bias : BitVec 64} (hlen : p.maplen bias ≠ 0) {x x' : Loading σ} {u : Unit}
    (h : (mapLoad S img name p bias).run x = (.ok u, x')) :
    ∃ base, (p.mapStart bias ≠ 0 → base = p.mapStart bias) ∧ MapsOne prot x x' base (p.maplen bias) p.prot := by
  rw [mapLoad] at h
  by_cases hsz : p.memsz < p.filesz
  · rw [if_pos hsz] at h
    cases h
  rw [if_neg hsz, if_neg hlen] at h
  obtain ⟨base, y, hmap, h⟩ := of_run_bind h
  obtain ⟨z, hasMap, rfl⟩ := of_run_mapRange hmap
  obtain ⟨hbase, hfits, _, hin, hout⟩ := hS.map _ _ _ _ _ _ _ hasMap
  refine ⟨base, hbase, ?_⟩
  obtain ⟨_, y₁, hcopy, h⟩ := of_run_bind h
  obtain ⟨hprot₁, hlog₁, hvmas₁⟩ := copyFile_charts hS hcopy
  obtain ⟨_, y₂, hdrop, h⟩ := of_run_bind h
  obtain ⟨hin₂, hout₂, hlog₂, hvmas₂⟩ := dropWrite_charts hS hdrop
  obtain ⟨_, y₃, hrecord, h⟩ := of_run_bind h
  cases h
  rw [run_recordRange] at hrecord
  cases hrecord
  refine ⟨hfits, ?_, fun a ha => ?_, fun a ha => ?_, ?_⟩
  · change realised y₂.log = _
    rw [hlog₂, hlog₁]
    rfl
  · refine hin₂ a ha ?_
    rw [hprot₁]
    exact hin a ha
  · change prot y₂.sub a = _
    rw [hout₂ a ha, hprot₁]
    exact hout a ha
  · have hv : y₂.vmas = x.vmas := hvmas₂.trans hvmas₁
    rw [hv]
    exact ⟨_, _, _, rfl⟩

omit hS in
theorem mapLoad_empty {p : Phdr} {bias : BitVec 64} (hlen : p.maplen bias = 0) {x x' : Loading σ}
    {u : Unit} (h : (mapLoad S img name p bias).run x = (.ok u, x')) : x' = x := by
  rw [mapLoad] at h
  by_cases hsz : p.memsz < p.filesz
  · rw [if_pos hsz] at h
    cases h
  rw [if_neg hsz, if_pos hlen] at h
  cases h
  rfl

omit hS in
theorem of_run_orUnmap {base : BitVec 64} {m : Call Unit (Loading σ) Unit} {x x' : Loading σ}
    {u : Unit} (h : (orUnmap S base m).run x = (.ok u, x')) : m.run x = (.ok (), x') := by
  obtain ⟨r, y, hm, h⟩ := of_run_bind h
  have hm := of_run_attempt hm
  cases r with
  | ok v =>
      cases h
      exact hm
  | error e =>
      obtain ⟨_, z, _, h⟩ := of_run_bind h
      cases h

/-- A vDSO that is mapped is recorded. -/
theorem vdsoMap_mapsOne {x x' : Loading σ} {base : BitVec 64}
    (h : (vdsoMap S).run x = (.ok base, x')) :
    MapsOne prot x x' base (BitVec.ofNat 64 VDSO_SIZE) (SUB_PROT_READ ||| SUB_PROT_EXEC) ∧
      ∀ a, InSpan base (base + BitVec.ofNat 64 VDSO_SIZE) a → prot x.sub a = none := by
  obtain ⟨b, y, hmap, h⟩ := of_run_bind h
  obtain ⟨z, hasMap, rfl⟩ := of_run_mapRange hmap
  obtain ⟨_, hfits, hfree, hin, hout⟩ := hS.map _ _ _ _ _ _ _ hasMap
  obtain ⟨_, y₁, hcopy, h⟩ := of_run_bind h
  obtain ⟨_, _, hnote, hcopy⟩ := of_run_bind (of_run_orUnmap hcopy)
  cases hnote
  obtain ⟨hcopy, hlog₁, hvmas₁⟩ := of_run_onSub hcopy
  have hprot₁ := hS.copyOut _ _ _ _ _ hcopy
  obtain ⟨_, y₂, hprotect, h⟩ := of_run_bind h
  obtain ⟨hprotect, hlog₂, hvmas₂⟩ := of_run_onSub (of_run_orUnmap hprotect)
  obtain ⟨hin₂, hout₂⟩ := hS.protect _ _ _ _ _ _ hprotect
  obtain ⟨r, y₃, hrecord, h⟩ := of_run_bind h
  obtain ⟨_, y₄, hcheck, h⟩ := of_run_bind h
  cases h
  have hcheck := of_run_orUnmap hcheck
  have hsame : x' = y₃ := by
    split_ifs at hcheck
    · cases hcheck
      rfl
    · cases hcheck
  subst hsame
  rw [run_recordRange] at hrecord
  cases hrecord
  refine ⟨⟨hfits, ?_, hin₂, fun a ha => ?_, ?_⟩, hfree rfl⟩
  · change realised y₂.log = _
    rw [hlog₂, hlog₁]
    rfl
  · change prot y₂.sub a = _
    rw [hout₂ a ha, hprot₁]
    exact hout a ha
  · have hv : y₂.vmas = x.vmas := hvmas₂.trans hvmas₁
    rw [hv]
    exact ⟨_, _, _, rfl⟩

/-- An entry that succeeds maps the stack and the vDSO, each on pages that were free. -/
theorem execEnter_maps {li : LoadInfo} {gate : BitVec 64} {args : Argv} {tid : ℤ} {allocated : Bool}
    {x x' : Loading σ} {u : Unit} (h : (execEnter S li gate args tid allocated).run x = (.ok u, x')) :
    ∃ ub vb y z,
      MapsOne prot x y ub (BitVec.ofNat 64 STK_SIZE) (SUB_PROT_READ ||| SUB_PROT_WRITE) ∧
      (∀ a, InSpan ub (ub + BitVec.ofNat 64 STK_SIZE) a → prot x.sub a = none) ∧
      MapsOne prot y z vb (BitVec.ofNat 64 VDSO_SIZE) (SUB_PROT_READ ||| SUB_PROT_EXEC) ∧
      (∀ a, InSpan vb (vb + BitVec.ofNat 64 VDSO_SIZE) a → prot y.sub a = none) ∧
      x'.vmas = z.vmas ∧ prot x'.sub = prot z.sub ∧ realised x'.log = realised z.log := by
  obtain ⟨ub, y, hmap, h⟩ := of_run_bind h
  obtain ⟨w, hasMap, rfl⟩ := of_run_mapRange hmap
  obtain ⟨_, hfits, hfree, hin, hout⟩ := hS.map _ _ _ _ _ _ _ hasMap
  obtain ⟨r, y, hrecord, h⟩ := of_run_bind h
  rw [run_recordRange] at hrecord
  cases hrecord
  obtain ⟨vb, z, hvdso, h⟩ := of_run_bind h
  obtain ⟨hvmaps, hvfree⟩ := vdsoMap_mapsOne hS hvdso
  cases allocated with
  | false => cases h
  | true =>
      obtain ⟨_, y₁, hnote, h⟩ := of_run_bind h
      cases hnote
      obtain ⟨_, y₂, hcopy, h⟩ := of_run_bind h
      obtain ⟨hcopy, hlog₂, hvmas₂⟩ := of_run_onSub hcopy
      obtain ⟨hstart, hlog₃, hvmas₃⟩ := of_run_onSub h
      have hprot₂ := hS.copyOut _ _ _ _ _ hcopy
      have hprot₃ := hS.threadStart _ _ _ _ _ _ _ hstart
      refine ⟨ub, vb, _, z, ⟨hfits, rfl, hin, hout, _, _, _, rfl⟩, hfree rfl, hvmaps, hvfree, ?_, ?_, ?_⟩
      · rw [hvmas₃, hvmas₂]
      · rw [hprot₃, hprot₂]
      · rw [hlog₃, hlog₂]
        rfl

end Calls

namespace Image

variable (img : Image)

def MapsAt (i : ℕ) : Prop := img.LoadsAt i ∧ (img.header i).maplen img.ehdr.bias ≠ 0

instance : DecidablePred img.MapsAt := fun _ => inferInstanceAs (Decidable (_ ∧ _))

/-- A range that was realised for the i'th header: the segment's own, or, where it starts at the null page, one
of its length. -/
structure RealisedAs (i : ℕ) (r : BitVec 64 × BitVec 64) : Prop where
  start : (img.header i).mapStart img.ehdr.bias ≠ 0 → r.1 = (img.header i).mapStart img.ehdr.bias
  len : r.2 = (img.header i).maplen img.ehdr.bias

/-- The headers of segments with pages, of some. -/
def mapping (is : List ℕ) : List ℕ := is.filter (fun i => img.MapsAt i)

variable {img} {i : ℕ} {is : List ℕ}

theorem mapping_cons_of (h : img.MapsAt i) : img.mapping (i :: is) = i :: img.mapping is :=
  List.filter_cons_of_pos (by simpa using h)

theorem mapping_cons_of_not (h : ¬ img.MapsAt i) : img.mapping (i :: is) = img.mapping is :=
  List.filter_cons_of_neg (by simpa using h)

end Image

section Headers

variable {S : Substrate σ} {prot : σ → BitVec 64 → Option UInt32} {img : Image} {name : Bytes}

theorem SpansApart.of_free {x : Loading σ} (hx : TreeTruthful prot x) {base len : BitVec 64}
    (hord : base < base + len) (hfree : ∀ a, InSpan base (base + len) a → prot x.sub a = none) :
    ∀ v ∈ x.vmas.ranges, SpansApart (base, base + len) v.span := by
  intro v hv
  refine spansApart_of_disjoint hord (x.vmas.ordered v hv) fun a ha hin => ?_
  have hsome := hx.inForce v hv a hin
  rw [hfree a ha] at hsome
  cases hsome

/-- The first pass: the ranges realised, and, as long as they are apart and there is room, the
tree's truth. -/
theorem loadHeaders_maps (hS : S.Charts prot) {is : List ℕ} {b r : Bounds} {x x' : Loading σ}
    (h : (loadHeaders S img name is b).run x = (.ok r, x')) :
    ∃ rs, List.Forall₂ img.RealisedAs (img.mapping is) rs ∧ realised x'.log = rs.reverse ++ realised x.log ∧
      (TreeTruthful prot x → (rs.map rangeSpan).Pairwise SpansApart →
        (∀ r ∈ rs, ∀ v ∈ x.vmas.ranges, SpansApart (rangeSpan r) v.span) →
        x.vmas.ranges.length + rs.length ≤ VMA_MAX →
          TreeTruthful prot x' ∧ x'.vmas.ranges.length = x.vmas.ranges.length + rs.length) := by
  induction is generalizing b x with
  | nil =>
      cases h
      exact ⟨[], .nil, rfl, fun hx _ _ _ => ⟨hx, rfl⟩⟩
  | cons i is ih =>
      by_cases hload : img.LoadsAt i
      · by_cases hlen : img.bytes.length < ((img.header i).offset + (img.header i).filesz).toNat
        · rw [run_loadHeaders_refuse hload is b x hlen] at h
          cases h
        rw [run_loadHeaders_load hload is b x hlen] at h
        obtain ⟨_, y, hmap, h⟩ := of_run_bind h
        rw [run_bind, run_readFields] at h
        obtain ⟨rs, hrs, hlog, htree⟩ := ih h
        rw [show realised (y.noting (fieldReads (img.ehdr.headerAt i) [(16, 8), (40, 8)])).log =
          realised y.log from realised_reads _ _ _] at hlog
        by_cases hpages : (img.header i).maplen img.ehdr.bias = 0
        · have hnot : ¬ img.MapsAt i := fun hm => hm.2 hpages
          obtain rfl := mapLoad_empty hpages hmap
          rw [Image.mapping_cons_of_not hnot]
          exact ⟨rs, hrs, hlog, fun hx => htree hx.reading.reading.reading.reading⟩
        · have hmaps : img.MapsAt i := ⟨hload, hpages⟩
          obtain ⟨base, hbase, hone⟩ := mapLoad_mapsOne hS hpages hmap
          have hone := hone.of_reading.of_reading.of_reading
          rw [Image.mapping_cons_of hmaps]
          refine ⟨(base, (img.header i).maplen img.ehdr.bias) :: rs, hrs.cons ⟨hbase, rfl⟩, ?_,
            fun hx hapart hfree hroom => ?_⟩
          · rw [hlog, hone.realised, List.reverse_cons, List.append_assoc]
            rfl
          · rw [List.map_cons] at hapart
            obtain ⟨hhead, hapart⟩ := List.pairwise_cons.mp hapart
            obtain ⟨hfreei, hfree⟩ := List.forall_mem_cons.mp hfree
            rw [List.length_cons] at hroom ⊢
            obtain ⟨hy, hcount⟩ := hone.truthful hx hpages (by omega) hfreei
            have hfree : ∀ r ∈ rs, ∀ v ∈ y.vmas.ranges, SpansApart (rangeSpan r) v.span := by
              intro r hr v hv
              rcases hone.span_mem hv with hv | hv
              · rw [hv]
                exact (hhead _ (List.mem_map_of_mem hr)).symm
              · exact hfree r hr v hv
            have hroom : y.vmas.ranges.length + rs.length ≤ VMA_MAX := by omega
            obtain ⟨hx', hlength⟩ := htree hy.reading hapart hfree hroom
            refine ⟨hx', hlength.trans ?_⟩
            change y.vmas.ranges.length + _ = _
            omega
      · have hnot : ¬ img.MapsAt i := fun hm => hload hm.1
        rw [run_loadHeaders_skip hload is b x] at h
        obtain ⟨rs, hrs, hlog, htree⟩ := ih h
        rw [Image.mapping_cons_of_not hnot]
        exact ⟨rs, hrs, hlog, fun hx => htree hx.reading⟩

/-- The spans of the ranges realised have nothing in common and are no more than the tree holds, if
the tree is truthful. -/
theorem TreeTruthful.fits {x : Loading σ} (hx : TreeTruthful prot x) :
    ((realised x.log).map fun r => (r.1, r.1 + r.2)).Pairwise SpansApart ∧
      (realised x.log).length ≤ VMA_MAX := by
  have hspans : (x.vmas.ranges.map Vma.span).Pairwise SpansApart := by
    refine List.pairwise_map.mpr (x.vmas.sorted.imp fun h => ?_)
    exact .inl h
  refine ⟨(hx.ranges.pairwise_iff SpansApart.symm).mp hspans, ?_⟩
  have hlength := hx.ranges.length_eq
  rw [List.length_map, List.length_map] at hlength
  rw [← hlength]
  exact x.vmas.bounded

/-- After a load and an entry that succeed, the tree is truthful exactly if the ranges of the segments have
nothing in common and are, with the stack and the vDSO, no more than it holds. The range of a segment is
its own, unless it starts at the null page: there the substrate chooses. -/
theorem tree_truthful_iff (hS : S.Charts prot) {gate : BitVec 64} {args : Argv} {tid : ℤ} {allocated : Bool} {s : σ}
    {x' : Loading σ}
    (h : (loadAndEnter S img name gate args tid allocated).run (Loading.start s) = (.ok (), x')) :
    ∃ rs ub vb, List.Forall₂ img.RealisedAs (img.mapping (List.range img.ehdr.phnum.toNat)) rs ∧
      realised x'.log = (vb, BitVec.ofNat 64 VDSO_SIZE) :: (ub, BitVec.ofNat 64 STK_SIZE) :: rs.reverse ∧
      (TreeTruthful prot x' ↔ (rs.map rangeSpan).Pairwise SpansApart ∧ rs.length + 2 ≤ VMA_MAX) := by
  obtain ⟨info, w, hload, henter⟩ := of_run_bind h
  obtain ⟨_, r, y, hheaders, _, hfind, _, _, _⟩ := of_run_elfLoad hload
  obtain ⟨fields, rfl⟩ := of_run_findPhdrVa hfind
  obtain ⟨rs, hrs, hlog, htree⟩ := loadHeaders_maps hS hheaders
  obtain ⟨ub, vb, u, v, hstack, hstackFree, hvdso, hvdsoFree, hvmas, hprot, hrealised⟩ :=
    execEnter_maps hS henter
  have hstack := hstack.of_reading
  have hstart : TreeTruthful prot (Loading.start s) := ⟨List.Perm.nil, fun _ hv => by cases hv⟩
  have hall : realised x'.log = (vb, BitVec.ofNat 64 VDSO_SIZE) :: (ub, BitVec.ofNat 64 STK_SIZE) :: rs.reverse := by
    rw [hrealised, hvdso.realised, hstack.realised, hlog]
    exact congrArg (fun l => _ :: _ :: l) (List.append_nil _)
  refine ⟨rs, ub, vb, hrs, hall, fun htrue => ?_, ?_⟩
  · obtain ⟨hapart, hlength⟩ := htrue.fits
    rw [hall] at hapart hlength
    have hsegments := hapart.of_cons.of_cons
    rw [List.map_reverse, List.pairwise_reverse] at hsegments
    refine ⟨hsegments.imp fun h => h.symm, ?_⟩
    rw [List.length_cons, List.length_cons, List.length_reverse] at hlength
    exact hlength
  · rintro ⟨hapart, hlength⟩
    have hroom : (Loading.start s).vmas.ranges.length + rs.length ≤ VMA_MAX := by
      change 0 + _ ≤ _
      omega
    obtain ⟨hy, hcount⟩ := htree hstart.reading hapart (fun _ _ _ hv => by cases hv) hroom
    have hcount : y.vmas.ranges.length = rs.length := hcount.trans (Nat.zero_add _)
    have hstackLen : BitVec.ofNat 64 STK_SIZE ≠ 0 := by decide
    have hvdsoLen : BitVec.ofNat 64 VDSO_SIZE ≠ 0 := by decide
    obtain ⟨hu, hcountu⟩ := hstack.truthful hy hstackLen (by omega)
      (SpansApart.of_free hy (hstack.ordered hstackLen) hstackFree)
    obtain ⟨hv, _⟩ := hvdso.truthful hu hvdsoLen (by omega)
      (SpansApart.of_free hu (hvdso.ordered hvdsoLen) hvdsoFree)
    refine ⟨?_, ?_⟩
    · rw [hvmas, hrealised]
      exact hv.ranges
    · rw [hvmas, hprot]
      exact hv.inForce

end Headers

instance (start stop a : BitVec 64) : Decidable (InSpan start stop a) :=
  inferInstanceAs (Decidable (_ ∧ _))

/-- A chart of the protections, with an address from which on all is free. -/
structure Chart where
  prot : BitVec 64 → Option UInt32
  next : BitVec 64
  free : ∀ a, next ≤ a → prot a = none

namespace Chart

def empty : Chart := ⟨fun _ => none, 0x10000000, fun _ _ => rfl⟩

def cover (c : Chart) (start stop : BitVec 64) (p : UInt32) : Chart where
  prot a := if InSpan start stop a then some p else c.prot a
  next := if c.next ≤ stop then stop else c.next
  free a ha := by
    have hstop : stop ≤ a ∧ c.next ≤ a := by
      split_ifs at ha with h
      · exact ⟨ha, BitVec.le_trans h ha⟩
      · exact ⟨by bv_omega, ha⟩
    rw [if_neg (fun h => absurd h.2 (BitVec.not_lt.mpr hstop.1))]
    exact c.free a hstop.2

def asMap (c : Chart) (addr len : BitVec 64) (p : UInt32) : Except Unit (BitVec 64) × Chart :=
  let base := if addr = 0 then c.next else addr
  if base.toNat + len.toNat < 2 ^ 64 then (.ok base, c.cover base (base + len) p)
  else (.error (), c)

def substrate : Substrate Chart where
  asMap addr len _ p := ExceptT.mk fun c => c.asMap addr len p
  asUnmap _ _ := pure ()
  asProtect addr len p := ExceptT.mk fun c => (.ok (), c.cover addr (addr + len) p)
  userCopyOut _ _ := pure ()
  threadStart _ _ _ _ := pure ()

theorem substrate_charts : substrate.Charts Chart.prot where
  map addr len kind p c base c' h := by
    change c.asMap addr len p = _ at h
    rw [asMap] at h
    generalize hbase : (if addr = 0 then c.next else addr) = b at h
    by_cases hfits : b.toNat + len.toNat < 2 ^ 64
    · rw [if_pos hfits] at h
      cases h
      refine ⟨fun haddr => ?_, hfits, fun haddr a ha => ?_, fun a ha => if_pos ha, fun a ha => if_neg ha⟩
      · rw [← hbase, if_neg haddr]
      · rw [if_pos haddr] at hbase
        rw [← hbase] at ha
        exact c.free a ha.1
    · rw [if_neg hfits] at h
      cases h
  protect addr len p c u c' h := by
    cases h
    exact ⟨fun a ha => if_pos ha, fun a ha => if_neg ha⟩
  copyOut va bs c u c' h := by
    cases h
    rfl
  threadStart tid rip rsp tls c u c' h := by
    cases h
    rfl

end Chart

def noArgs : Argv where
  strings := []
  text _ h := by cases h
  strings_fit := by decide
  vector_fits := by decide

/-- An executable of two segments, sixteen bytes that ask for the null page and the code. -/
def nullPageImage : Image where
  bytes := [0x7f, 0x45, 0x4c, 0x46, 2, 1, 1, 0, 0, 0, 0, 0, 0, 0, 0, 0, 2, 0, 62, 0, 1, 0, 0, 0,
    0xb0, 0, 0x40, 0, 0, 0, 0, 0, 64, 0, 0, 0, 0, 0, 0, 0, 0, 0, 0, 0, 0, 0, 0, 0,
    0, 0, 0, 0, 64, 0, 56, 0, 2, 0, 0, 0, 0, 0, 0, 0,
    1, 0, 0, 0, 6, 0, 0, 0, 178, 0, 0, 0, 0, 0, 0, 0, 0x10, 0, 0, 0, 0, 0, 0, 0,
    0x10, 0, 0, 0, 0, 0, 0, 0, 0, 0, 0, 0, 0, 0, 0, 0, 16, 0, 0, 0, 0, 0, 0, 0,
    0, 0x10, 0, 0, 0, 0, 0, 0,
    1, 0, 0, 0, 5, 0, 0, 0, 176, 0, 0, 0, 0, 0, 0, 0, 0xb0, 0, 0x40, 0, 0, 0, 0, 0,
    0xb0, 0, 0x40, 0, 0, 0, 0, 0, 2, 0, 0, 0, 0, 0, 0, 0, 2, 0, 0, 0, 0, 0, 0, 0,
    0, 0x10, 0, 0, 0, 0, 0, 0, 0xeb, 0xfe]
  beyond _ := 0
  length_lt := by decide +kernel

/-- The first segment is put where the chart ends, apart from the second, and the tree has both. -/
theorem tree_truthful_nullPageImage :
    ∃ x', (loadAndEnter Chart.substrate nullPageImage [] 0 noArgs 1 true).run (Loading.start Chart.empty) =
        (.ok (), x') ∧ x'.vmas.ranges.length = 4 ∧ TreeTruthful Chart.prot x' := by
  have hok : ((loadAndEnter Chart.substrate nullPageImage [] 0 noArgs 1 true).run
      (Loading.start Chart.empty)).1.isOk = true := by decide +kernel
  have hlog : (realised ((loadAndEnter Chart.substrate nullPageImage [] 0 noArgs 1 true).run
      (Loading.start Chart.empty)).2.log).drop 2 = [(0x400000, 0x1000), (0x10000000, 0x1000)] := by decide +kernel
  have hcount : ((loadAndEnter Chart.substrate nullPageImage [] 0 noArgs 1 true).run
      (Loading.start Chart.empty)).2.vmas.ranges.length = 4 := by decide +kernel
  have hrun := run_of_isOk hok
  obtain ⟨rs, ub, vb, -, hall, htrue⟩ := tree_truthful_iff Chart.substrate_charts hrun
  rw [hall] at hlog
  have hrs : rs = [(0x10000000, 0x1000), (0x400000, 0x1000)] := by
    rw [← rs.reverse_reverse]
    exact congrArg List.reverse hlog
  subst hrs
  exact ⟨_, hrun, hcount, htrue.mpr ⟨by decide, by decide⟩⟩

/-- An executable of two segments in one page, the code and, written by nobody yet, its data. -/
def sharedPageImage : Image where
  bytes := [0x7f, 0x45, 0x4c, 0x46, 2, 1, 1, 0, 0, 0, 0, 0, 0, 0, 0, 0, 2, 0, 62, 0, 1, 0, 0, 0,
    0xb0, 0, 0x40, 0, 0, 0, 0, 0, 64, 0, 0, 0, 0, 0, 0, 0, 0, 0, 0, 0, 0, 0, 0, 0,
    0, 0, 0, 0, 64, 0, 56, 0, 2, 0, 0, 0, 0, 0, 0, 0,
    1, 0, 0, 0, 5, 0, 0, 0, 176, 0, 0, 0, 0, 0, 0, 0, 0xb0, 0, 0x40, 0, 0, 0, 0, 0,
    0xb0, 0, 0x40, 0, 0, 0, 0, 0, 2, 0, 0, 0, 0, 0, 0, 0, 2, 0, 0, 0, 0, 0, 0, 0,
    0, 0x10, 0, 0, 0, 0, 0, 0,
    1, 0, 0, 0, 6, 0, 0, 0, 178, 0, 0, 0, 0, 0, 0, 0, 0xb2, 0, 0x40, 0, 0, 0, 0, 0,
    0xb2, 0, 0x40, 0, 0, 0, 0, 0, 0, 0, 0, 0, 0, 0, 0, 0, 16, 0, 0, 0, 0, 0, 0, 0,
    0, 0x10, 0, 0, 0, 0, 0, 0, 0xeb, 0xfe]
  beyond _ := 0
  length_lt := by decide +kernel

/-- The load and the entry succeed, and the page of the two segments is recorded once. -/
theorem tree_untruthful_sharedPageImage :
    Chart.substrate.Charts Chart.prot ∧
    ∃ x', (loadAndEnter Chart.substrate sharedPageImage [] 0 noArgs 1 true).run
        (Loading.start Chart.empty) = (.ok (), x') ∧ ¬ TreeTruthful Chart.prot x' := by
  have hok : ((loadAndEnter Chart.substrate sharedPageImage [] 0 noArgs 1 true).run
      (Loading.start Chart.empty)).1.isOk = true := by decide +kernel
  refine ⟨Chart.substrate_charts, _, run_of_isOk hok, fun htrue => ?_⟩
  have hlength := htrue.ranges.length_eq
  revert hlength
  decide +kernel

end SysvNt
