import SysvNt.ElfLoad

/-!
# What the loader touches of a hostile image

A load is within bounds if it reads no byte outside the image and copies only into the range that
was mapped last. The checks of `elf_load` add 64-bit fields, so an image within its checks may
still lead it out of bounds; it does not exactly when the table of program headers does not wrap,
and no segment that is reached wraps its file range, starts at the null page or has more bytes in
the file than the pages that its memory size comes to.
-/

namespace SysvNt

open FallibleCalls

variable {σ α : Type}

def lastMap : List Access → Option (BitVec 64 × BitVec 64)
  | [] => none
  | .map base len :: _ => some (base, len)
  | _ :: log => lastMap log

/-- An access within an image of a length and the range mapped last, in numbers that do not wrap. -/
def Access.Within (length : ℕ) (last : Option (BitVec 64 × BitVec 64)) : Access → Prop
  | .read off n => off.toNat + n ≤ length
  | .copyOut va n => ∃ base len, last = some (base, len) ∧ base.toNat ≤ va.toNat ∧
      va.toNat + n ≤ base.toNat + len.toNat ∧ base.toNat + len.toNat ≤ 2 ^ 64
  | _ => True

def AllWithin (length : ℕ) : List Access → Prop
  | [] => True
  | a :: log => a.Within length (lastMap log) ∧ AllWithin length log

/-- What `as_map` promises: a requested base is the realised one, zero lets the substrate choose,
and a range lies in the address space. -/
def Substrate.Honours (S : Substrate σ) : Prop :=
  ∀ addr len kind prot x base x', (S.asMap addr len kind prot).run x = (.ok base, x') →
    (addr ≠ 0 → base = addr) ∧ base.toNat + len.toNat ≤ 2 ^ 64

namespace Phdr

/-- The segment makes `elf_load` give up: its file range is seen to end outside the image, it has
more bytes in the file than in memory, or no range so long starts where it does. -/
def Stops (p : Phdr) (bias : BitVec 64) (length : ℕ) : Prop :=
  length < (p.offset + p.filesz).toNat ∨ p.memsz < p.filesz ∨
    (p.maplen bias ≠ 0 ∧ 2 ^ 64 < (p.mapStart bias).toNat + (p.maplen bias).toNat)

/-- Where a segment has bytes in the file: their end does not wrap, the segment does not start at
the null page, and its bytes end within its pages. -/
def Fits (p : Phdr) (bias : BitVec 64) : Prop :=
  p.maplen bias ≠ 0 → p.filesz ≠ 0 → p.offset.toNat + p.filesz.toNat < 2 ^ 64 ∧
    p.mapStart bias ≠ 0 ∧
    (p.va bias).toNat + p.filesz.toNat ≤ (p.mapStart bias).toNat + (p.maplen bias).toNat

end Phdr

namespace Image

variable (img : Image)

def StopsAt (i : ℕ) : Prop :=
  img.LoadsAt i ∧ (img.phdr (img.ehdr.headerAt i)).Stops img.ehdr.bias img.bytes.length

/-- The condition on an image that passes the checks on its file header: the end of the table of
program headers does not wrap, and every segment fits that no earlier one stops the loader before. -/
def Fits : Prop :=
  SIZEOF_EHDR ≤ img.bytes.length → img.admitted = true →
    img.ehdr.phoff.toNat + img.ehdr.phnum.toNat * img.ehdr.phentsize.toNat < 2 ^ 64 ∧
    ∀ i < img.ehdr.phnum.toNat, (∀ j < i, ¬ img.StopsAt j) → img.LoadsAt i → ¬ img.StopsAt i →
      (img.phdr (img.ehdr.headerAt i)).Fits img.ehdr.bias

end Image

section Logs

variable {length : ℕ} {log : List Access}

theorem allWithin_reads {as : List Access} (h : ∀ a ∈ as, ∃ off n, a = .read off n ∧ off.toNat + n ≤ length)
    (hlog : AllWithin length log) : AllWithin length (as ++ log) ∧ lastMap (as ++ log) = lastMap log := by
  induction as with
  | nil => exact ⟨hlog, rfl⟩
  | cons a as ih =>
      obtain ⟨hrest, hlast⟩ := ih fun b hb => h b (List.mem_cons_of_mem _ hb)
      obtain ⟨off, n, rfl, hread⟩ := h a List.mem_cons_self
      exact ⟨⟨hread, hrest⟩, hlast⟩

theorem AllWithin.of_append {as : List Access} (h : AllWithin length (as ++ log)) :
    AllWithin length log := by
  induction as with
  | nil => exact h
  | cons a as ih => exact ih h.2

end Logs

section Calls

variable {P : List Access → Prop}

theorem onSub_keeps (m : Call Unit σ α) :
    Keeps (fun x : Loading σ => P x.log) (onSub m) (fun _ => True) :=
  fun _ hx => ⟨hx, fun _ _ => trivial⟩

theorem recordRange_keeps (start len : BitVec 64) (prot : UInt32) (kind : BackingKind)
    (offset : BitVec 64) (name : Bytes) :
    Keeps (fun x : Loading σ => P x.log) (recordRange start len prot kind offset name)
      (fun _ => True) := by
  intro x hx
  rw [KeepsAt, run_recordRange]
  exact ⟨hx, fun _ _ => trivial⟩

theorem note_keeps {as : List Access} (h : ∀ log, P log → P (as ++ log)) :
    Keeps (fun x : Loading σ => P x.log) (note as) (fun _ => True) :=
  fun x hx => ⟨h x.log hx, fun _ _ => trivial⟩

theorem mapRange_keeps (h : ∀ base len log, P log → P (.map base len :: log)) (S : Substrate σ)
    (addr len : BitVec 64) (kind : BackingKind) (prot : UInt32) :
    Keeps (fun x : Loading σ => P x.log) (mapRange S addr len kind prot) (fun _ => True) := by
  refine (onSub_keeps _).bind fun base _ => (note_keeps fun log => h base len log).bind fun _ _ => ?_
  exact Keeps.pure trivial

theorem dropWrite_keeps (S : Substrate σ) (p : Phdr) (bias addr : BitVec 64) :
    Keeps (fun x : Loading σ => P x.log) (dropWrite S p bias addr) (fun _ => True) := by
  rw [dropWrite]
  split_ifs
  · exact onSub_keeps _
  · exact Keeps.pure trivial

end Calls

section Inside

variable {S : Substrate σ} (hS : S.Honours) {img : Image} {name : Bytes}

theorem readFields_within {length : ℕ} {off : BitVec 64} {fields : List (BitVec 64 × ℕ)}
    (h : ∀ f ∈ fields, (off + f.1).toNat + f.2 ≤ length) :
    Keeps (fun x : Loading σ => AllWithin length x.log) (readFields off fields) (fun _ => True) := by
  refine note_keeps fun log hlog => (allWithin_reads ?_ hlog).1
  intro a ha
  obtain ⟨f, hf, rfl⟩ := List.mem_map.mp ha
  exact ⟨off + f.1, f.2, rfl, h f hf⟩

theorem mapStart_le (p : Phdr) (bias : BitVec 64) : (p.mapStart bias).toNat ≤ (p.va bias).toNat := by
  rw [Phdr.mapStart, toNat_roundDn]
  omega

include hS

/-- A segment that does not stop the loader and fits is loaded within bounds. -/
theorem mapLoad_within {p : Phdr} {bias : BitVec 64} {length : ℕ}
    (hfile : ¬ length < (p.offset + p.filesz).toNat)
    (hfits : ¬ p.Stops bias length → p.Fits bias) :
    Keeps (fun x : Loading σ => AllWithin length x.log) (mapLoad S img name p bias)
      (fun _ => ¬ p.Stops bias length) := by
  rw [mapLoad]
  by_cases hsz : p.memsz < p.filesz
  · rw [if_pos hsz]
    exact Keeps.throw
  rw [if_neg hsz]
  by_cases hlen : p.maplen bias = 0
  · rw [if_pos hlen]
    refine Keeps.pure ?_
    rintro (h | h | h)
    · exact hfile h
    · exact hsz h
    · exact h.1 hlen
  rw [if_neg hlen]
  intro x hx
  refine (mapRange_keeps (fun _ _ _ h => ⟨trivial, h⟩) S _ _ _ _ x hx).bind
    fun base y hmap hy _ => ?_
  obtain ⟨z, hrun, rfl⟩ := of_run_mapRange hmap
  obtain ⟨hbase, htop⟩ := hS _ _ _ _ _ _ _ hrun
  have hgoes : ¬ p.Stops bias length := by
    rintro (h | h | h)
    · exact hfile h
    · exact hsz h
    · by_cases hzero : p.mapStart bias = 0
      · rw [hzero] at h
        have := (p.maplen bias).isLt
        simp at h
        omega
      · rw [hbase hzero] at htop
        omega
  have hcopy : KeepsAt (fun x : Loading σ => AllWithin length x.log)
      { x with sub := z, log := .map base (p.maplen bias) :: x.log } (copyFile S img p bias)
      (fun _ => True) := by
    rw [copyFile]
    by_cases hempty : p.filesz = 0
    · rw [if_pos hempty]
      exact Keeps.pure trivial _ hy
    rw [if_neg hempty]
    obtain ⟨hwrap, hnull, hend⟩ := hfits hgoes hlen hempty
    have hread : p.offset.toNat + p.filesz.toNat ≤ length := by
      rw [BitVec.toNat_add_of_lt hwrap] at hfile
      omega
    refine KeepsAt.bind (Q := fun _ => True) ⟨⟨?_, hread, hy⟩, fun _ _ => trivial⟩
      fun _ _ _ hlog _ => onSub_keeps _ _ hlog
    have hstart := mapStart_le p bias
    rw [hbase hnull] at htop ⊢
    exact ⟨_, _, rfl, hstart, hend, htop⟩
  refine hcopy.bind fun _ y _ hy _ => (dropWrite_keeps S p bias base _ hy).bind fun _ y _ hy _ =>
    (recordRange_keeps _ _ _ _ _ _ _ hy).bind fun _ y _ hy _ => ?_
  exact ⟨hy, fun _ _ => hgoes⟩

omit hS in
/-- A field of a header lies in the table, and the table in the image. -/
theorem headerAt_field (hadm : img.admitted = true)
    (htable : img.ehdr.phoff.toNat + img.ehdr.phnum.toNat * img.ehdr.phentsize.toNat < 2 ^ 64)
    {i : ℕ} (hi : i < img.ehdr.phnum.toNat) {f : BitVec 64 × ℕ} (hf : f.1.toNat + f.2 ≤ SIZEOF_PHDR) :
    (img.ehdr.headerAt i + f.1).toNat + f.2 ≤ img.bytes.length := by
  simp only [Image.admitted, Bool.and_eq_true, decide_eq_true_eq] at hadm
  obtain ⟨⟨_, hsize⟩, hlen⟩ := hadm
  have hrow : (i + 1) * img.ehdr.phentsize.toNat ≤ img.ehdr.phnum.toNat * img.ehdr.phentsize.toNat :=
    Nat.mul_le_mul_right _ hi
  rw [Nat.succ_mul] at hrow
  rw [toNat_add_ofNat htable] at hlen
  have hat : (img.ehdr.headerAt i).toNat = img.ehdr.phoff.toNat + i * img.ehdr.phentsize.toNat :=
    toNat_add_ofNat (by omega)
  rw [BitVec.toNat_add_of_lt (by omega), hat]
  omega

variable (hadm : img.admitted = true)
  (htable : img.ehdr.phoff.toNat + img.ehdr.phnum.toNat * img.ehdr.phentsize.toNat < 2 ^ 64)
include hadm htable

omit hS in
theorem readHeader_within {i : ℕ} (hi : i < img.ehdr.phnum.toNat) {fields : List (BitVec 64 × ℕ)}
    (hf : ∀ f ∈ fields, f.1.toNat + f.2 ≤ SIZEOF_PHDR) :
    Keeps (fun x : Loading σ => AllWithin img.bytes.length x.log)
      (readFields (img.ehdr.headerAt i) fields) (fun _ => True) :=
  readFields_within fun f hmem => headerAt_field hadm htable hi (hf f hmem)

/-- The first pass, from a header on that no earlier one stops the loader before. -/
theorem loadHeaders_within
    (hfits : ∀ i < img.ehdr.phnum.toNat, (∀ j < i, ¬ img.StopsAt j) → img.LoadsAt i →
      ¬ img.StopsAt i → (img.phdr (img.ehdr.headerAt i)).Fits img.ehdr.bias)
    (n s : ℕ) (hn : s + n ≤ img.ehdr.phnum.toNat) (hbefore : ∀ j < s, ¬ img.StopsAt j) (b : Bounds) :
    Keeps (fun x : Loading σ => AllWithin img.bytes.length x.log)
      (loadHeaders S img name (List.range' s n) b) (fun _ => True) := by
  induction n generalizing s b with
  | zero => exact Keeps.pure trivial
  | succ n ih =>
      have hs : s < img.ehdr.phnum.toNat := by omega
      have hnext : ¬ img.StopsAt s → ∀ j < s + 1, ¬ img.StopsAt j := by
        intro hgo j hj
        rcases Nat.lt_succ_iff_lt_or_eq.mp hj with hj | rfl
        · exact hbefore j hj
        · exact hgo
      rw [List.range'_succ, loadHeaders]
      refine (readHeader_within hadm htable hs (by decide)).bind fun _ _ => ?_
      split_ifs with htype hlen
      · exact ih (s + 1) (by omega) (hnext fun h => htype h.1) b
      · exact (readHeader_within hadm htable hs (by decide)).bind fun _ _ => Keeps.throw
      · have hload : img.LoadsAt s := not_not.mp htype
        refine (readHeader_within hadm htable hs (by decide)).bind fun _ _ => ?_
        refine (readHeader_within hadm htable hs (by decide)).bind fun _ _ => ?_
        refine (mapLoad_within hS hlen fun hgo => hfits s hs hbefore hload fun h => hgo h.2).bind
          fun _ hgo => ?_
        refine (readHeader_within hadm htable hs (by decide)).bind fun _ _ => ?_
        exact ih (s + 1) (by omega) (hnext fun h => hgo h.2) _

omit hS in
theorem findPhdrVa_within (n s : ℕ) (hn : s + n ≤ img.ehdr.phnum.toNat) :
    Keeps (fun x : Loading σ => AllWithin img.bytes.length x.log)
      (findPhdrVa img (List.range' s n)) (fun _ => True) := by
  induction n generalizing s with
  | zero => exact Keeps.pure trivial
  | succ n ih =>
      have hs : s < img.ehdr.phnum.toNat := by omega
      rw [List.range'_succ, findPhdrVa]
      refine (readHeader_within hadm htable hs (by decide)).bind fun _ _ => ?_
      split_ifs with htype hcovers
      · exact ih (s + 1) (by omega)
      · refine (readHeader_within hadm htable hs (by decide)).bind fun _ _ => ?_
        exact Keeps.pure trivial
      · refine (readHeader_within hadm htable hs (by decide)).bind fun _ _ => ?_
        exact ih (s + 1) (by omega)

end Inside

theorem elfLoad_within {S : Substrate σ} (hS : S.Honours) {img : Image} (hfits : img.Fits)
    (name : Bytes) :
    Keeps (fun x : Loading σ => AllWithin img.bytes.length x.log) (elfLoad S img name)
      (fun _ => True) := by
  have hhead : SIZEOF_EHDR ≤ img.bytes.length → Keeps (fun x : Loading σ =>
      AllWithin img.bytes.length x.log) (readFields 0 [(0, SIZEOF_EHDR)]) (fun _ => True) := by
    intro hlen
    refine readFields_within fun f hf => ?_
    rw [List.mem_singleton] at hf
    subst hf
    exact hlen
  rw [elfLoad]
  by_cases hlen : img.bytes.length < SIZEOF_EHDR
  · rw [if_pos hlen]
    exact Keeps.throw
  rw [if_neg hlen]
  refine (hhead (Nat.not_lt.mp hlen)).bind fun _ _ => ?_
  by_cases hadm : img.admitted = true
  · obtain ⟨htable, hsegments⟩ := hfits (Nat.not_lt.mp hlen) hadm
    rw [if_pos hadm, List.range_eq_range']
    refine (loadHeaders_within hS hadm htable hsegments _ 0 (by omega) (fun j hj => by omega)
      _).bind fun b _ => ?_
    split_ifs
    · exact Keeps.throw
    · exact (findPhdrVa_within hadm htable _ 0 (by omega)).bind fun _ _ => Keeps.pure trivial
  · rw [if_neg hadm]
    exact Keeps.throw

section Outside

variable {S : Substrate σ} {img : Image} {name : Bytes} {length : ℕ}

/-- Once out of bounds, a load stays so. -/
theorem note_stray (as : List Access) :
    Keeps (fun x : Loading σ => ¬ AllWithin length x.log) (note as) (fun _ => True) :=
  note_keeps (P := fun log => ¬ AllWithin length log) fun _ h hlog => h hlog.of_append

theorem mapLoad_stray (p : Phdr) (bias : BitVec 64) :
    Keeps (fun x : Loading σ => ¬ AllWithin length x.log) (mapLoad S img name p bias)
      (fun _ => True) := by
  have hcopy : Keeps (fun x : Loading σ => ¬ AllWithin length x.log) (copyFile S img p bias)
      (fun _ => True) := by
    rw [copyFile]
    split_ifs
    · exact Keeps.pure trivial
    · exact (note_stray _).bind fun _ _ => onSub_keeps (P := fun log => ¬ AllWithin length log) _
  rw [mapLoad]
  by_cases hsz : p.memsz < p.filesz
  · rw [if_pos hsz]
    exact Keeps.throw
  rw [if_neg hsz]
  by_cases hlen : p.maplen bias = 0
  · rw [if_pos hlen]
    exact Keeps.pure trivial
  · rw [if_neg hlen]
    refine (mapRange_keeps (P := fun log => ¬ AllWithin length log) (fun _ _ _ h hlog => h hlog.2)
      S _ _ _ _).bind fun base _ => hcopy.bind fun _ _ => ?_
    refine (dropWrite_keeps (P := fun log => ¬ AllWithin length log) S p bias base).bind fun _ _ => ?_
    refine (recordRange_keeps (P := fun log => ¬ AllWithin length log) _ _ _ _ _ _).bind fun _ _ => ?_
    exact Keeps.pure trivial

theorem loadHeaders_stray (is : List ℕ) (b : Bounds) :
    Keeps (fun x : Loading σ => ¬ AllWithin length x.log) (loadHeaders S img name is b)
      (fun _ => True) := by
  induction is generalizing b with
  | nil => exact Keeps.pure trivial
  | cons i is ih =>
      rw [loadHeaders]
      refine (note_stray _).bind fun _ _ => ?_
      split_ifs
      · exact ih b
      · exact (note_stray _).bind fun _ _ => Keeps.throw
      · exact (note_stray _).bind fun _ _ => (note_stray _).bind fun _ _ =>
          (mapLoad_stray _ _).bind fun _ _ => (note_stray _).bind fun _ _ => ih _

theorem findPhdrVa_stray (is : List ℕ) :
    Keeps (fun x : Loading σ => ¬ AllWithin length x.log) (findPhdrVa img is) (fun _ => True) := by
  induction is with
  | nil => exact Keeps.pure trivial
  | cons i is ih =>
      rw [findPhdrVa]
      refine (note_stray _).bind fun _ _ => ?_
      split_ifs
      · exact ih
      · exact (note_stray _).bind fun _ _ => Keeps.pure trivial
      · exact (note_stray _).bind fun _ _ => ih

end Outside

/-- A substrate that maps whatever fits, and where it may choose, above the null page. -/
def greedy : Substrate Unit where
  asMap addr len _ _ :=
    if (if addr = 0 then 4096 else addr.toNat) + len.toNat ≤ 2 ^ 64 then
      pure (if addr = 0 then 4096 else addr)
    else throw ()
  asUnmap _ _ := pure ()
  asProtect _ _ _ := pure ()
  userCopyOut _ _ := pure ()
  threadStart _ _ _ _ := pure ()

theorem greedy_honours : greedy.Honours := by
  intro addr len kind prot x base x' h
  unfold greedy at h
  dsimp only at h
  split_ifs at h with hzero hfit hfit
  · cases h
    exact ⟨fun hne => (hne hzero).elim, hfit⟩
  · cases h
  · cases h
    exact ⟨fun _ => rfl, hfit⟩
  · cases h

section Strays

variable {p : Phdr} {bias : BitVec 64} {img : Image} {name : Bytes} {length : ℕ}

def greedyBase (addr : BitVec 64) : BitVec 64 := if addr = 0 then 4096 else addr

theorem toNat_maplen_dvd (p : Phdr) (bias : BitVec 64) : 4096 ∣ (p.maplen bias).toNat := by
  have hstart : (p.mapStart bias).toNat = (p.va bias).toNat / 4096 * 4096 := toNat_roundDn _
  have hend : (p.mapEnd bias).toNat = (p.va bias + p.memsz + 4095).toNat / 4096 * 4096 :=
    toNat_roundDn _
  rw [Phdr.maplen, BitVec.toNat_sub]
  omega

theorem run_mapRange_greedy (hgo : ¬ p.Stops bias length) (hlen : p.maplen bias ≠ 0) (prot : UInt32)
    (x : Loading Unit) :
    (mapRange greedy (p.mapStart bias) (p.maplen bias) .anon prot).run x =
      (.ok (greedyBase (p.mapStart bias)),
        { x with log := .map (greedyBase (p.mapStart bias)) (p.maplen bias) :: x.log }) := by
  have hfit : (if p.mapStart bias = 0 then 4096 else (p.mapStart bias).toNat) +
      (p.maplen bias).toNat ≤ 2 ^ 64 := by
    split_ifs with hzero
    · have hdvd := toNat_maplen_dvd p bias
      have hlt := (p.maplen bias).isLt
      omega
    · by_contra h
      exact hgo (.inr (.inr ⟨hlen, by omega⟩))
  have hmap : (greedy.asMap (p.mapStart bias) (p.maplen bias) .anon prot).run x.sub =
      (.ok (greedyBase (p.mapStart bias)), x.sub) := by
    change ((if _ then pure _ else throw () : Call Unit Unit (BitVec 64)).run x.sub) = _
    rw [if_pos hfit]
    rfl
  exact run_mapRange hmap

/-- A segment that the loader goes through with and that does not fit leads it out of bounds. -/
theorem mapLoad_strays (hlength : length < 2 ^ 64) (hgo : ¬ p.Stops bias length)
    (hbad : ¬ p.Fits bias) (x : Loading Unit) :
    ¬ AllWithin length ((mapLoad greedy img name p bias).run x).2.log := by
  have hsz : ¬ p.memsz < p.filesz := fun h => hgo (.inr (.inl h))
  simp only [Phdr.Fits, not_forall] at hbad
  obtain ⟨hlen, hfile, hbad⟩ := hbad
  have hcopied : ¬ AllWithin length (.copyOut (p.va bias) p.filesz.toNat ::
      .read p.offset p.filesz.toNat :: .map (greedyBase (p.mapStart bias)) (p.maplen bias) ::
        x.log) := by
    rintro ⟨⟨base, len, hlast, hlow, hend, _⟩, hread, _⟩
    cases hlast
    have hread : p.offset.toNat + p.filesz.toNat ≤ length := hread
    by_cases hzero : p.mapStart bias = 0
    · have hpage : (p.mapStart bias).toNat = (p.va bias).toNat / 4096 * 4096 := toNat_roundDn _
      rw [greedyBase, if_pos hzero] at hlow
      rw [hzero] at hpage
      simp at hpage hlow
      omega
    · rw [greedyBase, if_neg hzero] at hend
      exact hbad ⟨by omega, hzero, hend⟩
  have hcopy : KeepsAt (fun y : Loading Unit => ¬ AllWithin length y.log)
      { x with log := .map (greedyBase (p.mapStart bias)) (p.maplen bias) :: x.log }
      (copyFile greedy img p bias) (fun _ => True) := by
    rw [copyFile, if_neg hfile]
    refine KeepsAt.bind (Q := fun _ => True) ⟨hcopied, fun _ _ => trivial⟩ fun _ _ _ hy _ => ?_
    exact onSub_keeps (P := fun log => ¬ AllWithin length log) _ _ hy
  rw [mapLoad, if_neg hsz, if_neg hlen, run_bind, run_mapRange_greedy hgo hlen]
  refine (hcopy.bind (R := fun _ => True) fun _ y _ hy _ => ?_).1
  refine (dropWrite_keeps (P := fun log => ¬ AllWithin length log) greedy p bias _ _ hy).bind
    fun _ y _ hy _ => ?_
  refine (recordRange_keeps (P := fun log => ¬ AllWithin length log) _ _ _ _ _ _ _ hy).bind
    fun _ y _ hy _ => ?_
  exact ⟨hy, fun _ _ => trivial⟩

theorem recordRange_answers (start len : BitVec 64) (prot : UInt32) (kind : BackingKind)
    (offset : BitVec 64) (name : Bytes) :
    Answers (recordRange start len prot kind offset name : Call Unit (Loading σ) Bool) := by
  intro x
  exact ⟨_, _, run_recordRange start len prot kind offset name x⟩

theorem mapLoad_greedy_answers (img : Image) (name : Bytes) (hgo : ¬ p.Stops bias length) :
    Answers (mapLoad greedy img name p bias) := by
  have hsz : ¬ p.memsz < p.filesz := fun h => hgo (.inr (.inl h))
  have hcopy : Answers (copyFile greedy img p bias) := by
    rw [copyFile]
    split_ifs
    · exact Answers.pure ()
    · exact fun x => ⟨(), _, rfl⟩
  have hdrop : ∀ addr, Answers (dropWrite greedy p bias addr) := by
    intro addr
    rw [dropWrite]
    split_ifs
    · exact fun x => ⟨(), _, rfl⟩
    · exact Answers.pure ()
  rw [mapLoad, if_neg hsz]
  by_cases hlen : p.maplen bias = 0
  · rw [if_pos hlen]
    exact Answers.pure ()
  rw [if_neg hlen]
  refine Answers.bind (fun x => ⟨_, _, run_mapRange_greedy hgo hlen _ x⟩) fun addr => ?_
  exact hcopy.bind fun _ => (hdrop addr).bind fun _ =>
    (recordRange_answers _ _ _ _ _ _).bind fun _ => Answers.pure ()

/-- A header that does not stop the loader leaves it with the rest. -/
theorem loadHeaders_goes_on (name : Bytes) {i : ℕ} (hgo : ¬ img.StopsAt i) (is : List ℕ) (b : Bounds)
    (x : Loading Unit) : ∃ b' y, (loadHeaders greedy img name (i :: is) b).run x =
      (loadHeaders greedy img name is b').run y := by
  by_cases hload : img.LoadsAt i
  · have hgo : ¬ (img.phdr (img.ehdr.headerAt i)).Stops img.ehdr.bias img.bytes.length :=
      fun h => hgo ⟨hload, h⟩
    obtain ⟨u, y, hy⟩ := mapLoad_greedy_answers img name hgo
      (((x.noting (fieldReads (img.ehdr.headerAt i) [(0, 4)])).noting
        (fieldReads (img.ehdr.headerAt i) [(8, 8), (32, 8)])).noting
        (fieldReads (img.ehdr.headerAt i) [(16, 8), (32, 8), (40, 8), (4, 4), (8, 8)]))
    rw [run_loadHeaders_load hload is b x (fun h => hgo (.inl h)), run_bind, hy]
    exact ⟨_, _, rfl⟩
  · exact ⟨b, _, run_loadHeaders_skip hload is b x⟩

/-- A segment that does not fit, where it does not stop the loader. -/
theorem loadHeaders_strays_at {i : ℕ} (hload : img.LoadsAt i) (hgo : ¬ img.StopsAt i)
    (hbad : ¬ (img.phdr (img.ehdr.headerAt i)).Fits img.ehdr.bias) (is : List ℕ) (b : Bounds)
    (x : Loading Unit) :
    ¬ AllWithin img.bytes.length ((loadHeaders greedy img name (i :: is) b).run x).2.log := by
  have hlength : img.bytes.length < 2 ^ 64 := Nat.lt_trans img.length_lt (by decide)
  have hgo : ¬ (img.phdr (img.ehdr.headerAt i)).Stops img.ehdr.bias img.bytes.length :=
    fun h => hgo ⟨hload, h⟩
  rw [run_loadHeaders_load hload is b x (fun h => hgo (.inl h))]
  refine (KeepsAt.bind (I := fun y : Loading Unit => ¬ AllWithin img.bytes.length y.log)
    (Q := fun _ => True) (R := fun _ => True) ⟨mapLoad_strays hlength hgo hbad _, fun _ _ => trivial⟩
    fun _ y _ hy _ => ?_).1
  exact (note_stray _ y hy).bind fun _ z _ hz _ => loadHeaders_stray is _ z hz

/-- With a header that does not fit, and none before it that stops the loader, the first pass goes
out of bounds. -/
theorem loadHeaders_strays {i : ℕ} (hload : img.LoadsAt i) (hgo : ¬ img.StopsAt i)
    (hbad : ¬ (img.phdr (img.ehdr.headerAt i)).Fits img.ehdr.bias) (n s : ℕ) (hs : s ≤ i)
    (hi : i < s + n) (hbefore : ∀ j < i, ¬ img.StopsAt j) (b : Bounds) (x : Loading Unit) :
    ¬ AllWithin img.bytes.length
      ((loadHeaders greedy img name (List.range' s n) b).run x).2.log := by
  induction n generalizing s b x with
  | zero => omega
  | succ n ih =>
      rw [List.range'_succ]
      by_cases hhere : s = i
      · subst hhere
        exact loadHeaders_strays_at hload hgo hbad _ b x
      · obtain ⟨b', y, hy⟩ := loadHeaders_goes_on name (hbefore s (by omega))
          (List.range' (s + 1) n) b x
        rw [hy]
        exact ih (s + 1) (by omega) (by omega) b' y

/-- A table of headers whose end wraps starts beyond the image. -/
theorem loadHeaders_strays_of_wrap
    (hwrap : 2 ^ 64 ≤ img.ehdr.phoff.toNat + img.ehdr.phnum.toNat * img.ehdr.phentsize.toNat)
    (b : Bounds) (x : Loading Unit) :
    ¬ AllWithin img.bytes.length
      ((loadHeaders greedy img name (List.range img.ehdr.phnum.toNat) b).run x).2.log := by
  have hn := img.ehdr.phnum.isLt
  have he := img.ehdr.phentsize.isLt
  have hp := img.ehdr.phoff.isLt
  have hmul : img.ehdr.phnum.toNat * img.ehdr.phentsize.toNat ≤ 65535 * 65535 :=
    Nat.mul_le_mul (by omega) (by omega)
  have hlength := img.length_lt
  obtain ⟨n, hsome⟩ : ∃ n, img.ehdr.phnum.toNat = n + 1 := by
    refine Nat.exists_eq_succ_of_ne_zero fun hzero => ?_
    rw [hzero] at hwrap
    omega
  rw [hsome, List.range_eq_range', List.range'_succ, loadHeaders]
  have hfirst : KeepsAt (fun y : Loading Unit => ¬ AllWithin img.bytes.length y.log) x
      (readFields (img.ehdr.headerAt 0) [(0, 4)]) (fun _ => True) := by
    refine ⟨fun h => ?_, fun _ _ => trivial⟩
    have hread : (img.ehdr.headerAt 0 + 0).toNat + 4 ≤ img.bytes.length := h.1
    rw [Ehdr.headerAt, Nat.zero_mul] at hread
    simp at hread
    omega
  refine (hfirst.bind (R := fun _ => True) fun _ y _ hy _ => ?_).1
  split_ifs
  · exact loadHeaders_stray _ _ y hy
  · exact ((note_stray _).bind fun _ _ => Keeps.throw) y hy
  · exact ((note_stray _).bind fun _ _ => (note_stray _).bind fun _ _ => (mapLoad_stray _ _).bind
      fun _ _ => (note_stray _).bind fun _ _ => loadHeaders_stray _ _) y hy

/-- An image that is not as it should be leads the loader out of bounds on some substrate. -/
theorem elfLoad_strays (hbad : ¬ img.Fits) (name : Bytes) (x : Loading Unit) :
    ¬ AllWithin img.bytes.length ((elfLoad greedy img name).run x).2.log := by
  simp only [Image.Fits, not_forall] at hbad
  obtain ⟨hlen, hadm, hbad⟩ := hbad
  have hheaders : ∀ y : Loading Unit, ¬ AllWithin img.bytes.length ((loadHeaders greedy img name
      (List.range img.ehdr.phnum.toNat) Bounds.start).run y).2.log := by
    intro y
    by_cases htable : img.ehdr.phoff.toNat + img.ehdr.phnum.toNat * img.ehdr.phentsize.toNat < 2 ^ 64
    · have hsegment : ¬ ∀ i < img.ehdr.phnum.toNat, (∀ j < i, ¬ img.StopsAt j) → img.LoadsAt i →
          ¬ img.StopsAt i → (img.phdr (img.ehdr.headerAt i)).Fits img.ehdr.bias :=
        fun h => hbad ⟨htable, h⟩
      simp only [not_forall] at hsegment
      obtain ⟨i, hi, hbefore, hload, hgo, hfits⟩ := hsegment
      rw [List.range_eq_range']
      exact loadHeaders_strays hload hgo hfits _ 0 (Nat.zero_le i) (by omega) hbefore _ y
    · exact loadHeaders_strays_of_wrap (Nat.not_lt.mp htable) _ y
  rw [elfLoad, if_neg (Nat.not_lt.mpr hlen), run_bind, run_readFields]
  dsimp only
  rw [if_pos hadm]
  refine (KeepsAt.bind (I := fun y : Loading Unit => ¬ AllWithin img.bytes.length y.log)
    (Q := fun _ => True) (R := fun _ => True) ⟨hheaders _, fun _ _ => trivial⟩
    fun b y _ hy _ => ?_).1
  split_ifs
  · exact ⟨hy, fun _ _ => trivial⟩
  · exact (findPhdrVa_stray _ y hy).bind fun _ z _ hz _ => ⟨hz, fun _ _ => trivial⟩

end Strays

/-- For every image: the loader stays within it and within what it mapped, on every substrate that
honours the base it is asked for, if and only if the image is as it should be. -/
theorem elf_load_within_iff (img : Image) (name : Bytes) :
    (∀ (σ : Type) (S : Substrate σ), S.Honours → ∀ x : σ,
      AllWithin img.bytes.length ((elfLoad S img name).run (Loading.start x)).2.log) ↔ img.Fits := by
  constructor
  · intro h
    by_contra hbad
    exact elfLoad_strays hbad name (Loading.start ()) (h Unit greedy greedy_honours ())
  · intro hfits σ S hS x
    exact (elfLoad_within hS hfits name (Loading.start x) trivial).1

/-- A file header alone, of an executable with one program header 56 bytes before the file. -/
def wrappingImage : Image where
  bytes := [0x7f, 0x45, 0x4c, 0x46, 2, 1, 1, 0, 0, 0, 0, 0, 0, 0, 0, 0, 2, 0, 62, 0, 1, 0, 0, 0,
    0, 0, 0, 0, 0, 0, 0, 0, 0xc8, 0xff, 0xff, 0xff, 0xff, 0xff, 0xff, 0xff, 0, 0, 0, 0, 0, 0, 0, 0,
    0, 0, 0, 0, 64, 0, 56, 0, 1, 0, 0, 0, 0, 0, 0, 0]
  beyond _ := 0
  length_lt := by decide

/-- The checks let it through, and the loader reads the header before the file. -/
theorem elf_load_reads_before_image :
    wrappingImage.admitted = true ∧
      .read 0xffffffffffffffc8 4 ∈ ((elfLoad greedy wrappingImage []).run (Loading.start ())).2.log ∧
      ¬ AllWithin wrappingImage.bytes.length
        ((elfLoad greedy wrappingImage []).run (Loading.start ())).2.log := by
  have hlog : ((elfLoad greedy wrappingImage []).run (Loading.start ())).2.log =
      [.read 0xffffffffffffffc8 4, .read 0 64] := by
    rfl
  rw [hlog]
  refine ⟨by decide, List.mem_cons_self, fun h => ?_⟩
  have hread : (0xffffffffffffffc8 : BitVec 64).toNat + 4 ≤ 64 := h.1
  revert hread
  decide

end SysvNt
