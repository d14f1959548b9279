import SysvNt.ForkProbe
import Mathlib.Tactic.IntervalCases

/-!
# What a fork shares

An entry keeps its frame's address when its bits change. The allocator hands out frames that no entry
points to; what a fork or a release does to the counts is what it does to the number of entries. Each
frame of data is at one address in every root that has it, so a root refers to it once or not at all.
-/

namespace SysvNt.ForkProbe

open ByteMemory RadixTree

section Entries

variable {x y e f b k mask : Word}

theorem and_zero (x : Word) : x &&& 0 = 0 := BitVec.and_zero

theorem or_zero (x : Word) : x ||| 0 = x := BitVec.or_zero

theorem or_eq_zero : x ||| y = 0 ↔ x = 0 ∧ y = 0 := BitVec.or_eq_zero_iff

theorem and_clear (h : ~~~k &&& mask = mask) : x &&& ~~~k &&& mask = x &&& mask := by
  rw [BitVec.and_assoc, h]

theorem addr_or (x y : Word) : addr (x ||| y) = addr x ||| addr y := BitVec.and_or_distrib_right

theorem addr_clear (h : ~~~k &&& PTE_ADDR = PTE_ADDR) : addr (x &&& ~~~k) = addr x := and_clear h

theorem addr_or_flags (h : addr y = 0) : addr (x ||| y) = addr x := by
  rw [addr_or, h, or_zero]

theorem bit_or (x y b : Word) : bit (x ||| y) b = (bit x b || bit y b) := by
  rw [bit, bit, bit, BitVec.and_or_distrib_right, Bool.eq_iff_iff, Bool.or_eq_true, bne_iff_ne, bne_iff_ne,
    bne_iff_ne, ne_eq, or_eq_zero]
  tauto

theorem bit_clear (h : ~~~k &&& b = b) : bit (x &&& ~~~k) b = bit x b := by
  rw [bit, bit, and_clear h]

theorem bit_cleared (h : ~~~k &&& b = 0) : bit (x &&& ~~~k) b = false := by
  rw [bit, BitVec.and_assoc, h, and_zero]
  rfl

/-- A frame's address is that of a page that an entry can name. -/
structure Frame (f : Word) : Prop where
  aligned : f.toNat % 0x1000 = 0
  lt : f.toNat < 2 ^ 52

theorem PTE_ADDR_getLsbD : ∀ i < 64, PTE_ADDR.getLsbD i = decide (12 ≤ i ∧ i < 52) := by decide

theorem Frame.addr (h : Frame f) : addr f = f := by
  apply BitVec.eq_of_getLsbD_eq
  intro i hi
  rw [ForkProbe.addr, BitVec.getLsbD_and, PTE_ADDR_getLsbD i hi]
  by_cases hin : 12 ≤ i ∧ i < 52
  · rw [decide_eq_true hin, Bool.and_true]
  · rw [decide_eq_false hin, Bool.and_false]
    symm
    by_cases hlow : i < 12
    · have haligned := h.aligned
      rw [BitVec.getLsbD, Nat.testBit_eq_decide_div_mod_eq, decide_eq_false_iff_not]
      interval_cases i <;> omega
    · apply Nat.testBit_lt_two_pow
      exact lt_of_lt_of_le h.lt (Nat.pow_le_pow_right (by decide) (by omega))

/-- The bits of a frame's address are none of an entry's flags. -/
theorem Frame.bit (h : Frame f) (hb : PTE_ADDR &&& b = 0) : bit f b = false := by
  rw [ForkProbe.bit, ← h.addr, ForkProbe.addr, BitVec.and_assoc, hb, and_zero]
  rfl

theorem addr_share (e : Word) : addr (share e) = addr e := by
  rw [share]
  split_ifs
  · rfl
  · rw [addr_or_flags (by decide), addr_clear (by decide)]
  · rfl

theorem nocow_share (e : Word) : bit (share e) PTE_NOCOW = bit e PTE_NOCOW := by
  rw [share]
  split_ifs
  · rfl
  · have hflag : bit PTE_COW PTE_NOCOW = false := by decide
    rw [bit_or, bit_clear (by decide), hflag, Bool.or_false]
  · rfl

/-- No entry that a fork shares can be written. -/
theorem rw_share (h : bit e PTE_NOCOW = false) : bit (share e) PTE_RW = false := by
  rw [share, h, if_neg Bool.false_ne_true]
  split_ifs with hrw
  · have hflag : bit PTE_COW PTE_RW = false := by decide
    rw [bit_or, bit_cleared (by decide), hflag]
    rfl
  · simpa using hrw

theorem cow_share (h : bit e PTE_NOCOW = false) (hcow : bit e PTE_RW = true ∨ bit e PTE_COW = true) :
    bit (share e) PTE_COW = true := by
  rw [share, h, if_neg Bool.false_ne_true]
  split_ifs with hrw
  · have hflag : bit PTE_COW PTE_COW = true := by decide
    rw [bit_or, hflag, Bool.or_true]
  · exact hcow.resolve_left hrw

/-- The entry of a frame that was copied for a write. -/
theorem copied_entry (hf : Frame f) (e : Word) :
    addr (f ||| e &&& ~~~(PTE_ADDR ||| PTE_COW) ||| PTE_RW) = f ∧
      bit (f ||| e &&& ~~~(PTE_ADDR ||| PTE_COW) ||| PTE_RW) PTE_NOCOW = bit e PTE_NOCOW ∧
      bit (f ||| e &&& ~~~(PTE_ADDR ||| PTE_COW) ||| PTE_RW) PTE_RW = true := by
  have haddr : addr (e &&& ~~~(PTE_ADDR ||| PTE_COW)) = 0 := by
    have hzero : ~~~(PTE_ADDR ||| PTE_COW) &&& PTE_ADDR = 0 := by decide
    rw [addr, BitVec.and_assoc, hzero, and_zero]
  have hflag : bit PTE_RW PTE_NOCOW = false := by decide
  have hrw : bit PTE_RW PTE_RW = true := by decide
  refine ⟨?_, ?_, ?_⟩
  · rw [addr_or_flags (by decide), addr_or_flags haddr, hf.addr]
  · rw [bit_or, bit_or, hf.bit (by decide), bit_clear (by decide), hflag, Bool.false_or, Bool.or_false]
  · rw [bit_or, hrw, Bool.or_true]

/-- The entry of a frame that is taken for a write. -/
theorem taken_entry (e : Word) :
    addr (e &&& ~~~PTE_COW ||| PTE_RW) = addr e ∧
      bit (e &&& ~~~PTE_COW ||| PTE_RW) PTE_NOCOW = bit e PTE_NOCOW ∧
      bit (e &&& ~~~PTE_COW ||| PTE_RW) PTE_RW = true := by
  have hflag : bit PTE_RW PTE_NOCOW = false := by decide
  have hrw : bit PTE_RW PTE_RW = true := by decide
  refine ⟨?_, ?_, ?_⟩
  · rw [addr_or_flags (by decide), addr_clear (by decide)]
  · rw [bit_or, bit_clear (by decide), hflag, Bool.or_false]
  · rw [bit_or, hrw, Bool.or_true]

/-- The entry of a fresh page. -/
theorem fresh_entry (hf : Frame f) :
    addr (f ||| PTE_P ||| PTE_RW ||| PTE_US) = f ∧
      bit (f ||| PTE_P ||| PTE_RW ||| PTE_US) PTE_NOCOW = false ∧
      bit (f ||| PTE_P ||| PTE_RW ||| PTE_US) PTE_RW = true := by
  have hflags : bit PTE_P PTE_NOCOW = false ∧ bit PTE_RW PTE_NOCOW = false ∧ bit PTE_US PTE_NOCOW = false ∧
      bit PTE_RW PTE_RW = true := by decide
  refine ⟨?_, ?_, ?_⟩
  · rw [addr_or_flags (by decide), addr_or_flags (by decide), addr_or_flags (by decide), hf.addr]
  · rw [bit_or, bit_or, bit_or, hf.bit (by decide), hflags.1, hflags.2.1, hflags.2.2.1]
    rfl
  · rw [bit_or, bit_or, hflags.2.2.2, Bool.or_true, Bool.true_or]

/-- The entry of a page of control memory. -/
theorem control_entry (hf : Frame f) :
    addr (f ||| (PTE_P ||| PTE_RW ||| PTE_NOCOW)) = f ∧
      bit (f ||| (PTE_P ||| PTE_RW ||| PTE_NOCOW)) PTE_NOCOW = true ∧
      bit (f ||| (PTE_P ||| PTE_RW ||| PTE_NOCOW)) PTE_RW = true := by
  have hnocow : bit (PTE_P ||| PTE_RW ||| PTE_NOCOW) PTE_NOCOW = true := by decide
  have hrw : bit (PTE_P ||| PTE_RW ||| PTE_NOCOW) PTE_RW = true := by decide
  refine ⟨?_, ?_, ?_⟩
  · rw [addr_or_flags (by decide), hf.addr]
  · rw [bit_or, hnocow, Bool.or_true]
  · rw [bit_or, hrw, Bool.or_true]

end Entries

section Allocation

/-- The allocator is above control memory, at a page, and within what an entry can name. -/
structure Frames.Good (fr : Frames) : Prop where
  size_le : fr.size.toNat ≤ 2 ^ 52
  next_le : fr.next.toNat ≤ fr.size.toNat
  aligned : fr.next.toNat % 0x1000 = 0
  base_le : FRAME_BASE.toNat ≤ fr.next.toNat

/-- The frames handed out before keep their contents, and are counted so much more often. -/
structure Grows (a b : Frames) (more : Word → ℕ) : Prop where
  good : b.Good
  next_le : a.next.toNat ≤ b.next.toNat
  phys : ∀ f, f.toNat < a.next.toNat → b.phys f = a.phys f
  refcount : ∀ f, f.toNat < a.next.toNat → b.refcount f = a.refcount f + BitVec.ofNat 16 (more f)

variable {a b c : Frames} {f : Word} {m n : Word → ℕ}

theorem Grows.refl (h : a.Good) : Grows a a fun _ => 0 where
  good := h
  next_le := le_rfl
  phys _ _ := rfl
  refcount f _ := (BitVec.add_zero (a.refcount f)).symm

theorem Grows.trans (hab : Grows a b m) (hbc : Grows b c n) : Grows a c fun f => m f + n f where
  good := hbc.good
  next_le := hab.next_le.trans hbc.next_le
  phys f hf := (hbc.phys f (hf.trans_le hab.next_le)).trans (hab.phys f hf)
  refcount f hf := by
    rw [hbc.refcount f (hf.trans_le hab.next_le), hab.refcount f hf, BitVec.ofNat_add, BitVec.add_assoc]

theorem Grows.congr (h : Grows a b m) (hmn : ∀ f, m f = n f) : Grows a b n := by
  have hmn : m = n := funext hmn
  rwa [← hmn]

structure Fresh (a b : Frames) (f : Word) : Prop where
  next : f = a.next
  grows : Grows a b fun _ => 0
  frame : Frame f
  base_le : FRAME_BASE.toNat ≤ f.toNat
  taken : f.toNat < b.next.toNat
  once : b.refcount f = 1
  zero : b.phys f = fun _ => 0

theorem allocFrame_fresh (ha : a.Good) (h : allocFrame a = some (f, b)) : Fresh a b f := by
  rw [allocFrame] at h
  split_ifs at h with hsize
  cases h
  have hpage : PAGE.toNat = 0x1000 := rfl
  have hle := ha.size_le
  have hnext := ha.next_le
  have haligned := ha.aligned
  have hbase := ha.base_le
  have hsum : (a.next + PAGE).toNat = a.next.toNat + 0x1000 := by
    rw [BitVec.toNat_add, hpage]
    omega
  rw [BitVec.lt_def, hsum, not_lt] at hsize
  have hne : ∀ f : Word, f.toNat < a.next.toNat → f ≠ a.next := by
    rintro f hf rfl
    exact lt_irrefl _ hf
  refine ⟨rfl, ⟨⟨hle, ?_, ?_, ?_⟩, ?_, ?_, ?_⟩, ⟨haligned, by omega⟩, hbase, ?_, ?_, ?_⟩
  · rw [hsum]
    exact hsize
  · rw [hsum]
    omega
  · rw [hsum]
    omega
  · rw [hsum]
    omega
  · intro f hf
    exact Function.update_of_ne (hne f hf) _ _
  · intro f hf
    exact (Function.update_of_ne (hne f hf) _ _).trans (BitVec.add_zero _).symm
  · rw [hsum]
    omega
  · exact Function.update_self _ _ _
  · exact Function.update_self _ _ _

theorem setPte_some {l : ℕ} {t t' : Table l} {p : Path (Fin 512) l} {e : Word} (ha : a.Good)
    (h : setPte t p e a = some (t', b)) : t' = insert t p e ∧ Grows a b fun _ => 0 := by
  induction p generalizing a b with
  | nil =>
      have h : some (Tree.value e, a) = some (t', b) := by
        cases t <;> exact h
      cases h
      exact ⟨by cases t <;> rfl, .refl ha⟩
  | cons i p ih =>
      cases t with
      | absent =>
          rw [setPte, Option.bind_eq_bind, Option.bind_eq_some_iff] at h
          obtain ⟨⟨f, fr⟩, halloc, h⟩ := h
          rw [Option.bind_eq_bind, Option.bind_eq_some_iff] at h
          obtain ⟨⟨s, fr'⟩, hset, h⟩ := h
          cases h
          have hfresh := allocFrame_fresh ha halloc
          obtain ⟨rfl, hgrows⟩ := ih hfresh.grows.good hset
          exact ⟨rfl, hfresh.grows.trans hgrows⟩
      | node t =>
          rw [setPte, Option.bind_eq_bind, Option.bind_eq_some_iff] at h
          obtain ⟨⟨s, fr'⟩, hset, h⟩ := h
          cases h
          obtain ⟨rfl, hgrows⟩ := ih ha hset
          exact ⟨rfl, hgrows⟩

structure Controls (e : Word) : Prop where
  nocow : bit e PTE_NOCOW = true
  rw : bit e PTE_RW = true
  lt : (addr e).toNat < CONTROL.toNat

theorem mapRange_some {flags : Word} (hflags : flags = PTE_P ||| PTE_RW ||| PTE_NOCOW) (pages : ℕ)
    {t t' : Table 4} {va gpa : Word} (ha : a.Good) (hgpa : gpa.toNat % 0x1000 = 0)
    (hend : gpa.toNat + 0x1000 * pages ≤ CONTROL.toNat) (ht : ∀ p e, lookup t p = some e → Controls e)
    (h : mapRange t va gpa flags pages a = some (t', b)) :
    (∀ p e, lookup t' p = some e → Controls e) ∧ Grows a b fun _ => 0 := by
  induction pages generalizing t va gpa a with
  | zero =>
      cases h
      exact ⟨ht, .refl ha⟩
  | succ pages ih =>
      have hcontrol : CONTROL.toNat = 0x400000 := rfl
      rw [mapRange, Option.bind_eq_bind, Option.bind_eq_some_iff] at h
      obtain ⟨⟨s, fr⟩, hset, h⟩ := h
      obtain ⟨rfl, hgrows⟩ := setPte_some ha hset
      have hsum : (gpa + PAGE).toNat = gpa.toNat + 0x1000 := by
        have hpage : PAGE.toNat = 0x1000 := rfl
        rw [BitVec.toNat_add, hpage]
        omega
      have hinsert : ∀ p e, lookup (insert t (pathOf va) (gpa ||| flags)) p = some e → Controls e := by
        intro p e he
        rw [lookup_insert] at he
        split_ifs at he with hp
        · cases he
          obtain ⟨haddr, hnocow, hrw⟩ := control_entry (f := gpa) ⟨hgpa, by omega⟩
          rw [hflags]
          refine ⟨hnocow, hrw, ?_⟩
          rw [haddr]
          omega
        · exact ht p e he
      obtain ⟨hcontrols, hgrows'⟩ := ih hgrows.good (by omega) (by omega) hinsert h
      exact ⟨hcontrols, hgrows.trans hgrows'⟩

/-- A new root has control memory and nothing else. -/
theorem newRoot_some {t : Table 4} (ha : a.Good) (h : newRoot a = some (t, b)) :
    (∀ p e, lookup t p = some e → Controls e) ∧ Grows a b fun _ => 0 := by
  rw [newRoot, Option.bind_eq_bind, Option.bind_eq_some_iff] at h
  obtain ⟨⟨f, fr⟩, halloc, h⟩ := h
  have hfresh := allocFrame_fresh ha halloc
  have hempty : ∀ p e, lookup (.node fun _ => .absent : Table 4) p = some e → Controls e := by
    intro p e he
    cases p with
    | cons i p =>
        rw [lookup_node, lookup_absent] at he
        cases he
  obtain ⟨hcontrols, hgrows⟩ := mapRange_some rfl _ hfresh.grows.good rfl (by decide) hempty h
  exact ⟨hcontrols, hfresh.grows.trans hgrows⟩

end Allocation

section Cloning

variable {a b : Frames}

def Points (f e : Word) : Prop := bit e PTE_NOCOW = false ∧ addr e = f

instance (f : Word) : DecidablePred (Points f) := fun _ => inferInstanceAs (Decidable (_ ∧ _))

theorem cloneEach_some {l : ℕ} {clone : Fin 512 → Frames → Option (Table l × Table l × Frames)}
    {g : Fin 512 → Table l} {k : Fin 512 → Word → ℕ}
    (hclone : ∀ i a d s b, a.Good → clone i a = some (d, s, b) → d = g i ∧ s = g i ∧ Grows a b (k i))
    {is : List (Fin 512)} {ds ss : Fin 512 → Table l} (ha : a.Good)
    (h : cloneEach clone is a = some (ds, ss, b)) :
    (∀ i ∈ is, ds i = g i ∧ ss i = g i) ∧ Grows a b fun f => (is.map fun i => k i f).sum := by
  induction is generalizing a ds ss with
  | nil =>
      cases h
      exact ⟨nofun, .refl ha⟩
  | cons i is ih =>
      rw [cloneEach, Option.bind_eq_bind, Option.bind_eq_some_iff] at h
      obtain ⟨⟨d, s, fr⟩, hi, h⟩ := h
      rw [Option.bind_eq_bind, Option.bind_eq_some_iff] at h
      obtain ⟨⟨ds', ss', fr'⟩, his, h⟩ := h
      cases h
      obtain ⟨rfl, rfl, hgrows⟩ := hclone i a d s fr ha hi
      obtain ⟨heach, hgrows'⟩ := ih hgrows.good his
      refine ⟨fun j hj => ?_, (hgrows.trans hgrows').congr fun f => ?_⟩
      · dsimp only
        by_cases hji : j = i
        · rw [if_pos hji, if_pos hji, hji]
          exact ⟨rfl, rfl⟩
        · rw [if_neg hji, if_neg hji]
          exact heach j ((List.mem_cons.mp hj).resolve_left hji)
      · rw [List.map_cons, List.sum_cons]

/-- Both copies are the source with its entries shared, and each frame is counted once more for each
entry that points to it. -/
theorem cloneLevel_some {l : ℕ} {t d s : Table l} (ha : a.Good) (h : cloneLevel t a = some (d, s, b)) :
    d = map share t ∧ s = map share t ∧ Grows a b fun f => count (Points f) t := by
  induction t generalizing a b with
  | absent =>
      cases h
      exact ⟨rfl, rfl, .refl ha⟩
  | value e =>
      rw [cloneLevel] at h
      split_ifs at h with hnocow
      · cases h
        have hshare : share e = e := if_pos hnocow
        rw [map, hshare]
        refine ⟨rfl, rfl, (Grows.refl ha).congr fun f => ?_⟩
        rw [count, if_neg]
        rintro ⟨hcow, -⟩
        rw [hnocow] at hcow
        cases hcow
      · cases h
        refine ⟨rfl, rfl, ⟨ha.size_le, ha.next_le, ha.aligned, ha.base_le⟩, le_rfl, fun _ _ => rfl, ?_⟩
        intro f _
        rw [count]
        by_cases hf : addr e = f
        · subst hf
          rw [if_pos ⟨by simpa using hnocow, rfl⟩]
          exact Function.update_self _ _ _
        · rw [if_neg fun hp => hf hp.2]
          exact (Function.update_of_ne (Ne.symm hf) _ _).trans (BitVec.add_zero _).symm
  | node t ih =>
      rw [cloneLevel, Option.bind_eq_bind, Option.bind_eq_some_iff] at h
      obtain ⟨⟨f, fr⟩, halloc, h⟩ := h
      rw [Option.bind_eq_bind, Option.bind_eq_some_iff] at h
      obtain ⟨⟨ds, ss, fr'⟩, heach, h⟩ := h
      cases h
      have hfresh := allocFrame_fresh ha halloc
      obtain ⟨hall, hgrows⟩ := cloneEach_some (g := fun i => map share (t i))
        (k := fun i f => count (Points f) (t i)) (fun i a d s b ha hi => ih i ha hi) hfresh.grows.good heach
      have hds : ds = fun i => map share (t i) := funext fun i => (hall i (List.mem_finRange i)).1
      have hss : ss = fun i => map share (t i) := funext fun i => (hall i (List.mem_finRange i)).2
      rw [hds, hss]
      refine ⟨rfl, rfl, (hfresh.grows.trans hgrows).congr fun f => ?_⟩
      rw [count, Fin.sum_univ_def, Nat.zero_add]

theorem releaseEach_apply {l : ℕ} {t : Fin 512 → Table l} {f : Word}
    (ht : ∀ i (counts : Word → BitVec 16), releaseLevel (t i) counts f =
      counts f - BitVec.ofNat 16 (count (Points f) (t i))) (is : List (Fin 512)) (counts : Word → BitVec 16) :
    is.foldl (fun counts i => releaseLevel (t i) counts) counts f =
      counts f - BitVec.ofNat 16 (is.map fun i => count (Points f) (t i)).sum := by
  induction is generalizing counts with
  | nil => exact (BitVec.sub_zero (counts f)).symm
  | cons i is ih =>
      rw [List.foldl_cons, ih, ht, List.map_cons, List.sum_cons, BitVec.ofNat_add]
      bv_omega

/-- A release counts each frame once less for each entry that points to it. -/
theorem releaseLevel_apply {l : ℕ} (t : Table l) (counts : Word → BitVec 16) (f : Word) :
    releaseLevel t counts f = counts f - BitVec.ofNat 16 (count (Points f) t) := by
  induction t generalizing counts with
  | absent => exact (BitVec.sub_zero (counts f)).symm
  | value e =>
      rw [releaseLevel, count]
      split_ifs with hnocow hp hp
      · rw [hp.1] at hnocow
        cases hnocow
      · exact (BitVec.sub_zero (counts f)).symm
      · rw [← hp.2]
        exact Function.update_self _ _ _
      · have hf : addr e ≠ f := fun hf => hp ⟨by simpa using hnocow, hf⟩
        exact (Function.update_of_ne (Ne.symm hf) _ _).trans (BitVec.sub_zero _).symm
  | node t ih =>
      rw [releaseLevel, count, Fin.sum_univ_def]
      exact releaseEach_apply ih (List.finRange 512) counts

end Cloning

end SysvNt.ForkProbe
