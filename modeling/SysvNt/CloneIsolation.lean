import SysvNt.MockSubstrate
import Mathlib.Tactic.IntervalCases

/-!
# Clones of the mock substrate

What an instance should hold is what its parent held when it was cloned, and then what it wrote
itself. A clone of the first instance, all of whose mappings could be read, holds that in its
shadows, and a copy within one mapping finds it there. A clone of a clone has no mappings, and a
copy that no shadow covers goes to the memory of the first instance.
-/

namespace SysvNt.MockSubstrate

open ByteMemory ActionRuns

def Mapping.Holds (mp : Mapping) (x : Word) : Prop :=
  mp.base.toNat ≤ x.toNat ∧ x.toNat < mp.base.toNat + mp.len.toNat

/-- Mappings that end within the address space and share no address. -/
structure Orderly (maps : List Mapping) : Prop where
  end_lt : ∀ mp ∈ maps, mp.base.toNat + mp.len.toNat < 2 ^ 64
  apart : maps.Pairwise fun p q => ∀ x, p.Holds x → ¬ q.Holds x

section Covering

variable {maps : List Mapping} {mp : Mapping} {a x len : Word}

theorem covers_one_iff (hend : mp.base.toNat + mp.len.toNat < 2 ^ 64) (hx : x.toNat + 1 < 2 ^ 64) :
    mp.covers x 1 = true ↔ mp.Holds x := by
  have hx1 : (x + 1).toNat = x.toNat + 1 := by
    rw [BitVec.toNat_add, Nat.mod_eq_of_lt (by simpa using hx)]
    rfl
  have hsum : (mp.base + mp.len).toNat = mp.base.toNat + mp.len.toNat := by
    rw [BitVec.toNat_add, Nat.mod_eq_of_lt hend]
  rw [Mapping.covers, Bool.and_eq_true, decide_eq_true_eq, decide_eq_true_eq, BitVec.le_def, BitVec.le_def,
    hx1, hsum, Mapping.Holds]
  omega

theorem base_le_of_covers (h : mp.covers a len = true) : mp.base.toNat ≤ a.toNat := by
  rw [Mapping.covers, Bool.and_eq_true, decide_eq_true_eq, BitVec.le_def] at h
  exact h.1

/-- The addresses of a copy that stays within its mapping. -/
theorem holds_of_fits (hend : mp.base.toNat + mp.len.toNat < 2 ^ 64) (hc : mp.covers a len = true)
    (hfits : mp.Fits a len) {k : ℕ} (hk : k < len.toNat) :
    mp.Holds (a + BitVec.ofNat 64 k) ∧
      (a + BitVec.ofNat 64 k - mp.base).toNat = (a - mp.base).toNat + k := by
  have hbase := base_le_of_covers hc
  have hoff : (a - mp.base).toNat = a.toNat - mp.base.toNat := BitVec.toNat_sub_of_le (BitVec.le_def.mpr hbase)
  rw [Mapping.Fits, hoff] at hfits
  have hsum : (a + BitVec.ofNat 64 k).toNat = a.toNat + k := by
    rw [BitVec.toNat_add, BitVec.toNat_ofNat]
    omega
  refine ⟨⟨by omega, by omega⟩, ?_⟩
  have hle : mp.base ≤ a + BitVec.ofNat 64 k := BitVec.le_def.mpr (by omega)
  rw [BitVec.toNat_sub_of_le hle, hsum, hoff]
  omega

/-- Every address of a mapping is found to lie in it alone. -/
theorem find_of_holds (h : Orderly maps) (hmem : mp ∈ maps) (hx : mp.Holds x) :
    maps.find? (fun mp => mp.covers x 1) = some mp := by
  have hlt : x.toNat + 1 < 2 ^ 64 := by
    have := h.end_lt mp hmem
    have := hx.2
    omega
  induction maps with
  | nil => cases hmem
  | cons q maps ih =>
      have hend := h.end_lt q List.mem_cons_self
      have hapart := List.pairwise_cons.mp h.apart
      have htail : Orderly maps := ⟨fun p hp => h.end_lt p (List.mem_cons_of_mem q hp), hapart.2⟩
      rw [List.find?_cons]
      rcases List.mem_cons.mp hmem with rfl | htl
      · rw [(covers_one_iff hend hlt).mpr hx]
      · have hq : q.covers x 1 = false := by
          by_contra hc
          exact hapart.1 mp htl x ((covers_one_iff hend hlt).mp (by simpa using hc)) hx
        rw [hq]
        exact ih htail htl

end Covering

section Updates

variable {maps : List Mapping} {mp : Mapping} {test : Mapping → Bool}

theorem updateFirst_split {α : Type} {test : α → Bool} {f : α → α} {as : List α} {a : α}
    (h : as.find? test = some a) :
    ∃ pre post, as = pre ++ a :: post ∧ updateFirst test f as = pre ++ f a :: post := by
  induction as with
  | nil => cases h
  | cons b as ih =>
      rw [List.find?_cons] at h
      cases hb : test b with
      | true =>
          rw [hb] at h
          cases h
          refine ⟨[], as, rfl, ?_⟩
          rw [updateFirst, if_pos hb]
          rfl
      | false =>
          rw [hb] at h
          obtain ⟨pre, post, has, hup⟩ := ih h
          refine ⟨b :: pre, post, by rw [has]; rfl, ?_⟩
          rw [updateFirst, if_neg (by simp [hb]), hup]
          rfl

/-- The mappings of an instance keep their places when one is written to. -/
theorem Orderly.update {pre post : List Mapping} {q q' : Mapping} (h : Orderly (pre ++ q :: post))
    (hbase : q'.base = q.base) (hlen : q'.len = q.len) : Orderly (pre ++ q' :: post) := by
  have hholds : ∀ x, q'.Holds x ↔ q.Holds x := by
    intro x
    rw [Mapping.Holds, Mapping.Holds, hbase, hlen]
  constructor
  · intro p hp
    rcases List.mem_append.mp hp with hp | hp
    · exact h.end_lt p (List.mem_append_left _ hp)
    rcases List.mem_cons.mp hp with rfl | hp
    · rw [hbase, hlen]
      exact h.end_lt q (by simp)
    · exact h.end_lt p (by simp [hp])
  · have hapart := h.apart
    rw [List.pairwise_append, List.pairwise_cons] at hapart ⊢
    obtain ⟨hpre, ⟨hq, hpost⟩, hcross⟩ := hapart
    refine ⟨hpre, ⟨fun p hp x hx => hq p hp x ((hholds x).mp hx), hpost⟩, ?_⟩
    intro p hp r hr x hx hrx
    rcases List.mem_cons.mp hr with rfl | hr
    · exact hcross p hp q List.mem_cons_self x hx ((hholds x).mp hrx)
    · exact hcross p hp r (List.mem_cons_of_mem q hr) x hx hrx

end Updates

def World.Covers (w : World) (a : Word) (n : ℕ) : Prop := ∀ k < n, w.mapped (a + BitVec.ofNat 64 k) = true

/-- What an instance that is asked for one byte reads at each mapped address that can be read. -/
def Reads (w : World) (m : Mock) (mem : Memory) : Prop :=
  ∀ x, w.mapped x = true → w.process.readable x = true → userCopyIn w.process m x 1 = .bytes [mem x]

def Faithful (s : Clones) : Prop :=
  s.contents.length = s.world.instances.length ∧
    ∀ (i : ℕ) (m : Mock) (mem : Memory), s.world.instances[i]? = some m → s.contents[i]? = some mem →
      Reads s.world m mem

structure Fresh (s : Clones) : Prop where
  single : ∃ m, s.world.instances = [m] ∧ m.isChild = false ∧ Orderly m.maps ∧ ∀ mp ∈ m.maps, mp.shadow = none
  contents : s.contents = [s.world.process.memory]

def MockCall.Stray (w : World) : MockCall → Prop
  | .clone _ _ => False
  | .copyIn _ uaddr len | .copyOut _ uaddr len _ _ => ¬ w.Covers uaddr len.toNat

/-- After the call every instance still reads what it should hold, and the others what they read before;
a copy from mapped addresses that can be read answers what the instance should hold; a copy that
strays fails, and no memory outside the mapped ranges changes. -/
structure Right (s : Clones) (call : MockCall) : Prop where
  faithful : Faithful (s.next call)
  others : ∀ (j : ℕ) (m : Mock), j ≠ call.on → s.world.instances[j]? = some m →
    (s.next call).world.instances[j]? = some m ∧ ∀ x, s.world.mapped x = true →
      s.world.process.readable x = true →
      userCopyIn (s.next call).world.process m x 1 = userCopyIn s.world.process m x 1
  reads : ∀ (i : ℕ) (m : Mock) (mem : Memory) (a len : Word), call = .copyIn i a len →
    s.world.instances[i]? = some m → s.contents[i]? = some mem → s.world.Covers a len.toNat →
    (∀ k < len.toNat, s.world.process.readable (a + BitVec.ofNat 64 k) = true) →
    (s.world.perform m call).1 = .bytes (window mem a len.toNat)
  refuses : ∀ m, s.world.instances[call.on]? = some m → call.Stray s.world → (s.world.perform m call).1 = .failed
  untouched : ∀ x, s.world.mapped x = false →
    (s.next call).world.process.memory x = s.world.process.memory x

/-- Each mapped address that can be read lies in a mapping that the clone takes, and all of that
mapping can be read. -/
def Taken (w : World) (m : Mock) : Prop :=
  ∀ x, w.mapped x = true → w.process.readable x = true →
    ∃ mp ∈ m.maps, mp.reservation = true ∧ mp.Holds x ∧ ∀ y, mp.Holds y → w.process.readable y = true

/-- A copy of some bytes that a shadow covers stays in it and in the mapped ranges; of another, this. -/
def Sheltered (w : World) (m : Mock) (a len : Word) (uncovered : Prop) : Prop :=
  match shadowCovering m a len with
  | some mp => mp.Fits a len ∧ w.Covers a len.toNat
  | none => len = 0 ∨ uncovered

/-- What is asked of a call on an instance. A clone is taken of all that can be read. A copy to or from a
clone stays in one shadow, or reads an address that cannot be read, or writes to addresses of which
none can be written; one to or from the first instance stays in the mapped ranges, or meets an
address that cannot be read or written before it writes to any that is not mapped. -/
def MockCall.Careful (w : World) (m : Mock) : MockCall → Prop
  | .clone _ memory => memory = true → Taken w m
  | .copyIn _ a len => Sheltered w m a len
      ((∃ k < len.toNat, w.process.readable (a + BitVec.ofNat 64 k) = false) ∨
        m.isChild = false ∧ w.Covers a len.toNat)
  | .copyOut _ a len _ _ => Sheltered w m a len
      (if m.isChild then ∀ k < len.toNat, w.process.writable (a + BitVec.ofNat 64 k) = false
      else w.Covers a len.toNat ∨
        (∃ k < len.toNat, w.process.writable (a + BitVec.ofNat 64 k) = false) ∧
          ∀ k < len.toNat, w.process.writable (a + BitVec.ofNat 64 k) = true →
            w.mapped (a + BitVec.ofNat 64 k) = true)

def CarefulOn (s : Clones) (call : MockCall) : Prop :=
  ∀ m, s.world.instances[call.on]? = some m → call.Careful s.world m

structure Stands (w : World) (i : ℕ) (m : Mock) (mem : Memory) : Prop where
  orderly : Orderly m.maps
  live : m.isChild = false → i = 0 ∧ (∀ mp ∈ m.maps, mp.shadow = none) ∧ mem = w.process.memory
  shadowed : m.isChild = true → (∀ mp ∈ m.maps, mp.reservation = false ∧ mp.shadow.isSome = true) ∧
    ∀ x, w.mapped x = true → w.process.readable x = true →
      ∃ mp ∈ m.maps, mp.Holds x ∧ mp.bytes (x - mp.base).toNat = mem x

def Kept (s : Clones) : Prop :=
  s.contents.length = s.world.instances.length ∧
    ∀ (i : ℕ) (m : Mock) (mem : Memory), s.world.instances[i]? = some m → s.contents[i]? = some mem →
      Stands s.world i m mem

section Reading

variable {w : World} {i : ℕ} {m : Mock} {mem : Memory}

theorem shadowCovering_live (h : ∀ mp ∈ m.maps, mp.shadow = none) (a len : Word) :
    shadowCovering m a len = none := by
  rw [shadowCovering, Option.filter_eq_none_iff]
  intro mp hmp
  rw [h mp (List.mem_of_find?_eq_some hmp)]
  decide

theorem shadowCovering_some {a len : Word} {mp : Mapping} (h : shadowCovering m a len = some mp) :
    mp ∈ m.maps ∧ mp.covers a len = true ∧ mapCovering m a len = some mp := by
  rw [shadowCovering, Option.filter_eq_some_iff] at h
  exact ⟨List.mem_of_find?_eq_some h.1, by simpa using List.find?_some h.1, h.1⟩

theorem Stands.shadow_one (h : Stands w i m mem) (hchild : m.isChild = true) {mp : Mapping} (hmem : mp ∈ m.maps)
    {x : Word} (hx : mp.Holds x) : shadowCovering m x 1 = some mp := by
  rw [shadowCovering, mapCovering, find_of_holds h.orderly hmem hx, Option.filter_eq_some_iff]
  exact ⟨rfl, ((h.shadowed hchild).1 mp hmem).2⟩

theorem offset_lt {mp : Mapping} {x : Word} (hx : mp.Holds x) : (x - mp.base).toNat < mp.len.toNat := by
  obtain ⟨hle, hlt⟩ := hx
  rw [BitVec.toNat_sub_of_le (BitVec.le_def.mpr hle)]
  omega

theorem window_one (mem : Memory) (x : Word) : window mem x (1 : Word).toNat = [mem x] := by
  have hx : x + BitVec.ofNat 64 0 = x := BitVec.add_zero x
  change [mem (x + BitVec.ofNat 64 0)] = [mem x]
  rw [hx]

theorem guardedCopyIn_some {p : Process} {a : Word} {n : ℕ}
    (h : ∀ k < n, p.readable (a + BitVec.ofNat 64 k) = true) :
    guardedCopyIn p a n = some (window p.memory a n) := by
  rw [guardedCopyIn, if_pos h]

theorem guardedCopyIn_none {p : Process} {a : Word} {n : ℕ}
    (h : ∃ k < n, p.readable (a + BitVec.ofNat 64 k) = false) : guardedCopyIn p a n = none := by
  obtain ⟨k, hk, hr⟩ := h
  rw [guardedCopyIn, if_neg]
  intro hall
  rw [hall k hk] at hr
  cases hr

theorem userCopyIn_live {p : Process} (h : ∀ mp ∈ m.maps, mp.shadow = none) {a len : Word}
    (hr : ∀ k < len.toNat, p.readable (a + BitVec.ofNat 64 k) = true) :
    userCopyIn p m a len = .bytes (window p.memory a len.toNat) := by
  rw [userCopyIn, shadowCovering_live h, guardedCopyIn_some hr]

/-- An instance that stands reads each byte that it should hold. -/
theorem Stands.reads (h : Stands w i m mem) : Reads w m mem := by
  intro x hmapped hread
  cases hchild : m.isChild with
  | false =>
      obtain ⟨-, hnone, rfl⟩ := h.live hchild
      rw [userCopyIn_live hnone, window_one]
      intro k hk
      have hk0 : k = 0 := by
        have hone : (1 : Word).toNat = 1 := by decide
        omega
      rw [hk0]
      have hx : x + BitVec.ofNat 64 0 = x := BitVec.add_zero x
      rw [hx]
      exact hread
  | true =>
      obtain ⟨mp, hmem, hholds, hbyte⟩ := (h.shadowed hchild).2 x hmapped hread
      have hoff := offset_lt hholds
      have hfits : mp.Fits x 1 := by
        have hone : (1 : Word).toNat = 1 := by decide
        rw [Mapping.Fits, hone]
        omega
      rw [userCopyIn, h.shadow_one hchild hmem hholds]
      dsimp only
      rw [if_pos hfits]
      change Answer.bytes [mp.bytes ((x - mp.base).toNat + 0)] = _
      rw [Nat.add_zero, hbyte]

/-- A copy that a shadow covers answers what the clone should hold. -/
theorem Stands.reads_shadow (h : Stands w i m mem) (hchild : m.isChild = true) {a len : Word} {mp : Mapping}
    (hcover : shadowCovering m a len = some mp) (hfits : mp.Fits a len) (hmapped : w.Covers a len.toNat)
    (hread : ∀ k < len.toNat, w.process.readable (a + BitVec.ofNat 64 k) = true) :
    userCopyIn w.process m a len = .bytes (window mem a len.toNat) := by
  obtain ⟨hmem, hc, -⟩ := shadowCovering_some hcover
  rw [userCopyIn, hcover]
  dsimp only
  rw [if_pos hfits, window]
  congr 1
  apply List.map_congr_left
  intro k hk
  have hk := List.mem_range.mp hk
  obtain ⟨hholds, hoff⟩ := holds_of_fits (h.orderly.end_lt mp hmem) hc hfits hk
  obtain ⟨q, hq, hqholds, hbyte⟩ := (h.shadowed hchild).2 _ (hmapped k hk) (hread k hk)
  have hsame := (h.shadow_one hchild hmem hholds).symm.trans (h.shadow_one hchild hq hqholds)
  cases hsame
  rw [← hbyte, hoff]

end Reading

section Writing

variable {w : World} {i : ℕ} {m : Mock} {mem : Memory}

theorem sub_add_cancel_word (x a : Word) : a + BitVec.ofNat 64 (x - a).toNat = x := by
  rw [BitVec.ofNat_toNat, BitVec.setWidth_eq, BitVec.add_comm, BitVec.sub_add_cancel]

theorem patch_zero (mem : Memory) (a : Word) (src : ℕ → BitVec 8) : patch mem a 0 src = mem := by
  funext x
  rw [patch, if_neg (Nat.not_lt_zero _)]

theorem patchSome_of_mask {a : Word} {n : ℕ} {src : ℕ → BitVec 8} {mask : Word → Bool}
    (h : ∀ k < n, mask (a + BitVec.ofNat 64 k) = false) : patchSome mem a n src mask = mem := by
  funext x
  rw [patchSome, patch]
  split_ifs with hmask hx
  · rw [← sub_add_cancel_word x a, h _ hx] at hmask
    cases hmask
  · rfl
  · rfl

/-- A write within one shadow is a write to what the clone should hold. -/
theorem Stands.write_shadow (h : Stands w i m mem) (hchild : m.isChild = true) {a len : Word} {mp : Mapping}
    (hcover : shadowCovering m a len = some mp) (hfits : mp.Fits a len) (src : ℕ → BitVec 8) :
    Stands w i { m with maps := updateFirst (fun mp => mp.covers a len) (fun mp => mp.write a len src) m.maps }
      (patch mem a len.toNat src) := by
  obtain ⟨hmem, hc, hfind⟩ := shadowCovering_some hcover
  have hend := h.orderly.end_lt mp hmem
  have hbase := base_le_of_covers hc
  obtain ⟨hshadows, hbytes⟩ := h.shadowed hchild
  obtain ⟨pre, post, hmaps, hupdate⟩ := updateFirst_split (f := fun mp => mp.write a len src) hfind
  have hold := h.orderly
  rw [hmaps] at hold
  constructor
  · dsimp only
    rw [hupdate]
    exact hold.update rfl rfl
  · intro hlive
    rw [hchild] at hlive
    cases hlive
  · intro _
    dsimp only
    rw [hupdate]
    constructor
    · intro q hq
      rcases List.mem_append.mp hq with hq | hq
      · exact hshadows q (by simp [hmaps, hq])
      rcases List.mem_cons.mp hq with rfl | hq
      · exact ⟨(hshadows mp hmem).1, rfl⟩
      · exact hshadows q (by simp [hmaps, hq])
    · intro x hmapped hread
      by_cases hx : (x - a).toNat < len.toNat
      · obtain ⟨hholds, hoff⟩ := holds_of_fits hend hc hfits hx
        rw [sub_add_cancel_word] at hholds hoff
        refine ⟨mp.write a len src, by simp, hholds, ?_⟩
        change overlay mp.bytes (a - mp.base).toNat len.toNat src (x - mp.base).toNat = _
        rw [overlay, patch, if_pos hx, hoff, if_pos ⟨by omega, by omega⟩, Nat.add_sub_cancel_left]
      · obtain ⟨q, hq, hholds, hbyte⟩ := hbytes x hmapped hread
        rw [patch, if_neg hx, ← hbyte]
        rw [hmaps] at hq
        rcases List.mem_append.mp hq with hq | hq
        · exact ⟨q, by simp [hq], hholds, rfl⟩
        rcases List.mem_cons.mp hq with rfl | hq
        · refine ⟨q.write a len src, by simp, hholds, ?_⟩
          change overlay q.bytes (a - q.base).toNat len.toNat src (x - q.base).toNat = _
          rw [overlay, if_neg]
          have hax : (a - q.base).toNat = a.toNat - q.base.toNat :=
            BitVec.toNat_sub_of_le (BitVec.le_def.mpr hbase)
          have hxx : (x - q.base).toNat = x.toNat - q.base.toNat :=
            BitVec.toNat_sub_of_le (BitVec.le_def.mpr hholds.1)
          rw [hax, hxx]
          rintro ⟨hle, hlt⟩
          have hxb := hholds.1
          have hxa : (x - a).toNat = x.toNat - a.toNat :=
            BitVec.toNat_sub_of_le (BitVec.le_def.mpr (by omega))
          omega
        · exact ⟨q, by simp [hq], hholds, rfl⟩

/-- An instance does not notice what changes in live memory if it is a clone, or nothing did. -/
theorem Stands.other (h : Stands w i m mem) {w' : World} (hmapped : w'.mapped = w.mapped)
    (hread : w'.process.canRead = w.process.canRead) (hlive : m.isChild = false →
      w'.process.memory = w.process.memory) : Stands w' i m mem where
  orderly := h.orderly
  live hc := by
    obtain ⟨hi, hnone, hmem⟩ := h.live hc
    exact ⟨hi, hnone, by rw [hmem, hlive hc]⟩
  shadowed hc := by
    obtain ⟨hshadows, hbytes⟩ := h.shadowed hc
    refine ⟨hshadows, fun x hx hr => ?_⟩
    rw [hmapped] at hx
    rw [Process.readable, hread] at hr
    exact hbytes x hx hr

theorem snapshot_isSome (p : Process) (mp : Mapping) : (snapshot p mp).shadow.isSome = true := by
  rw [snapshot]
  cases guardedCopyIn p mp.base mp.len.toNat <;> rfl

/-- A clone of an instance over live memory, all of whose readable mappings are taken. -/
theorem Stands.clone (h : Stands w i m mem) (htaken : Taken w m) (j : ℕ) :
    Stands w j (cloneOf w.process m) mem where
  orderly := by
    constructor
    · intro mp hmp
      obtain ⟨q, hq, rfl⟩ := List.mem_map.mp hmp
      exact h.orderly.end_lt q (List.mem_filter.mp hq).1
    · have hfilter := h.orderly.apart.filter fun mp => mp.reservation
      exact List.pairwise_map.mpr hfilter
  live hc := by cases hc
  shadowed _ := by
    constructor
    · intro mp hmp
      obtain ⟨q, hq, rfl⟩ := List.mem_map.mp hmp
      exact ⟨rfl, snapshot_isSome _ q⟩
    · intro x hmapped hread
      obtain ⟨mp, hmem, hres, hholds, hall⟩ := htaken x hmapped hread
      refine ⟨snapshot w.process mp, List.mem_map.mpr ⟨mp, List.mem_filter.mpr ⟨hmem, hres⟩, rfl⟩, hholds, ?_⟩
      have hlive : m.isChild = false := by
        by_contra hc
        have hclone := ((h.shadowed (by simpa using hc)).1 mp hmem).1
        rw [hres] at hclone
        cases hclone
      have hend := h.orderly.end_lt mp hmem
      have hreadable : ∀ k < mp.len.toNat, w.process.readable (mp.base + BitVec.ofNat 64 k) = true := by
        intro k hk
        apply hall
        have hsum : (mp.base + BitVec.ofNat 64 k).toNat = mp.base.toNat + k := by
          rw [BitVec.toNat_add, BitVec.toNat_ofNat]
          omega
        rw [Mapping.Holds, hsum]
        omega
      rw [Mapping.bytes, snapshot, guardedCopyIn_some hreadable, (h.live hlive).2.2]
      change w.process.memory (mp.base + BitVec.ofNat 64 (x - mp.base).toNat) = w.process.memory x
      rw [sub_add_cancel_word]

end Writing

section Outcomes

variable {w : World} {i : ℕ} {m : Mock} {mem : Memory} {a len : Word} {src : ℕ → BitVec 8} {torn : Word → Bool}

/-- What a copy to an instance leaves, where the instance stood before. -/
structure Leaves (w : World) (i : ℕ) (m : Mock) (mem : Memory) (a len : Word) (src : ℕ → BitVec 8)
    (torn : Word → Bool) (r : Answer × Mock × Memory) : Prop where
  stands : Stands { w with process := { w.process with memory := r.2.2 } } i r.2.1
    (wrote w.process a len src torn r.1 mem)
  live : m.isChild = true → r.2.2 = w.process.memory
  unmapped : ∀ x, w.mapped x = false → r.2.2 x = w.process.memory x
  refused : ¬ w.Covers a len.toNat → r.1 = .failed

theorem userCopyOut_shadow {p : Process} {mp : Mapping} (hcover : shadowCovering m a len = some mp)
    (hfits : mp.Fits a len) : userCopyOut p m a len src torn =
      (.written, { m with maps := updateFirst (fun mp => mp.covers a len) (fun mp => mp.write a len src) m.maps },
        p.memory) := by
  rw [userCopyOut, hcover]
  dsimp only
  rw [if_pos hfits]

theorem userCopyOut_through {p : Process} (hcover : shadowCovering m a len = none)
    (h : ∀ k < len.toNat, p.writable (a + BitVec.ofNat 64 k) = true) :
    userCopyOut p m a len src torn = (.written, m, patch p.memory a len.toNat src) := by
  rw [userCopyOut, hcover, guardedCopyOut, if_pos h]
  rfl

theorem userCopyOut_fault {p : Process} (hcover : shadowCovering m a len = none)
    (h : ∃ k < len.toNat, p.writable (a + BitVec.ofNat 64 k) = false) :
    userCopyOut p m a len src torn =
      (.failed, m, patchSome p.memory a len.toNat src fun x => torn x && p.writable x) := by
  obtain ⟨k, hk, hw⟩ := h
  rw [userCopyOut, hcover, guardedCopyOut, if_neg]
  · rfl
  · intro hall
    rw [hall k hk] at hw
    cases hw

theorem covers_zero (w : World) (a : Word) : w.Covers a (0 : Word).toNat := fun k hk => by cases hk

theorem patch_unmapped (h : w.Covers a len.toNat) (memory : Memory) (src : ℕ → BitVec 8) {x : Word}
    (hx : w.mapped x = false) : patch memory a len.toNat src x = memory x := by
  rw [patch]
  split_ifs with hlt
  · have hmapped := h _ hlt
    rw [sub_add_cancel_word, hx] at hmapped
    cases hmapped
  · rfl

/-- Nothing is written: no byte, or to nothing that could be written. -/
theorem Stands.leaves_same (h : Stands w i m mem) {answer : Answer}
    (hwrote : wrote w.process a len src torn answer mem = mem)
    (hrefused : ¬ w.Covers a len.toNat → answer = .failed) :
    Leaves w i m mem a len src torn (answer, m, w.process.memory) where
  stands := by
    rw [hwrote]
    exact h.other rfl rfl fun _ => rfl
  live _ := rfl
  unmapped _ _ := rfl
  refused := hrefused

/-- Live memory and what its instance should hold are written alike. -/
theorem Stands.leaves_live (h : Stands w i m mem) (hlive : m.isChild = false) {answer : Answer}
    {memory : Memory} (hmemory : memory = wrote w.process a len src torn answer w.process.memory)
    (hunmapped : ∀ x, w.mapped x = false → memory x = w.process.memory x)
    (hrefused : ¬ w.Covers a len.toNat → answer = .failed) :
    Leaves w i m mem a len src torn (answer, m, memory) where
  stands := by
    obtain ⟨hi, hnone, hmem⟩ := h.live hlive
    refine ⟨h.orderly, fun _ => ⟨hi, hnone, ?_⟩, fun hc => ?_⟩
    · rw [hmemory, hmem]
    · rw [hlive] at hc
      cases hc
  live hc := by
    rw [hlive] at hc
    cases hc
  unmapped := hunmapped
  refused := hrefused

theorem Stands.leaves (h : Stands w i m mem) (hcare : (MockCall.copyOut i a len src torn).Careful w m) :
    Leaves w i m mem a len src torn (userCopyOut w.process m a len src torn) := by
  rw [MockCall.Careful, Sheltered] at hcare
  cases hcover : shadowCovering m a len with
  | some mp =>
      rw [hcover] at hcare
      obtain ⟨hfits, hmapped⟩ := hcare
      rw [userCopyOut_shadow hcover hfits]
      have hchild : m.isChild = true := by
        by_contra hc
        have hnone := shadowCovering_live (h.live (by simpa using hc)).2.1 a len
        rw [hcover] at hnone
        cases hnone
      refine ⟨?_, fun _ => rfl, fun _ _ => rfl, fun hn => absurd hmapped hn⟩
      exact (h.write_shadow hchild hcover hfits src).other rfl rfl fun _ => rfl
  | none =>
      rw [hcover] at hcare
      rcases hcare with rfl | hcare
      · have hzero : ∀ k < (0 : Word).toNat, w.process.writable (a + BitVec.ofNat 64 k) = true :=
          fun k hk => by cases hk
        rw [userCopyOut_through hcover hzero]
        change Leaves w i m mem a 0 src torn (.written, m, patch w.process.memory a 0 src)
        rw [patch_zero]
        exact h.leaves_same (patch_zero mem a src) fun hn => absurd (covers_zero w a) hn
      · cases hchild : m.isChild with
        | true =>
            rw [hchild, if_pos rfl] at hcare
            by_cases hlen : len.toNat = 0
            · have hlen0 : len = 0 := BitVec.eq_of_toNat_eq hlen
              subst hlen0
              have hzero : ∀ k < (0 : Word).toNat, w.process.writable (a + BitVec.ofNat 64 k) = true :=
                fun k hk => by cases hk
              rw [userCopyOut_through hcover hzero]
              change Leaves w i m mem a 0 src torn (.written, m, patch w.process.memory a 0 src)
              rw [patch_zero]
              exact h.leaves_same (patch_zero mem a src) fun hn => absurd (covers_zero w a) hn
            · have hmask : ∀ k < len.toNat, (torn (a + BitVec.ofNat 64 k) &&
                  w.process.writable (a + BitVec.ofNat 64 k)) = false := by
                intro k hk
                rw [hcare k hk, Bool.and_false]
              rw [userCopyOut_fault hcover ⟨0, by omega, hcare 0 (by omega)⟩, patchSome_of_mask hmask]
              exact h.leaves_same (patchSome_of_mask hmask) fun _ => rfl
        | false =>
            rw [hchild, if_neg Bool.false_ne_true] at hcare
            by_cases hall : ∀ k < len.toNat, w.process.writable (a + BitVec.ofNat 64 k) = true
            · have hcovers : w.Covers a len.toNat := by
                rcases hcare with hcovers | ⟨⟨k, hk, hw⟩, -⟩
                · exact hcovers
                · rw [hall k hk] at hw
                  cases hw
              rw [userCopyOut_through hcover hall]
              exact h.leaves_live hchild rfl (fun x hx => patch_unmapped hcovers _ src hx)
                fun hn => absurd hcovers hn
            · have hfault : ∃ k < len.toNat, w.process.writable (a + BitVec.ofNat 64 k) = false := by
                push Not at hall
                obtain ⟨k, hk, hw⟩ := hall
                exact ⟨k, hk, by simpa using hw⟩
              rw [userCopyOut_fault hcover hfault]
              refine h.leaves_live hchild rfl (fun x hx => ?_) fun _ => rfl
              rw [patchSome, patch]
              split_ifs with hmask hlt
              · rw [Bool.and_eq_true] at hmask
                have hw := hmask.2
                have hmapped : w.mapped x = true := by
                  rcases hcare with hcovers | ⟨-, honly⟩
                  · have hm := hcovers _ hlt
                    rwa [sub_add_cancel_word] at hm
                  · have hm := honly _ hlt
                    rw [sub_add_cancel_word] at hm
                    exact hm hw
                rw [hx] at hmapped
                cases hmapped
              · rfl
              · rfl

theorem careful_of_shadow {mp : Mapping} (hcover : shadowCovering m a len = some mp) (hfits : mp.Fits a len)
    (hmapped : w.Covers a len.toNat) : (MockCall.copyOut i a len src torn).Careful w m := by
  rw [MockCall.Careful, Sheltered, hcover]
  exact ⟨hfits, hmapped⟩

theorem copyIn_refused (hcare : (MockCall.copyIn i a len).Careful w m)
    (hstray : ¬ w.Covers a len.toNat) : userCopyIn w.process m a len = .failed := by
  rw [MockCall.Careful, Sheltered] at hcare
  cases hcover : shadowCovering m a len with
  | some mp =>
      rw [hcover] at hcare
      exact absurd hcare.2 hstray
  | none =>
      rw [hcover] at hcare
      rcases hcare with rfl | hread | ⟨-, hcovers⟩
      · exact absurd (covers_zero w a) hstray
      · rw [userCopyIn, hcover, guardedCopyIn_none hread]
      · exact absurd hcovers hstray

theorem Stands.copyIn_reads (h : Stands w i m mem) (hcare : (MockCall.copyIn i a len).Careful w m)
    (hmapped : w.Covers a len.toNat)
    (hread : ∀ k < len.toNat, w.process.readable (a + BitVec.ofNat 64 k) = true) :
    userCopyIn w.process m a len = .bytes (window mem a len.toNat) := by
  rw [MockCall.Careful, Sheltered] at hcare
  cases hchild : m.isChild with
  | false =>
      obtain ⟨-, hnone, rfl⟩ := h.live hchild
      exact userCopyIn_live hnone hread
  | true =>
      cases hcover : shadowCovering m a len with
      | some mp =>
          rw [hcover] at hcare
          exact h.reads_shadow hchild hcover hcare.1 hmapped hread
      | none =>
          rw [hcover] at hcare
          rcases hcare with rfl | ⟨k, hk, hr⟩ | ⟨hlive, -⟩
          · rw [userCopyIn, hcover, guardedCopyIn_some hread]
            rfl
          · rw [hread k hk] at hr
            cases hr
          · rw [hchild] at hlive
            cases hlive

end Outcomes

section Steps

variable {s : Clones} {call : MockCall}

theorem Kept.faithful (h : Kept s) : Faithful s :=
  ⟨h.1, fun i m mem hm hmem => (h.2 i m mem hm hmem).reads⟩

theorem Kept.contents_at (h : Kept s) {i : ℕ} {m : Mock} (hm : s.world.instances[i]? = some m) :
    ∃ mem, s.contents[i]? = some mem := by
  obtain ⟨hlt, -⟩ := List.getElem?_eq_some_iff.mp hm
  rw [← h.1] at hlt
  exact ⟨_, List.getElem?_eq_getElem hlt⟩

theorem next_of_some {m : Mock} (hm : s.world.instances[call.on]? = some m) :
    s.next call = ⟨(s.world.perform m call).2, expected s.world m s.contents call⟩ := by
  rw [Clones.next, hm]

theorem next_of_none (hm : s.world.instances[call.on]? = none) : s.next call = s := by
  rw [Clones.next, hm]

theorem Kept.clone (h : Kept s) {i : ℕ} {m : Mock} (hm : s.world.instances[i]? = some m)
    (htaken : Taken s.world m) :
    Kept ⟨{ s.world with instances := s.world.instances ++ [cloneOf s.world.process m] },
      s.contents ++ s.contents[i]?.toList⟩ := by
  obtain ⟨mem, hmem⟩ := h.contents_at hm
  rw [hmem]
  refine ⟨by simp [h.1], ?_⟩
  intro j m' mem' hm' hmem'
  dsimp only at hm' hmem'
  by_cases hj : j < s.world.instances.length
  · rw [List.getElem?_append_left hj] at hm'
    rw [List.getElem?_append_left (by rw [h.1]; exact hj)] at hmem'
    exact (h.2 j m' mem' hm' hmem').other rfl rfl fun _ => rfl
  · rw [List.getElem?_append_right (by omega)] at hm'
    rw [List.getElem?_append_right (by rw [h.1]; omega), h.1] at hmem'
    have hlast : j - s.world.instances.length = 0 := by
      obtain ⟨hlt, -⟩ := List.getElem?_eq_some_iff.mp hm'
      simp only [List.length_singleton] at hlt
      omega
    rw [hlast] at hm' hmem'
    cases hm'
    cases hmem'
    exact ((h.2 i m mem hm hmem).clone htaken j).other rfl rfl fun _ => rfl

theorem Kept.copyOut (h : Kept s) {i : ℕ} {m : Mock} {a len : Word} {src : ℕ → BitVec 8} {torn : Word → Bool}
    (hm : s.world.instances[i]? = some m) (hcare : (MockCall.copyOut i a len src torn).Careful s.world m) :
    Kept ⟨(s.world.perform m (.copyOut i a len src torn)).2,
      expected s.world m s.contents (.copyOut i a len src torn)⟩ := by
  obtain ⟨mem, hmem⟩ := h.contents_at hm
  have hstands := h.2 i m mem hm hmem
  have hleaves := hstands.leaves hcare
  refine ⟨by simp [expected, World.perform, h.1], ?_⟩
  intro j m' mem' hm' hmem'
  simp only [expected, World.perform] at hm' hmem'
  by_cases hij : i = j
  · subst hij
    obtain ⟨hlt, -⟩ := List.getElem?_eq_some_iff.mp hm
    rw [List.getElem?_set_self hlt] at hm'
    rw [List.getElem?_modify_eq, hmem] at hmem'
    cases hm'
    cases hmem'
    exact hleaves.stands.other rfl rfl fun _ => rfl
  · rw [List.getElem?_set_ne hij] at hm'
    rw [List.getElem?_modify_ne _ _ hij] at hmem'
    have hother := h.2 j m' mem' hm' hmem'
    refine hother.other rfl rfl fun hlive => ?_
    apply hleaves.live
    by_contra hi
    have hzero := (hstands.live (by simpa using hi)).1
    have hzero' := (hother.live hlive).1
    exact hij (hzero.trans hzero'.symm)

/-- A careful call keeps what is kept. -/
theorem Kept.next (h : Kept s) (hcare : CarefulOn s call) : Kept (s.next call) := by
  cases hm : s.world.instances[call.on]? with
  | none =>
      rw [next_of_none hm]
      exact h
  | some m =>
      have hc := hcare m hm
      rw [next_of_some hm]
      cases call with
      | clone i memory =>
          cases memory with
          | true => exact h.clone hm (hc rfl)
          | false => exact h
      | copyIn i a len => exact h
      | copyOut i a len src torn => exact h.copyOut hm hc

theorem next_static : (s.next call).world.mapped = s.world.mapped ∧
    (s.next call).world.process.canRead = s.world.process.canRead := by
  cases hm : s.world.instances[call.on]? with
  | none =>
      rw [next_of_none hm]
      exact ⟨rfl, rfl⟩
  | some m =>
      rw [next_of_some hm]
      cases call with
      | clone i memory => cases memory <;> exact ⟨rfl, rfl⟩
      | copyIn i a len => exact ⟨rfl, rfl⟩
      | copyOut i a len src torn => exact ⟨rfl, rfl⟩

/-- An instance that is not called stays as it is. -/
theorem next_instances (hlen : s.contents.length = s.world.instances.length) {j : ℕ} {m : Mock}
    (hj : j ≠ call.on) (hm : s.world.instances[j]? = some m) :
    (s.next call).world.instances[j]? = some m ∧ (s.next call).contents[j]? = s.contents[j]? := by
  obtain ⟨hlt, -⟩ := List.getElem?_eq_some_iff.mp hm
  cases hon : s.world.instances[call.on]? with
  | none =>
      rw [next_of_none hon]
      exact ⟨hm, rfl⟩
  | some m' =>
      rw [next_of_some hon]
      cases call with
      | clone i memory =>
          cases memory with
          | true =>
              refine ⟨(List.getElem?_append_left hlt).trans hm, ?_⟩
              exact List.getElem?_append_left (by rw [hlen]; exact hlt)
          | false => exact ⟨hm, rfl⟩
      | copyIn i a len => exact ⟨hm, rfl⟩
      | copyOut i a len src torn =>
          have hij : i ≠ j := fun h => hj h.symm
          refine ⟨(List.getElem?_set_ne hij).trans hm, ?_⟩
          exact List.getElem?_modify_ne _ _ hij

theorem Kept.right (h : Kept s) (hcare : CarefulOn s call) : Right s call := by
  have hkept := h.next hcare
  obtain ⟨hmapped, hread⟩ : (s.next call).world.mapped = s.world.mapped ∧
      (s.next call).world.process.canRead = s.world.process.canRead := next_static
  constructor
  · exact hkept.faithful
  · intro j m hj hm
    obtain ⟨hnext, hcontents⟩ := next_instances h.1 hj hm
    obtain ⟨mem, hmem⟩ := h.contents_at hm
    refine ⟨hnext, fun x hx hr => ?_⟩
    rw [(h.2 j m mem hm hmem).reads x hx hr]
    apply hkept.faithful.2 j m mem hnext (hcontents.trans hmem) x
    · rw [hmapped]
      exact hx
    · rw [Process.readable, hread]
      exact hr
  · rintro i m mem a len rfl hm hmem hcovers hreadable
    exact (h.2 i m mem hm hmem).copyIn_reads (hcare m hm) hcovers hreadable
  · intro m hm hstray
    obtain ⟨mem, hmem⟩ := h.contents_at hm
    cases call with
    | clone i memory => cases hstray
    | copyIn i a len => exact copyIn_refused (hcare m hm) hstray
    | copyOut i a len src torn => exact ((h.2 i m mem hm hmem).leaves (hcare m hm)).refused hstray
  · intro x hx
    cases hm : s.world.instances[call.on]? with
    | none => rw [next_of_none hm]
    | some m =>
        rw [next_of_some hm]
        obtain ⟨mem, hmem⟩ := h.contents_at hm
        cases call with
        | clone i memory => cases memory <;> rfl
        | copyIn i a len => rfl
        | copyOut i a len src torn => exact ((h.2 i m mem hm hmem).leaves (hcare m hm)).unmapped x hx

theorem Fresh.kept (h : Fresh s) : Kept s := by
  obtain ⟨⟨m, hinstances, hlive, horderly, hshadow⟩, hcontents⟩ := h
  refine ⟨by rw [hinstances, hcontents]; rfl, ?_⟩
  intro i m' mem hm hmem
  rw [hinstances] at hm
  rw [hcontents] at hmem
  cases i with
  | zero =>
      cases hm
      cases hmem
      refine ⟨horderly, fun _ => ⟨rfl, hshadow, rfl⟩, fun hc => ?_⟩
      rw [hlive] at hc
      cases hc
  | succ i => cases hm

end Steps

/-- In a run of careful calls every instance reads what its parent held when it was cloned and what it
wrote since, and nothing else. -/
theorem clones_isolated {s : Clones} (hfresh : Fresh s) (calls : List MockCall)
    (hcare : Along Clones.next CarefulOn s calls) :
    Faithful s ∧ Along Clones.next Right s calls :=
  ⟨hfresh.kept.faithful,
    (along_invariant (fun _ _ hkept hc => ⟨hkept.next hc, hkept.right hc⟩) calls hfresh.kept hcare).2⟩

/-- One page of zeroes at 0x10000, mapped and open to reads and writes. -/
def onePage : Clones where
  world :=
    { process := ⟨fun _ => 0, fun page => page = 16, fun page => page = 16⟩
      mapped := fun x => x >>> 12 = 16
      instances := [⟨[⟨0x10000, 0x1000, true, none⟩], false⟩] }
  contents := [fun _ => 0]

theorem onePage_holds_iff (x : Word) :
    (Mapping.mk 0x10000 0x1000 true none).Holds x ↔ x >>> 12 = 16 := by
  have hpage : (x >>> 12).toNat = x.toNat / 4096 := by
    rw [BitVec.toNat_ushiftRight, Nat.shiftRight_eq_div_pow]
  have hbase : (0x10000 : Word).toNat = 65536 := rfl
  have hlen : (0x1000 : Word).toNat = 4096 := rfl
  have hsixteen : (16 : Word).toNat = 16 := rfl
  rw [Mapping.Holds, hbase, hlen]
  constructor
  · intro h
    apply BitVec.eq_of_toNat_eq
    rw [hpage, hsixteen]
    omega
  · intro h
    have hnat := congrArg BitVec.toNat h
    rw [hpage, hsixteen] at hnat
    omega

theorem onePage_fresh : Fresh onePage where
  single := by
    refine ⟨_, rfl, rfl, ⟨?_, List.pairwise_singleton _ _⟩, ?_⟩
    · intro mp hmp
      rw [List.mem_singleton.mp hmp]
      decide
    · intro mp hmp
      rw [List.mem_singleton.mp hmp]
  contents := rfl

/-- A clone that is written to, while the first instance reads. -/
theorem clone_written_isolated :
    Faithful onePage ∧ Along Clones.next Right onePage
      [.clone 0 true, .copyOut 1 0x10000 2 (fun _ => 7) (fun _ => false), .copyIn 0 0x10000 2] := by
  have htaken : Taken onePage.world ⟨[⟨0x10000, 0x1000, true, none⟩], false⟩ := by
    intro x hx _
    refine ⟨_, List.mem_singleton_self _, rfl, (onePage_holds_iff x).mpr (by simpa [onePage] using hx), ?_⟩
    intro y hy
    have hpage := (onePage_holds_iff y).mp hy
    simpa [onePage, Process.readable] using hpage
  apply clones_isolated onePage_fresh
  refine ⟨?_, ?_, ?_, trivial⟩
  · intro m hm hmemory
    cases hm
    exact htaken
  · intro m hm
    have hclone : cloneOf onePage.world.process ⟨[⟨0x10000, 0x1000, true, none⟩], false⟩ = m :=
      Option.some.inj hm
    have hcover : shadowCovering m 0x10000 2 =
        some (snapshot onePage.world.process ⟨0x10000, 0x1000, true, none⟩) := by
      rw [← hclone, shadowCovering, Option.filter_eq_some_iff]
      exact ⟨rfl, snapshot_isSome _ _⟩
    refine careful_of_shadow hcover (by decide) ?_
    intro k hk
    have hk2 : k < 2 := hk
    interval_cases k <;> decide
  · intro m hm
    cases hm
    refine .inr (.inr ⟨rfl, ?_⟩)
    intro k hk
    have hk2 : k < 2 := hk
    interval_cases k <;> decide

/-- A clone of a clone reads what the first instance has written since, not what the clone holds. -/
theorem clone_of_clone_not_isolated :
    ¬ (Faithful onePage ∧ Along Clones.next Right onePage
      [.clone 0 true, .copyOut 0 0x10000 1 (fun _ => 7) (fun _ => false), .clone 1 true]) := by
  intro h
  have hread := h.2.2.2.1.faithful.2 2 _ _ rfl rfl 0x10000 rfl rfl
  revert hread
  decide

end SysvNt.MockSubstrate
