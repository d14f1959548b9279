import SysvNt.ForkSharing
import Mathlib.Algebra.Order.BigOperators.Group.List

/-!
# What the counts of frames count

The invariant says of every entry that is not control memory that its frame is one of data, at the same
address in each root, counted once for each root that has it, and that a writable entry is the only one
of its frame. Each call that makes, copies, replaces or drops entries keeps it.
-/

namespace SysvNt.ForkProbe

open ByteMemory RadixTree

section Sums

variable {α : Type}

theorem sum_map_set (g : α → ℕ) {l : List α} {i : ℕ} {x : α} (h : l[i]? = some x) (y : α) :
    ((l.set i y).map g).sum + g x = (l.map g).sum + g y := by
  induction l generalizing i with
  | nil => cases h
  | cons z l ih =>
      cases i with
      | zero =>
          cases h
          simp only [List.set_cons_zero, List.map_cons, List.sum_cons]
          omega
      | succ i =>
          have hih := ih h
          simp only [List.set_cons_succ, List.map_cons, List.sum_cons]
          omega

theorem le_sum_map (g : α → ℕ) {l : List α} {i : ℕ} {x : α} (h : l[i]? = some x) : g x ≤ (l.map g).sum := by
  induction l generalizing i with
  | nil => cases h
  | cons z l ih =>
      rw [List.map_cons, List.sum_cons]
      cases i with
      | zero =>
          cases h
          omega
      | succ i =>
          have hih := ih h
          omega

theorem sum_map_eq_zero {g : α → ℕ} {l : List α} (h : ∀ (i : ℕ) x, l[i]? = some x → g x = 0) : (l.map g).sum = 0 := by
  apply List.sum_eq_zero
  intro n hn
  obtain ⟨x, hx, rfl⟩ := List.mem_map.mp hn
  obtain ⟨i, hi⟩ := List.mem_iff_getElem?.mp hx
  exact h i x hi

theorem sum_map_le {g k : α → ℕ} {l : List α} (h : ∀ (i : ℕ) x, l[i]? = some x → g x ≤ k x) :
    (l.map g).sum ≤ (l.map k).sum := by
  apply List.sum_le_sum
  intro x hx
  obtain ⟨i, hi⟩ := List.mem_iff_getElem?.mp hx
  exact h i x hi

end Sums

/-- How many entries of a root point to the frame and are counted. -/
def uses (f : Word) : Option (Table 4) → ℕ
  | none => 0
  | some t => count (Points f) t

/-- How many entries of live roots point to the frame and are counted. -/
def references (m : Machine) (f : Word) : ℕ := (m.roots.map (uses f)).sum

def liveRoots (m : Machine) : ℕ := (m.roots.map fun o => if o.isSome then 1 else 0).sum

variable {m : Machine} {r r' : ℕ} {t t' : Table 4}

theorem root_eq_some : m.root r = some t ↔ m.roots[r]? = some (some t) := by
  rw [Machine.root, Option.join_eq_some_iff]

structure Machine.Sharing (m : Machine) : Prop where
  good : m.frames.Good
  few : liveRoots m < 65536
  control : ∀ r t p e, m.root r = some t → lookup t p = some e → bit e PTE_NOCOW = true →
    (addr e).toNat < FRAME_BASE.toNat ∧ bit e PTE_RW = true
  entry : ∀ r t p e, m.root r = some t → lookup t p = some e → bit e PTE_NOCOW = false →
    addr e ∈ m.data ∧ (bit e PTE_RW = true ∨ bit e PTE_COW = true)
  data : ∀ f ∈ m.data, FRAME_BASE.toNat ≤ f.toNat ∧ f.toNat < m.frames.next.toNat
  home : ∀ f r t p e r' t' p' e', m.root r = some t → lookup t p = some e → Points f e →
    m.root r' = some t' → lookup t' p' = some e' → Points f e' → p = p'
  owned : ∀ f r t p e r' t' p' e', m.root r = some t → lookup t p = some e → Points f e →
    m.root r' = some t' → lookup t' p' = some e' → Points f e' → bit e PTE_RW = true → r = r'
  counted : ∀ f ∈ m.data, m.frames.refcount f = BitVec.ofNat 16 (references m f)

section Sharing

variable {f : Word} {p : Path (Fin 512) 4} {e : Word}

theorem Machine.Sharing.single (h : m.Sharing) (ht : m.root r = some t) (f : Word) : Single (Points f) t :=
  fun p q e d he hp hd hq => h.home f r t p e r t q d ht he hp ht hd hq

theorem Machine.Sharing.uses_le_one (h : m.Sharing) (f : Word) {o : Option (Table 4)} (ho : m.roots[r]? = some o) :
    uses f o ≤ 1 := by
  cases o with
  | none => exact Nat.zero_le 1
  | some t => exact count_le_one (h.single (root_eq_some.mpr ho) f)

theorem Machine.Sharing.references_le (h : m.Sharing) (f : Word) : references m f ≤ liveRoots m := by
  apply sum_map_le
  intro i o ho
  cases o with
  | none => exact le_rfl
  | some t => exact h.uses_le_one f ho

/-- The count of a frame is the number of its entries. -/
theorem Machine.Sharing.toNat_refcount (h : m.Sharing) (hf : f ∈ m.data) :
    (m.frames.refcount f).toNat = references m f := by
  have hle := h.references_le f
  have hfew := h.few
  rw [h.counted f hf, BitVec.toNat_ofNat]
  omega

theorem Machine.Sharing.uses_of_entry (h : m.Sharing) (ht : m.root r = some t) (he : lookup t p = some e)
    (hp : Points f e) : uses f (some t) = 1 := count_of_has (h.single ht f) ⟨p, e, he, hp⟩

theorem uses_eq_zero (h : ∀ p e, lookup t p = some e → ¬ Points f e) : uses f (some t) = 0 := by
  apply count_of_not_has
  rintro ⟨p, e, he, hp⟩
  exact h p e he hp

/-- A writable entry is the only one of its frame. -/
theorem Machine.Sharing.references_writable (h : m.Sharing) (ht : m.root r = some t)
    (he : lookup t p = some e) (hp : Points f e) (hrw : bit e PTE_RW = true) : references m f = 1 := by
  have hset := sum_map_set (uses f) (root_eq_some.mp ht) none
  have hzero : ((m.roots.set r none).map (uses f)).sum = 0 := by
    apply sum_map_eq_zero
    intro i o ho
    cases o with
    | none => rfl
    | some s =>
        by_cases hir : r = i
        · subst hir
          rw [List.getElem?_set_self (List.getElem?_eq_some_iff.mp (root_eq_some.mp ht)).1] at ho
          cases ho
        · rw [List.getElem?_set_ne hir] at ho
          apply uses_eq_zero
          intro q d hd hq
          exact hir (h.owned f r t p e i s q d ht he hp (root_eq_some.mpr ho) hd hq hrw)
  rw [hzero, h.uses_of_entry ht he hp] at hset
  rw [references]
  simp only [uses] at hset
  omega

/-- Where a frame has one entry, it has no other. -/
theorem Machine.Sharing.alone (h : m.Sharing) (hone : references m f ≤ 1) (ht : m.root r = some t)
    (he : lookup t p = some e) (hp : Points f e) {q : Path (Fin 512) 4} {d : Word} (ht' : m.root r' = some t')
    (hd : lookup t' q = some d) (hq : Points f d) : r = r' := by
  by_contra hne
  have hset := sum_map_set (uses f) (root_eq_some.mp ht) none
  have hle : uses f (some t') ≤ ((m.roots.set r none).map (uses f)).sum := by
    apply le_sum_map (uses f) (i := r')
    rw [List.getElem?_set_ne hne]
    exact root_eq_some.mp ht'
  rw [h.uses_of_entry ht he hp] at hset
  rw [h.uses_of_entry ht' hd hq] at hle
  rw [references] at hone
  simp only [uses] at hset
  omega

end Sharing

section Roots

theorem root_set (hr : m.root r = some t) {fr : Frames} {data : List Word} {o : Option (Table 4)} {i : ℕ} :
    (Machine.mk fr (m.roots.set r o) data).root i = if r = i then o else m.root i := by
  rw [Machine.root]
  by_cases hri : r = i
  · subst hri
    rw [if_pos rfl, List.getElem?_set_self (List.getElem?_eq_some_iff.mp (root_eq_some.mp hr)).1]
    rfl
  · rw [if_neg hri, List.getElem?_set_ne hri]
    rfl

theorem liveRoots_set (hr : m.root r = some t) (fr : Frames) (data : List Word) (t' : Table 4) :
    liveRoots ⟨fr, m.roots.set r (some t'), data⟩ = liveRoots m := by
  have hset : liveRoots ⟨fr, m.roots.set r (some t'), data⟩ + 1 = liveRoots m + 1 :=
    sum_map_set (fun o : Option (Table 4) => if o.isSome then 1 else 0) (root_eq_some.mp hr) (some t')
  exact Nat.add_right_cancel hset

theorem references_set (hr : m.root r = some t) (fr : Frames) (data : List Word) (o : Option (Table 4))
    (f : Word) : references ⟨fr, m.roots.set r o, data⟩ f + uses f (some t) = references m f + uses f o :=
  sum_map_set (uses f) (root_eq_some.mp hr) o

end Roots

section Replacing

variable {p : Path (Fin 512) 4} {e : Word}

/-- The entries of the machine after one is replaced: the new one, or one that was there. -/
theorem entry_after (ht : m.root r = some t) {fr : Frames} {data : List Word} {i : ℕ} {s : Table 4}
    {q : Path (Fin 512) 4} {d : Word}
    (hs : (Machine.mk fr (m.roots.set r (some (insert t p e))) data).root i = some s)
    (hd : lookup s q = some d) : (r = i ∧ q = p ∧ d = e) ∨
      ∃ s', m.root i = some s' ∧ lookup s' q = some d ∧ (r = i → q ≠ p) := by
  rw [root_set ht] at hs
  by_cases hri : r = i
  · subst hri
    rw [if_pos rfl] at hs
    cases hs
    rw [lookup_insert] at hd
    by_cases hqp : q = p
    · rw [if_pos hqp] at hd
      cases hd
      exact .inl ⟨rfl, hqp, rfl⟩
    · rw [if_neg hqp] at hd
      exact .inr ⟨t, ht, hd, fun _ => hqp⟩
  · rw [if_neg hri] at hs
    exact .inr ⟨s, hs, hd, fun h => absurd h hri⟩

/-- An entry is replaced by a writable one of a new frame; the frame that it had, if any, is counted
once less. -/
structure Renewed (m : Machine) (t : Table 4) (p : Path (Fin 512) 4) (fr : Frames) (nf : Word) : Prop where
  good : fr.Good
  next_le : m.frames.next.toNat ≤ nf.toNat
  base_le : FRAME_BASE.toNat ≤ nf.toNat
  taken : nf.toNat < fr.next.toNat
  once : fr.refcount nf = 1
  old : ∀ e, lookup t p = some e → bit e PTE_NOCOW = false
  refcount : ∀ f ∈ m.data, fr.refcount f =
    m.frames.refcount f - BitVec.ofNat 16 (if (∃ e, lookup t p = some e ∧ Points f e) then 1 else 0)

theorem Machine.Sharing.not_mem_of_next_le (h : m.Sharing) {nf : Word} (hle : m.frames.next.toNat ≤ nf.toNat) :
    nf ∉ m.data := by
  intro hmem
  have hlt := (h.data nf hmem).2
  omega

theorem Machine.Sharing.not_points_new (h : m.Sharing) {nf : Word} (hle : m.frames.next.toNat ≤ nf.toNat)
    (ht : m.root r = some t) (he : lookup t p = some e) : ¬ Points nf e := by
  rintro ⟨hnocow, rfl⟩
  exact h.not_mem_of_next_le hle (h.entry r t p e ht he hnocow).1

/-- Whether the table that an entry was replaced in still has a frame. -/
theorem Machine.Sharing.uses_replaced (h : m.Sharing) (ht : m.root r = some t) {f : Word} (he : ¬ Points f e) :
    uses f (some (insert t p e)) + (if (∃ d, lookup t p = some d ∧ Points f d) then 1 else 0) =
      uses f (some t) := by
  have hkept : ∀ q d, lookup (insert t p e) q = some d → Points f d → q ≠ p ∧ lookup t q = some d := by
    intro q d hd hq
    rw [lookup_insert] at hd
    split_ifs at hd with hqp
    · cases hd
      exact absurd hq he
    · exact ⟨hqp, hd⟩
  split_ifs with hold
  · obtain ⟨d, hd, hpd⟩ := hold
    rw [h.uses_of_entry ht hd hpd, uses_eq_zero]
    intro q c hc hpc
    obtain ⟨hqp, hc⟩ := hkept q c hc hpc
    exact hqp (h.single ht f q p c d hc hpc hd hpd)
  · have hsingle : Single (Points f) (insert t p e) := by
      intro q q' d d' hd hpd hd' hpd'
      exact h.single ht f q q' d d' (hkept q d hd hpd).2 hpd (hkept q' d' hd' hpd').2 hpd'
    apply count_congr hsingle (h.single ht f)
    constructor
    · rintro ⟨q, d, hd, hpd⟩
      exact ⟨q, d, (hkept q d hd hpd).2, hpd⟩
    · rintro ⟨q, d, hd, hpd⟩
      refine ⟨q, d, ?_, hpd⟩
      rw [lookup_insert, if_neg]
      · exact hd
      · rintro rfl
        exact hold ⟨d, hd, hpd⟩

theorem Machine.Sharing.renew (h : m.Sharing) (ht : m.root r = some t) {fr : Frames} {nf : Word}
    (hnew : Renewed m t p fr nf) (haddr : addr e = nf) (hnocow : bit e PTE_NOCOW = false)
    (hrw : bit e PTE_RW = true) :
    (Machine.mk fr (m.roots.set r (some (insert t p e))) (nf :: m.data)).Sharing := by
  have hpoints : ∀ i s q d, m.root i = some s → lookup s q = some d → ¬ Points nf d :=
    fun i s q d hs hd => h.not_points_new hnew.next_le hs hd
  constructor
  · exact hnew.good
  · rw [liveRoots_set ht]
    exact h.few
  · intro i s q d hs hd hc
    rcases entry_after ht hs hd with ⟨-, -, rfl⟩ | ⟨s', hs', hd', -⟩
    · rw [hnocow] at hc
      cases hc
    · exact h.control i s' q d hs' hd' hc
  · intro i s q d hs hd hc
    rcases entry_after ht hs hd with ⟨-, -, rfl⟩ | ⟨s', hs', hd', -⟩
    · rw [haddr]
      exact ⟨List.mem_cons_self, .inl hrw⟩
    · obtain ⟨hmem, hbits⟩ := h.entry i s' q d hs' hd' hc
      exact ⟨List.mem_cons_of_mem nf hmem, hbits⟩
  · intro f hf
    rcases List.mem_cons.mp hf with rfl | hf
    · exact ⟨hnew.base_le, hnew.taken⟩
    · have hnext := hnew.next_le
      have htaken := hnew.taken
      have hdata := h.data f hf
      exact ⟨hdata.1, show f.toNat < fr.next.toNat by omega⟩
  · intro f i s q d i' s' q' d' hs hd hp hs' hd' hp'
    rcases entry_after ht hs hd with ⟨-, rfl, rfl⟩ | ⟨u, hu, hdu, -⟩
    · rcases entry_after ht hs' hd' with ⟨-, rfl, -⟩ | ⟨u', hu', hdu', -⟩
      · rfl
      · have hf : f = nf := hp.2.symm.trans haddr
        rw [hf] at hp'
        exact absurd hp' (hpoints i' u' q' d' hu' hdu')
    · rcases entry_after ht hs' hd' with ⟨-, -, rfl⟩ | ⟨u', hu', hdu', -⟩
      · have hf : f = nf := hp'.2.symm.trans haddr
        rw [hf] at hp
        exact absurd hp (hpoints i u q d hu hdu)
      · exact h.home f i u q d i' u' q' d' hu hdu hp hu' hdu' hp'
  · intro f i s q d i' s' q' d' hs hd hp hs' hd' hp' hw
    rcases entry_after ht hs hd with ⟨rfl, -, rfl⟩ | ⟨u, hu, hdu, -⟩
    · rcases entry_after ht hs' hd' with ⟨hi, -, -⟩ | ⟨u', hu', hdu', -⟩
      · exact hi
      · have hf : f = nf := hp.2.symm.trans haddr
        rw [hf] at hp'
        exact absurd hp' (hpoints i' u' q' d' hu' hdu')
    · rcases entry_after ht hs' hd' with ⟨-, -, rfl⟩ | ⟨u', hu', hdu', -⟩
      · have hf : f = nf := hp'.2.symm.trans haddr
        rw [hf] at hp
        exact absurd hp (hpoints i u q d hu hdu)
      · exact h.owned f i u q d i' u' q' d' hu hdu hp hu' hdu' hp' hw
  · intro f hf
    have hset := references_set ht fr (nf :: m.data) (some (insert t p e)) f
    dsimp only
    rcases List.mem_cons.mp hf with rfl | hf
    · have hzero : references m f = 0 := by
        apply sum_map_eq_zero
        intro i o ho
        cases o with
        | none => rfl
        | some s => exact uses_eq_zero fun q d hd => hpoints i s q d (root_eq_some.mpr ho) hd
      have hnone : uses f (some t) = 0 := uses_eq_zero fun q d hd => hpoints r t q d ht hd
      have hone : uses f (some (insert t p e)) = 1 := by
        have hhas : Has (Points f) (insert t p e) := by
          refine ⟨p, e, ?_, hnocow, haddr⟩
          rw [lookup_insert, if_pos rfl]
        refine count_of_has (fun q q' d d' hd hq hd' hq' => ?_) hhas
        have hat : ∀ q d, lookup (insert t p e) q = some d → Points f d → q = p := by
          intro q d hd hq
          rw [lookup_insert] at hd
          split_ifs at hd with hqp
          · exact hqp
          · exact absurd hq (hpoints r t q d ht hd)
        rw [hat q d hd hq, hat q' d' hd' hq']
      rw [hzero, hnone, hone] at hset
      rw [hnew.once, show references _ f = 1 from by simpa using hset]
      rfl
    · have hne : ¬ Points f e := by
        rintro ⟨-, rfl⟩
        rw [haddr] at hf
        exact h.not_mem_of_next_le hnew.next_le hf
      have huses := h.uses_replaced (p := p) ht hne
      have hcount := h.counted f hf
      rw [hnew.refcount f hf, hcount]
      generalize references ⟨fr, m.roots.set r (some (insert t p e)), nf :: m.data⟩ f = after at hset ⊢
      generalize references m f = before at hset ⊢
      generalize (if (∃ d, lookup t p = some d ∧ Points f d) then 1 else 0) = gone at huses ⊢
      have hsum : before = after + gone := by omega
      rw [hsum]
      bv_omega

end Replacing

section Alike

def key (e : Word) : Word × Bool × Bool := (addr e, bit e PTE_NOCOW, bit e PTE_NOCOW && bit e PTE_RW)

theorem key_eq_iff {e d : Word} : key e = key d ↔ addr e = addr d ∧ bit e PTE_NOCOW = bit d PTE_NOCOW ∧
    (bit d PTE_NOCOW = true → bit e PTE_RW = bit d PTE_RW) := by
  rw [key, key, Prod.mk.injEq, Prod.mk.injEq]
  apply and_congr_right
  intro _
  apply and_congr_right
  intro hnocow
  rw [hnocow]
  cases bit d PTE_NOCOW
  · exact iff_of_true rfl nofun
  · rw [Bool.true_and, Bool.true_and]
    exact ⟨fun h _ => h, fun h => h rfl⟩

theorem points_congr {f e d : Word} (h : key e = key d) : Points f e ↔ Points f d := by
  obtain ⟨haddr, hnocow, -⟩ := key_eq_iff.mp h
  rw [Points, Points, haddr, hnocow]

/-- The tables have the same addresses, with entries that the counts do not tell apart. -/
def Alike (t t' : Table 4) : Prop := ∀ p, (lookup t p).map key = (lookup t' p).map key

theorem Alike.symm (h : Alike t t') : Alike t' t := fun p => (h p).symm

theorem Alike.entry (h : Alike t t') {p : Path (Fin 512) 4} {d : Word} (hd : lookup t' p = some d) :
    ∃ e, lookup t p = some e ∧ key e = key d := by
  have hp := h p
  rw [hd] at hp
  exact Option.map_eq_some_iff.mp hp

theorem Alike.points (h : Alike t t') {f : Word} {p : Path (Fin 512) 4} {d : Word}
    (hd : lookup t' p = some d) (hp : Points f d) : ∃ e, lookup t p = some e ∧ Points f e := by
  obtain ⟨e, he, hkey⟩ := h.entry hd
  exact ⟨e, he, (points_congr hkey).mpr hp⟩

theorem Alike.count (h : Alike t t') {f : Word} (hs : Single (Points f) t) :
    Single (Points f) t' ∧ count (Points f) t' = count (Points f) t := by
  have hs' : Single (Points f) t' := by
    intro p q d c hd hp hc hq
    obtain ⟨d', hd', hp'⟩ := h.points hd hp
    obtain ⟨c', hc', hq'⟩ := h.points hc hq
    exact hs p q d' c' hd' hp' hc' hq'
  refine ⟨hs', count_congr hs' hs ⟨?_, ?_⟩⟩
  · rintro ⟨p, d, hd, hp⟩
    obtain ⟨d', hd', hp'⟩ := h.points hd hp
    exact ⟨p, d', hd', hp'⟩
  · rintro ⟨p, d, hd, hp⟩
    obtain ⟨d', hd', hp'⟩ := h.symm.points hd hp
    exact ⟨p, d', hd', hp'⟩

theorem alike_share (t : Table 4) : Alike t (map ForkProbe.share t) := by
  intro p
  rw [lookup_map, Option.map_map]
  congr 1
  funext e
  rw [Function.comp, key_eq_iff, addr_share, nocow_share]
  refine ⟨rfl, rfl, fun h => ?_⟩
  rw [ForkProbe.share, if_pos h]

theorem alike_insert {p : Path (Fin 512) 4} {e d : Word} (he : lookup t p = some e) (hkey : key d = key e) :
    Alike t (insert t p d) := by
  intro q
  rw [lookup_insert]
  split_ifs with hqp
  · subst hqp
    rw [he, Option.map_some, Option.map_some, hkey]
  · rfl

/-- An entry of the machine after a table was replaced by one alike: its own, or one that was there. -/
theorem entry_alike (ht : m.root r = some t) (hal : Alike t t') {fr : Frames} {data : List Word} {i : ℕ}
    {s : Table 4} {q : Path (Fin 512) 4} {d : Word}
    (hs : (Machine.mk fr (m.roots.set r (some t')) data).root i = some s) (hd : lookup s q = some d) :
    ∃ u c, m.root i = some u ∧ lookup u q = some c ∧ key c = key d ∧
      (r = i ∧ u = t ∧ s = t' ∨ c = d) := by
  rw [root_set ht] at hs
  by_cases hri : r = i
  · subst hri
    rw [if_pos rfl] at hs
    cases hs
    obtain ⟨c, hc, hkey⟩ := hal.entry hd
    exact ⟨t, c, ht, hc, hkey, .inl ⟨rfl, rfl, rfl⟩⟩
  · rw [if_neg hri] at hs
    exact ⟨s, d, hs, hd, rfl, .inr rfl⟩

theorem Machine.Sharing.alike (h : m.Sharing) (ht : m.root r = some t) (hal : Alike t t')
    (hbits : ∀ q d, lookup t' q = some d → bit d PTE_NOCOW = false → bit d PTE_RW = true ∨ bit d PTE_COW = true)
    (hw : ∀ q c d, lookup t q = some c → lookup t' q = some d → bit d PTE_NOCOW = false →
      bit d PTE_RW = true → bit c PTE_RW = true ∨ references m (addr c) ≤ 1) :
    (Machine.mk m.frames (m.roots.set r (some t')) m.data).Sharing := by
  constructor
  · exact h.good
  · rw [liveRoots_set ht]
    exact h.few
  · intro i s q d hs hd hnocow
    obtain ⟨u, c, hu, hc, hkey, -⟩ := entry_alike ht hal hs hd
    obtain ⟨haddr, hbit, hw⟩ := key_eq_iff.mp hkey
    rw [← haddr, ← hw hnocow]
    exact h.control i u q c hu hc (hbit.trans hnocow)
  · intro i s q d hs hd hnocow
    obtain ⟨u, c, hu, hc, hkey, hcase⟩ := entry_alike ht hal hs hd
    obtain ⟨haddr, hbit, -⟩ := key_eq_iff.mp hkey
    obtain ⟨hmem, hrw⟩ := h.entry i u q c hu hc (hbit.trans hnocow)
    rw [← haddr]
    rcases hcase with ⟨-, -, rfl⟩ | rfl
    · exact ⟨hmem, hbits q d hd hnocow⟩
    · exact ⟨hmem, hrw⟩
  · exact h.data
  · intro f i s q d i' s' q' d' hs hd hp hs' hd' hp'
    obtain ⟨u, c, hu, hc, hkey, -⟩ := entry_alike ht hal hs hd
    obtain ⟨u', c', hu', hc', hkey', -⟩ := entry_alike ht hal hs' hd'
    have hp := (points_congr hkey).mpr hp
    have hp' := (points_congr hkey').mpr hp'
    exact h.home f i u q c i' u' q' c' hu hc hp hu' hc' hp'
  · intro f i s q d i' s' q' d' hs hd hp hs' hd' hp' hrw
    obtain ⟨u, c, hu, hc, hkey, hcase⟩ := entry_alike ht hal hs hd
    obtain ⟨u', c', hu', hc', hkey', -⟩ := entry_alike ht hal hs' hd'
    have hnocow := hp.1
    have hp := (points_congr hkey).mpr hp
    have hp' := (points_congr hkey').mpr hp'
    rcases hcase with ⟨rfl, rfl, rfl⟩ | rfl
    · rcases hw q c d hc hd hnocow hrw with hold | hone
      · exact h.owned f r u q c i' u' q' c' hu hc hp hu' hc' hp' hold
      · rw [hp.2] at hone
        exact h.alone hone hu hc hp hu' hc' hp'
    · exact h.owned f i u q c i' u' q' c' hu hc hp hu' hc' hp' hrw
  · intro f hf
    have hset := references_set ht m.frames m.data (some t') f
    have hcount : uses f (some t') = uses f (some t) := (hal.count (h.single ht f)).2
    rw [hcount] at hset
    rw [Nat.add_right_cancel hset]
    exact h.counted f hf

/-- The only entry of a frame may be made writable. -/
theorem Machine.Sharing.take (h : m.Sharing) (ht : m.root r = some t) {p : Path (Fin 512) 4} {e d : Word}
    (he : lookup t p = some e) (hkey : key d = key e) (hone : references m (addr e) ≤ 1)
    (hrw : bit d PTE_RW = true) :
    (Machine.mk m.frames (m.roots.set r (some (insert t p d))) m.data).Sharing := by
  apply h.alike ht (alike_insert he hkey)
  · intro q c hc hnocow
    rw [lookup_insert] at hc
    split_ifs at hc with hqp
    · cases hc
      exact .inl hrw
    · exact (h.entry r t q c ht hc hnocow).2
  · intro q b c hb hc hnocow hw
    rw [lookup_insert] at hc
    split_ifs at hc with hqp
    · rw [hqp, he] at hb
      cases hb
      exact .inr hone
    · rw [hb] at hc
      cases hc
      exact .inl hw

/-- A fork takes the write bit from every entry of the parent that it shares. -/
theorem Machine.Sharing.share (h : m.Sharing) (ht : m.root r = some t) :
    (Machine.mk m.frames (m.roots.set r (some (map ForkProbe.share t))) m.data).Sharing := by
  have hentry : ∀ q d, lookup (map ForkProbe.share t) q = some d → bit d PTE_NOCOW = false →
      ∃ c, lookup t q = some c ∧ bit c PTE_NOCOW = false ∧ d = ForkProbe.share c := by
    intro q d hd hnocow
    rw [lookup_map] at hd
    obtain ⟨c, hc, rfl⟩ := Option.map_eq_some_iff.mp hd
    rw [nocow_share] at hnocow
    exact ⟨c, hc, hnocow, rfl⟩
  apply h.alike ht (alike_share t)
  · intro q d hd hnocow
    obtain ⟨c, hc, hcow, rfl⟩ := hentry q d hd hnocow
    exact .inr (cow_share hcow (h.entry r t q c ht hc hcow).2)
  · intro q b d hb hd hnocow hw
    obtain ⟨c, hc, hcow, rfl⟩ := hentry q d hd hnocow
    rw [rw_share hcow] at hw
    cases hw

end Alike

section Adding

theorem root_append {fr : Frames} {data : List Word} {o : Option (Table 4)} {i : ℕ} {s : Table 4}
    (hs : (Machine.mk fr (m.roots ++ [o]) data).root i = some s) :
    m.root i = some s ∨ i = m.roots.length ∧ o = some s := by
  rw [root_eq_some] at hs
  by_cases hi : i < m.roots.length
  · rw [List.getElem?_append_left hi] at hs
    exact .inl (root_eq_some.mpr hs)
  · rw [List.getElem?_append_right (by omega)] at hs
    have hzero : i - m.roots.length = 0 := by
      obtain ⟨hlt, -⟩ := List.getElem?_eq_some_iff.mp hs
      simp only [List.length_singleton] at hlt
      omega
    rw [hzero] at hs
    cases hs
    exact .inr ⟨by omega, rfl⟩

/-- A root may be added all of whose entries are of control memory, or are found read-only in another
root as well. -/
structure Added (m : Machine) (fr : Frames) (t : Table 4) : Prop where
  grows : Grows m.frames fr fun f => count (Points f) t
  control : ∀ p e, lookup t p = some e → bit e PTE_NOCOW = true →
    (addr e).toNat < FRAME_BASE.toNat ∧ bit e PTE_RW = true
  shared : ∀ p e, lookup t p = some e → bit e PTE_NOCOW = false → bit e PTE_RW = false ∧
    ∃ r s d, m.root r = some s ∧ lookup s p = some d ∧ Points (addr e) d ∧ bit d PTE_RW = false ∧
      (bit d PTE_COW = true → bit e PTE_COW = true)

theorem Machine.Sharing.add (h : m.Sharing) {fr : Frames} (ha : Added m fr t) (hfew : liveRoots m + 1 < 65536) :
    (Machine.mk fr (m.roots ++ [some t]) m.data).Sharing := by
  have hother : ∀ f p e, lookup t p = some e → Points f e →
      ∃ r s d, m.root r = some s ∧ lookup s p = some d ∧ Points f d ∧ bit d PTE_RW = false := by
    intro f p e he hp
    obtain ⟨-, r, s, d, hs, hd, hpd, hrw, -⟩ := ha.shared p e he hp.1
    rw [hp.2] at hpd
    exact ⟨r, s, d, hs, hd, hpd, hrw⟩
  constructor
  · exact ha.grows.good
  · rw [liveRoots, List.map_append, List.sum_append]
    exact hfew
  · intro i s p e hs he hnocow
    rcases root_append hs with hs | ⟨-, hs⟩
    · exact h.control i s p e hs he hnocow
    · cases hs
      exact ha.control p e he hnocow
  · intro i s p e hs he hnocow
    rcases root_append hs with hs | ⟨-, hs⟩
    · exact h.entry i s p e hs he hnocow
    · cases hs
      obtain ⟨-, r, u, d, hu, hd, hpd, hrw, hcow⟩ := ha.shared p e he hnocow
      obtain ⟨hmem, hbits⟩ := h.entry r u p d hu hd hpd.1
      rw [hpd.2] at hmem
      refine ⟨hmem, .inr (hcow (hbits.resolve_left ?_))⟩
      rw [hrw]
      exact Bool.false_ne_true
  · intro f hf
    obtain ⟨hbase, hlt⟩ := h.data f hf
    exact ⟨hbase, hlt.trans_le ha.grows.next_le⟩
  · intro f i s p e i' s' p' e' hs he hp hs' he' hp'
    rcases root_append hs with hs | ⟨-, hs⟩
    · rcases root_append hs' with hs' | ⟨-, hs'⟩
      · exact h.home f i s p e i' s' p' e' hs he hp hs' he' hp'
      · cases hs'
        obtain ⟨r', u', d', hu', hd', hpd', -⟩ := hother f p' e' he' hp'
        exact h.home f i s p e r' u' p' d' hs he hp hu' hd' hpd'
    · cases hs
      obtain ⟨r, u, d, hu, hd, hpd, -⟩ := hother f p e he hp
      rcases root_append hs' with hs' | ⟨-, hs'⟩
      · exact h.home f r u p d i' s' p' e' hu hd hpd hs' he' hp'
      · cases hs'
        obtain ⟨r', u', d', hu', hd', hpd', -⟩ := hother f p' e' he' hp'
        exact h.home f r u p d r' u' p' d' hu hd hpd hu' hd' hpd'
  · intro f i s p e i' s' p' e' hs he hp hs' he' hp' hrw
    rcases root_append hs with hs | ⟨-, hs⟩
    · rcases root_append hs' with hs' | ⟨-, hs'⟩
      · exact h.owned f i s p e i' s' p' e' hs he hp hs' he' hp' hrw
      · cases hs'
        obtain ⟨r', u', d', hu', hd', hpd', hro⟩ := hother f p' e' he' hp'
        have hi := h.owned f i s p e r' u' p' d' hs he hp hu' hd' hpd' hrw
        subst hi
        rw [hs] at hu'
        cases hu'
        have hpath := h.single hs f p p' e d' he hp hd' hpd'
        subst hpath
        rw [he] at hd'
        cases hd'
        rw [hrw] at hro
        cases hro
    · cases hs
      have hro := (ha.shared p e he hp.1).1
      rw [hrw] at hro
      cases hro
  · intro f hf
    have hsum : references ⟨fr, m.roots ++ [some t], m.data⟩ f = references m f + count (Points f) t := by
      rw [references, List.map_append, List.sum_append]
      rfl
    rw [hsum, ha.grows.refcount f (h.data f hf).2, h.counted f hf, BitVec.ofNat_add]

theorem Machine.Sharing.create (h : m.Sharing) (hfew : liveRoots m + 1 < 65536) {m' : Machine}
    (hm : m.create = some m') : m'.Sharing := by
  rw [Machine.create, Option.bind_eq_bind, Option.bind_eq_some_iff] at hm
  obtain ⟨⟨t, fr⟩, hnew, hm⟩ := hm
  cases hm
  obtain ⟨hcontrols, hgrows⟩ := newRoot_some h.good hnew
  refine h.add ⟨hgrows.congr fun f => ?_, fun p e he _ => ⟨(hcontrols p e he).lt, (hcontrols p e he).rw⟩,
    fun p e he hnocow => ?_⟩ hfew
  · symm
    apply count_of_not_has
    rintro ⟨p, e, he, hp⟩
    rw [Points, (hcontrols p e he).nocow] at hp
    cases hp.1
  · rw [(hcontrols p e he).nocow] at hnocow
    cases hnocow

theorem Machine.Sharing.clone (h : m.Sharing) (hfew : liveRoots m + 1 < 65536) {m' : Machine}
    (hm : m.clone r = some m') : m'.Sharing := by
  rw [Machine.clone] at hm
  cases ht : m.root r with
  | none =>
      rw [ht] at hm
      cases hm
      exact h
  | some t =>
      rw [ht] at hm
      dsimp only at hm
      rw [Option.bind_eq_bind, Option.bind_eq_some_iff] at hm
      obtain ⟨⟨d, s, fr⟩, hclone, hm⟩ := hm
      cases hm
      obtain ⟨rfl, rfl, hgrows⟩ := cloneLevel_some h.good hclone
      have hshared := h.share ht
      have hroot : (Machine.mk m.frames (m.roots.set r (some (map ForkProbe.share t))) m.data).root r =
          some (map ForkProbe.share t) := by
        rw [root_set ht, if_pos rfl]
      refine hshared.add (t := map ForkProbe.share t) ⟨hgrows.congr fun f => ?_, ?_, ?_⟩ ?_
      · exact (((alike_share t).count (h.single ht f)).2).symm
      · intro p e he hnocow
        exact hshared.control r _ p e hroot he hnocow
      · intro p e he hnocow
        have hro : bit e PTE_RW = false := by
          rw [lookup_map] at he
          obtain ⟨c, -, rfl⟩ := Option.map_eq_some_iff.mp he
          rw [nocow_share] at hnocow
          exact rw_share hnocow
        exact ⟨hro, r, _, e, hroot, he, ⟨hnocow, rfl⟩, hro, id⟩
      · rw [liveRoots_set ht]
        exact hfew

theorem Machine.Sharing.release (h : m.Sharing) (r : ℕ) : (m.release r).Sharing := by
  rw [Machine.release]
  cases ht : m.root r with
  | none => exact h
  | some t =>
      dsimp only
      have hroot : ∀ {fr : Frames} {i : ℕ} {s : Table 4},
          (Machine.mk fr (m.roots.set r none) m.data).root i = some s → m.root i = some s := by
        intro fr i s hs
        rw [root_set ht] at hs
        split_ifs at hs
        exact hs
      constructor
      · exact ⟨h.good.size_le, h.good.next_le, h.good.aligned, h.good.base_le⟩
      · refine lt_of_le_of_lt ?_ h.few
        have hset := sum_map_set (fun o : Option (Table 4) => if o.isSome then 1 else 0) (root_eq_some.mp ht) none
        exact Nat.le_of_add_right_le hset.le
      · exact fun i s p e hs => h.control i s p e (hroot hs)
      · exact fun i s p e hs => h.entry i s p e (hroot hs)
      · exact h.data
      · exact fun f i s p e i' s' p' e' hs he hp hs' => h.home f i s p e i' s' p' e' (hroot hs) he hp (hroot hs')
      · exact fun f i s p e i' s' p' e' hs he hp hs' =>
          h.owned f i s p e i' s' p' e' (hroot hs) he hp (hroot hs')
      · intro f hf
        have hset := references_set ht { m.frames with refcount := releaseLevel t m.frames.refcount } m.data none f
        dsimp only
        rw [releaseLevel_apply, h.counted f hf]
        simp only [uses, Nat.add_zero] at hset
        rw [← hset]
        bv_omega

end Adding

section Faults

variable {m' : Machine} {va : Word}

/-- The counts do not depend on what is in the frames. -/
theorem Machine.Sharing.phys (h : m.Sharing) (phys : Word → Page) :
    (Machine.mk { m.frames with phys := phys } m.roots m.data).Sharing :=
  ⟨⟨h.good.size_le, h.good.next_le, h.good.aligned, h.good.base_le⟩, h.few, h.control, h.entry, h.data, h.home,
    h.owned, h.counted⟩

/-- A page that was vacant is mapped to a new frame with its pattern. -/
structure Populated (m m' : Machine) (r : ℕ) (t : Table 4) (va tag f : Word) (fr : Frames) : Prop where
  machine : m' = ⟨fr, m.roots.set r (some (insert t (pathOf va) (f ||| PTE_P ||| PTE_RW ||| PTE_US))), f :: m.data⟩
  renewed : Renewed m t (pathOf va) fr f
  frame : Frame f
  phys : ∀ g, g.toNat < m.frames.next.toNat → fr.phys g = m.frames.phys g
  page : fr.phys f = named (fun _ => 0) (tag ^^^ va)

theorem populatePage_some (h : m.Sharing) (hvacant : lookup t (pathOf va) = none) {tag : Word}
    (hm : m.populatePage r t va tag = some m') : ∃ f fr, Populated m m' r t va tag f fr := by
  rw [Machine.populatePage, Option.bind_eq_bind, Option.bind_eq_some_iff] at hm
  obtain ⟨⟨f, t', fr⟩, hpage, hm⟩ := hm
  rw [ForkProbe.populatePage, Option.bind_eq_bind, Option.bind_eq_some_iff] at hpage
  obtain ⟨⟨f', fr₁⟩, halloc, hpage⟩ := hpage
  rw [Option.bind_eq_bind, Option.bind_eq_some_iff] at hpage
  obtain ⟨⟨t'', fr₂⟩, hset, hpage⟩ := hpage
  cases hpage
  cases hm
  have hfresh := allocFrame_fresh h.good halloc
  have hgood : Frames.Good { fr₁ with phys := Function.update fr₁.phys f (named (fr₁.phys f) (tag ^^^ va)) } :=
    ⟨hfresh.grows.good.size_le, hfresh.grows.good.next_le, hfresh.grows.good.aligned, hfresh.grows.good.base_le⟩
  obtain ⟨rfl, hgrows⟩ := setPte_some hgood hset
  have hnext : m.frames.next.toNat ≤ f.toNat := (congrArg BitVec.toNat hfresh.next).ge
  have hcounts : ∀ g, g.toNat < fr₁.next.toNat → fr.refcount g = fr₁.refcount g :=
    fun g hg => (hgrows.refcount g hg).trans (BitVec.add_zero _)
  refine ⟨f, fr, rfl, ⟨hgrows.good, hnext, hfresh.base_le, ?_, ?_, ?_, ?_⟩, hfresh.frame, ?_, ?_⟩
  · exact hfresh.taken.trans_le hgrows.next_le
  · exact (hcounts f hfresh.taken).trans hfresh.once
  · intro e he
    rw [hvacant] at he
    cases he
  · intro g hg
    have hlt := (h.data g hg).2
    rw [hcounts g (hlt.trans_le hfresh.grows.next_le), hfresh.grows.refcount g hlt, if_neg]
    · exact (BitVec.add_zero _).trans (BitVec.sub_zero _).symm
    · rintro ⟨e, he, -⟩
      rw [hvacant] at he
      cases he
  · intro g hg
    have hne : g ≠ f := by
      rintro rfl
      omega
    rw [hgrows.phys g (hg.trans_le hfresh.grows.next_le)]
    exact (Function.update_of_ne hne _ _).trans (hfresh.grows.phys g hg)
  · rw [hgrows.phys f hfresh.taken]
    dsimp only
    rw [Function.update_self, hfresh.zero]

theorem Populated.sharing (h : m.Sharing) (ht : m.root r = some t) {tag f : Word} {fr : Frames}
    (hp : Populated m m' r t va tag f fr) : m'.Sharing := by
  obtain ⟨haddr, hnocow, hrw⟩ := fresh_entry hp.frame
  rw [hp.machine]
  exact h.renew ht hp.renewed haddr hnocow hrw

/-- The fault is resolved: the entry is a writable one, of the frame that it had or of a copy of it. -/
structure Resolved (m m' : Machine) (r : ℕ) (t : Table 4) (va e : Word) : Prop where
  sharing : m'.Sharing
  machine : ∃ d fr data, m' = ⟨fr, m.roots.set r (some (insert t (pathOf va) d)), data⟩ ∧ bit d PTE_RW = true ∧
    bit d PTE_NOCOW = false ∧ fr.phys (addr d) = m.frames.phys (addr e)
  phys : ∀ g, g.toNat < m.frames.next.toNat → m'.frames.phys g = m.frames.phys g

theorem cowResolve_some (h : m.Sharing) (ht : m.root r = some t) {e : Word} (he : lookup t (pathOf va) = some e)
    (hnocow : bit e PTE_NOCOW = false) (hro : bit e PTE_RW = false) {b : Bool}
    (hm : m.cowResolve r va = some (b, m')) : b = true ∧ Resolved m m' r t va e := by
  obtain ⟨hmem, hbits⟩ := h.entry r t (pathOf va) e ht he hnocow
  have hcow : bit e PTE_COW = true := by
    refine hbits.resolve_left ?_
    rw [hro]
    exact Bool.false_ne_true
  have hpoints : Points (addr e) e := ⟨hnocow, rfl⟩
  simp only [Machine.cowResolve, ht, he, hcow, if_true] at hm
  split_ifs at hm with hshared
  · rw [Option.bind_eq_bind, Option.bind_eq_some_iff] at hm
    obtain ⟨⟨nf, fr⟩, halloc, hm⟩ := hm
    cases hm
    have hfresh := allocFrame_fresh h.good halloc
    obtain ⟨haddr, hnc, hrw⟩ := copied_entry hfresh.frame e
    have hlt := (h.data _ hmem).2
    have hnext : m.frames.next.toNat ≤ nf.toNat := (congrArg BitVec.toNat hfresh.next).ge
    have hold : ∀ g, g.toNat < m.frames.next.toNat → g ≠ nf := by
      rintro g hg rfl
      omega
    have hphys : ∀ g, g.toNat < m.frames.next.toNat →
        Function.update fr.phys nf (fr.phys (addr e)) g = m.frames.phys g :=
      fun g hg => (Function.update_of_ne (hold g hg) _ _).trans (hfresh.grows.phys g hg)
    refine ⟨rfl, ⟨?_, ⟨_, _, _, rfl, hrw, hnc.trans hnocow, ?_⟩, hphys⟩⟩
    · refine h.renew ht ⟨?_, hnext, hfresh.base_le, hfresh.taken, ?_, ?_, ?_⟩ haddr (hnc.trans hnocow) hrw
      · exact ⟨hfresh.grows.good.size_le, hfresh.grows.good.next_le, hfresh.grows.good.aligned,
          hfresh.grows.good.base_le⟩
      · exact (Function.update_of_ne (hold _ hlt).symm _ _).trans hfresh.once
      · intro d hd
        rw [he] at hd
        cases hd
        exact hnocow
      · intro g hg
        have hglt := (h.data g hg).2
        have hcount : fr.refcount g = m.frames.refcount g := (hfresh.grows.refcount g hglt).trans (BitVec.add_zero _)
        dsimp only
        by_cases hge : g = addr e
        · subst hge
          rw [Function.update_self, hcount, if_pos ⟨e, he, hpoints⟩]
          rfl
        · rw [Function.update_of_ne hge, hcount, if_neg]
          · exact (BitVec.sub_zero _).symm
          · rintro ⟨d, hd, hp⟩
            rw [he] at hd
            cases hd
            exact hge hp.2.symm
    · dsimp only
      rw [haddr, Function.update_self]
      exact hfresh.grows.phys _ hlt
  · cases hm
    obtain ⟨haddr, hnc, hrw⟩ := taken_entry e
    have hone : references m (addr e) ≤ 1 := by
      rw [← h.toNat_refcount hmem]
      rw [BitVec.lt_def, not_lt] at hshared
      exact hshared
    have hkey : key (e &&& ~~~PTE_COW ||| PTE_RW) = key e := by
      rw [key_eq_iff]
      refine ⟨haddr, hnc, fun hc => ?_⟩
      rw [hnocow] at hc
      cases hc
    refine ⟨rfl, ⟨h.take ht he hkey hone hrw, ⟨_, _, _, rfl, hrw, hnc.trans hnocow, ?_⟩, fun _ _ => rfl⟩⟩
    rw [haddr]

end Faults

end SysvNt.ForkProbe
