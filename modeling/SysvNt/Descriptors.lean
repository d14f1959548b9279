import SysvNt.Abi
import SysvNt.ActionRuns
import SysvNt.RefCounting

/-!
# Descriptions and the descriptor table

A descriptor is a slot of the table; several slots may refer to one description, and code
that has made a description holds a reference of its own until it has installed it. The
store of descriptions keeps what a freed one looked like and counts how often its release
ran, so that a second release or a use after the last put would show.
-/

namespace SysvNt

open RefCounting

/-- The part of `struct file` the table and the calls on it read, with the number of times
its kind's release has run. -/
structure Desc where
  refs : ℤ
  kind : ℕ
  flags : UInt32
  pos : UInt64
  releases : ℕ

/-- One reference less; the last one runs the release. -/
def Desc.put (d : Desc) : Desc :=
  if 0 < d.refs - 1 then { d with refs := d.refs - 1 }
  else { d with refs := d.refs - 1, releases := d.releases + 1 }

theorem Desc.put_refs (d : Desc) : d.put.refs = d.refs - 1 := by
  rw [Desc.put]
  split_ifs <;> rfl

abbrev Slot := Fin NR_OPEN_DEFAULT

/-- `struct fdtable` and the descriptions, by the order of their making. -/
structure FdState where
  files : Slot → Option ℕ
  cloexec : Slot → Bool
  heap : ℕ → Desc
  next : ℕ

def fdtableInit : FdState where
  files _ := none
  cloexec _ := false
  heap _ := { refs := 0, kind := 0, flags := 0, pos := 0, releases := 0 }
  next := 0

namespace FdState

variable (s : FdState)

def fileNew (kind : ℕ) (flags : UInt32) : ℕ × FdState :=
  (s.next, { s with
    heap := Function.update s.heap s.next
      { refs := 1, kind := kind, flags := flags, pos := 0, releases := 0 }
    next := s.next + 1 })

def fileGet (f : ℕ) : FdState :=
  { s with heap := Function.update s.heap f { s.heap f with refs := (s.heap f).refs + 1 } }

def filePut (f : ℕ) : FdState :=
  { s with heap := Function.update s.heap f (s.heap f).put }

def seat (i : Slot) (f : Option ℕ) : FdState := { s with files := Function.update s.files i f }

def mark (i : Slot) (on : Bool) : FdState :=
  { s with cloexec := Function.update s.cloexec i on }

/-- The scan of `fd_install`: the first empty slot from `min` on. -/
def lowestFree (min : ℕ) : Option Slot :=
  ((List.finRange NR_OPEN_DEFAULT).drop min).find? fun i => s.files i = none

def fdInstall (f : ℕ) (cloexec : Bool) (min : ℤ) : Except Errno ℤ × FdState :=
  if min < 0 then (.error .EINVAL, s)
  else match s.lowestFree min.toNat with
    | none => (.error .EMFILE, s)
    | some i => (.ok i, ((s.fileGet f).seat i (some f)).mark i cloexec)

def slotOf (fd : ℤ) : Option Slot :=
  if h : 0 ≤ fd ∧ fd < NR_OPEN_DEFAULT then some ⟨fd.toNat, by omega⟩ else none

def fdGet (fd : ℤ) : Option (Slot × ℕ) :=
  (slotOf fd).bind fun i => (s.files i).map fun f => (i, f)

def fdClose (fd : ℤ) : Except Errno ℤ × FdState :=
  match s.fdGet fd with
  | none => (.error .EBADF, s)
  | some (i, f) => (.ok 0, ((s.seat i none).mark i false).filePut f)

def fdDup2 (oldfd newfd : ℤ) (cloexec : Bool) : Except Errno ℤ × FdState :=
  match s.fdGet oldfd with
  | none => (.error .EBADF, s)
  | some (_, f) => match slotOf newfd with
    | none => (.error .EBADF, s)
    | some i =>
      if oldfd = newfd then (.ok newfd, s)
      else
        let s₁ := s.fileGet f
        let s₂ := match s₁.files i with
          | none => s₁
          | some g => s₁.filePut g
        (.ok newfd, (s₂.seat i (some f)).mark i cloexec)

def fdGetCloexec (fd : ℤ) : Except Errno ℤ :=
  match s.fdGet fd with
  | none => .error .EBADF
  | some (i, _) => .ok (if s.cloexec i then 1 else 0)

def fdSetCloexec (fd : ℤ) (on : Bool) : Except Errno ℤ × FdState :=
  match s.fdGet fd with
  | none => (.error .EBADF, s)
  | some (i, _) => (.ok 0, s.mark i on)

def releaseSlot (i : Slot) : FdState :=
  match s.files i with
  | none => s
  | some f => (s.filePut f).seat i none

def fdtableRelease : FdState := (List.finRange NR_OPEN_DEFAULT).foldl releaseSlot s

def alter (f : ℕ) (g : Desc → Desc) : FdState :=
  { s with heap := Function.update s.heap f (g (s.heap f)) }

end FdState

/-- The release of a description against its count: not yet while there are references,
once when a description that was made has none left. -/
structure Settled (next f : ℕ) (d : Desc) : Prop where
  live : 0 < d.refs → f < next ∧ d.releases = 0
  dead : f < next → d.refs = 0 → d.releases = 1

/-- What holds between two operations on the table when `held` are the references that code
outside of it has. -/
structure Balanced (s : FdState) (held : List ℕ) : Prop where
  counted : Counted s.files held fun f => (s.heap f).refs
  settled : ∀ f, Settled s.next f (s.heap f)

theorem fdtableInit_balanced : Balanced fdtableInit [] := by
  refine ⟨?_, ?_⟩
  · intro f
    have hzero : slotCount fdtableInit.files f = 0 := slotCount_eq_zero (fun _ => rfl) f
    dsimp only
    rw [hzero]
    rfl
  · intro f
    refine ⟨fun h => absurd h (lt_irrefl _), fun h => absurd h (Nat.not_lt_zero f)⟩

theorem refs_update (heap : ℕ → Desc) (f : ℕ) (d : Desc) :
    (fun g => (Function.update heap f d g).refs) =
      Function.update (fun g => (heap g).refs) f d.refs := by
  funext g
  by_cases h : g = f <;> simp [Function.update, h]

namespace Balanced

variable {s : FdState} {held : List ℕ} {f : ℕ} {i : Slot}

theorem refs_next (h : Balanced s held) : (s.heap s.next).refs = 0 := by
  have hnonneg := h.counted.nonneg s.next
  by_contra hne
  have := ((h.settled s.next).live (by omega)).1
  omega

theorem fileNew (h : Balanced s held) (kind : ℕ) (flags : UInt32) :
    Balanced (s.fileNew kind flags).2 (s.next :: held) := by
  constructor
  · have hget := h.counted.get s.next
    rw [h.refs_next, zero_add] at hget
    simp only [FdState.fileNew, refs_update]
    exact hget
  · simp only [FdState.fileNew]
    rw [Function.forall_update_iff]
    refine ⟨⟨fun _ => ⟨Nat.lt_succ_self _, rfl⟩, fun _ h1 => absurd h1 one_ne_zero⟩, ?_⟩
    intro g hg
    refine ⟨fun hpos => ?_, fun hlt => (h.settled g).dead (by omega)⟩
    obtain ⟨hlt, hrel⟩ := (h.settled g).live hpos
    exact ⟨by omega, hrel⟩

theorem fileGet (h : Balanced s held) (hf : 0 < (s.heap f).refs) :
    Balanced (s.fileGet f) (f :: held) := by
  constructor
  · simp only [FdState.fileGet, refs_update]
    exact h.counted.get f
  · simp only [FdState.fileGet]
    rw [Function.forall_update_iff]
    refine ⟨⟨fun _ => (h.settled f).live hf, fun _ h0 => ?_⟩, fun g _ => h.settled g⟩
    dsimp only at h0
    omega

/-- Dropping a held reference; the last one runs the release. -/
theorem filePut (h : Balanced s (f :: held)) : Balanced (s.filePut f) held := by
  have hpos : 0 < (s.heap f).refs := h.counted.pos_of_held List.mem_cons_self
  obtain ⟨hlt, hrel⟩ := (h.settled f).live hpos
  constructor
  · simp only [FdState.filePut, refs_update, Desc.put_refs]
    exact h.counted.put
  · simp only [FdState.filePut]
    rw [Function.forall_update_iff]
    refine ⟨?_, fun g _ => h.settled g⟩
    rw [Desc.put]
    split_ifs with hlast
    · refine ⟨fun _ => ⟨hlt, hrel⟩, fun _ h0 => ?_⟩
      dsimp only at h0
      omega
    · refine ⟨fun h0 => absurd h0 hlast, fun _ _ => ?_⟩
      dsimp only
      rw [hrel]

theorem seat (h : Balanced s (f :: held)) (hi : s.files i = none) :
    Balanced (s.seat i (some f)) held :=
  ⟨h.counted.seat hi, h.settled⟩

theorem lift (h : Balanced s held) (hi : s.files i = some f) :
    Balanced (s.seat i none) (f :: held) :=
  ⟨h.counted.lift hi, h.settled⟩

theorem mark (h : Balanced s held) (i : Slot) (on : Bool) : Balanced (s.mark i on) held :=
  ⟨h.counted, h.settled⟩

/-- A change to a description that leaves its count and its release alone. -/
theorem alter {g : Desc → Desc} (h : Balanced s held) (f : ℕ)
    (hg : ∀ d, (g d).refs = d.refs ∧ (g d).releases = d.releases) :
    Balanced (s.alter f g) held := by
  obtain ⟨hrefs, hreleases⟩ := hg (s.heap f)
  constructor
  · simp only [FdState.alter, refs_update, hrefs, Function.update_eq_self]
    exact h.counted
  · simp only [FdState.alter]
    rw [Function.forall_update_iff]
    refine ⟨⟨?_, ?_⟩, fun k _ => h.settled k⟩
    · rw [hrefs, hreleases]
      exact (h.settled f).live
    · rw [hrefs, hreleases]
      exact (h.settled f).dead

theorem perm {held' : List ℕ} (h : Balanced s held) (hp : held.Perm held') : Balanced s held' :=
  ⟨h.counted.perm hp, h.settled⟩

end Balanced

def CloexecClear (s : FdState) : Prop := ∀ i, s.files i = none → s.cloexec i = false

namespace FdState

@[simp] theorem filePut_files (s : FdState) (f : ℕ) : (s.filePut f).files = s.files := rfl

@[simp] theorem filePut_cloexec (s : FdState) (f : ℕ) : (s.filePut f).cloexec = s.cloexec := rfl

theorem filePut_seat (s : FdState) (f : ℕ) (i : Slot) (v : Option ℕ) :
    (s.filePut f).seat i v = (s.seat i v).filePut f := rfl

theorem seat_seat (s : FdState) (i : Slot) (u v : Option ℕ) :
    (s.seat i u).seat i v = s.seat i v := by
  simp [seat]

theorem mem_drop_finRange {n k : ℕ} {j : Fin n} : j ∈ (List.finRange n).drop k ↔ k ≤ j := by
  rw [List.mem_drop_iff_getElem]
  constructor
  · rintro ⟨i, hi, he⟩
    rw [List.getElem_finRange] at he
    rw [← he]
    simp
  · intro h
    refine ⟨j - k, ?_, ?_⟩
    · rw [List.length_finRange]
      omega
    · rw [List.getElem_finRange]
      apply Fin.ext
      simp
      omega

/-- The scan finds the lowest empty slot from `min` on, or there is none. -/
theorem lowestFree_cases (s : FdState) (min : ℕ) :
    (∃ i : Slot, s.lowestFree min = some i ∧ min ≤ i ∧ s.files i = none ∧
      ∀ j : Slot, min ≤ j → j < i → s.files j ≠ none) ∨
    (s.lowestFree min = none ∧ ∀ j : Slot, min ≤ j → s.files j ≠ none) := by
  have hsorted : ((List.finRange NR_OPEN_DEFAULT).drop min).Pairwise (· < ·) :=
    (List.pairwise_lt_finRange _).sublist (List.drop_sublist _ _)
  rw [lowestFree]
  cases hfind : ((List.finRange NR_OPEN_DEFAULT).drop min).find? fun i => s.files i = none with
  | none =>
      right
      refine ⟨rfl, ?_⟩
      intro j hj
      simpa using List.find?_eq_none.mp hfind j (mem_drop_finRange.mpr hj)
  | some i =>
      left
      obtain ⟨hi, as, bs, hsplit, has⟩ := List.find?_eq_some_iff_append.mp hfind
      have hmem : i ∈ (List.finRange NR_OPEN_DEFAULT).drop min := by
        rw [hsplit]
        simp
      refine ⟨i, rfl, mem_drop_finRange.mp hmem, by simpa using hi, ?_⟩
      intro j hj hlt
      have hjmem := mem_drop_finRange.mpr hj
      rw [hsplit] at hjmem hsorted
      have hbs := (List.pairwise_cons.mp (List.pairwise_append.mp hsorted).2.1).1
      rcases List.mem_append.mp hjmem with h | h
      · simpa using has j h
      · rcases List.mem_cons.mp h with rfl | h
        · exact absurd hlt (lt_irrefl _)
        · exact absurd (hlt.trans (hbs j h)) (lt_irrefl _)

theorem slotOf_coe (i : Slot) : slotOf (i : ℕ) = some i := by
  rw [slotOf, dif_pos (by omega)]
  rfl

theorem fdGet_some {s : FdState} {fd : ℤ} {i : Slot} {f : ℕ} (h : s.fdGet fd = some (i, f)) :
    slotOf fd = some i ∧ s.files i = some f := by
  obtain ⟨j, hj, hm⟩ := Option.bind_eq_some_iff.mp h
  obtain ⟨g, hg, he⟩ := Option.map_eq_some_iff.mp hm
  cases he
  exact ⟨hj, hg⟩

end FdState

namespace Balanced

variable {s : FdState} {held : List ℕ}

theorem fdInstall (h : Balanced s held) {f : ℕ} (hf : 0 < (s.heap f).refs) (cloexec : Bool)
    (min : ℤ) : Balanced (s.fdInstall f cloexec min).2 held := by
  rw [FdState.fdInstall]
  split_ifs with hmin
  · exact h
  · rcases s.lowestFree_cases min.toNat with ⟨i, hi, _, hnone, _⟩ | ⟨hi, _⟩
    · rw [hi]
      exact ((h.fileGet hf).seat hnone).mark i cloexec
    · rw [hi]
      exact h

theorem fdClose (h : Balanced s held) (fd : ℤ) : Balanced (s.fdClose fd).2 held := by
  rw [FdState.fdClose]
  cases hg : s.fdGet fd with
  | none => exact h
  | some p =>
      obtain ⟨i, f⟩ := p
      obtain ⟨_, hi⟩ := FdState.fdGet_some hg
      exact ((h.lift hi).mark i false).filePut

theorem fdDup2 (h : Balanced s held) (oldfd newfd : ℤ) (cloexec : Bool) :
    Balanced (s.fdDup2 oldfd newfd cloexec).2 held := by
  rw [FdState.fdDup2]
  cases hg : s.fdGet oldfd with
  | none => exact h
  | some p =>
      obtain ⟨j, f⟩ := p
      obtain ⟨_, hj⟩ := FdState.fdGet_some hg
      cases hi : FdState.slotOf newfd with
      | none => exact h
      | some i =>
          dsimp only
          split_ifs with he
          · exact h
          · have hget := h.fileGet (h.counted.pos_of_slot hj)
            refine Balanced.mark ?_ i cloexec
            cases hold : (s.fileGet f).files i with
            | none => exact hget.seat hold
            | some g =>
                have hlift := (hget.lift hold).filePut
                have hseat := hlift.seat (i := i) (by
                  rw [FdState.filePut_files]
                  exact Function.update_self ..)
                rwa [← FdState.filePut_seat, FdState.seat_seat] at hseat

theorem fdSetCloexec (h : Balanced s held) (fd : ℤ) (on : Bool) :
    Balanced (s.fdSetCloexec fd on).2 held := by
  rw [FdState.fdSetCloexec]
  cases s.fdGet fd with
  | none => exact h
  | some p => exact h.mark p.1 on

theorem releaseSlot (h : Balanced s held) (i : Slot) : Balanced (s.releaseSlot i) held := by
  rw [FdState.releaseSlot]
  cases hi : s.files i with
  | none => exact h
  | some f =>
      dsimp only
      rw [FdState.filePut_seat]
      exact (h.lift hi).filePut

theorem fdtableRelease (h : Balanced s held) : Balanced s.fdtableRelease held := by
  rw [FdState.fdtableRelease]
  induction List.finRange NR_OPEN_DEFAULT generalizing s with
  | nil => exact h
  | cons i is ih => exact ih (h.releaseSlot i)

end Balanced

end SysvNt
