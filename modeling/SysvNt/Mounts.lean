import SysvNt.Paths

/-!
# The mount table

`mount_of` scans the table for the longest point that is the path itself or ends at a
slash of it; `mount_at` looks for a point equal to the path; `path_rel` is what remains of
a path below its mount. A table always has the root mount, because `vfs_init` seats it
before anything else, so `mountOf` is total on tables.
-/

namespace SysvNt

/-- The file system behind a mount; a host mount is seated on an open directory. -/
inductive MountType (η : Type) where
  | host (root : η)
  | proc
  | dev
  deriving DecidableEq

structure Mount (η : Type) where
  type : MountType η
  point : Bytes
  dev : UInt64
  lxCapable : Bool
  defaultUid : UInt32
  defaultGid : UInt32
  deriving DecidableEq

variable {η : Type}

def pathRel (m : Mount η) (abs : Bytes) : Bytes :=
  if m.point.length = 1 then abs.drop 1
  else if abs.length = m.point.length then []
  else abs.drop (m.point.length + 1)

def mountHit (m : Mount η) (abs : Bytes) : Bool :=
  if m.point.length = 1 then true
  else m.point.isPrefixOf abs && match abs.drop m.point.length with
    | [] => true
    | c :: _ => c = slash

/-- The scan of `mount_of`: the best mount so far and the length of its point. -/
def mountScan (abs : Bytes) (best : Option (Mount η)) (bl : ℕ) : List (Mount η) → Option (Mount η)
  | [] => best
  | m :: ms =>
    if mountHit m abs = true ∧ bl ≤ m.point.length then mountScan abs (some m) m.point.length ms
    else mountScan abs best bl ms

structure MountTable (η : Type) where
  mounts : List (Mount η)
  canonical : ∀ m ∈ mounts, Canonical m.point
  rooted : ∃ m ∈ mounts, m.point = [slash]

def mountAt (mounts : List (Mount η)) (abs : Bytes) : Option (Mount η) :=
  mounts.find? fun m => m.point = abs

/-- What the scan has found: a hit at least as long as every hit it has passed. -/
structure ScanBest (abs : Bytes) (seen : List (Mount η)) (m : Mount η) : Prop where
  mem : m ∈ seen
  hit : mountHit m abs = true
  longest : ∀ m' ∈ seen, mountHit m' abs = true → m'.point.length ≤ m.point.length

theorem ScanBest.snoc_old {abs : Bytes} {seen : List (Mount η)} {m m' : Mount η}
    (h : ScanBest abs seen m)
    (hm' : ¬ (mountHit m' abs = true ∧ m.point.length ≤ m'.point.length)) :
    ScanBest abs (seen ++ [m']) m := by
  refine ⟨List.mem_append_left _ h.mem, h.hit, ?_⟩
  intro n hn hhit
  rcases List.mem_append.mp hn with hn | hn
  · exact h.longest n hn hhit
  · rw [List.mem_singleton] at hn
    subst hn
    by_contra hlt
    exact hm' ⟨hhit, by omega⟩

theorem mountScan_of_some {abs : Bytes} (ms seen : List (Mount η)) (b : Mount η)
    (hb : ScanBest abs seen b) :
    ∃ m, mountScan abs (some b) b.point.length ms = some m ∧ ScanBest abs (seen ++ ms) m := by
  induction ms generalizing seen b with
  | nil => exact ⟨b, rfl, by simpa using hb⟩
  | cons m ms ih =>
      rw [mountScan]
      split_ifs with hm
      · have hnew : ScanBest abs (seen ++ [m]) m := by
          refine ⟨by simp, hm.1, ?_⟩
          intro n hn hhit
          rcases List.mem_append.mp hn with hn | hn
          · exact (hb.longest n hn hhit).trans hm.2
          · rw [List.mem_singleton] at hn
            rw [hn]
        simpa using ih (seen ++ [m]) m hnew
      · simpa using ih (seen ++ [m]) b (hb.snoc_old hm)

theorem mountScan_of_none (abs : Bytes) (ms seen : List (Mount η))
    (hseen : ∀ m ∈ seen, mountHit m abs = false) :
    (∀ m ∈ ms, mountHit m abs = false) ∨
      ∃ m, mountScan abs none 0 ms = some m ∧ ScanBest abs (seen ++ ms) m := by
  induction ms generalizing seen with
  | nil => left; simp
  | cons m ms ih =>
      rw [mountScan]
      cases hm : mountHit m abs with
      | true =>
          right
          rw [if_pos ⟨rfl, Nat.zero_le _⟩]
          have hbest : ScanBest abs (seen ++ [m]) m := by
            refine ⟨by simp, hm, ?_⟩
            intro n hn hhit
            rcases List.mem_append.mp hn with hn | hn
            · rw [hseen n hn] at hhit
              cases hhit
            · rw [List.mem_singleton] at hn
              rw [hn]
          simpa using mountScan_of_some ms (seen ++ [m]) m hbest
      | false =>
          rw [if_neg (by simp)]
          have hseen' : ∀ n ∈ seen ++ [m], mountHit n abs = false := by
            intro n hn
            rcases List.mem_append.mp hn with hn | hn
            · exact hseen n hn
            · rw [List.mem_singleton] at hn
              rw [hn, hm]
          rcases ih (seen ++ [m]) hseen' with h | h
          · left
            intro n hn
            rcases List.mem_cons.mp hn with rfl | hn
            · exact hm
            · exact h n hn
          · right
            simpa using h

namespace MountTable

variable (T : MountTable η)

theorem mountScan_best (abs : Bytes) :
    ∃ m, mountScan abs none 0 T.mounts = some m ∧ ScanBest abs T.mounts m := by
  rcases mountScan_of_none abs T.mounts [] (by simp) with h | h
  · obtain ⟨m, hm, hp⟩ := T.rooted
    have hhit := h m hm
    simp [mountHit, hp] at hhit
  · simpa using h

/-- `mount_of`: the root mount is always a hit, so the scan never comes back empty. -/
def mountOf (abs : Bytes) : Mount η :=
  (mountScan abs none 0 T.mounts).get (by
    obtain ⟨m, hm, _⟩ := T.mountScan_best abs
    rw [hm]
    rfl)

theorem mountOf_best (abs : Bytes) : ScanBest abs T.mounts (T.mountOf abs) := by
  obtain ⟨m, hm, hbest⟩ := T.mountScan_best abs
  have he : T.mountOf abs = m := Option.get_of_eq_some _ hm
  rw [he]
  exact hbest

/-- The table `vfs_init` builds: the root tree, `/proc` and `/dev`. -/
def initial (root : η) (dev : UInt64) (lxCapable : Bool) : MountTable η where
  mounts := [
    { type := .host root, point := str "/", dev := dev, lxCapable := lxCapable
      defaultUid := 0, defaultGid := 0 },
    { type := .proc, point := str "/proc", dev := 2, lxCapable := false
      defaultUid := 0, defaultGid := 0 },
    { type := .dev, point := str "/dev", dev := 3, lxCapable := false
      defaultUid := 0, defaultGid := 0 }]
  canonical := by
    intro m hm
    simp only [List.mem_cons, List.not_mem_nil, or_false] at hm
    rcases hm with rfl | rfl | rfl
    · exact Canonical.root
    · exact Canonical.single (n := str "proc") (by decide) (by decide)
    · exact Canonical.single (n := str "dev") (by decide) (by decide)
  rooted := ⟨_, List.mem_cons_self, rfl⟩

end MountTable

end SysvNt
