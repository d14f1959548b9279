import SysvNt.PipeRing
import SysvNt.UserReads

/-!
# The kinds of description that bytes are read from

A file on the host, a generated file and a pipe, as sources of bytes. The first two keep a
position, the third is drained. For a generated file and a pipe the bytes of a request are
simply the next ones there are.
-/

namespace SysvNt

open RingQueue

/-- A host file's description; the handle's answers are a parameter of its reads. -/
structure HostFile where
  pos : UInt64
  deriving DecidableEq

/-- `hostfile_read` over `hfs_pread` on the description's handle. -/
def hostfileRead (pread : UInt64 → ℕ → Except Errno Bytes) (f : HostFile) (len : ℕ) :
    Except Errno Bytes × HostFile :=
  match pread f.pos len with
  | .error e => (.error e, f)
  | .ok b => (.ok b, { f with pos := f.pos + UInt64.ofNat b.length })

/-- A generated file: its text, empty where the pointer is null, and the position in it. -/
structure Snapshot where
  text : Bytes
  pos : UInt64
  fits : text.length < 2 ^ 63
  deriving DecidableEq

def snapRead (f : Snapshot) (len : ℕ) : Except Errno Bytes × Snapshot :=
  if f.text.length ≤ f.pos.toNat then (.ok [], f)
  else
    let b := (f.text.drop f.pos.toNat).take len
    (.ok b, { f with pos := f.pos + UInt64.ofNat b.length })

theorem pos_advance_add (p : UInt64) (a b : ℕ) :
    p + UInt64.ofNat a + UInt64.ofNat b = p + UInt64.ofNat (a + b) := by
  rw [UInt64.add_assoc, UInt64.ofNat_add]

theorem pos_advance_ne (p : UInt64) {n : ℕ} (h0 : 0 < n) (hn : n ≤ BOUNCE) :
    p + UInt64.ofNat n ≠ p := by
  intro h
  have hz : UInt64.ofNat n = 0 := by simpa using h
  have hnat := congrArg UInt64.toNat hz
  rw [UInt64.toNat_ofNat_of_lt' (by simp only [BOUNCE] at hn; simp [UInt64.size]; omega)] at hnat
  change n = 0 at hnat
  omega

/-- A host file as a source, for a host whose reads return at most what was asked for. -/
def hostFileSource (pread : UInt64 → ℕ → Except Errno Bytes)
    (hpread : ∀ off n b, pread off n = .ok b → b.length ≤ n) : Source HostFile where
  read := hostfileRead pread
  advance f k := { f with pos := f.pos + UInt64.ofNat k }
  advance_zero f := by simp
  advance_add f a b := by
    dsimp only
    rw [pos_advance_add]
  read_error f n e h := by
    unfold hostfileRead at h ⊢
    cases hp : pread f.pos n with
    | error e' => rfl
    | ok b => rw [hp] at h; cases h
  read_ok f n b hn h := by
    unfold hostfileRead at h ⊢
    cases hp : pread f.pos n with
    | error e' => rw [hp] at h; cases h
    | ok b' =>
        rw [hp] at h
        cases h
        have hlen := hpread _ _ _ hp
        refine ⟨hlen, rfl, ?_⟩
        intro hb he
        exact pos_advance_ne f.pos (List.length_pos_of_ne_nil hb) (by omega)
          (congrArg HostFile.pos he)

def snapshotSource : Source Snapshot where
  read := snapRead
  advance f k := { f with pos := f.pos + UInt64.ofNat k }
  advance_zero f := by simp
  advance_add f a b := by
    dsimp only
    rw [pos_advance_add]
  read_error f n e h := by
    rw [snapRead] at h
    split_ifs at h
  read_ok f n b hn h := by
    unfold snapRead at h ⊢
    dsimp only at h ⊢
    split_ifs at h ⊢ with hend
    · cases h
      exact ⟨Nat.zero_le _, by simp, fun h => absurd rfl h⟩
    · cases h
      have hlen : ((f.text.drop f.pos.toNat).take n).length ≤ n := List.length_take_le _ _
      refine ⟨hlen, rfl, ?_⟩
      intro hb he
      exact pos_advance_ne f.pos (List.length_pos_of_ne_nil hb) (by omega)
        (congrArg Snapshot.pos he)

def pipeSource : Source PipeRing where
  read := pipeRead
  advance p k := { p with ring := (Ring.drain k p.ring).2 }
  advance_zero _ := rfl
  advance_add p a b := by
    dsimp only
    rw [Ring.drain_add]
  read_error p n e h := by
    unfold pipeRead at h ⊢
    dsimp only at h ⊢
    split_ifs at h ⊢
    · rfl
  read_ok p n b hn h := by
    unfold pipeRead at h ⊢
    dsimp only at h ⊢
    split_ifs at h ⊢ with hc hw
    · cases h
      exact ⟨Nat.zero_le _, rfl, fun h => absurd rfl h⟩
    · cases h
      obtain ⟨hlen, _⟩ := Ring.drain_count n p.ring
      rw [Ring.drain_min]
      refine ⟨by omega, rfl, ?_⟩
      intro hb he
      have hpos := List.length_pos_of_ne_nil hb
      have hcount := congrArg (fun q : PipeRing => q.ring.count) he
      dsimp only at hcount
      rw [(Ring.drain_count n p.ring).2] at hcount
      omega

def Snapshot.avail (f : Snapshot) : ℕ := f.text.length - f.pos.toNat

theorem handed_snapshot (f : Snapshot) (len : ℕ) :
    (handed snapshotSource f len).length = min len f.avail := by
  refine handed_length snapshotSource Snapshot.avail ?_ ?_ ?_ f len
  · intro f n b h
    change (snapRead f n).1 = _ at h
    rw [snapRead] at h
    rw [Snapshot.avail]
    split_ifs at h with hend
    · cases h
      rw [List.length_nil]
      omega
    · cases h
      rw [List.length_take, List.length_drop]
  · intro f n e h
    change (snapRead f n).1 = _ at h
    rw [snapRead] at h
    split_ifs at h
  · intro f k hk
    have hfits := f.fits
    rw [Snapshot.avail] at hk
    change f.text.length - (f.pos + UInt64.ofNat k).toNat = f.text.length - f.pos.toNat - k
    by_cases h0 : k = 0
    · rw [h0]
      simp
    · have hk64 : (UInt64.ofNat k).toNat = k := UInt64.toNat_ofNat_of_lt' (by
        simp only [UInt64.size]
        omega)
      rw [UInt64.toNat_add, hk64, Nat.mod_eq_of_lt (by omega)]
      omega

theorem handed_pipe (p : PipeRing) (len : ℕ) :
    (handed pipeSource p len).length = min len p.ring.count := by
  refine handed_length pipeSource (fun p => p.ring.count) ?_ ?_ ?_ p len
  · intro p n b h
    change (pipeRead p n).1 = _ at h
    rw [pipeRead] at h
    split_ifs at h with hc hw
    · cases h
      rw [hc, Nat.min_zero]
      rfl
    · cases h
      exact (Ring.drain_count n p.ring).1
  · intro p n e h
    change (pipeRead p n).1 = _ at h
    rw [pipeRead] at h
    split_ifs at h with hc hw
    exact hc
  · intro p k _
    exact (Ring.drain_count k p.ring).2

end SysvNt
