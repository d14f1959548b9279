import SysvNt.Directories
import SysvNt.WalkReference

/-!
# Directory records as a program reads them

A buffer of records is read from the front: the length in a record's header says where the next
one starts. `decode` gives the records only if every one of them is whole, of a length that is a
multiple of eight and with its name terminated inside it, and the last ends where the buffer does.
It takes the bytes that `dirent_pack` wrote back to the entries.
-/

namespace SysvNt

def fromLittleEndian : Bytes → ℕ
  | [] => 0
  | b :: bs => b.toNat + 256 * fromLittleEndian bs

structure DirRecord where
  ino : ℕ
  off : ℕ
  type : UInt8
  name : Bytes
  deriving DecidableEq

/-- The first record of a buffer, and what follows it. -/
def decodeRecord (b : Bytes) : Option (DirRecord × Bytes) :=
  let n := fromLittleEndian ((b.drop 16).take 2)
  let text := (b.take n).drop LX_DIRENT64_HDR
  if n % 8 = 0 ∧ LX_DIRENT64_HDR < n ∧ n ≤ b.length ∧ 0 ∈ text then
    some (⟨fromLittleEndian (b.take 8), fromLittleEndian ((b.drop 8).take 8), b.getD 18 0, cstr text⟩,
      b.drop n)
  else none

/-- All the records of a buffer, of no more than a number. -/
def decodeRecords : ℕ → Bytes → Option (List DirRecord)
  | _, [] => some []
  | 0, _ :: _ => none
  | n + 1, b :: bs => do
    let (r, rest) ← decodeRecord (b :: bs)
    let rs ← decodeRecords n rest
    pure (r :: rs)

def decode (b : Bytes) : Option (List DirRecord) := decodeRecords b.length b

theorem fromLittleEndian_littleEndian (n x : ℕ) :
    fromLittleEndian (littleEndian n x) = x % 256 ^ n := by
  induction n generalizing x with
  | zero => rw [littleEndian, fromLittleEndian, Nat.pow_zero, Nat.mod_one]
  | succ n ih =>
      have hbyte : (UInt8.ofNat (x % 256)).toNat = x % 256 := by
        rw [UInt8.toNat_ofNat_of_lt' (Nat.mod_lt _ (by decide))]
      rw [littleEndian, fromLittleEndian, ih, hbyte, Nat.pow_succ, Nat.mul_comm (256 ^ n), Nat.mod_mul]

def recordOf (off : ℕ) (d : Dirent) : DirRecord :=
  ⟨d.ino.toNat, off % 2 ^ 64, d.type, cstr d.name⟩

def recordsOf : ℕ → List Dirent → List DirRecord
  | _, [] => []
  | pos, d :: ds => recordOf (pos + 1) d :: recordsOf (pos + 1) ds

/-- What an entry's record needs for its length to fit the header. -/
def Dirent.Short (d : Dirent) : Prop := (cstr d.name).length ≤ 255

theorem cstr_append_zeros {b : Bytes} (h : 0 ∉ b) {n : ℕ} (hn : 0 < n) :
    cstr (b ++ List.replicate n 0) = b := by
  obtain ⟨m, rfl⟩ := Nat.exists_eq_add_of_lt hn
  rw [Nat.zero_add, List.replicate_succ, cstr, List.takeWhile_append_of_pos]
  · simp
  · intro c hc
    have : c ≠ 0 := fun he => h (he ▸ hc)
    simpa using this

/-- The parts of a record's bytes. -/
theorem recordBytes_parts (off : ℕ) (d : Dirent) :
    ∃ ino pos len text : Bytes, ino.length = 8 ∧ pos.length = 8 ∧ len.length = 2 ∧
      fromLittleEndian ino = d.ino.toNat ∧ fromLittleEndian pos = off % 2 ^ 64 ∧
      fromLittleEndian len = reclen d % 2 ^ 16 ∧ cstr text = cstr d.name ∧ 0 ∈ text ∧
      recordBytes off d = ino ++ (pos ++ (len ++ d.type :: text)) := by
  have hroom : 0 < reclen d - LX_DIRENT64_HDR - (cstr d.name).length := by
    rw [reclen, LX_DIRENT64_HDR]
    omega
  have hino : d.ino.toNat % 256 ^ 8 = d.ino.toNat := Nat.mod_eq_of_lt d.ino.toNat_lt
  refine ⟨littleEndian 8 d.ino.toNat, littleEndian 8 off, littleEndian 2 (reclen d),
    cstr d.name ++ List.replicate (reclen d - LX_DIRENT64_HDR - (cstr d.name).length) 0,
    length_littleEndian _ _, length_littleEndian _ _, length_littleEndian _ _, ?_,
    fromLittleEndian_littleEndian _ _, fromLittleEndian_littleEndian _ _,
    cstr_append_zeros (zero_not_mem_cstr _) hroom, ?_, ?_⟩
  · rw [fromLittleEndian_littleEndian, hino]
  · exact List.mem_append_right _ (List.mem_replicate.mpr ⟨by omega, rfl⟩)
  · simp only [recordBytes, List.append_assoc, List.cons_append, List.nil_append]

theorem reclen_of_short {d : Dirent} (hd : d.Short) : reclen d < 2 ^ 16 := by
  rw [Dirent.Short] at hd
  rw [reclen, LX_DIRENT64_HDR]
  omega

theorem decodeRecord_recordBytes (off : ℕ) {d : Dirent} (hd : d.Short) (rest : Bytes) :
    decodeRecord (recordBytes off d ++ rest) = some (recordOf off d, rest) := by
  obtain ⟨ino, pos, len, text, hino, hpos, hlen, hinov, hposv, hlenv, htext, hnul, hbytes⟩ :=
    recordBytes_parts off d
  have hreclen := length_recordBytes off d
  have hsplit : recordBytes off d ++ rest = ino ++ (pos ++ (len ++ d.type :: (text ++ rest))) := by
    rw [hbytes]
    simp only [List.append_assoc, List.cons_append]
  have hn : fromLittleEndian (((recordBytes off d ++ rest).drop 16).take 2) = reclen d := by
    rw [hsplit, ← List.append_assoc ino, List.drop_left' (by rw [List.length_append, hino, hpos]),
      List.take_left' hlen, hlenv, Nat.mod_eq_of_lt (reclen_of_short hd)]
  have hrecord : (recordBytes off d).drop LX_DIRENT64_HDR = text := by
    rw [hbytes, show ino ++ (pos ++ (len ++ d.type :: text)) = (ino ++ pos ++ len ++ [d.type]) ++ text by
      simp only [List.append_assoc, List.singleton_append]]
    refine List.drop_left' ?_
    simp only [List.length_append, hino, hpos, hlen, List.length_singleton]
    rfl
  have htype : (recordBytes off d ++ rest).getD 18 0 = d.type := by
    rw [hsplit, ← List.append_assoc pos, ← List.append_assoc ino, List.getD_append_right]
    · simp [hino, hpos, hlen]
    · simp [hino, hpos, hlen]
  rw [decodeRecord, hn, List.take_left' hreclen, List.drop_left' hreclen, hrecord, if_pos, htype, hsplit,
    List.take_left' hino, List.drop_left' hino, List.take_left' hpos, hinov, hposv, htext]
  · rfl
  · refine ⟨Nat.mul_mod_left _ 8, ?_, ?_, hnul⟩
    · rw [reclen, LX_DIRENT64_HDR]
      omega
    · rw [List.length_append, hreclen]
      omega

theorem decodeRecords_records {n : ℕ} (pos : ℕ) {ds : List Dirent} (h : ∀ d ∈ ds, d.Short)
    (hn : (records pos ds).length ≤ n) : decodeRecords n (records pos ds) = some (recordsOf pos ds) := by
  induction ds generalizing n pos with
  | nil => cases n <;> rfl
  | cons d ds ih =>
      obtain ⟨hd, hds⟩ := List.forall_mem_cons.mp h
      have hrecord := decodeRecord_recordBytes (pos + 1) hd (records (pos + 1) ds)
      have hpos := reclen_pos d
      rw [records, List.length_append, length_recordBytes] at hn
      obtain ⟨m, rfl⟩ : ∃ m, n = m + 1 := ⟨n - 1, by omega⟩
      have hrest := ih (n := m) (pos + 1) hds (by omega)
      rw [records]
      generalize hb : recordBytes (pos + 1) d ++ records (pos + 1) ds = b at hrecord
      cases b with
      | nil =>
          have hlen := congrArg List.length hb
          rw [List.length_append, length_recordBytes, List.length_nil] at hlen
          omega
      | cons c cs =>
          rw [decodeRecords, hrecord]
          change (decodeRecords m (records (pos + 1) ds) >>= fun rs => some (recordOf (pos + 1) d :: rs)) = _
          rw [hrest]
          rfl

theorem decode_records (pos : ℕ) {ds : List Dirent} (h : ∀ d ∈ ds, d.Short) :
    decode (records pos ds) = some (recordsOf pos ds) :=
  decodeRecords_records pos h (Nat.le_refl _)

end SysvNt
