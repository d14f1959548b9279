import SysvNt.BoundedLoop
import SysvNt.Names
import SysvNt.Synthetic

/-!
# Listing a directory

`dirent_pack` writes one record into the caller's room if it fits. The directories of `/proc`
and `/dev` are lists of names read from a position on. A directory on the host is read in
batches: a cursor over the host's answers, the entries held back for want of room, and the
two dot records in front of them.
-/

namespace SysvNt

def LX_DIRENT64_HDR : ℕ := 19

/-- What a record says of an entry, beside the offset it is written with. -/
structure Dirent where
  ino : UInt64
  type : UInt8
  name : Bytes
  deriving DecidableEq

/-- The length of an entry's record, rounded up to a multiple of eight. -/
def reclen (d : Dirent) : ℕ := (LX_DIRENT64_HDR + (cstr d.name).length + 1 + 7) / 8 * 8

def littleEndian : ℕ → ℕ → Bytes
  | 0, _ => []
  | n + 1, x => UInt8.ofNat (x % 256) :: littleEndian n (x / 256)

def recordBytes (off : ℕ) (d : Dirent) : Bytes :=
  littleEndian 8 d.ino.toNat ++ littleEndian 8 off ++ littleEndian 2 (reclen d) ++ [d.type] ++
    cstr d.name ++ List.replicate (reclen d - LX_DIRENT64_HDR - (cstr d.name).length) 0

/-- `dirent_pack` behind the records already in the buffer. -/
def direntPack (cap : ℕ) (buf : Bytes) (off : ℕ) (d : Dirent) : Option Bytes :=
  if cap < buf.length + reclen d then none else some (buf ++ recordBytes off d)

/-- A loop of `dirent_pack`: the buffer, the position after the last record, and the entries
that were left. -/
def packAll (cap : ℕ) : Bytes → ℕ → List Dirent → Bytes × ℕ × List Dirent
  | buf, pos, [] => (buf, pos, [])
  | buf, pos, d :: ds => match direntPack cap buf (pos + 1) d with
    | none => (buf, pos, d :: ds)
    | some buf' => packAll cap buf' (pos + 1) ds

theorem length_littleEndian (n x : ℕ) : (littleEndian n x).length = n := by
  induction n generalizing x with
  | zero => rfl
  | succ n ih => rw [littleEndian, List.length_cons, ih]

theorem reclen_pos (d : Dirent) : 0 < reclen d := by
  rw [reclen, LX_DIRENT64_HDR]
  omega

@[simp] theorem length_recordBytes (off : ℕ) (d : Dirent) : (recordBytes off d).length = reclen d := by
  have hle : LX_DIRENT64_HDR + (cstr d.name).length ≤ reclen d := by
    rw [reclen, LX_DIRENT64_HDR]
    omega
  simp only [recordBytes, List.length_append, length_littleEndian, List.length_replicate,
    List.length_singleton]
  rw [LX_DIRENT64_HDR] at hle ⊢
  omega

def records : ℕ → List Dirent → Bytes
  | _, [] => []
  | pos, d :: ds => recordBytes (pos + 1) d ++ records (pos + 1) ds

/-- The entries, from the front, whose records fit into a room. -/
def fitting : ℕ → List Dirent → List Dirent
  | _, [] => []
  | cap, d :: ds => if reclen d ≤ cap then d :: fitting (cap - reclen d) ds else []

theorem records_eq_nil {pos : ℕ} {ds : List Dirent} (h : records pos ds = []) : ds = [] := by
  cases ds with
  | nil => rfl
  | cons d ds =>
      have hlen := congrArg List.length h
      rw [records, List.length_append, length_recordBytes, List.length_nil] at hlen
      have := reclen_pos d
      omega

theorem length_records (pos : ℕ) (ds : List Dirent) :
    (records pos ds).length = (ds.map reclen).sum := by
  induction ds generalizing pos with
  | nil => rfl
  | cons d ds ih => rw [records, List.length_append, length_recordBytes, ih, List.map_cons,
      List.sum_cons]

theorem records_append (pos : ℕ) (ds es : List Dirent) :
    records pos (ds ++ es) = records pos ds ++ records (pos + ds.length) es := by
  induction ds generalizing pos with
  | nil => rfl
  | cons d ds ih =>
      rw [List.cons_append, records, records, ih, List.append_assoc, List.length_cons,
        Nat.add_right_comm, Nat.add_assoc]

theorem fitting_initial (cap : ℕ) (ds : List Dirent) : fitting cap ds <+: ds := by
  induction ds generalizing cap with
  | nil => exact List.prefix_refl _
  | cons d ds ih =>
      rw [fitting]
      split_ifs
      · exact (List.prefix_cons_inj d).mpr (ih _)
      · exact List.nil_prefix

/-- More entries come into play only once those in front have all found room. -/
theorem fitting_append (cap : ℕ) (ds es : List Dirent) :
    fitting cap (ds ++ es) =
      if fitting cap ds = ds then ds ++ fitting (cap - (ds.map reclen).sum) es
      else fitting cap ds := by
  induction ds generalizing cap with
  | nil => simp [fitting]
  | cons d ds ih =>
      rw [List.cons_append, fitting, fitting]
      split_ifs with h hd hd
      · rw [ih, if_pos (List.cons.inj hd).2, List.map_cons, List.sum_cons, List.cons_append,
          Nat.sub_sub]
      · rw [ih, if_neg (fun h => hd (by rw [h]))]
      · cases hd
      · rfl

theorem packAll_eq (cap : ℕ) (buf : Bytes) (pos : ℕ) (ds : List Dirent) :
    packAll cap buf pos ds = (buf ++ records pos (fitting (cap - buf.length) ds),
      pos + (fitting (cap - buf.length) ds).length,
      ds.drop (fitting (cap - buf.length) ds).length) := by
  induction ds generalizing buf pos with
  | nil => simp [packAll, fitting, records]
  | cons d ds ih =>
      have hpos := reclen_pos d
      rw [packAll, direntPack, fitting]
      by_cases hfit : reclen d ≤ cap - buf.length
      · rw [if_pos hfit, if_neg (by omega)]
        dsimp only
        rw [ih, List.length_append, length_recordBytes, ← Nat.sub_sub, records, List.append_assoc,
          List.length_cons, List.drop_succ_cons, Nat.add_right_comm, Nat.add_assoc pos]
      · rw [if_neg hfit, if_pos (by omega)]
        simp [records]

/-- The entries of a directory of names: the two dots and the names, numbered by position. -/
def synthEntries (ino : ℕ → UInt64) (names : List (Bytes × UInt8)) : List Dirent :=
  ((str ".", DT_DIR) :: (str "..", DT_DIR) :: names).mapIdx fun i x => ⟨ino i, x.2, x.1⟩

/-- The loop of `proc_getdents` and of `devdir_getdents`. -/
def synthGetdents (ents : List Dirent) (pos cap : ℕ) : Except Errno Bytes × ℕ :=
  let r := packAll cap [] pos (ents.drop pos)
  (if r.2.2 = [] ∨ r.1 ≠ [] then .ok r.1 else .error .EINVAL, r.2.1)

def ProcDir.entries (d : ProcDir) : List Dirent :=
  synthEntries (fun i => PROC_INO (d.cls.number * 4096 + i)) d.names

def procGetdents (d : ProcDir) : ℕ → ℕ → Except Errno Bytes × ℕ := synthGetdents d.entries

def devEntries : List Dirent :=
  synthEntries (fun i => UInt64.ofNat (2 + i))
    (devnodes.map fun d => (d.name, if d.link.isSome then DT_LNK else DT_CHR))

def devdirGetdents : ℕ → ℕ → Except Errno Bytes × ℕ := synthGetdents devEntries

/-- `FILE_ID_BOTH_DIR_INFORMATION`, as far as `hfs_dir_read` looks at it. -/
structure DirInfo where
  wide : List UInt16
  fileId : UInt64
  attrs : UInt32
  eaSize : UInt32
  deriving DecidableEq

def dtypeOf : HfsKind → UInt8
  | .dir => DT_DIR
  | .lxlink | .winlink => DT_LNK
  | .fifo => DT_FIFO
  | .chr => DT_CHR
  | .blk => DT_BLK
  | .sock => DT_SOCK
  | .file | .other => DT_REG

/-- The entry that `hfs_dir_read` makes of one of the host's, if it takes it. -/
def direntOf (e : DirInfo) : Option Dirent :=
  (direntName e.wide).map fun name =>
    ⟨e.fileId, dtypeOf (kindOf e.attrs (if has e.attrs 0x400 then e.eaSize else 0)), name⟩

/-- One answer of the host to a query for more of a directory: a batch, which is never empty,
or a failure. After the last answer it says that there are no more files. -/
abbrev DirAnswer := Except Errno (DirInfo × List DirInfo)

/-- `struct hfs_dir`: the part of the buffer not yet read, and what the host will answer. -/
structure Cursor where
  pending : List DirInfo
  exhausted : Bool
  answers : List DirAnswer
  deriving DecidableEq

def dirFill (c : Cursor) : Except Errno Unit × Cursor :=
  match c.answers with
  | [] => (.ok (), { c with pending := [], exhausted := true })
  | .error e :: as => (.error e, { c with pending := [], answers := as })
  | .ok (e, es) :: as => (.ok (), { c with pending := e :: es, answers := as })

/-- One turn of the loop of `hfs_dir_read`, with the entries taken so far. -/
def dirStep (cap : ℕ) (x : Cursor × List Dirent) :
    (Cursor × List Dirent) ⊕ (Except Errno (List Dirent) × Cursor) :=
  if x.2.length < cap ∧ x.1.exhausted = false then
    match x.1.pending with
    | [] => match dirFill x.1 with
      | (.error e, c) => .inr (.error e, c)
      | (.ok (), c) => .inl (c, x.2)
    | e :: es => .inl ({ x.1 with pending := es }, x.2 ++ (direntOf e).toList)
  else .inr (.ok x.2, x.1)

def Cursor.size (c : Cursor) : ℕ :=
  if c.exhausted then 0
  else 1 + c.pending.length + (c.answers.map fun
    | .error _ => 1
    | .ok b => 2 + b.2.length).sum

theorem dirStep_decreases (cap : ℕ) (x x' : Cursor × List Dirent) (h : dirStep cap x = .inl x') :
    x'.1.size < x.1.size := by
  obtain ⟨⟨pending, exhausted, answers⟩, got⟩ := x
  rw [dirStep] at h
  split_ifs at h with hgo
  obtain ⟨_, hex⟩ := hgo
  dsimp only at h hex
  subst hex
  cases pending with
  | cons e es =>
      cases h
      simp [Cursor.size]
  | nil =>
      rcases answers with _ | ⟨e | ⟨e, es⟩, as⟩
      · cases h
        simp [Cursor.size]
      · cases h
      · cases h
        simp [Cursor.size]
        omega

def dirBody (cap : ℕ) :
    BoundedLoop.Body (Cursor × List Dirent) (Except Errno (List Dirent) × Cursor) where
  step := dirStep cap
  measure x := x.1.size
  decreases := dirStep_decreases cap

/-- `hfs_dir_read`; a restart has the host begin the `listing` again. The entries that a failing
read has already taken are in the caller's array, and the caller is not told of them. -/
def hfsDirRead (listing : List DirAnswer) (c : Cursor) (cap : ℕ) (restart : Bool) :
    Except Errno (List Dirent) × Cursor :=
  let first :=
    if restart then dirFill { c with exhausted := false, answers := listing }
    else if c.pending = [] ∧ c.exhausted = false then dirFill c
    else (.ok (), c)
  match first with
  | (.error e, c') => (.error e, c')
  | (.ok (), c') => (dirBody cap).run (c', [])

def Cursor.stream (c : Cursor) : List (Except Errno Dirent) :=
  if c.exhausted then []
  else (c.pending.filterMap direntOf).map .ok ++ c.answers.flatMap fun
    | .error e => [.error e]
    | .ok b => ((b.1 :: b.2).filterMap direntOf).map .ok

/-- A read of up to `cap` entries from such a stream. -/
def readStream (cap : ℕ) : List Dirent → List (Except Errno Dirent) →
    Except Errno (List Dirent) × List (Except Errno Dirent)
  | got, [] => (.ok got, [])
  | got, x :: xs =>
    if got.length < cap then
      match x with
      | .error e => (.error e, xs)
      | .ok d => readStream cap (got ++ [d]) xs
    else (.ok got, x :: xs)

theorem readStream_full {cap : ℕ} {got : List Dirent} (h : cap ≤ got.length)
    (s : List (Except Errno Dirent)) : readStream cap got s = (.ok got, s) := by
  cases s with
  | nil => rfl
  | cons x xs =>
      unfold readStream
      rw [if_neg (by omega)]

theorem dirBody_run (cap : ℕ) (x : Cursor × List Dirent) :
    ((dirBody cap).run x).1 = (readStream cap x.2 x.1.stream).1 ∧
      ((dirBody cap).run x).2.stream = (readStream cap x.2 x.1.stream).2 := by
  induction x using (dirBody cap).step_induction with
  | _ x ih =>
      obtain ⟨⟨pending, exhausted, answers⟩, got⟩ := x
      by_cases hgo : got.length < cap ∧ exhausted = false
      · have hstep : dirStep cap (⟨pending, exhausted, answers⟩, got) = _ := if_pos hgo
        obtain ⟨hlen, rfl⟩ := hgo
        dsimp only at hstep
        cases pending with
        | cons e es =>
            rw [(dirBody cap).run_of_continue hstep]
            obtain ⟨hret, hrest⟩ := ih _ hstep
            rw [hret, hrest]
            dsimp only
            cases hd : direntOf e with
            | none => simp [Cursor.stream, hd]
            | some d => simp [Cursor.stream, hd, readStream, hlen]
        | nil =>
            rcases answers with _ | ⟨e | ⟨e, es⟩, as⟩
            · rw [(dirBody cap).run_of_continue hstep]
              exact ih _ hstep
            · rw [(dirBody cap).run_of_stop hstep]
              simp [Cursor.stream, readStream, hlen]
            · rw [(dirBody cap).run_of_continue hstep]
              obtain ⟨hret, hrest⟩ := ih _ hstep
              rw [hret, hrest]
              simp [Cursor.stream]
      · have hstep : dirStep cap (⟨pending, exhausted, answers⟩, got) = _ := if_neg hgo
        rw [(dirBody cap).run_of_stop hstep]
        dsimp only
        cases exhausted with
        | true => exact ⟨rfl, rfl⟩
        | false =>
            rw [readStream_full (by simpa using hgo)]
            exact ⟨rfl, rfl⟩

def Cursor.begin (listing : List DirAnswer) (c : Cursor) (restart : Bool) : Cursor :=
  if restart then ⟨[], false, listing⟩ else c

/-- The fill before the loop is the one that its first turn makes. -/
theorem hfsDirRead_run (listing : List DirAnswer) (c : Cursor) {cap : ℕ} (hcap : 0 < cap)
    (restart : Bool) :
    hfsDirRead listing c cap restart = (dirBody cap).run (c.begin listing restart, []) := by
  have hfill : ∀ c' : Cursor, c'.pending = [] → c'.exhausted = false →
      (match dirFill c' with
        | (.error e, c'') => (.error e, c'')
        | (.ok (), c'') => (dirBody cap).run (c'', [])) = (dirBody cap).run (c', []) := by
    intro c' hp hex
    have hstep : dirStep cap (c', []) = _ := if_pos ⟨hcap, hex⟩
    dsimp only at hstep
    rw [hp] at hstep
    cases hf : dirFill c' with
    | mk r c'' =>
        cases r with
        | error e =>
            rw [hf] at hstep
            rw [(dirBody cap).run_of_stop hstep]
        | ok u =>
            rw [hf] at hstep
            rw [(dirBody cap).run_of_continue hstep]
  rw [hfsDirRead, Cursor.begin]
  cases restart with
  | true => exact hfill ⟨[], false, listing⟩ rfl rfl
  | false =>
      simp only [Bool.false_eq_true, if_false]
      split_ifs with h
      · exact hfill c h.1 h.2
      · rfl

theorem hfsDirRead_stream (listing : List DirAnswer) (c : Cursor) {cap : ℕ} (hcap : 0 < cap)
    (restart : Bool) :
    (hfsDirRead listing c cap restart).1 =
        (readStream cap [] (c.begin listing restart).stream).1 ∧
      (hfsDirRead listing c cap restart).2.stream =
        (readStream cap [] (c.begin listing restart).stream).2 := by
  rw [hfsDirRead_run listing c hcap restart]
  exact dirBody_run cap _

end SysvNt
