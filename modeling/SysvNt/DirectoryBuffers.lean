import SysvNt.DirectoryRecords

/-!
# The directory buffer of the host

The host answers a query for a directory with a chain of entries in one buffer, each with the distance to the next
one and the last with none. `hfs_dir_read` goes along the chain with an offset into the buffer, from one call to the
next. The model of `Directories` has a list of entries there; here the calls on the bytes are shown to be those.
-/

namespace SysvNt

open CodeUnits

/-- A word of the buffer; past its end there are zeros. -/
def wordAt (n : ℕ) (b : Bytes) (off : ℕ) : ℕ := fromLittleEndian ((b.drop off).take n)

def unitsAt : ℕ → Bytes → List UInt16
  | 0, _ => []
  | n + 1, b => UInt16.ofNat (wordAt 2 b 0) :: unitsAt n (b.drop 2)

def FILE_NAME : ℕ := 104

def nextEntryOffset (b : Bytes) : ℕ := wordAt 4 b 0

def entryAt (b : Bytes) : DirInfo where
  wide := unitsAt (wordAt 4 b 60 / 2) (b.drop FILE_NAME)
  fileId := UInt64.ofNat (wordAt 8 b 96)
  attrs := UInt32.ofNat (wordAt 4 b 56)
  eaSize := UInt32.ofNat (wordAt 4 b 64)

theorem ne_nil_of_next {b : Bytes} (h : nextEntryOffset b ≠ 0) : b ≠ [] := by
  rintro rfl
  exact h rfl

/-- `struct hfs_dir`, and what the host will answer. -/
structure HfsDir where
  buf : Bytes
  off : ℕ
  filled : Bool
  exhausted : Bool
  answers : List (Except Errno Bytes)

namespace HfsDir

def opened (answers : List (Except Errno Bytes)) : HfsDir := ⟨[], 0, false, false, answers⟩

/-- The part of the buffer that the reader has come to. -/
def rest (d : HfsDir) : Bytes := d.buf.drop d.off

def fill (d : HfsDir) : Except Errno Unit × HfsDir :=
  match d.answers with
  | [] => (.ok (), { d with off := 0, filled := false, exhausted := true })
  | .error e :: as => (.error e, { d with off := 0, filled := false, answers := as })
  | .ok b :: as => (.ok (), { d with buf := b, off := 0, filled := true, answers := as })

def advance (d : HfsDir) : HfsDir :=
  if nextEntryOffset d.rest = 0 then { d with filled := false } else { d with off := d.off + nextEntryOffset d.rest }

def step (cap : ℕ) (x : HfsDir × List Dirent) : (HfsDir × List Dirent) ⊕ (Except Errno (List Dirent) × HfsDir) :=
  if x.2.length < cap ∧ x.1.exhausted = false then
    if x.1.filled then .inl (x.1.advance, x.2 ++ (direntOf (entryAt x.1.rest)).toList)
    else match x.1.fill with
      | (.error e, d) => .inr (.error e, d)
      | (.ok (), d) => .inl (d, x.2)
  else .inr (.ok x.2, x.1)

def size (d : HfsDir) : ℕ :=
  if d.exhausted then 0
  else 1 + (if d.filled then 1 + (d.buf.length - d.off) else 0) + (d.answers.map fun
    | .error _ => 1
    | .ok b => 2 + b.length).sum

theorem advance_size {d : HfsDir} (hgo : d.exhausted = false) (hfilled : d.filled = true) :
    d.advance.size < d.size := by
  obtain ⟨buf, off, filled, exhausted, answers⟩ := d
  subst hgo
  subst hfilled
  rw [advance]
  split_ifs with hnext
  · simp [size]
  · have hlt : off < buf.length := by
      by_contra hle
      exact ne_nil_of_next hnext (List.drop_eq_nil_of_le (Nat.not_lt.mp hle))
    simp only [size, Bool.false_eq_true, if_false, if_true]
    omega

theorem step_decreases (cap : ℕ) (x x' : HfsDir × List Dirent) (h : step cap x = .inl x') : x'.1.size < x.1.size := by
  obtain ⟨d, got⟩ := x
  rw [step] at h
  split_ifs at h with hgo hfilled
  · cases h
    exact advance_size hgo.2 hfilled
  · obtain ⟨buf, off, filled, exhausted, answers⟩ := d
    obtain ⟨-, hex⟩ := hgo
    dsimp only at hex hfilled h
    subst hex
    rcases answers with _ | ⟨e | b, as⟩
    · cases h
      simp [size]
    · cases h
    · cases h
      simp only [size, hfilled, List.map_cons, List.sum_cons, Bool.false_eq_true, if_false, if_true]
      omega

def body (cap : ℕ) : BoundedLoop.Body (HfsDir × List Dirent) (Except Errno (List Dirent) × HfsDir) where
  step := step cap
  measure x := x.1.size
  decreases := step_decreases cap

def read (listing : List (Except Errno Bytes)) (d : HfsDir) (cap : ℕ) (restart : Bool) :
    Except Errno (List Dirent) × HfsDir :=
  let first :=
    if restart then fill { d with exhausted := false, answers := listing }
    else if d.filled = false ∧ d.exhausted = false then d.fill
    else (.ok (), d)
  match first with
  | (.error e, d') => (.error e, d')
  | (.ok (), d') => (body cap).run (d', [])

end HfsDir

/-- An entry as the host writes it: of the fields that nothing reads only the place is fixed. -/
structure RawEntry where
  info : DirInfo
  times : Bytes
  short : Bytes
  pad : Bytes
  times_length : times.length = 52
  short_length : short.length = 28
  fits : FILE_NAME + 2 * info.wide.length + pad.length < 2 ^ 32

namespace RawEntry

def nameBytes (w : List UInt16) : Bytes := w.flatMap fun u => littleEndian 2 u.toNat

variable (e : RawEntry)

def size : ℕ := FILE_NAME + 2 * e.info.wide.length + e.pad.length

def bytes (next : ℕ) : Bytes :=
  littleEndian 4 next ++ e.times ++ littleEndian 4 e.info.attrs.toNat ++ littleEndian 4 (2 * e.info.wide.length) ++
    littleEndian 4 e.info.eaSize.toNat ++ e.short ++ littleEndian 8 e.info.fileId.toNat ++ nameBytes e.info.wide ++
    e.pad

theorem length_nameBytes (w : List UInt16) : (nameBytes w).length = 2 * w.length := by
  induction w with
  | nil => rfl
  | cons u w ih =>
      have hcons : nameBytes (u :: w) = littleEndian 2 u.toNat ++ nameBytes w := List.flatMap_cons
      rw [hcons, List.length_append, length_littleEndian, ih, List.length_cons]
      omega

theorem length_bytes (next : ℕ) : (e.bytes next).length = e.size := by
  simp only [bytes, size, List.length_append, length_littleEndian, length_nameBytes, e.times_length, e.short_length,
    FILE_NAME]

theorem size_pos : 0 < e.size := by
  rw [size, FILE_NAME]
  omega

theorem wordAt_middle {a c b : Bytes} {n k x : ℕ} (hb : b = a ++ (littleEndian n x ++ c)) (ha : a.length = k)
    (hx : x < 256 ^ n) : wordAt n b k = x := by
  rw [wordAt, hb, List.drop_left' ha, List.take_left' (length_littleEndian n x), fromLittleEndian_littleEndian,
    Nat.mod_eq_of_lt hx]

theorem unitsAt_nameBytes (w : List UInt16) (c : Bytes) : unitsAt w.length (nameBytes w ++ c) = w := by
  induction w with
  | nil => rfl
  | cons u w ih =>
      have hcons : nameBytes (u :: w) ++ c = littleEndian 2 u.toNat ++ (nameBytes w ++ c) := by
        rw [nameBytes, List.flatMap_cons, List.append_assoc]
        rfl
      have hword : wordAt 2 (littleEndian 2 u.toNat ++ (nameBytes w ++ c)) 0 = u.toNat :=
        wordAt_middle (a := []) rfl rfl u.toNat_lt
      rw [List.length_cons, unitsAt, hcons, hword, List.drop_left' (length_littleEndian 2 _), ih, UInt16.ofNat_toNat]

/-- What is read at an entry is what the host wrote there. -/
theorem entryAt_bytes (next : ℕ) (c : Bytes) : entryAt (e.bytes next ++ c) = e.info := by
  have htimes := e.times_length
  have hshort := e.short_length
  have hfits := e.fits
  let afterId := nameBytes e.info.wide ++ (e.pad ++ c)
  let afterEa := e.short ++ (littleEndian 8 e.info.fileId.toNat ++ afterId)
  let afterLen := littleEndian 4 e.info.eaSize.toNat ++ afterEa
  let afterAttrs := littleEndian 4 (2 * e.info.wide.length) ++ afterLen
  have hattrs : wordAt 4 (e.bytes next ++ c) 56 = e.info.attrs.toNat := by
    refine wordAt_middle (a := littleEndian 4 next ++ e.times) (c := afterAttrs) ?_ ?_ e.info.attrs.toNat_lt
    · simp only [bytes, List.append_assoc, afterAttrs, afterLen, afterEa, afterId]
    · simp [length_littleEndian, htimes]
  have hlen : wordAt 4 (e.bytes next ++ c) 60 = 2 * e.info.wide.length := by
    refine wordAt_middle (a := littleEndian 4 next ++ e.times ++ littleEndian 4 e.info.attrs.toNat) (c := afterLen)
      ?_ ?_ (by omega)
    · simp only [bytes, List.append_assoc, afterLen, afterEa, afterId]
    · simp [length_littleEndian, htimes]
  have hea : wordAt 4 (e.bytes next ++ c) 64 = e.info.eaSize.toNat := by
    refine wordAt_middle (a := littleEndian 4 next ++ e.times ++ littleEndian 4 e.info.attrs.toNat ++
      littleEndian 4 (2 * e.info.wide.length)) (c := afterEa) ?_ ?_ e.info.eaSize.toNat_lt
    · simp only [bytes, List.append_assoc, afterEa, afterId]
    · simp [length_littleEndian, htimes]
  have hid : wordAt 8 (e.bytes next ++ c) 96 = e.info.fileId.toNat := by
    refine wordAt_middle (a := littleEndian 4 next ++ e.times ++ littleEndian 4 e.info.attrs.toNat ++
      littleEndian 4 (2 * e.info.wide.length) ++ littleEndian 4 e.info.eaSize.toNat ++ e.short)
      (c := afterId) ?_ ?_ e.info.fileId.toNat_lt
    · simp only [bytes, List.append_assoc, afterId]
    · simp [length_littleEndian, htimes, hshort]
  have hname : (e.bytes next ++ c).drop FILE_NAME = nameBytes e.info.wide ++ (e.pad ++ c) := by
    rw [bytes, List.append_assoc, List.append_assoc]
    exact List.drop_left' (by simp [length_littleEndian, htimes, hshort, FILE_NAME])
  rw [entryAt, hattrs, hlen, hea, hid, hname, Nat.mul_div_cancel_left _ Nat.two_pos, unitsAt_nameBytes]
  simp

theorem next_bytes (next : ℕ) (hnext : next < 2 ^ 32) (c : Bytes) :
    nextEntryOffset (e.bytes next ++ c) = next := by
  have hlen : (littleEndian 4 next).length = 4 := length_littleEndian 4 next
  rw [nextEntryOffset, wordAt, List.drop_zero, bytes]
  simp only [List.append_assoc]
  rw [List.take_left' hlen, fromLittleEndian_littleEndian]
  exact Nat.mod_eq_of_lt hnext

end RawEntry

def chain (b : Bytes) : DirInfo × List DirInfo :=
  if _h : nextEntryOffset b = 0 then (entryAt b, [])
  else
    let r := chain (b.drop (nextEntryOffset b))
    (entryAt b, r.1 :: r.2)
termination_by b.length
decreasing_by
  have hpos := List.length_pos_iff.mpr (ne_nil_of_next _h)
  rw [List.length_drop]
  omega

theorem chain_last {b : Bytes} (h : nextEntryOffset b = 0) : chain b = (entryAt b, []) := by
  rw [chain, dif_pos h]

theorem chain_next {b c : Bytes} (h : nextEntryOffset b ≠ 0) (hc : b.drop (nextEntryOffset b) = c) :
    chain b = (entryAt b, (chain c).1 :: (chain c).2) := by
  rw [chain, dif_neg h, hc]

def batchBytes : RawEntry → List RawEntry → Bytes
  | e, [] => e.bytes 0
  | e, e' :: es => e.bytes e.size ++ batchBytes e' es

/-- Going along the chain gives the batch. -/
theorem chain_batchBytes (e : RawEntry) (es : List RawEntry) :
    chain (batchBytes e es) = (e.info, es.map RawEntry.info) := by
  induction es generalizing e with
  | nil =>
      have hnext := e.next_bytes 0 (by decide) []
      have hentry := e.entryAt_bytes 0 []
      rw [List.append_nil] at hnext hentry
      rw [batchBytes, chain_last hnext, hentry, List.map_nil]
  | cons e' es ih =>
      have hnext := e.next_bytes e.size e.fits (batchBytes e' es)
      have hne : nextEntryOffset (e.bytes e.size ++ batchBytes e' es) ≠ 0 := by
        rw [hnext]
        exact e.size_pos.ne'
      have hrest : (e.bytes e.size ++ batchBytes e' es).drop (nextEntryOffset (e.bytes e.size ++ batchBytes e' es)) =
          batchBytes e' es := by
        rw [hnext]
        exact List.drop_left' (e.length_bytes e.size)
      rw [batchBytes, chain_next hne hrest, e.entryAt_bytes, ih, List.map_cons]

namespace HfsDir

def cursor (d : HfsDir) : Cursor where
  pending := if d.filled then (chain d.rest).1 :: (chain d.rest).2 else []
  exhausted := d.exhausted
  answers := d.answers.map (Except.map chain)

theorem fill_cursor (d : HfsDir) : dirFill d.cursor = (d.fill.1, d.fill.2.cursor) := by
  obtain ⟨buf, off, filled, exhausted, answers⟩ := d
  rcases answers with _ | ⟨e | b, as⟩ <;> rfl

theorem advance_cursor {d : HfsDir} (hfilled : d.filled = true) :
    d.advance.cursor = { d.cursor with pending := (chain d.rest).2 } := by
  obtain ⟨buf, off, filled, exhausted, answers⟩ := d
  subst hfilled
  rw [advance]
  split_ifs with hnext
  · rw [chain_last hnext]
    rfl
  · have hdrop : (buf.drop off).drop (nextEntryOffset (buf.drop off)) =
        buf.drop (off + nextEntryOffset (buf.drop off)) := List.drop_drop
    have hchain := chain_next hnext hdrop
    rw [hchain]
    rfl

/-- The loop on the buffer is the loop on the entries. -/
theorem run_cursor (cap : ℕ) (x : HfsDir × List Dirent) :
    (dirBody cap).run (x.1.cursor, x.2) = (((body cap).run x).1, ((body cap).run x).2.cursor) := by
  induction x using (body cap).step_induction with
  | _ x ih =>
      obtain ⟨d, got⟩ := x
      by_cases hgo : got.length < cap ∧ d.exhausted = false
      · have hbytes : step cap (d, got) = _ := if_pos hgo
        have hentries : dirStep cap (d.cursor, got) = _ := if_pos hgo
        dsimp only at hbytes hentries
        cases hfilled : d.filled with
        | true =>
            have hpending : d.cursor.pending = (chain d.rest).1 :: (chain d.rest).2 := if_pos hfilled
            have hfirst : (chain d.rest).1 = entryAt d.rest := by
              by_cases hnext : nextEntryOffset d.rest = 0
              · rw [chain_last hnext]
              · rw [chain_next hnext rfl]
            rw [if_pos hfilled] at hbytes
            rw [hpending] at hentries
            dsimp only at hentries
            rw [← advance_cursor hfilled, hfirst] at hentries
            rw [(body cap).run_of_continue hbytes, (dirBody cap).run_of_continue hentries]
            exact ih _ hbytes
        | false =>
            have hpending : d.cursor.pending = [] := if_neg (by simp [hfilled])
            rw [if_neg (by simp [hfilled])] at hbytes
            rw [hpending] at hentries
            dsimp only at hentries
            rw [fill_cursor] at hentries
            cases hfill : d.fill with
            | mk r d' =>
                rw [hfill] at hbytes hentries
                cases r with
                | error e => rw [(body cap).run_of_stop hbytes, (dirBody cap).run_of_stop hentries]
                | ok u =>
                    rw [(body cap).run_of_continue hbytes, (dirBody cap).run_of_continue hentries]
                    exact ih _ hbytes
      · have hbytes : step cap (d, got) = _ := if_neg hgo
        have hentries : dirStep cap (d.cursor, got) = _ := if_neg hgo
        rw [(body cap).run_of_stop hbytes, (dirBody cap).run_of_stop hentries]

/-- A read on the buffer is a read of its entries. -/
theorem read_cursor (listing : List (Except Errno Bytes)) (d : HfsDir) (cap : ℕ) (restart : Bool) :
    hfsDirRead (listing.map (Except.map chain)) d.cursor cap restart =
      ((d.read listing cap restart).1, (d.read listing cap restart).2.cursor) := by
  have hpending : d.cursor.pending = [] ↔ d.filled = false := by
    rw [cursor]
    cases d.filled <;> simp
  rw [hfsDirRead, read]
  cases restart with
  | true =>
      have hfill := fill_cursor { d with exhausted := false, answers := listing }
      have hbegun : { d.cursor with exhausted := false, answers := listing.map (Except.map chain) } =
          cursor { d with exhausted := false, answers := listing } := rfl
      simp only [if_true]
      rw [hbegun, hfill]
      obtain ⟨e | u, d'⟩ := fill { d with exhausted := false, answers := listing }
      · rfl
      · exact run_cursor cap (d', [])
  | false =>
      simp only [Bool.false_eq_true, if_false, hpending]
      have hex : d.cursor.exhausted = d.exhausted := rfl
      rw [hex]
      split_ifs with hempty
      · rw [fill_cursor]
        obtain ⟨e | u, d'⟩ := d.fill
        · rfl
        · exact run_cursor cap (d', [])
      · exact run_cursor cap (d, [])

end HfsDir

abbrev RawAnswer := Except Errno (RawEntry × List RawEntry)

namespace RawAnswer

def inBytes (a : RawAnswer) : Except Errno Bytes := a.map fun b => batchBytes b.1 b.2

def entries (a : RawAnswer) : DirAnswer := a.map fun b => (b.1.info, b.2.map RawEntry.info)

theorem chain_inBytes (a : RawAnswer) : a.inBytes.map chain = a.entries := by
  cases a with
  | error e => rfl
  | ok b => exact congrArg Except.ok (chain_batchBytes b.1 b.2)

theorem map_chain_inBytes (as : List RawAnswer) : (as.map inBytes).map (Except.map chain) = as.map entries := by
  rw [List.map_map]
  exact List.map_congr_left fun a _ => chain_inBytes a

def stream (as : List RawAnswer) : List (Except Errno Dirent) := Cursor.stream ⟨[], false, as.map entries⟩

end RawAnswer

/-- A call of `hfs_dir_read`, with what the host answers if it starts again. -/
structure BufferRead where
  cap : ℕ
  room : 0 < cap
  restart : Bool
  listing : List RawAnswer

def HfsDir.reads (d : HfsDir) : List BufferRead → List (Except Errno (List Dirent))
  | [] => []
  | a :: as =>
    let r := d.read (a.listing.map RawAnswer.inBytes) a.cap a.restart
    r.1 :: r.2.reads as

/-- Reads of a stream of entries, which a restart has begin again. -/
def readsOf (s : List (Except Errno Dirent)) : List BufferRead → List (Except Errno (List Dirent))
  | [] => []
  | a :: as =>
    let r := readStream a.cap [] (if a.restart then RawAnswer.stream a.listing else s)
    r.1 :: readsOf r.2 as

/-- One call on the buffer reads on in the stream of its entries. -/
theorem HfsDir.read_stream (d : HfsDir) (a : BufferRead) :
    let from_ := if a.restart then RawAnswer.stream a.listing else d.cursor.stream
    let r := d.read (a.listing.map RawAnswer.inBytes) a.cap a.restart
    r.1 = (readStream a.cap [] from_).1 ∧ r.2.cursor.stream = (readStream a.cap [] from_).2 := by
  have hread := d.read_cursor (a.listing.map RawAnswer.inBytes) a.cap a.restart
  rw [RawAnswer.map_chain_inBytes] at hread
  have hstream := hfsDirRead_stream (a.listing.map RawAnswer.entries) d.cursor a.room a.restart
  have hbegin : (d.cursor.begin (a.listing.map RawAnswer.entries) a.restart).stream =
      if a.restart then RawAnswer.stream a.listing else d.cursor.stream := by
    rw [Cursor.begin]
    cases a.restart <;> rfl
  rw [hread, hbegin] at hstream
  exact hstream

theorem HfsDir.reads_stream (d : HfsDir) (as : List BufferRead) : d.reads as = readsOf d.cursor.stream as := by
  induction as generalizing d with
  | nil => rfl
  | cons a as ih =>
      obtain ⟨hret, hrest⟩ := d.read_stream a
      rw [HfsDir.reads, readsOf, ih, hret, hrest]

/-- Whatever chains the host lays out, and whatever it puts in the fields that nothing reads, the calls of
`hfs_dir_read` on the buffer give what reads of the stream of their entries give. -/
theorem buffers_read_as_laid_out (answers : List RawAnswer) (as : List BufferRead) :
    (HfsDir.opened (answers.map RawAnswer.inBytes)).reads as = readsOf (RawAnswer.stream answers) as := by
  rw [HfsDir.reads_stream]
  have hcursor : (HfsDir.opened (answers.map RawAnswer.inBytes)).cursor =
      ⟨[], false, (answers.map RawAnswer.inBytes).map (Except.map chain)⟩ := rfl
  rw [hcursor, RawAnswer.map_chain_inBytes]
  rfl

end SysvNt
