import SysvNt.HostDirectories
import SysvNt.Operations
import SysvNt.UserReads

/-!
# The operations of each kind of file

The table of operations that an opener gives a description, and the calls that go through it after
checks of their own: `do_read` and `do_write` with their loops over the bounce buffer,
`sys_ftruncate` and `sys_getdents64`. Each operation notes what of the host store it reaches.
-/

namespace SysvNt.FileOps

open FallibleCalls

variable {η σ : Type}

/-- What a description may come to on the host, and the entries that it may yield. -/
inductive Reach where
  | pread | pwrite | truncate | entries
  deriving DecidableEq

/-- What an operation works on: the world, the position and the scan of its description, and what
it has reached so far. -/
structure Live (σ : Type) where
  host : σ
  pos : UInt64
  scan : HostDir
  reached : List Reach

/-- What lies outside the core, beside the host store: the data of its files and the listings of its
directories, user memory, the bounce buffer, the generator of random bytes and the console. -/
structure FileIo (η σ : Type) where
  pread : η → (len : ℕ) → (off : UInt64) → Call Errno σ Bytes
  pwrite : η → Bytes → (off : UInt64) → (append : Bool) → Call Errno σ ℕ
  directory : η → σ → DirHost
  copyOut : UInt64 → Bytes → StateM σ Bool
  copyIn : UInt64 → ℕ → StateM σ (Option Bytes)
  bounce : StateM σ Bool
  random : ℕ → StateM σ Bytes
  consoleRead : ℕ → Call Errno σ Bytes
  consoleWrite : Bytes → Call Errno σ ℕ

/-- `struct file_ops`; an operation that a kind does not have is a null pointer. -/
structure Table (σ : Type) where
  read : ℕ → Call Errno (Live σ) Bytes
  write : Bytes → Call Errno (Live σ) ℕ
  pread : Option (ℕ → UInt64 → Call Errno (Live σ) Bytes)
  pwrite : Option (Bytes → UInt64 → Call Errno (Live σ) ℕ)
  getdents : Option (ℕ → Call Errno (Live σ) Bytes)
  truncate : Option (UInt64 → Call Errno (Live σ) Unit)

section Kinds

variable {α : Type}

def reach (es : List Reach) (m : Call Errno σ α) : Call Errno (Live σ) α :=
  ExceptT.mk fun l => ((m.run l.host).1, { l with host := (m.run l.host).2, reached := l.reached ++ es })

def outside (m : StateM σ α) : Call Errno (Live σ) α := reach [] (liftM m)

def position : Call Errno (Live σ) UInt64 := ExceptT.mk fun l => (.ok l.pos, l)

def setPosition (pos : UInt64) : Call Errno (Live σ) Unit := ExceptT.mk fun l => (.ok (), { l with pos := pos })

variable (H : HostStore η σ) (io : FileIo η σ)

def hostfileRead (h : η) (len : ℕ) : Call Errno (Live σ) Bytes := do
  let pos ← position
  let b ← reach [.pread] (io.pread h len pos)
  setPosition (pos + UInt64.ofNat b.length)
  pure b

def hostfileWrite (h : η) (flags : UInt32) (b : Bytes) : Call Errno (Live σ) ℕ := do
  let pos ← position
  if has flags O_APPEND then do
    let n ← reach [.pwrite] (io.pwrite h b 0 true)
    if 0 < n then do
      let r ← attempt (reach [] (H.stat h))
      match r with
      | .ok hs => setPosition hs.size
      | .error _ => pure ()
      pure n
    else pure n
  else do
    let n ← reach [.pwrite] (io.pwrite h b pos false)
    setPosition (pos + UInt64.ofNat n)
    pure n

def hostfilePread (h : η) (len : ℕ) (off : UInt64) : Call Errno (Live σ) Bytes :=
  reach [.pread] (io.pread h len off)

def hostfilePwrite (h : η) (flags : UInt32) (b : Bytes) (off : UInt64) : Call Errno (Live σ) ℕ :=
  reach [.pwrite] (io.pwrite h b off (has flags O_APPEND))

def hostfileTruncate (h : η) (size : UInt64) : Call Errno (Live σ) Unit :=
  reach [.truncate] (H.truncate h size)

/-- The directory's reader, over the host's answers at the time of the call. -/
def hostdirGetdents (h : η) (cap : ℕ) : Call Errno (Live σ) Bytes := ExceptT.mk fun l =>
  let r := SysvNt.hostdirGetdents (io.directory h l.host) l.scan cap
  (r.1, { l with scan := r.2 })

/-- The reader of a directory that keeps its entries in the kernel. -/
def listGetdents (getdents : ℕ → ℕ → Except Errno Bytes × ℕ) (cap : ℕ) : Call Errno (Live σ) Bytes :=
  ExceptT.mk fun l =>
    let r := getdents l.pos.toNat cap
    (r.1, { l with pos := UInt64.ofNat r.2 })

def snapPread (text : Bytes) (len : ℕ) (off : UInt64) : Call Errno (Live σ) Bytes :=
  pure ((text.drop off.toNat).take len)

def snapRead (text : Bytes) (len : ℕ) : Call Errno (Live σ) Bytes := do
  let pos ← position
  let b ← snapPread text len pos
  setPosition (pos + UInt64.ofNat b.length)
  pure b

def devRead (minor : UInt32) (len : ℕ) : Call Errno (Live σ) Bytes :=
  if minor = 3 then pure []
  else if minor = 5 ∨ minor = 7 then pure (List.replicate len 0)
  else if minor = 8 ∨ minor = 9 then outside (io.random len)
  else if minor = 0 ∨ minor = 1 then reach [] (io.consoleRead len)
  else throw Errno.ENXIO

def devWrite (minor : UInt32) (b : Bytes) : Call Errno (Live σ) ℕ :=
  if minor = 3 ∨ minor = 5 ∨ minor = 8 ∨ minor = 9 then pure b.length
  else if minor = 7 then throw .ENOSPC
  else if minor = 0 ∨ minor = 1 then reach [] (io.consoleWrite b)
  else throw Errno.ENXIO

def hostfileOps (h : η) (flags : UInt32) : Table σ where
  read := hostfileRead io h
  write := hostfileWrite H io h flags
  pread := some (hostfilePread io h)
  pwrite := some (hostfilePwrite io h flags)
  getdents := none
  truncate := some (hostfileTruncate H h)

def hostdirOps (h : η) : Table σ where
  read _ := throw .EINVAL
  write _ := throw .EBADF
  pread := none
  pwrite := none
  getdents := some (hostdirGetdents io h)
  truncate := none

/-- `snap_ops` and `proc_file_ops`, which differ in the stat alone. -/
def snapOps (text : Bytes) : Table σ where
  read := snapRead text
  write _ := throw .EINVAL
  pread := some (snapPread text)
  pwrite := none
  getdents := none
  truncate := none

def listOps (getdents : ℕ → ℕ → Except Errno Bytes × ℕ) : Table σ where
  read _ := throw .EISDIR
  write _ := throw .EISDIR
  pread := none
  pwrite := none
  getdents := some (listGetdents getdents)
  truncate := none

def devOps (minor : UInt32) : Table σ where
  read := devRead io minor
  write := devWrite io minor
  pread := none
  pwrite := none
  getdents := none
  truncate := none

/-- The table that the opener puts into a description; a link of `/proc` has no text. -/
def opsOf (flags : UInt32) : OpenFile η → Table σ
  | .host h .hostdir _ _ _ => hostdirOps io h
  | .host h .symlink _ _ _ => hostfileOps H io h flags
  | .host h .host _ _ _ => hostfileOps H io h flags
  | .synth f _ _ => match f with
    | .procLink => snapOps []
    | .procFile text => snapOps text
    | .procDir d => listOps (procGetdents d)
    | .devDir => listOps devdirGetdents
    | .devNode _ minor => devOps io minor

end Kinds

section Calls

variable (io : FileIo η σ)

/-- One turn of the loop of `do_read`; the operation is told how much is done. -/
def readTurn (op : ℕ → ℕ → Call Errno (Live σ) Bytes) (ubuf : UInt64) (len : ℕ) (x : Live σ × ℕ) :
    (Live σ × ℕ) ⊕ (Except Errno ℕ × Live σ) :=
  if len ≤ x.2 then .inr (.ok x.2, x.1)
  else
    let chunk := min (len - x.2) BOUNCE
    match (op x.2 chunk).run x.1 with
    | (.error e, l) => .inr (doneOr x.2 e, l)
    | (.ok b, l) =>
      if b = [] then .inr (.ok x.2, l)
      else match io.copyOut (ubuf + UInt64.ofNat x.2) b l.host with
        | (false, y) => .inr (doneOr x.2 .EFAULT, { l with host := y })
        | (true, y) =>
          if b.length < chunk then .inr (.ok (x.2 + b.length), { l with host := y })
          else .inl ({ l with host := y }, x.2 + b.length)

theorem readTurn_decreases (op : ℕ → ℕ → Call Errno (Live σ) Bytes) (ubuf : UInt64) (len : ℕ)
    (x x' : Live σ × ℕ) (h : readTurn io op ubuf len x = .inl x') : len - x'.2 < len - x.2 := by
  rw [readTurn] at h
  split_ifs at h with hlen
  dsimp only at h
  cases hop : (op x.2 (min (len - x.2) BOUNCE)).run x.1 with
  | mk r l =>
      rw [hop] at h
      cases r with
      | error e => cases h
      | ok b =>
          dsimp only at h
          by_cases hb : b = []
          · rw [if_pos hb] at h
            cases h
          rw [if_neg hb] at h
          have hpos := List.length_pos_of_ne_nil hb
          cases hcopy : io.copyOut (ubuf + UInt64.ofNat x.2) b l.host with
          | mk ok y =>
              rw [hcopy] at h
              cases ok with
              | false => cases h
              | true =>
                  dsimp only at h
                  split_ifs at h
                  cases h
                  dsimp only
                  omega

def readBody (op : ℕ → ℕ → Call Errno (Live σ) Bytes) (ubuf : UInt64) (len : ℕ) :
    BoundedLoop.Body (Live σ × ℕ) (Except Errno ℕ × Live σ) where
  step := readTurn io op ubuf len
  measure x := len - x.2
  decreases := readTurn_decreases io op ubuf len

def readLoop (op : ℕ → ℕ → Call Errno (Live σ) Bytes) (ubuf : UInt64) (len : ℕ) : Call Errno (Live σ) ℕ :=
  ExceptT.mk fun l => (readBody io op ubuf len).run (l, 0)

def writeTurn (op : ℕ → Bytes → Call Errno (Live σ) ℕ) (ubuf : UInt64) (len : ℕ) (x : Live σ × ℕ) :
    (Live σ × ℕ) ⊕ (Except Errno ℕ × Live σ) :=
  if len ≤ x.2 then .inr (.ok x.2, x.1)
  else
    let chunk := min (len - x.2) BOUNCE
    match io.copyIn (ubuf + UInt64.ofNat x.2) chunk x.1.host with
    | (none, y) => .inr (doneOr x.2 .EFAULT, { x.1 with host := y })
    | (some b, y) => match (op x.2 b).run { x.1 with host := y } with
      | (.error e, l) => .inr (doneOr x.2 e, l)
      | (.ok n, l) => if n < chunk then .inr (.ok (x.2 + n), l) else .inl (l, x.2 + n)

theorem writeTurn_decreases (op : ℕ → Bytes → Call Errno (Live σ) ℕ) (ubuf : UInt64) (len : ℕ)
    (x x' : Live σ × ℕ) (h : writeTurn io op ubuf len x = .inl x') : len - x'.2 < len - x.2 := by
  rw [writeTurn] at h
  split_ifs at h with hlen
  dsimp only at h
  cases hcopy : io.copyIn (ubuf + UInt64.ofNat x.2) (min (len - x.2) BOUNCE) x.1.host with
  | mk b y =>
      rw [hcopy] at h
      cases b with
      | none => cases h
      | some b =>
          dsimp only at h
          cases hop : (op x.2 b).run { x.1 with host := y } with
          | mk r l =>
              rw [hop] at h
              cases r with
              | error e => cases h
              | ok n =>
                  dsimp only at h
                  split_ifs at h with hn
                  cases h
                  simp only [BOUNCE] at hn
                  dsimp only
                  omega

def writeBody (op : ℕ → Bytes → Call Errno (Live σ) ℕ) (ubuf : UInt64) (len : ℕ) :
    BoundedLoop.Body (Live σ × ℕ) (Except Errno ℕ × Live σ) where
  step := writeTurn io op ubuf len
  measure x := len - x.2
  decreases := writeTurn_decreases io op ubuf len

def writeLoop (op : ℕ → Bytes → Call Errno (Live σ) ℕ) (ubuf : UInt64) (len : ℕ) : Call Errno (Live σ) ℕ :=
  ExceptT.mk fun l => (writeBody io op ubuf len).run (l, 0)

variable (ops : Table σ) (flags : UInt32)

/-- `do_read`; with an offset it is positional. -/
def doRead (ubuf : UInt64) (len : ℤ) (off : Option UInt64) : Call Errno (Live σ) ℕ := do
  let b ← outside io.bounce
  if len < 0 then throw .EINVAL
  else if b = false then throw .ENOMEM
  else if flags &&& O_ACCMODE = O_WRONLY ∨ flags &&& O_ACCMODE = 3 then throw .EBADF
  else if has flags O_PATH then throw .EBADF
  else match off with
    | none => readLoop io (fun _ n => ops.read n) ubuf len.toNat
    | some off => match ops.pread with
      | none => throw .ESPIPE
      | some op => readLoop io (fun done n => op n (off + UInt64.ofNat done)) ubuf len.toNat

def doWrite (ubuf : UInt64) (len : ℤ) (off : Option UInt64) : Call Errno (Live σ) ℕ := do
  let b ← outside io.bounce
  if len < 0 then throw .EINVAL
  else if b = false then throw .ENOMEM
  else if flags &&& O_ACCMODE = O_RDONLY ∨ flags &&& O_ACCMODE = 3 then throw .EBADF
  else if has flags O_PATH then throw .EBADF
  else match off with
    | none => writeLoop io (fun _ b => ops.write b) ubuf len.toNat
    | some off => match ops.pwrite with
      | none => throw .ESPIPE
      | some op => writeLoop io (fun done b => op b (off + UInt64.ofNat done)) ubuf len.toNat

def sysFtruncate (size : ℤ) : Call Errno (Live σ) ℕ :=
  if size < 0 then throw .EINVAL
  else if flags &&& O_ACCMODE = O_RDONLY then throw .EINVAL
  else match ops.truncate with
    | none => throw .EINVAL
    | some op => do
      op (UInt64.ofNat size.toNat)
      pure 0

def sysGetdents64 (ubuf : UInt64) (len : ℤ) : Call Errno (Live σ) ℕ := do
  let b ← outside io.bounce
  match ops.getdents with
  | none => throw .ENOTDIR
  | some op =>
    if len < 0 then throw .EINVAL
    else if b = false then throw .ENOMEM
    else do
      let records ← op (min len.toNat BOUNCE)
      if records = [] then pure 0
      else do
        let copied ← reach [.entries] (liftM (io.copyOut ubuf records))
        if copied then pure records.length else throw .EFAULT

end Calls

end SysvNt.FileOps
