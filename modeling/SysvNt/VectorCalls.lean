import SysvNt.DirectoryRecords
import SysvNt.FileOps
import SysvNt.Transfers

/-!
# Calls on vectors

`sys_readv_writev` copies its vectors in and makes one `do_read` or `do_write` of each, and each of
these makes one operation of each chunk that fits the bounce buffer. Both are transfers in pieces
over the places that the caller names.
-/

namespace SysvNt.FileOps

open FallibleCalls Transfers

variable {η σ : Type}

def userRange (base : UInt64) (n : ℕ) : List UInt64 :=
  (List.range n).map fun i => base + UInt64.ofNat i

def places (vs : List Iovec) : List UInt64 := vs.flatMap fun v => userRange v.base v.len

def vectorsOf (b : Bytes) : List Iovec :=
  (List.range (b.length / 16)).map fun i =>
    { base := UInt64.ofNat (fromLittleEndian ((b.drop (16 * i)).take 8))
      len := fromLittleEndian ((b.drop (16 * i + 8)).take 8) }

def vectorLoop (one : UInt64 → ℤ → Call Errno (Live σ) ℕ) (total : ℕ) : List Iovec → Call Errno (Live σ) ℕ
  | [] => pure total
  | v :: vs =>
    if v.len = 0 then vectorLoop one total vs
    else if 0x7fffffff < v.len then liftM (m := Except Errno) (doneOr total .EINVAL)
    else do
      let r ← attempt (one v.base v.len)
      match r with
      | .error e => liftM (m := Except Errno) (doneOr total e)
      | .ok n => if n < v.len then pure (total + n) else vectorLoop one (total + n) vs

/-- `sys_readv_writev`, with `do_read` or `do_write` for one vector. -/
def sysReadvWritev (io : FileIo η σ) (alloc : StateM σ Bool) (one : UInt64 → ℤ → Call Errno (Live σ) ℕ)
    (uiov : UInt64) (cnt : ℤ) : Call Errno (Live σ) ℕ :=
  if cnt < 0 ∨ 1024 < cnt then throw .EINVAL
  else do
    let iov ← outside alloc
    if iov = false then throw .ENOMEM
    else do
      let copied ← outside (io.copyIn uiov (cnt.toNat * 16))
      match copied with
      | none => throw .EFAULT
      | some b => vectorLoop one 0 (vectorsOf b)

/-- User memory alone, for a call that reaches nothing else. -/
def memoryIo (mem : UInt64 → Option UInt8) (ready : Bool) : FileIo Unit σ where
  pread _ _ _ := throw .EACCES
  pwrite _ _ _ _ := throw .EACCES
  directory _ _ := ⟨0, [], true, true⟩
  copyOut _ _ := pure false
  copyIn a n := pure (gather mem (userRange a n))
  bounce := pure ready
  random n := pure (List.replicate n 0)
  consoleRead _ := throw .EACCES
  consoleWrite _ := throw .EACCES

theorem length_userRange (base : UInt64) (n : ℕ) : (userRange base n).length = n := by
  rw [userRange, List.length_map, List.length_range]

theorem userRange_add (base : UInt64) (m n : ℕ) :
    userRange base (m + n) = userRange base m ++ userRange (base + UInt64.ofNat m) n := by
  rw [userRange, List.range_add, List.map_append, List.map_map]
  congr 1
  refine List.map_congr_left fun i _ => ?_
  rw [Function.comp_apply, UInt64.ofNat_add, UInt64.add_assoc]

theorem nodup_userRange (a : UInt64) {n : ℕ} (h : n ≤ 2 ^ 64) : (userRange a n).Nodup := by
  rw [userRange]
  refine List.Nodup.map_on ?_ List.nodup_range
  intro i hi j hj hij
  rw [List.mem_range] at hi hj
  have hsame := congrArg UInt64.toNat ((UInt64.add_right_inj a).mp hij)
  rwa [UInt64.toNat_ofNat', UInt64.toNat_ofNat', Nat.mod_eq_of_lt (by omega), Nat.mod_eq_of_lt (by omega)] at hsame

theorem places_empty {v : Iovec} (h0 : v.len = 0) (vs : List Iovec) : places (v :: vs) = places vs := by
  rw [places, List.flatMap_cons, h0]
  rfl

/-- One turn of a loop over chunks, by what it does with one of them. -/
def pieceTurn (piece : ℕ → ℕ → Call Errno (Live σ) ℕ) (len : ℕ) (x : Live σ × ℕ) :
    (Live σ × ℕ) ⊕ (Except Errno ℕ × Live σ) :=
  if len ≤ x.2 then .inr (.ok x.2, x.1)
  else match (piece x.2 (min (len - x.2) BOUNCE)).run x.1 with
    | (.error e, l) => .inr (doneOr x.2 e, l)
    | (.ok n, l) =>
      if n < min (len - x.2) BOUNCE then .inr (.ok (x.2 + n), l) else .inl (l, x.2 + n)

section Pieces

variable (io : FileIo η σ)

def readPiece (op : ℕ → ℕ → Call Errno (Live σ) Bytes) (ubuf : UInt64) (i n : ℕ) : Call Errno (Live σ) ℕ :=
  ExceptT.mk fun l => match (op i n).run l with
    | (.error e, l) => (.error e, l)
    | (.ok b, l) =>
      if b = [] then (.ok 0, l)
      else match io.copyOut (ubuf + UInt64.ofNat i) b l.host with
        | (false, y) => (.error .EFAULT, { l with host := y })
        | (true, y) => (.ok b.length, { l with host := y })

def writePiece (op : ℕ → Bytes → Call Errno (Live σ) ℕ) (ubuf : UInt64) (i n : ℕ) : Call Errno (Live σ) ℕ :=
  ExceptT.mk fun l => match io.copyIn (ubuf + UInt64.ofNat i) n l.host with
    | (none, y) => (.error .EFAULT, { l with host := y })
    | (some b, y) => (op i b).run { l with host := y }

theorem readTurn_eq (op : ℕ → ℕ → Call Errno (Live σ) Bytes) (ubuf : UInt64) (len : ℕ) (x : Live σ × ℕ) :
    readTurn io op ubuf len x = pieceTurn (readPiece io op ubuf) len x := by
  rw [readTurn, pieceTurn]
  by_cases hlen : len ≤ x.2
  · rw [if_pos hlen, if_pos hlen]
  have hchunk : 0 < min (len - x.2) BOUNCE := by
    rw [BOUNCE]
    omega
  rw [if_neg hlen, if_neg hlen]
  dsimp only [readPiece, ExceptT.run_mk]
  cases hop : (op x.2 (min (len - x.2) BOUNCE)).run x.1 with
  | mk r l =>
      cases r with
      | error e => rfl
      | ok b =>
          dsimp only
          by_cases hb : b = []
          · rw [if_pos hb, if_pos hb]
            dsimp only
            rw [if_pos hchunk, Nat.add_zero]
          · rw [if_neg hb, if_neg hb]
            cases io.copyOut (ubuf + UInt64.ofNat x.2) b l.host with
            | mk ok y => cases ok <;> rfl

theorem writeTurn_eq (op : ℕ → Bytes → Call Errno (Live σ) ℕ) (ubuf : UInt64) (len : ℕ) (x : Live σ × ℕ) :
    writeTurn io op ubuf len x = pieceTurn (writePiece io op ubuf) len x := by
  rw [writeTurn, pieceTurn]
  by_cases hlen : len ≤ x.2
  · rw [if_pos hlen, if_pos hlen]
  rw [if_neg hlen, if_neg hlen]
  dsimp only [writePiece, ExceptT.run_mk]
  cases io.copyIn (ubuf + UInt64.ofNat x.2) (min (len - x.2) BOUNCE) x.1.host with
  | mk b y => cases b <;> rfl

end Pieces

section Rules

variable {piece : ℕ → ℕ → Call Errno (Live σ) ℕ} {len : ℕ}
  {L : BoundedLoop.Body (Live σ × ℕ) (Except Errno ℕ × Live σ)} (hL : L.step = pieceTurn piece len)
  (hle : ∀ i n l k, ((piece i n).run l).1 = .ok k → k ≤ n)

include hL hle

/-- The loop over chunks, from where it is. -/
theorem pieces_from {T : ℕ → Live σ → List UInt64 → Except Errno ℕ → Live σ → Prop} (hT : Piecewise T)
    {ubuf : UInt64} (hone : ∀ i n l, i + n ≤ len → n ≤ BOUNCE →
      T i l (userRange (ubuf + UInt64.ofNat i) n) ((piece i n).run l).1 ((piece i n).run l).2)
    (x : Live σ × ℕ) : x.2 ≤ len → ∃ r, (L.run x).1 = after x.2 r ∧
      T x.2 x.1 (userRange (ubuf + UInt64.ofNat x.2) (len - x.2)) r (L.run x).2 := by
  induction x using L.step_induction with
  | _ x ih =>
      obtain ⟨l, i⟩ := x
      intro hi
      dsimp only at hi ⊢
      have hstep : L.step (l, i) = pieceTurn piece len (l, i) := by rw [hL]
      rw [pieceTurn] at hstep
      dsimp only at hstep
      by_cases hlen : len ≤ i
      · rw [if_pos hlen] at hstep
        rw [L.run_of_stop hstep, Nat.sub_eq_zero_of_le hlen]
        exact ⟨.ok 0, rfl, hT.done i l⟩
      rw [if_neg hlen] at hstep
      obtain ⟨n, hn⟩ : ∃ n, n = min (len - i) BOUNCE := ⟨_, rfl⟩
      rw [← hn] at hstep
      have hrest : userRange (ubuf + UInt64.ofNat i) (len - i) = userRange (ubuf + UInt64.ofNat i) n ++
          userRange (ubuf + UInt64.ofNat (i + n)) (len - (i + n)) := by
        rw [UInt64.ofNat_add, ← UInt64.add_assoc, ← userRange_add]
        congr 1
        omega
      have hpiece := hone i n l (by omega) (by omega)
      have hbound := hle i n l
      rw [hrest]
      cases hrun : (piece i n).run l with
      | mk r m =>
          rw [hrun] at hstep hpiece hbound
          cases r with
          | error e =>
              rw [L.run_of_stop hstep]
              exact ⟨.error e, rfl, hT.failed _ hpiece⟩
          | ok k =>
              dsimp only at hstep hpiece
              by_cases hk : k < n
              · rw [if_pos hk] at hstep
                rw [L.run_of_stop hstep]
                refine ⟨.ok k, rfl, hT.short _ hpiece ?_⟩
                rwa [length_userRange]
              · obtain rfl : k = n := Nat.le_antisymm (hbound k rfl) (by omega)
                rw [if_neg hk] at hstep
                obtain ⟨r, hret, hnext⟩ := ih (m, i + k) hstep (by dsimp only; omega)
                rw [L.run_of_continue hstep, hret]
                refine ⟨after k r, (after_after i k r).symm, ?_⟩
                obtain ⟨ps, hps⟩ : ∃ ps, ps = userRange (ubuf + UInt64.ofNat i) k := ⟨_, rfl⟩
                obtain rfl : ps.length = k := by rw [hps, length_userRange]
                rw [← hps] at hpiece ⊢
                exact hT.onward hpiece hnext

/-- No more is done than was asked for. -/
theorem pieces_le {l : Live σ} {k : ℕ} (h : (L.run (l, 0)).1 = .ok k) : k ≤ len := by
  refine L.run_invariant (P := fun x => x.2 ≤ len) (Q := fun r => ∀ k, r.1 = .ok k → k ≤ len) ?_ ?_
    (l, 0) (Nat.zero_le _) k h
  · intro x x' hx hs
    rw [hL, pieceTurn] at hs
    split_ifs at hs with hlen
    have hbound := hle x.2 (min (len - x.2) BOUNCE) x.1
    cases hrun : (piece x.2 (min (len - x.2) BOUNCE)).run x.1 with
    | mk r m =>
        rw [hrun] at hs hbound
        cases r with
        | error e => cases hs
        | ok n =>
            dsimp only at hs
            have hn := hbound n rfl
            split_ifs at hs
            cases hs
            dsimp only
            omega
  · intro x r hx hs k hk
    rw [hL, pieceTurn] at hs
    split_ifs at hs with hlen
    · cases hs
      cases hk
      exact hx
    have hbound := hle x.2 (min (len - x.2) BOUNCE) x.1
    cases hrun : (piece x.2 (min (len - x.2) BOUNCE)).run x.1 with
    | mk q m =>
        rw [hrun] at hs hbound
        cases q with
        | error e =>
            cases hs
            dsimp only [doneOr] at hk
            split_ifs at hk
            cases hk
            exact hx
        | ok n =>
            dsimp only at hs
            have hn := hbound n rfl
            split_ifs at hs
            cases hs
            cases hk
            omega

/-- The whole loop is a transfer if each chunk is. -/
theorem pieces_transfer {T : ℕ → Live σ → List UInt64 → Except Errno ℕ → Live σ → Prop} (hT : Piecewise T)
    {ubuf : UInt64} (hone : ∀ i n l, i + n ≤ len → n ≤ BOUNCE →
      T i l (userRange (ubuf + UInt64.ofNat i) n) ((piece i n).run l).1 ((piece i n).run l).2) (l : Live σ) :
    T 0 l (userRange ubuf len) (L.run (l, 0)).1 (L.run (l, 0)).2 := by
  obtain ⟨r, hret, hrun⟩ := pieces_from hL hle hT hone (l, 0) (Nat.zero_le _)
  rw [after_zero] at hret
  rw [hret]
  simpa using hrun

/-- A request that fits the bounce buffer is one chunk. -/
theorem pieces_single (h0 : 0 < len) (hlen : len ≤ BOUNCE) (l : Live σ) :
    L.run (l, 0) = (piece 0 len).run l := by
  have hmin : min (len - 0) BOUNCE = len := by omega
  have hstep : L.step (l, 0) = pieceTurn piece len (l, 0) := by rw [hL]
  have hbound := hle 0 len l
  rw [pieceTurn] at hstep
  dsimp only at hstep
  rw [if_neg (by omega), hmin] at hstep
  cases hrun : (piece 0 len).run l with
  | mk r m =>
      rw [hrun] at hstep hbound
      cases r with
      | error e => exact L.run_of_stop hstep
      | ok k =>
          dsimp only at hstep
          rw [Nat.zero_add] at hstep
          by_cases hk : k < len
          · rw [if_pos hk] at hstep
            exact L.run_of_stop hstep
          · obtain rfl : k = len := Nat.le_antisymm (hbound k rfl) (by omega)
            rw [if_neg hk] at hstep
            have hend : L.step (m, k) = .inr (.ok k, m) := by
              rw [hL, pieceTurn, if_pos (le_refl k)]
            rw [L.run_of_continue hstep, L.run_of_stop hend]

end Rules

theorem run_outside {α : Type} (m : StateM σ α) (l : Live σ) :
    (outside m : Call Errno (Live σ) α).run l = (.ok (m l.host).1, { l with host := (m l.host).2 }) := by
  obtain ⟨host, pos, scan, reached⟩ := l
  change (Except.ok _, Live.mk _ pos scan (reached ++ [])) = _
  rw [List.append_nil]
  rfl

/-- What `do_read` or `do_write` refuses before any byte moves; `mode` is the other access. -/
def ioRefused (mode flags : UInt32) (ready : Bool) (len : ℤ) : Option Errno :=
  if len < 0 then some .EINVAL
  else if ready = false then some .ENOMEM
  else if flags &&& O_ACCMODE = mode ∨ flags &&& O_ACCMODE = 3 then some .EBADF
  else if has flags O_PATH then some .EBADF
  else none

/-- The read that a call of `do_read` makes of each chunk. -/
def readOf (ops : Table σ) : Option UInt64 → Option (ℕ → ℕ → Call Errno (Live σ) Bytes)
  | none => some fun _ n => ops.read n
  | some off => ops.pread.map fun op i n => op n (off + UInt64.ofNat i)

/-- The write that a call of `do_write` makes of each chunk. -/
def writeOf (ops : Table σ) : Option UInt64 → Option (ℕ → Bytes → Call Errno (Live σ) ℕ)
  | none => some fun _ b => ops.write b
  | some off => ops.pwrite.map fun op i b => op b (off + UInt64.ofNat i)

section Wholes

variable (io : FileIo η σ) (ops : Table σ) (flags : UInt32) (ubuf : UInt64)

def bounced (l : Live σ) : Live σ := { l with host := (io.bounce l.host).2 }

theorem run_doRead (len : ℤ) (off : Option UInt64) (l : Live σ) :
    (doRead io ops flags ubuf len off).run l =
      match ioRefused O_WRONLY flags (io.bounce l.host).1 len with
      | some e => (.error e, bounced io l)
      | none => match readOf ops off with
        | none => (.error .ESPIPE, bounced io l)
        | some op => (readBody io op ubuf len.toNat).run (bounced io l, 0) := by
  have hbounce : (outside io.bounce : Call Errno (Live σ) Bool).run l =
      (.ok (io.bounce l.host).1, bounced io l) := run_outside io.bounce l
  rw [doRead.eq_def, run_bind, hbounce, ioRefused]
  dsimp only
  split_ifs
  · rfl
  · rfl
  · rfl
  · rfl
  cases off with
  | none => rfl
  | some off =>
      rw [readOf]
      cases ops.pread <;> rfl

theorem run_doWrite (len : ℤ) (off : Option UInt64) (l : Live σ) :
    (doWrite io ops flags ubuf len off).run l =
      match ioRefused O_RDONLY flags (io.bounce l.host).1 len with
      | some e => (.error e, bounced io l)
      | none => match writeOf ops off with
        | none => (.error .ESPIPE, bounced io l)
        | some op => (writeBody io op ubuf len.toNat).run (bounced io l, 0) := by
  have hbounce : (outside io.bounce : Call Errno (Live σ) Bool).run l =
      (.ok (io.bounce l.host).1, bounced io l) := run_outside io.bounce l
  rw [doWrite.eq_def, run_bind, hbounce, ioRefused]
  dsimp only
  split_ifs
  · rfl
  · rfl
  · rfl
  · rfl
  cases off with
  | none => rfl
  | some off =>
      rw [writeOf]
      cases ops.pwrite <;> rfl

variable {ubuf}

theorem readPiece_le {op : ℕ → ℕ → Call Errno (Live σ) Bytes}
    (hop : ∀ i n l b, ((op i n).run l).1 = .ok b → b.length ≤ n) (i n : ℕ) (l : Live σ) (k : ℕ)
    (h : ((readPiece io op ubuf i n).run l).1 = .ok k) : k ≤ n := by
  have hbound := hop i n l
  dsimp only [readPiece, ExceptT.run_mk] at h
  cases hrun : (op i n).run l with
  | mk r m =>
      rw [hrun] at h hbound
      cases r with
      | error e => cases h
      | ok b =>
          dsimp only at h
          split_ifs at h
          · cases h
            exact Nat.zero_le n
          · cases hcopy : io.copyOut (ubuf + UInt64.ofNat i) b m.host with
            | mk ok y =>
                rw [hcopy] at h
                cases ok with
                | false => cases h
                | true =>
                    cases h
                    exact hbound b rfl

theorem writePiece_le {op : ℕ → Bytes → Call Errno (Live σ) ℕ}
    (hin : ∀ a n y b, (io.copyIn a n y).1 = some b → b.length ≤ n)
    (hop : ∀ i b l k, ((op i b).run l).1 = .ok k → k ≤ b.length) (i n : ℕ) (l : Live σ) (k : ℕ)
    (h : ((writePiece io op ubuf i n).run l).1 = .ok k) : k ≤ n := by
  have hlen := hin (ubuf + UInt64.ofNat i) n l.host
  dsimp only [writePiece, ExceptT.run_mk] at h
  cases hcopy : io.copyIn (ubuf + UInt64.ofNat i) n l.host with
  | mk b y =>
      rw [hcopy] at h hlen
      cases b with
      | none => cases h
      | some b => exact le_trans (hop i b _ k h) (hlen b rfl)

variable {off : Option UInt64}

theorem doRead_le (hop : ∀ op, readOf ops off = some op → ∀ i n l b, ((op i n).run l).1 = .ok b → b.length ≤ n)
    (len : ℕ) (l : Live σ) (k : ℕ) (h : ((doRead io ops flags ubuf len off).run l).1 = .ok k) : k ≤ len := by
  rw [run_doRead] at h
  cases hrefused : ioRefused O_WRONLY flags (io.bounce l.host).1 len with
  | some e =>
      rw [hrefused] at h
      cases h
  | none =>
      rw [hrefused] at h
      cases hof : readOf ops off with
      | none =>
          rw [hof] at h
          cases h
      | some op =>
          rw [hof] at h
          exact pieces_le (funext (readTurn_eq io op ubuf len)) (readPiece_le io (hop op hof)) h

theorem doWrite_le (hin : ∀ a n y b, (io.copyIn a n y).1 = some b → b.length ≤ n)
    (hop : ∀ op, writeOf ops off = some op → ∀ i b l k, ((op i b).run l).1 = .ok k → k ≤ b.length)
    (len : ℕ) (l : Live σ) (k : ℕ) (h : ((doWrite io ops flags ubuf len off).run l).1 = .ok k) : k ≤ len := by
  rw [run_doWrite] at h
  cases hrefused : ioRefused O_RDONLY flags (io.bounce l.host).1 len with
  | some e =>
      rw [hrefused] at h
      cases h
  | none =>
      rw [hrefused] at h
      cases hof : writeOf ops off with
      | none =>
          rw [hof] at h
          cases h
      | some op =>
          rw [hof] at h
          exact pieces_le (funext (writeTurn_eq io op ubuf len)) (writePiece_le io hin (hop op hof)) h

/-- A read is a transfer if each chunk of it is; `hread` is about a call that is not refused. -/
theorem doRead_transfers {T : ℕ → Live σ → List UInt64 → Except Errno ℕ → Live σ → Prop} (hT : Piecewise T)
    {len : ℤ} {l : Live σ} (hread : ioRefused O_WRONLY flags (io.bounce l.host).1 len = none)
    {op : ℕ → ℕ → Call Errno (Live σ) Bytes} (hof : readOf ops off = some op)
    (hop : ∀ i n l b, ((op i n).run l).1 = .ok b → b.length ≤ n)
    (hone : ∀ i n l, n ≤ BOUNCE → T i l (userRange (ubuf + UInt64.ofNat i) n)
      ((readPiece io op ubuf i n).run l).1 ((readPiece io op ubuf i n).run l).2) :
    T 0 (bounced io l) (userRange ubuf len.toNat) ((doRead io ops flags ubuf len off).run l).1
      ((doRead io ops flags ubuf len off).run l).2 := by
  rw [run_doRead, hread, hof]
  exact pieces_transfer (funext (readTurn_eq io op ubuf len.toNat)) (readPiece_le io hop) hT
    (fun i n l _ hn => hone i n l hn) (bounced io l)

/-- A write is a transfer if each chunk of it is, and a refusal. -/
theorem doWrite_transfers {T : ℕ → Live σ → List UInt64 → Except Errno ℕ → Live σ → Prop} (hT : Piecewise T)
    (hin : ∀ a n y b, (io.copyIn a n y).1 = some b → b.length ≤ n) {len : ℤ} {l : Live σ}
    (hrefuse : ∀ e, T 0 (bounced io l) (userRange ubuf len.toNat) (.error e) (bounced io l))
    (hop : ∀ op, writeOf ops off = some op → ∀ i b l k, ((op i b).run l).1 = .ok k → k ≤ b.length)
    (hone : ∀ op, writeOf ops off = some op → ∀ i n l, n ≤ BOUNCE → T i l (userRange (ubuf + UInt64.ofNat i) n)
      ((writePiece io op ubuf i n).run l).1 ((writePiece io op ubuf i n).run l).2) :
    T 0 (bounced io l) (userRange ubuf len.toNat) ((doWrite io ops flags ubuf len off).run l).1
      ((doWrite io ops flags ubuf len off).run l).2 := by
  rw [run_doWrite]
  cases ioRefused O_RDONLY flags (io.bounce l.host).1 len with
  | some e => exact hrefuse e
  | none =>
      dsimp only
      cases hof : writeOf ops off with
      | none => exact hrefuse .ESPIPE
      | some op =>
          exact pieces_transfer (funext (writeTurn_eq io op ubuf len.toNat)) (writePiece_le io hin (hop op hof)) hT
            (fun i n l _ hn => hone op hof i n l hn) (bounced io l)

end Wholes

theorem run_liftExcept {α : Type} (r : Except Errno α) (l : Live σ) :
    (liftM r : Call Errno (Live σ) α).run l = (r, l) := by
  cases r <;> rfl

theorem run_sysReadvWritev (io : FileIo η σ) (alloc : StateM σ Bool) (one : UInt64 → ℤ → Call Errno (Live σ) ℕ)
    (uiov : UInt64) (cnt : ℤ) (l : Live σ) : (sysReadvWritev io alloc one uiov cnt).run l =
      if cnt < 0 ∨ 1024 < cnt then (.error .EINVAL, l)
      else match alloc l.host with
        | (false, y) => (.error .ENOMEM, { l with host := y })
        | (true, y) => match io.copyIn uiov (cnt.toNat * 16) y with
          | (none, z) => (.error .EFAULT, { l with host := z })
          | (some b, z) => (vectorLoop one 0 (vectorsOf b)).run { l with host := z } := by
  rw [sysReadvWritev]
  split_ifs with hcnt
  · rfl
  rw [run_bind, run_outside]
  dsimp only
  cases alloc l.host with
  | mk ok y =>
      cases ok with
      | false => rfl
      | true =>
          dsimp only
          rw [if_neg (by decide), run_bind, run_outside]
          dsimp only
          cases io.copyIn uiov (cnt.toNat * 16) y with
          | mk b z => cases b <;> rfl

section Vectors

variable {one : UInt64 → ℤ → Call Errno (Live σ) ℕ}

theorem vectorLoop_empty {v : Iovec} (h0 : v.len = 0) (vs : List Iovec) (total : ℕ) :
    vectorLoop one total (v :: vs) = vectorLoop one total vs := by
  rw [vectorLoop, if_pos h0]

theorem run_vectorLoop {v : Iovec} (h0 : v.len ≠ 0) (hmax : v.len ≤ 0x7fffffff) (vs : List Iovec)
    (total : ℕ) (l : Live σ) : (vectorLoop one total (v :: vs)).run l =
      match (one v.base v.len).run l with
      | (.error e, m) => (doneOr total e, m)
      | (.ok n, m) =>
        if n < v.len then (.ok (total + n), m) else (vectorLoop one (total + n) vs).run m := by
  rw [vectorLoop, if_neg h0, if_neg (by omega), run_bind, run_attempt]
  cases (one v.base v.len).run l with
  | mk r m =>
      cases r with
      | error e => exact run_liftExcept _ _
      | ok n =>
          dsimp only
          split_ifs <;> rfl

variable (hle : ∀ base (len : ℕ) l k, ((one base len).run l).1 = .ok k → k ≤ len)

include hle

/-- The loop over vectors is a transfer if each vector is. -/
theorem vectorLoop_transfers {T : Live σ → List UInt64 → Except Errno ℕ → Live σ → Prop}
    (hT : Piecewise fun _ => T) {vs : List Iovec}
    (hone : ∀ v ∈ vs, v.len ≠ 0 → v.len ≤ 0x7fffffff → ∀ l,
      T l (userRange v.base v.len) ((one v.base v.len).run l).1 ((one v.base v.len).run l).2)
    (hlong : ∀ v ∈ vs, 0x7fffffff < v.len → ∀ l, T l (userRange v.base v.len) (.error .EINVAL) l)
    (total : ℕ) (l : Live σ) : ∃ r, ((vectorLoop one total vs).run l).1 = after total r ∧
      T l (places vs) r ((vectorLoop one total vs).run l).2 := by
  induction vs generalizing total l with
  | nil => exact ⟨.ok 0, rfl, hT.done 0 l⟩
  | cons v vs ih =>
      have hones := fun w hw => hone w (List.mem_cons_of_mem v hw)
      have hlongs := fun w hw => hlong w (List.mem_cons_of_mem v hw)
      by_cases h0 : v.len = 0
      · rw [vectorLoop_empty h0, places_empty h0]
        exact ih hones hlongs total l
      have hplaces : places (v :: vs) = userRange v.base v.len ++ places vs := List.flatMap_cons
      rw [hplaces]
      by_cases hmax : 0x7fffffff < v.len
      · rw [vectorLoop, if_neg h0, if_pos hmax, run_liftExcept]
        exact ⟨.error .EINVAL, rfl, hT.failed (i := 0) (places vs) (hlong v List.mem_cons_self hmax l)⟩
      rw [run_vectorLoop h0 (by omega)]
      have hvector := hone v List.mem_cons_self h0 (by omega) l
      have hbound := hle v.base v.len l
      cases hrun : (one v.base v.len).run l with
      | mk r m =>
          rw [hrun] at hvector hbound
          cases r with
          | error e => exact ⟨.error e, rfl, hT.failed (i := 0) (places vs) hvector⟩
          | ok k =>
              dsimp only
              by_cases hk : k < v.len
              · rw [if_pos hk]
                exact ⟨.ok k, rfl, hT.short (i := 0) _ hvector (by rwa [length_userRange])⟩
              · rw [if_neg hk]
                obtain rfl : k = v.len := Nat.le_antisymm (hbound k rfl) (by omega)
                obtain ⟨r, hret, hnext⟩ := ih hones hlongs (total + v.len) m
                refine ⟨after v.len r, ?_, ?_⟩
                · rw [after_after]
                  exact hret
                · have hfull : T l (userRange v.base v.len) (.ok (userRange v.base v.len).length) m := by
                    rwa [length_userRange]
                  have honward := hT.onward (i := 0) hfull hnext
                  rwa [length_userRange] at honward

end Vectors

end SysvNt.FileOps
