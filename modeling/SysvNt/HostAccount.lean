import SysvNt.CountedStore
import SysvNt.HostObjects
import SysvNt.SetTimes

/-!
# The handles of NT

Most calls of the host store open an object of NT for themselves and close it again, whatever NT answers in
between; an open hands its object back, unless the stat that goes with it fails. So the handles that are open in
NT are those that the store has handed out. The names and sizes of objects are set by NT, which is a parameter.
-/

namespace SysvNt

open FallibleCalls Ownership

variable {η σ α ε : Type}

/-- The calls of NT that name objects and move their bytes. A read at the end of the file has no bytes to give, and
a write without a place is one at the end. -/
structure NtNames (η σ : Type) where
  openRoot : (path : List UInt16) → Call NtStatus σ η
  setDispositionEx : η → Call NtStatus σ Unit
  setRename : η → (replace : Bool) → (root : η) → (name : List UInt16) → Call NtStatus σ Unit
  setLink : η → (root : η) → (name : List UInt16) → Call NtStatus σ Unit
  setEndOfFile : η → (size : UInt64) → Call NtStatus σ Unit
  flushBuffers : η → Call NtStatus σ Unit
  readFile : η → (len : ℕ) → (off : UInt64) → Call NtStatus σ (Option Bytes)
  writeFile : η → Bytes → Option UInt64 → Call NtStatus σ ℕ

structure NtKernel (η σ : Type) where
  files : Nt η σ
  objects : NtObjects η σ
  times : NtTimes η σ
  names : NtNames η σ
  alloc : StateM σ Bool
  sameClose : objects.close = files.close

def wideName (name : Bytes) : Except Errno (List UInt16) :=
  match nameToWide name 255 with
  | none => .error .ENAMETOOLONG
  | some w => if w.length = 0 then .error .ENOENT else .ok w

namespace NtKernel

variable (K : NtKernel η σ)

def hfsOpenRoot (path : List UInt16) : Call Errno σ η := withErrno (K.names.openRoot path)

/-- Deletion at once, or where the file system does not know it when the last handle is closed. -/
def setDeleted (h : η) : Call NtStatus σ Unit := ExceptT.mk fun x =>
  match (K.names.setDispositionEx h).run x with
  | (.ok u, y) => (.ok u, y)
  | (.error s, y) =>
    if s = .invalidParameter ∨ s = .notSupported ∨ s = .invalidInfoClass then (K.objects.setDisposition h).run y
    else (.error s, y)

def hfsUnlink (dir : η) (name : Bytes) (isDir : Bool) : Call Errno σ Unit := do
  let w ← liftM (wideName name)
  let h ← withErrno (K.files.createFile dir w (DELETE ||| FILE_READ_ATTRIBUTES) .open
    { directoryFile := isDir, nonDirectoryFile := !isDir, openReparsePoint := true })
  closing (K.files.close h) (withErrno (K.setDeleted h))

def hfsRename (olddir : η) (oldname : Bytes) (newdir : η) (newname : Bytes) (noreplace : Bool) :
    Call Errno σ Unit := do
  let w ← liftM (wideName oldname)
  let nw ← liftM (wideName newname)
  let h ← withErrno (K.files.createFile olddir w (DELETE ||| FILE_READ_ATTRIBUTES) .open
    { directoryFile := false, nonDirectoryFile := false, openReparsePoint := true })
  closing (K.files.close h) (withErrno (K.names.setRename h (!noreplace) newdir nw))

def hfsLink (h dir : η) (name : Bytes) : Call Errno σ Unit := do
  let nw ← liftM (wideName name)
  withErrno (K.names.setLink h dir nw)

def hfsTruncate (h : η) (size : UInt64) : Call Errno σ Unit := withErrno (K.names.setEndOfFile h size)

def hfsFsync (h : η) : Call Errno σ Unit := withErrno (K.names.flushBuffers h)

def hfsPread (h : η) (len : ℕ) (off : UInt64) : Call Errno σ Bytes := do
  let b ← withErrno (K.names.readFile h (min len 0x7fffffff) off)
  pure (b.getD [])

def hfsPwrite (h : η) (b : Bytes) (off : UInt64) (append : Bool) : Call Errno σ ℕ :=
  withErrno (K.names.writeFile h (b.take 0x7fffffff) (if append then none else some off))

def store : HostStore η σ where
  openat := hfsOpenat K.files
  reopen := hfsReopen K.files
  stat := statHandle K.files
  readlink := hfsReadlink K.objects
  mkdir := hfsMkdir K.objects
  mknod := hfsMknod K.objects
  symlink := hfsSymlink K.objects
  link := K.hfsLink
  unlink := K.hfsUnlink
  rename := K.hfsRename
  setLx := hfsSetLx K.objects
  setTimes := hfsSetTimes K.times
  truncate := K.hfsTruncate
  close := K.files.close
  now := hfsNow K.times
  alloc := K.alloc

end NtKernel

def usingHandles (ns : List ℕ) (m : Call ε σ α) : Call ε (σ × Ledger) α :=
  ExceptT.mk fun s => ((m.run s.1).1, (m.run s.1).2, s.2.useAll ns)

def givingHandle (ns : List ℕ) (m : Call ε σ η) : Call ε (σ × Ledger) (η × ℕ) :=
  ExceptT.mk fun s => match m.run s.1 with
    | (.ok h, y) => (.ok (h, (s.2.useAll ns).next), y, (s.2.useAll ns).give)
    | (.error e, y) => (.error e, y, s.2.useAll ns)

def closingHandle (close : η → StateM σ Unit) (h : η × ℕ) : StateM (σ × Ledger) Unit :=
  fun s => ((close h.1 s.1).1, (close h.1 s.1).2, s.2.handBack h.2)

def Nt.counted (nt : Nt η σ) : Nt (η × ℕ) (σ × Ledger) where
  createFile d w a disp o := givingHandle [d.2] (nt.createFile d.1 w a disp o)
  queryStat h := usingHandles [h.2] (nt.queryStat h.1)
  close := closingHandle nt.close

def NtObjects.counted (nt : NtObjects η σ) : NtObjects (η × ℕ) (σ × Ledger) where
  create d w a o eas := givingHandle [d.2] (nt.create d.1 w a o eas)
  setReparse h rp := usingHandles [h.2] (nt.setReparse h.1 rp)
  getReparse h := usingHandles [h.2] (nt.getReparse h.1)
  setDisposition h := usingHandles [h.2] (nt.setDisposition h.1)
  setCaseSensitive h := usingHandles [h.2] (nt.setCaseSensitive h.1)
  setEa h eas := usingHandles [h.2] (nt.setEa h.1 eas)
  close := closingHandle nt.close

def NtTimes.counted (nt : NtTimes η σ) : NtTimes (η × ℕ) (σ × Ledger) where
  querySystemTime := offLedger nt.querySystemTime
  setBasicInformation h b := usingHandles [h.2] (nt.setBasicInformation h.1 b)

def NtNames.counted (nt : NtNames η σ) : NtNames (η × ℕ) (σ × Ledger) where
  openRoot path := givingHandle [] (nt.openRoot path)
  setDispositionEx h := usingHandles [h.2] (nt.setDispositionEx h.1)
  setRename h replace root name := usingHandles [h.2, root.2] (nt.setRename h.1 replace root.1 name)
  setLink h root name := usingHandles [h.2, root.2] (nt.setLink h.1 root.1 name)
  setEndOfFile h size := usingHandles [h.2] (nt.setEndOfFile h.1 size)
  flushBuffers h := usingHandles [h.2] (nt.flushBuffers h.1)
  readFile h len off := usingHandles [h.2] (nt.readFile h.1 len off)
  writeFile h b off := usingHandles [h.2] (nt.writeFile h.1 b off)

def NtKernel.counted (K : NtKernel η σ) : NtKernel (η × ℕ) (σ × Ledger) where
  files := K.files.counted
  objects := K.objects.counted
  times := K.times.counted
  names := K.names.counted
  alloc := offLedger K.alloc
  sameClose := by rw [NtObjects.counted, Nt.counted, K.sameClose]

section Account

variable {ns : List ℕ}

theorem usingHandles_keeps {hs : List ℕ} (hhs : ∀ h ∈ hs, h ∈ ns) (m : Call ε σ α) :
    Keeps (Holds ns) (usingHandles hs m) (fun _ => True) := by
  intro s hs
  refine ⟨?_, fun _ _ => trivial⟩
  change Owns ns (s.2.useAll _)
  rw [Owns.useAll hs hhs]
  exact hs

theorem givingHandle_ends {hs : List ℕ} (hhs : ∀ h ∈ hs, h ∈ ns) (m : Call ε σ η) :
    Ends (Holds ns) (givingHandle hs m) (fun h => Holds (h.2 :: ns)) (Holds ns) := by
  intro s hs
  have huse := Owns.useAll hs hhs
  rw [givingHandle, ExceptT.run_mk]
  cases m.run s.1 with
  | mk r y =>
      rw [huse]
      cases r with
      | ok h =>
          refine ⟨fun a z h => ?_, fun e z h => by cases h⟩
          cases h
          exact Owns.give hs
      | error e =>
          refine ⟨fun a z h => (by cases h), fun e z h => ?_⟩
          cases h
          exact hs

theorem closingHandle_holds (close : η → StateM σ Unit) (h : η × ℕ) (s : σ × Ledger) (hs : Holds (h.2 :: ns) s) :
    Holds ns (closingHandle close h s).2 := Owns.handBack hs

theorem withErrno_ends {m : Call NtStatus σ α} {P E : σ → Prop} {Q : α → σ → Prop} (h : Ends P m Q E) :
    Ends P (withErrno m) Q E := by
  intro x hx
  obtain ⟨hok, herr⟩ := h x hx
  refine ⟨fun a y hy => hok a y (of_run_withErrno hy), fun e y hy => ?_⟩
  rw [run_withErrno] at hy
  cases hm : m.run x with
  | mk r z =>
      rw [hm] at hy
      cases r with
      | ok a => cases hy
      | error s =>
          cases hy
          exact herr s z hm

/-- A call on handles that are open. -/
theorem uses {hs : List ℕ} (hhs : ∀ h ∈ hs, h ∈ ns) (m : Call NtStatus σ α) :
    Keeps (Holds ns) (withErrno (usingHandles hs m)) (fun _ => True) :=
  withErrno_keeps fun x hx => (usingHandles_keeps hhs m x hx).1

theorem uses_one {n : ℕ} (hn : n ∈ ns) (m : Call NtStatus σ α) :
    Keeps (Holds ns) (withErrno (usingHandles [n] m)) (fun _ => True) := uses (by simpa using hn) m

/-- A call that gives a handle beside those that are open. -/
theorem gives_one {n : ℕ} (hn : n ∈ ns) (m : Call NtStatus σ η) :
    Ends (Holds ns) (withErrno (givingHandle [n] m)) (fun h => Holds (h.2 :: ns)) (Holds ns) :=
  withErrno_ends (givingHandle_ends (by simpa using hn) m)

/-- What is done with a handle before it is closed. -/
theorem closed_after {close : η → StateM σ Unit} {h : η × ℕ} {m : Call Errno (σ × Ledger) α} {R : α → Prop}
    (hm : Keeps (Holds (h.2 :: ns)) m R) :
    Ends (Holds (h.2 :: ns)) (closing (closingHandle close h) m) (fun a x => R a ∧ Holds ns x) (Holds ns) :=
  hm.ends.closing (fun _ x hx => ⟨hx.1, closingHandle_holds close h x hx.2⟩) (closingHandle_holds close h)

/-- A call whose failure is looked at. -/
theorem attempted {m : Call Errno (σ × Ledger) α} {R : α → Prop} {E : σ × Ledger → Prop} (hm : Keeps (Holds ns) m R) :
    Ends (Holds ns) (attempt m) (fun _ => Holds ns) E :=
  hm.ends.attempt.mono (fun _ hx => hx) (fun _ _ hx => hx.elim (fun ⟨_, _, h⟩ => h.2) fun h => h.2) fun _ hx => hx

theorem wideName_bind {Q : α → Prop} {f : List UInt16 → Call Errno (σ × Ledger) α} {name : Bytes}
    (hf : ∀ w, Keeps (Holds ns) (f w) Q) : Keeps (Holds ns) (liftM (wideName name) >>= f) Q :=
  (Keeps.liftExcept _).bind fun w _ => hf w

section Opening

variable {nt : Nt η σ}

theorem withStat_gives (h : η × ℕ) (reparse : Bool) :
    Ends (Holds (h.2 :: ns)) (withStat nt.counted h reparse) (fun o => Holds (o.h.2 :: ns)) (Holds ns) := by
  have hstat : Keeps (Holds (h.2 :: ns)) (statHandle nt.counted h) (fun _ => True) :=
    (uses_one List.mem_cons_self _).bind fun _ _ => Keeps.pure trivial
  rw [withStat]
  refine (attempted hstat).bind fun r => ?_
  cases r with
  | ok st => exact Ends.pure fun _ hx => hx
  | error e => exact Ends.closing (Ends.throw fun _ hx => hx) (fun _ _ hx => hx) (closingHandle_holds nt.close h)

theorem openFresh_gives (h : η × ℕ) (wantStat : Bool) :
    Ends (Holds (h.2 :: ns)) (openFresh nt.counted h wantStat) (fun o => Holds (o.h.2 :: ns)) (Holds ns) := by
  rw [openFresh]
  split_ifs
  · exact withStat_gives h false
  · exact Ends.pure fun _ hx => hx

theorem openReparse_gives {d : η × ℕ} (hd : d.2 ∈ ns) (w : List UInt16) (flags : UInt32) :
    Ends (Holds ns) (openReparse nt.counted d w flags) (fun o => Holds (o.h.2 :: ns)) (Holds ns) := by
  rw [openReparse]
  exact (gives_one hd _).bind fun h => withStat_gives h true

theorem hfsReopen_gives {h : η × ℕ} (hh : h.2 ∈ ns) (flags : UInt32) (wantStat : Bool) :
    Ends (Holds ns) (hfsReopen nt.counted h flags wantStat) (fun o => Holds (o.h.2 :: ns)) (Holds ns) := by
  rw [hfsReopen]
  exact (gives_one hh _).bind fun nh => openFresh_gives nh wantStat

/-- An open hands out one handle where it succeeds and none where it fails, on each of its ways. -/
theorem hfsOpenat_gives {d : η × ℕ} (hd : d.2 ∈ ns) (name : Bytes) (flags mode uid gid : UInt32) (wantStat : Bool) :
    Ends (Holds ns) (hfsOpenat nt.counted d name flags mode uid gid wantStat) (fun o => Holds (o.h.2 :: ns))
      (Holds ns) := by
  cases hw : nameToWide name 255 with
  | none =>
      rw [hfsOpenat, hw]
      exact Ends.throw fun _ hx => hx
  | some w =>
      by_cases hlen : w.length = 0
      · rw [hfsOpenat, hw]
        dsimp only
        rw [if_pos hlen]
        exact Ends.throw fun _ hx => hx
      intro x hx
      let access := accessOf flags
      let disposition := dispositionOf flags mode uid gid
      have hmem : ∀ n ∈ [d.2], n ∈ ns := by simpa using hd
      have hcall := givingHandle_ends hmem (nt.createFile d.1 w access disposition (optionsOf flags)) x hx
      have hcreate : nt.counted.createFile d w access disposition (optionsOf flags) =
          givingHandle [d.2] (nt.createFile d.1 w access disposition (optionsOf flags)) := rfl
      rw [run_hfsOpenat nt.counted hw hlen, hcreate]
      cases hrun : (givingHandle [d.2] (nt.createFile d.1 w access disposition (optionsOf flags))).run x with
      | mk r y =>
          rw [hrun] at hcall
          cases r with
          | ok h => exact openFresh_gives h wantStat y (hcall.1 h y rfl)
          | error s =>
              have hy := hcall.2 s y rfl
              dsimp only
              split_ifs
              · exact openReparse_gives hd w flags y hy
              · exact Ends.throw (fun _ h => h) y hy

end Opening

section Objects

variable {nt : NtObjects η σ}

theorem stampReparse_ends (h : η × ℕ) (rp : Reparse) :
    Ends (Holds (h.2 :: ns)) (stampReparse nt.counted h rp) (fun _ x => True ∧ Holds ns x) (Holds ns) := by
  have huse {β : Type} (m : Call NtStatus σ β) :
      Keeps (Holds (h.2 :: ns)) (withErrno (usingHandles [h.2] m)) (fun _ => True) := uses_one List.mem_cons_self m
  have hset := huse (nt.setReparse h.1 rp)
  rw [stampReparse]
  refine (attempted hset).bind fun r => ?_
  cases r with
  | ok _ => exact closed_after (Keeps.pure trivial)
  | error e => exact (attempted (huse (nt.setDisposition h.1))).bind fun _ => closed_after Keeps.throw

/-- An object that is made for the call. -/
theorem made_keeps {n : ℕ} (hn : n ∈ ns) {m : Call NtStatus σ η} {f : η × ℕ → Call Errno (σ × Ledger) α}
    (hf : ∀ h, Ends (Holds (h.2 :: ns)) (f h) (fun _ x => True ∧ Holds ns x) (Holds ns)) :
    Keeps (Holds ns) (withErrno (givingHandle [n] m) >>= f) (fun _ => True) :=
  Ends.keeps ((gives_one hn m).bind hf)

theorem makeReparse_keeps {d : η × ℕ} (hd : d.2 ∈ ns) (name : Bytes) (mode uid gid major minor : UInt32)
    (rp : Reparse) :
    Keeps (Holds ns) (makeReparse nt.counted d name mode uid gid major minor rp) (fun _ => True) := by
  rw [makeReparse]
  cases nameToWide name 255 with
  | none => exact Keeps.throw
  | some w =>
      by_cases hlen : w.length = 0
      · dsimp only
        rw [if_pos hlen]
        exact Keeps.throw
      · dsimp only
        rw [if_neg hlen]
        exact made_keeps hd fun h => stampReparse_ends h rp

theorem hfsMkdir_keeps {d : η × ℕ} (hd : d.2 ∈ ns) (name : Bytes) (mode uid gid : UInt32) (caseSensitive : Bool) :
    Keeps (Holds ns) (hfsMkdir nt.counted d name mode uid gid caseSensitive) (fun _ => True) := by
  rw [hfsMkdir]
  cases nameToWide name 255 with
  | none => exact Keeps.throw
  | some w =>
      dsimp only
      split_ifs
      · exact Keeps.throw
      · refine made_keeps hd fun h => (attempted (uses_one List.mem_cons_self _)).bind fun _ => ?_
        exact closed_after (Keeps.pure trivial)
      · refine made_keeps hd fun h => Ends.bind (Q := fun _ => Holds (h.2 :: ns)) (Ends.pure fun _ hx => hx) fun _ => ?_
        exact closed_after (Keeps.pure trivial)

theorem hfsSymlink_keeps {d : η × ℕ} (hd : d.2 ∈ ns) (name target : Bytes) (uid gid : UInt32) :
    Keeps (Holds ns) (hfsSymlink nt.counted d name target uid gid) (fun _ => True) := by
  rw [hfsSymlink]
  split_ifs
  · exact Keeps.throw
  · exact makeReparse_keeps hd name _ uid gid 0 0 _

theorem hfsMknod_keeps {d : η × ℕ} (hd : d.2 ∈ ns) (name : Bytes) (kind : HfsKind)
    (mode uid gid major minor : UInt32) :
    Keeps (Holds ns) (hfsMknod nt.counted d name kind mode uid gid major minor) (fun _ => True) := by
  rw [hfsMknod]
  cases specialTag kind with
  | none => exact Keeps.throw
  | some t => exact makeReparse_keeps hd name _ uid gid major minor _

theorem hfsSetLx_keeps {h : η × ℕ} (hh : h.2 ∈ ns) (which uid gid mode major minor : UInt32) :
    Keeps (Holds ns) (hfsSetLx nt.counted h which uid gid mode major minor) (fun _ => True) := by
  rw [hfsSetLx]
  split_ifs
  · exact Keeps.throw
  · exact uses_one hh _

end Objects

theorem hfsSetTimes_keeps {nt : NtTimes η σ} {h : η × ℕ} (hh : h.2 ∈ ns) (atime mtime : Int64) :
    Keeps (Holds ns) (hfsSetTimes nt.counted h atime mtime) (fun _ => True) := by
  rw [hfsSetTimes]
  refine Keeps.bind (Q := fun _ => True) (Keeps.lift fun x hx => ?_) fun now _ => ?_
  · split_ifs
    · exact hx
    · exact hx
  · dsimp only
    split_ifs
    · exact Keeps.pure trivial
    · exact uses_one hh _

section Names

variable {K : NtKernel η σ}

theorem setDeleted_keeps {h : η × ℕ} (hh : h.2 ∈ ns) (x : σ × Ledger) (hx : Holds ns x) :
    Holds ns ((K.counted.setDeleted h).run x).2 := by
  have hmem : ∀ n ∈ [h.2], n ∈ ns := by simpa using hh
  have hfirst := (usingHandles_keeps hmem (K.names.setDispositionEx h.1) x hx).1
  have hcall : K.counted.names.setDispositionEx h = usingHandles [h.2] (K.names.setDispositionEx h.1) := rfl
  rw [NtKernel.setDeleted, ExceptT.run_mk, hcall]
  cases hrun : (usingHandles [h.2] (K.names.setDispositionEx h.1)).run x with
  | mk r y =>
      rw [hrun] at hfirst
      cases r with
      | ok u => exact hfirst
      | error s =>
          dsimp only
          split_ifs
          · exact (usingHandles_keeps hmem (K.objects.setDisposition h.1) y hfirst).1
          · exact hfirst

theorem hfsUnlink_keeps {d : η × ℕ} (hd : d.2 ∈ ns) (name : Bytes) (isDir : Bool) :
    Keeps (Holds ns) (K.counted.hfsUnlink d name isDir) (fun _ => True) := by
  rw [NtKernel.hfsUnlink]
  refine wideName_bind fun w => made_keeps hd fun h => closed_after ?_
  exact withErrno_keeps (setDeleted_keeps List.mem_cons_self)

theorem hfsRename_keeps {d d' : η × ℕ} (hd : d.2 ∈ ns) (hd' : d'.2 ∈ ns) (oldname newname : Bytes)
    (noreplace : Bool) :
    Keeps (Holds ns) (K.counted.hfsRename d oldname d' newname noreplace) (fun _ => True) := by
  rw [NtKernel.hfsRename]
  refine wideName_bind fun w => wideName_bind fun nw => made_keeps hd fun h => closed_after (uses ?_ _)
  simp [hd']

theorem hfsLink_keeps {h d : η × ℕ} (hh : h.2 ∈ ns) (hd : d.2 ∈ ns) (name : Bytes) :
    Keeps (Holds ns) (K.counted.hfsLink h d name) (fun _ => True) := by
  rw [NtKernel.hfsLink]
  exact wideName_bind fun nw => uses (by simp [hh, hd]) _

theorem hfsPread_keeps {h : η × ℕ} (hh : h.2 ∈ ns) (len : ℕ) (off : UInt64) :
    Keeps (Holds ns) (K.counted.hfsPread h len off) (fun _ => True) := by
  rw [NtKernel.hfsPread]
  exact (uses_one hh _).bind fun b _ => Keeps.pure trivial

end Names

end Account

/-- A store in which a call that answers with a handle has opened that one, and every other call has opened none;
and each call may be made on the handles that are open. -/
structure HostStore.Accounts (H : HostStore (η × ℕ) (σ × Ledger)) : Prop where
  openat {ns : List ℕ} {d : η × ℕ} (hd : d.2 ∈ ns) (name : Bytes) (flags mode uid gid : UInt32) (wantStat : Bool) :
    Ends (Holds ns) (H.openat d name flags mode uid gid wantStat) (fun o => Holds (o.h.2 :: ns)) (Holds ns)
  reopen {ns : List ℕ} {h : η × ℕ} (hh : h.2 ∈ ns) (flags : UInt32) (wantStat : Bool) :
    Ends (Holds ns) (H.reopen h flags wantStat) (fun o => Holds (o.h.2 :: ns)) (Holds ns)
  stat {ns : List ℕ} {h : η × ℕ} (hh : h.2 ∈ ns) : Keeps (Holds ns) (H.stat h) fun _ => True
  readlink {ns : List ℕ} {h : η × ℕ} (hh : h.2 ∈ ns) : Keeps (Holds ns) (H.readlink h) fun _ => True
  mkdir {ns : List ℕ} {d : η × ℕ} (hd : d.2 ∈ ns) (name : Bytes) (mode uid gid : UInt32) (caseSensitive : Bool) :
    Keeps (Holds ns) (H.mkdir d name mode uid gid caseSensitive) fun _ => True
  mknod {ns : List ℕ} {d : η × ℕ} (hd : d.2 ∈ ns) (name : Bytes) (kind : HfsKind)
    (mode uid gid major minor : UInt32) :
    Keeps (Holds ns) (H.mknod d name kind mode uid gid major minor) fun _ => True
  symlink {ns : List ℕ} {d : η × ℕ} (hd : d.2 ∈ ns) (name target : Bytes) (uid gid : UInt32) :
    Keeps (Holds ns) (H.symlink d name target uid gid) fun _ => True
  link {ns : List ℕ} {h d : η × ℕ} (hh : h.2 ∈ ns) (hd : d.2 ∈ ns) (name : Bytes) :
    Keeps (Holds ns) (H.link h d name) fun _ => True
  unlink {ns : List ℕ} {d : η × ℕ} (hd : d.2 ∈ ns) (name : Bytes) (rmdir : Bool) :
    Keeps (Holds ns) (H.unlink d name rmdir) fun _ => True
  rename {ns : List ℕ} {d d' : η × ℕ} (hd : d.2 ∈ ns) (hd' : d'.2 ∈ ns) (name name' : Bytes) (noreplace : Bool) :
    Keeps (Holds ns) (H.rename d name d' name' noreplace) fun _ => True
  setLx {ns : List ℕ} {h : η × ℕ} (hh : h.2 ∈ ns) (which uid gid mode major minor : UInt32) :
    Keeps (Holds ns) (H.setLx h which uid gid mode major minor) fun _ => True
  setTimes {ns : List ℕ} {h : η × ℕ} (hh : h.2 ∈ ns) (atime mtime : Int64) :
    Keeps (Holds ns) (H.setTimes h atime mtime) fun _ => True
  truncate {ns : List ℕ} {h : η × ℕ} (hh : h.2 ∈ ns) (size : UInt64) :
    Keeps (Holds ns) (H.truncate h size) fun _ => True
  close {ns : List ℕ} (h : η × ℕ) (x : σ × Ledger) (hx : Holds (h.2 :: ns) x) : Holds ns (H.close h x).2
  now {ns : List ℕ} (x : σ × Ledger) (hx : Holds ns x) : Holds ns (H.now x).2
  alloc {ns : List ℕ} (x : σ × Ledger) (hx : Holds ns x) : Holds ns (H.alloc x).2

/-- The store on NT accounts for the handles of NT. -/
theorem NtKernel.store_accounts (K : NtKernel η σ) : K.counted.store.Accounts where
  openat := hfsOpenat_gives
  reopen := hfsReopen_gives
  stat hh := (uses_one hh _).bind fun _ _ => Keeps.pure trivial
  readlink hh := hfsReadlink_keeps K.counted.objects fun x hx => (usingHandles_keeps (by simpa using hh) _ x hx).1
  mkdir := hfsMkdir_keeps
  mknod := hfsMknod_keeps
  symlink := hfsSymlink_keeps
  link := hfsLink_keeps
  unlink := hfsUnlink_keeps
  rename hd hd' name name' := hfsRename_keeps hd hd' name name'
  setLx := hfsSetLx_keeps
  setTimes := hfsSetTimes_keeps
  truncate hh _ := uses_one hh _
  close := closingHandle_holds K.files.close
  now _ hx := hx
  alloc _ hx := hx

/-- A call of the host store; handles go by their place among those that the caller has. -/
inductive StoreCall (σ : Type) where
  | openRoot (path : List UInt16)
  | openat (dir : ℕ) (name : Bytes) (flags mode uid gid : UInt32) (wantStat : Bool)
  | reopen (i : ℕ) (flags : UInt32) (wantStat : Bool)
  | stat (i : ℕ)
  | readlink (i : ℕ)
  | mkdir (dir : ℕ) (name : Bytes) (mode uid gid : UInt32) (caseSensitive : Bool)
  | mknod (dir : ℕ) (name : Bytes) (kind : HfsKind) (mode uid gid major minor : UInt32)
  | symlink (dir : ℕ) (name target : Bytes) (uid gid : UInt32)
  | link (i dir : ℕ) (name : Bytes)
  | unlink (dir : ℕ) (name : Bytes) (rmdir : Bool)
  | rename (olddir : ℕ) (oldname : Bytes) (newdir : ℕ) (newname : Bytes) (noreplace : Bool)
  | setLx (i : ℕ) (which uid gid mode major minor : UInt32)
  | setTimes (i : ℕ) (atime mtime : Int64)
  | truncate (i : ℕ) (size : UInt64)
  | fsync (i : ℕ)
  | pread (i : ℕ) (len : ℕ) (off : UInt64)
  | pwrite (i : ℕ) (b : Bytes) (off : UInt64) (append : Bool)
  | close (i : ℕ)
  | outside (change : σ → σ)

structure Client (η σ : Type) where
  held : List (η × ℕ)
  state : σ × Ledger

namespace Client

def start (x : σ) : Client η σ := ⟨[], x, ⟨[], 0, false⟩⟩

variable (s : Client η σ)

def ask (m : Call Errno (σ × Ledger) α) : Client η σ := { s with state := (m.run s.state).2 }

def taking (m : Call Errno (σ × Ledger) α) (handle : α → η × ℕ) : Client η σ :=
  match m.run s.state with
  | (.ok a, y) => ⟨handle a :: s.held, y⟩
  | (.error _, y) => ⟨s.held, y⟩

def on (i : ℕ) (f : η × ℕ → Client η σ) : Client η σ :=
  match s.held[i]? with
  | none => s
  | some h => f h

def step (K : NtKernel (η × ℕ) (σ × Ledger)) : StoreCall σ → Client η σ
  | .openRoot path => s.taking (K.hfsOpenRoot path) id
  | .openat i name flags mode uid gid wantStat =>
    s.on i fun d => s.taking (K.store.openat d name flags mode uid gid wantStat) Opened.h
  | .reopen i flags wantStat => s.on i fun h => s.taking (K.store.reopen h flags wantStat) Opened.h
  | .stat i => s.on i fun h => s.ask (K.store.stat h)
  | .readlink i => s.on i fun h => s.ask (K.store.readlink h)
  | .mkdir i name mode uid gid cs => s.on i fun d => s.ask (K.store.mkdir d name mode uid gid cs)
  | .mknod i name kind mode uid gid major minor =>
    s.on i fun d => s.ask (K.store.mknod d name kind mode uid gid major minor)
  | .symlink i name target uid gid => s.on i fun d => s.ask (K.store.symlink d name target uid gid)
  | .link i j name => s.on i fun h => s.on j fun d => s.ask (K.store.link h d name)
  | .unlink i name rmdir => s.on i fun d => s.ask (K.store.unlink d name rmdir)
  | .rename i name j name' noreplace =>
    s.on i fun d => s.on j fun d' => s.ask (K.store.rename d name d' name' noreplace)
  | .setLx i which uid gid mode major minor =>
    s.on i fun h => s.ask (K.store.setLx h which uid gid mode major minor)
  | .setTimes i atime mtime => s.on i fun h => s.ask (K.store.setTimes h atime mtime)
  | .truncate i size => s.on i fun h => s.ask (K.store.truncate h size)
  | .fsync i => s.on i fun h => s.ask (K.hfsFsync h)
  | .pread i len off => s.on i fun h => s.ask (K.hfsPread h len off)
  | .pwrite i b off append => s.on i fun h => s.ask (K.hfsPwrite h b off append)
  | .close i => s.on i fun h => ⟨s.held.eraseIdx i, (K.store.close h s.state).2⟩
  | .outside change => { s with state := (change s.state.1, s.state.2) }

def after (K : NtKernel (η × ℕ) (σ × Ledger)) (cs : List (StoreCall σ)) : Client η σ := cs.foldl (step · K) s

def finish (K : NtKernel (η × ℕ) (σ × Ledger)) : Client η σ :=
  ⟨[], s.held.foldl (fun y h => (K.store.close h y).2) s.state⟩

/-- The handles that the caller has are those that are open in NT, each once, and no other was used. -/
def Balanced : Prop := Holds (s.held.map Prod.snd) s.state

section Steps

variable {s}

theorem Balanced.on (hs : s.Balanced) {i : ℕ} {f : η × ℕ → Client η σ}
    (hf : ∀ h, s.held[i]? = some h → h.2 ∈ s.held.map Prod.snd → (f h).Balanced) : (s.on i f).Balanced := by
  rw [Client.on]
  cases hi : s.held[i]? with
  | none => exact hs
  | some h => exact hf h hi (List.mem_map_of_mem (List.mem_of_getElem? hi))

theorem Balanced.ask (hs : s.Balanced) {m : Call Errno (σ × Ledger) α}
    (hm : Keeps (Holds (s.held.map Prod.snd)) m fun _ => True) : (s.ask m).Balanced := (hm s.state hs).1

theorem Balanced.taking (hs : s.Balanced) {m : Call Errno (σ × Ledger) α} {handle : α → η × ℕ}
    (hm : Ends (Holds (s.held.map Prod.snd)) m (fun a => Holds ((handle a).2 :: s.held.map Prod.snd))
      (Holds (s.held.map Prod.snd))) : (s.taking m handle).Balanced := by
  obtain ⟨hok, herr⟩ := hm s.state hs
  rw [Client.taking]
  cases hrun : m.run s.state with
  | mk r y =>
      cases r with
      | ok a => exact hok a y hrun
      | error e => exact herr e y hrun

theorem step_balanced (K : NtKernel η σ) (hs : s.Balanced) (c : StoreCall σ) : (s.step K.counted c).Balanced := by
  have hK := K.store_accounts
  cases c with
  | openRoot path =>
      have hroot : Ends (Holds (s.held.map Prod.snd)) (K.counted.hfsOpenRoot path)
          (fun h => Holds (h.2 :: s.held.map Prod.snd)) (Holds (s.held.map Prod.snd)) :=
        withErrno_ends (givingHandle_ends (by simp) (K.names.openRoot path))
      exact hs.taking hroot
  | openat i name flags mode uid gid wantStat =>
      exact hs.on fun d _ hd => hs.taking (hK.openat hd name flags mode uid gid wantStat)
  | reopen i flags wantStat => exact hs.on fun h _ hh => hs.taking (hK.reopen hh flags wantStat)
  | stat i => exact hs.on fun h _ hh => hs.ask (hK.stat hh)
  | readlink i => exact hs.on fun h _ hh => hs.ask (hK.readlink hh)
  | mkdir i name mode uid gid cs => exact hs.on fun d _ hd => hs.ask (hK.mkdir hd name mode uid gid cs)
  | mknod i name kind mode uid gid major minor =>
      exact hs.on fun d _ hd => hs.ask (hK.mknod hd name kind mode uid gid major minor)
  | symlink i name target uid gid => exact hs.on fun d _ hd => hs.ask (hK.symlink hd name target uid gid)
  | link i j name => exact hs.on fun h _ hh => hs.on fun d _ hd => hs.ask (hK.link hh hd name)
  | unlink i name rmdir => exact hs.on fun d _ hd => hs.ask (hK.unlink hd name rmdir)
  | rename i name j name' noreplace =>
      exact hs.on fun d _ hd => hs.on fun d' _ hd' => hs.ask (hK.rename hd hd' name name' noreplace)
  | setLx i which uid gid mode major minor =>
      exact hs.on fun h _ hh => hs.ask (hK.setLx hh which uid gid mode major minor)
  | setTimes i atime mtime => exact hs.on fun h _ hh => hs.ask (hK.setTimes hh atime mtime)
  | truncate i size => exact hs.on fun h _ hh => hs.ask (hK.truncate hh size)
  | fsync i => exact hs.on fun h _ hh => hs.ask (uses_one hh (K.names.flushBuffers h.1))
  | pread i len off => exact hs.on fun h _ hh => hs.ask (hfsPread_keeps hh len off)
  | pwrite i b off append => exact hs.on fun h _ hh => hs.ask (uses_one hh _)
  | close i =>
      refine hs.on fun h hi _ => ?_
      obtain ⟨hlt, rfl⟩ := List.getElem?_eq_some_iff.mp hi
      refine hK.close s.held[i] s.state (hs.perm ?_)
      exact ((List.getElem_cons_eraseIdx_perm hlt).map Prod.snd).symm
  | outside change => exact hs

theorem after_balanced (K : NtKernel η σ) (hs : s.Balanced) (cs : List (StoreCall σ)) :
    (s.after K.counted cs).Balanced := by
  induction cs generalizing s with
  | nil => exact hs
  | cons c cs ih => exact ih (step_balanced K hs c)

theorem finish_holds (K : NtKernel η σ) {hs : List (η × ℕ)} {x : σ × Ledger} (hx : Holds (hs.map Prod.snd) x) :
    Holds [] (hs.foldl (fun y h => (K.counted.store.close h y).2) x) := by
  induction hs generalizing x with
  | nil => exact hx
  | cons h hs ih => exact ih (K.store_accounts.close h x hx)

end Steps

end Client

/-- Whatever NT answers, and whatever else happens to it, after any calls of the host store the handles that are
open in NT are those that the store has handed out and that were not closed since, and no other was ever used or
closed; when these are closed nothing is left open. -/
theorem nt_handles_balanced (K : NtKernel η σ) (x : σ) (cs : List (StoreCall σ)) :
    ((Client.start x : Client η σ).after K.counted cs).Balanced ∧
      (((Client.start x : Client η σ).after K.counted cs).finish K.counted).Balanced := by
  have hstart : (Client.start x : Client η σ).Balanced := ⟨.refl _, .nil, fun _ h => absurd h List.not_mem_nil, rfl⟩
  have hafter := Client.after_balanced K hstart cs
  exact ⟨hafter, Client.finish_holds K hafter⟩

end SysvNt
