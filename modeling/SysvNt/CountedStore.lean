import SysvNt.HostStore
import SysvNt.Ownership

/-!
# A host store that keeps account of its handles

`counted` is a host store that gives every handle a number when it hands it out, and keeps the
ledger of those that are open: an open that succeeds, also with a reparse point in place of what
it stands for, hands out one, an error hands out none, and a call on a handle uses it.
-/

namespace SysvNt

open FallibleCalls Ownership

variable {η σ α : Type}

def onHandles (ns : List ℕ) (m : Call Errno σ α) : Call Errno (σ × Ledger) α :=
  ExceptT.mk fun s => ((m.run s.1).1, (m.run s.1).2, s.2.useAll ns)

def Opened.numbered (o : Opened η) (n : ℕ) : Opened (η × ℕ) where
  h := (o.h, n)
  st := o.st
  reparse := o.reparse

def handingOut (n : ℕ) (m : Call Errno σ (Opened η)) : Call Errno (σ × Ledger) (Opened (η × ℕ)) :=
  ExceptT.mk fun s => match m.run s.1 with
    | (.ok o, y) => (.ok (o.numbered (s.2.use n).next), y, (s.2.use n).give)
    | (.error e, y) => (.error e, y, s.2.use n)

def offLedger (m : StateM σ α) : StateM (σ × Ledger) α := fun s => ((m s.1).1, (m s.1).2, s.2)

def HostStore.counted (H : HostStore η σ) : HostStore (η × ℕ) (σ × Ledger) where
  openat d n fl mode uid gid st := handingOut d.2 (H.openat d.1 n fl mode uid gid st)
  reopen h fl st := handingOut h.2 (H.reopen h.1 fl st)
  stat h := onHandles [h.2] (H.stat h.1)
  readlink h := onHandles [h.2] (H.readlink h.1)
  mkdir d n mode uid gid cs := onHandles [d.2] (H.mkdir d.1 n mode uid gid cs)
  mknod d n k mode uid gid ma mi := onHandles [d.2] (H.mknod d.1 n k mode uid gid ma mi)
  symlink d n t uid gid := onHandles [d.2] (H.symlink d.1 n t uid gid)
  link h d n := onHandles [h.2, d.2] (H.link h.1 d.1 n)
  unlink d n rmdir := onHandles [d.2] (H.unlink d.1 n rmdir)
  rename d n d' n' nr := onHandles [d.2, d'.2] (H.rename d.1 n d'.1 n' nr)
  setLx h w uid gid mode ma mi := onHandles [h.2] (H.setLx h.1 w uid gid mode ma mi)
  setTimes h a m := onHandles [h.2] (H.setTimes h.1 a m)
  truncate h size := onHandles [h.2] (H.truncate h.1 size)
  close h s := ((H.close h.1 s.1).1, (H.close h.1 s.1).2, s.2.handBack h.2)
  now := offLedger H.now
  alloc := offLedger H.alloc

/-- The account of a state: exactly these handles are open and none was misused. -/
def Holds (ns : List ℕ) (s : σ × Ledger) : Prop := Owns ns s.2

variable {ns ms : List ℕ} {n : ℕ}

theorem Holds.perm {s : σ × Ledger} (h : Holds ns s) (hp : ns.Perm ms) : Holds ms s := Owns.perm h hp

theorem onHandles_keeps {hs : List ℕ} (hhs : ∀ h ∈ hs, h ∈ ns) (m : Call Errno σ α) :
    Keeps (Holds ns) (onHandles hs m) (fun _ => True) := by
  intro s hs
  refine ⟨?_, fun _ _ => trivial⟩
  change Owns ns (s.2.useAll _)
  rw [Owns.useAll hs hhs]
  exact hs

theorem handingOut_ends (hn : n ∈ ns) (m : Call Errno σ (Opened η)) :
    Ends (Holds ns) (handingOut n m) (fun o => Holds (o.h.2 :: ns)) (Holds ns) := by
  intro s hs
  have huse : s.2.use n = s.2 := Owns.use hs hn
  rw [handingOut, ExceptT.run_mk]
  cases m.run s.1 with
  | mk r y =>
      rw [huse]
      cases r with
      | ok o =>
          refine ⟨fun a z h => ?_, fun e z h => by cases h⟩
          cases h
          exact Owns.give hs
      | error e =>
          refine ⟨fun a z h => (by cases h), fun e z h => ?_⟩
          cases h
          exact hs

theorem offLedger_holds (m : StateM σ α) (s : σ × Ledger) (hs : Holds ns s) :
    Holds ns (offLedger m s).2 := hs

/-- Closing the handle that is the first of those held. -/
theorem close_holds (H : HostStore η σ) (h : η × ℕ) (s : σ × Ledger) (hs : Holds (h.2 :: ns) s) :
    Holds ns (H.counted.close h s).2 := Owns.handBack hs

end SysvNt
