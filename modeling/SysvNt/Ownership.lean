import Mathlib.Data.List.Perm.Basic
import Mathlib.Tactic.Common

/-!
# Who owns what was handed out

A ledger of things handed out under fresh numbers: those that are out, and whether one was ever
used or handed back that was not. `Owns ns` says that the numbers out are exactly `ns`, each once,
and that nothing was misused; it says how handing out, using and handing back change the account.
-/

namespace SysvNt.Ownership

structure Ledger where
  held : List ℕ
  next : ℕ
  misused : Bool
  deriving DecidableEq

namespace Ledger

def use (l : Ledger) (n : ℕ) : Ledger := if n ∈ l.held then l else { l with misused := true }

def useAll (l : Ledger) (ns : List ℕ) : Ledger := ns.foldl use l

/-- Hand out something; its number is `next`. -/
def give (l : Ledger) : Ledger := { l with held := l.next :: l.held, next := l.next + 1 }

def handBack (l : Ledger) (n : ℕ) : Ledger :=
  if n ∈ l.held then { l with held := l.held.erase n } else { l with misused := true }

end Ledger

structure Owns (ns : List ℕ) (l : Ledger) : Prop where
  held : l.held.Perm ns
  nodup : ns.Nodup
  fresh : ∀ n ∈ ns, n < l.next
  proper : l.misused = false

variable {ns ms : List ℕ} {n : ℕ} {l : Ledger}

theorem Owns.perm (h : Owns ns l) (hp : ns.Perm ms) : Owns ms l where
  held := h.held.trans hp
  nodup := hp.nodup_iff.mp h.nodup
  fresh m hm := h.fresh m (hp.mem_iff.mpr hm)
  proper := h.proper

theorem Owns.use (h : Owns ns l) (hn : n ∈ ns) : l.use n = l :=
  if_pos (h.held.mem_iff.mpr hn)

theorem Owns.useAll (h : Owns ns l) (hms : ∀ m ∈ ms, m ∈ ns) : l.useAll ms = l := by
  induction ms with
  | nil => rfl
  | cons m ms ih =>
      obtain ⟨hm, hms⟩ := List.forall_mem_cons.mp hms
      rw [Ledger.useAll, List.foldl_cons, h.use hm]
      exact ih hms

theorem Owns.give (h : Owns ns l) : Owns (l.next :: ns) l.give where
  held := h.held.cons l.next
  nodup := List.nodup_cons.mpr ⟨fun hn => Nat.lt_irrefl _ (h.fresh _ hn), h.nodup⟩
  fresh m hm := by
    change m < l.next + 1
    rcases List.mem_cons.mp hm with rfl | hm
    · exact Nat.lt_succ_self _
    · exact Nat.lt_succ_of_lt (h.fresh m hm)
  proper := h.proper

theorem Owns.handBack (h : Owns (n :: ns) l) : Owns ns (l.handBack n) := by
  have hn : n ∈ l.held := h.held.mem_iff.mpr List.mem_cons_self
  have hheld : (l.held.erase n).Perm ns := by
    have := h.held.erase n
    rwa [List.erase_cons_head] at this
  rw [Ledger.handBack, if_pos hn]
  exact ⟨hheld, (List.nodup_cons.mp h.nodup).2, fun m hm => h.fresh m (List.mem_cons_of_mem _ hm),
    h.proper⟩

end SysvNt.Ownership
