import SysvNt.ActionRuns
import SysvNt.CountedStore
import SysvNt.GuardedWalk
import SysvNt.Queries

/-!
# The handles of the host are kept in balance

Over a counted host store every operation on paths is accounted for, whatever the store answers:
a failing one leaves open exactly what was open, and one that succeeds adds the handle of the
description it makes, if it makes one. So after every run of operations and closes the open
handles are the mount roots and one for each live description of an object on the host.
-/

namespace SysvNt

open FallibleCalls Ownership

variable {η σ α : Type}

def OpenFile.handles : OpenFile (η × ℕ) → List ℕ
  | .host h _ _ _ _ => [h.2]
  | .synth _ _ _ => []

def RootsHeld (T : MountTable (η × ℕ)) (ns : List ℕ) : Prop :=
  ∀ m ∈ T.mounts, ∀ root, m.type = .host root → root.2 ∈ ns

theorem RootsHeld.cons {T : MountTable (η × ℕ)} {ns : List ℕ} (h : RootsHeld T ns) (n : ℕ) :
    RootsHeld T (n :: ns) := fun m hm root hroot => List.mem_cons_of_mem _ (h m hm root hroot)

section Rules

variable {H : HostStore η σ} {ns ms : List ℕ} {P E : σ × Ledger → Prop}

/-- Close the handle held first, after a call that leaves it there. -/
theorem closing_first {h : η × ℕ} {m : Call Errno (σ × Ledger) α} {f : α → List ℕ}
    (hm : Ends P m (fun a => Holds (h.2 :: f a)) (Holds (h.2 :: ns))) :
    Ends P (closing (H.counted.close h) m) (fun a => Holds (f a)) (Holds ns) :=
  hm.closing (fun _ => close_holds H h) (close_holds H h)

/-- A failure after which the handle held first is closed. -/
theorem throw_closing {h : η × ℕ} {e : Errno} {Q : α → σ × Ledger → Prop} :
    Ends (Holds (h.2 :: ns)) (closing (H.counted.close h) (throw e : Call Errno (σ × Ledger) α)) Q
      (Holds ns) :=
  Ends.closing (Q := fun _ _ => False) (Ends.throw fun _ hx => hx) (fun _ _ hf => hf.elim)
    (close_holds H h)

/-- A call that leaves the handles as they were, the first of them then closed. -/
theorem closing_first_keeps {h : η × ℕ} {m : Call Errno (σ × Ledger) α} {Q : α → Prop}
    (hm : Keeps (Holds (h.2 :: ns)) m Q) :
    Ends (Holds (h.2 :: ns)) (closing (H.counted.close h) m) (fun a s => Q a ∧ Holds ns s) (Holds ns) :=
  hm.ends.closing (fun _ s hs => ⟨hs.1, close_holds H h s hs.2⟩) (close_holds H h)

/-- Opening below a directory that is held. -/
theorem openat_ends {d : η × ℕ} (hd : d.2 ∈ ns) (n : Bytes) (fl mode uid gid : UInt32) (st : Bool) :
    Ends (Holds ns) (H.counted.openat d n fl mode uid gid st) (fun o => Holds (o.h.2 :: ns)) (Holds ns) :=
  handingOut_ends hd _

theorem reopen_ends {h : η × ℕ} (hh : h.2 ∈ ns) (fl : UInt32) (st : Bool) :
    Ends (Holds ns) (H.counted.reopen h fl st) (fun o => Holds (o.h.2 :: ns)) (Holds ns) :=
  handingOut_ends hh _

/-- Opening below the directory held first, which is then closed. -/
theorem openat_closing {d : η × ℕ} (n : Bytes) (fl mode uid gid : UInt32) (st : Bool) :
    Ends (Holds (d.2 :: ns)) (closing (H.counted.close d) (H.counted.openat d n fl mode uid gid st))
      (fun o => Holds (o.h.2 :: ns)) (Holds ns) := by
  refine closing_first ((openat_ends List.mem_cons_self n fl mode uid gid st).mono (fun _ h => h) ?_
    fun _ h => h)
  exact fun o s hs => hs.perm (List.Perm.swap d.2 o.h.2 ns)

theorem counted_statat {d : η × ℕ} (hd : d.2 ∈ ns) (n : Bytes) :
    Keeps (Holds ns) (H.counted.statat d n) (fun _ => True) := by
  refine Ends.keeps ((openat_ends hd n _ 0 0 0 true).bind fun o => ?_)
  exact closing_first_keeps (Keeps.pure trivial)

theorem counted_stat {h : η × ℕ} (hh : h.2 ∈ ns) :
    Keeps (Holds ns) (H.counted.stat h) (fun _ => True) :=
  onHandles_keeps (by simpa using hh) _

theorem counted_readlink {h : η × ℕ} (hh : h.2 ∈ ns) :
    Keeps (Holds ns) (H.counted.readlink h) (fun _ => True) :=
  onHandles_keeps (by simpa using hh) _

/-- `open_host_dir` hands back a handle to close, or leaves things as they were. -/
theorem openChain_ends (comps : List Bytes) {cur : η × ℕ} (owned : Bool)
    (hcur : owned = false → cur.2 ∈ ns) :
    Ends (Holds (if owned then cur.2 :: ns else ns)) (openChain H.counted cur owned comps)
      (fun r => Holds (if r.2 then r.1.2 :: ns else ns)) (Holds ns) := by
  induction comps generalizing cur owned with
  | nil => exact Ends.pure fun _ hx => hx
  | cons comp comps ih =>
      rw [openChain]
      cases owned with
      | true =>
          simp only [if_true]
          split_ifs
          · exact throw_closing
          · refine (openat_closing comp _ 0 0 0 false).bind fun o => ?_
            split_ifs
            · exact throw_closing
            · exact ih true fun h => by cases h
      | false =>
          have hcur := hcur rfl
          simp only [Bool.false_eq_true, if_false]
          have hpure : ∀ s, Holds ns s → Holds ns ((pure () : StateM (σ × Ledger) Unit) s).2 := fun _ h => h
          split_ifs
          · exact Ends.closing (Q := fun _ _ => False) (Ends.throw fun _ hx => hx) (fun _ _ hf => hf.elim) hpure
          · have hopen : Ends (Holds ns) (closing (pure ())
                (H.counted.openat cur comp (HFS_O_READ ||| HFS_O_DIR) 0 0 0 false))
                (fun o => Holds (o.h.2 :: ns)) (Holds ns) :=
              (openat_ends hcur comp (HFS_O_READ ||| HFS_O_DIR) 0 0 0 false).closing (fun _ _ h => h) hpure
            refine hopen.bind fun o => ?_
            split_ifs
            · exact throw_closing
            · exact ih true fun h => by cases h

theorem openHostDir_ends {root : η × ℕ} (hroot : root.2 ∈ ns) (m : Mount (η × ℕ)) (abs : Bytes) :
    Ends (Holds ns) (openHostDir H.counted root m abs) (fun d => Holds (d.2 :: ns)) (Holds ns) := by
  rw [openHostDir]
  refine (openChain_ends (relComponents (pathRel m abs)) false fun _ => hroot).bind fun r => ?_
  cases hr : r.2 with
  | true =>
      simp only [if_true]
      exact Ends.pure fun _ hx => hx
  | false =>
      simp only [Bool.false_eq_true, if_false]
      exact (reopen_ends hroot _ false).bind fun o => Ends.pure fun _ hx => hx

end Rules

abbrev countedKernel (H : HostStore η σ) (proc : ProcView) (stack : Bytes) :
    Kernel (η × ℕ) (σ × Ledger) where
  store := H.counted
  proc := proc
  stack := stack

section Operations

variable {H : HostStore η σ} {proc : ProcView} {stack : Bytes} {fs : FsCtx (η × ℕ)} {ns : List ℕ}
  (hroots : RootsHeld fs.table ns)

include hroots

theorem counted_statAbs (abs : Bytes) :
    Keeps (Holds ns) (statAbs (countedKernel H proc stack) fs abs) (fun _ => True) := by
  rw [statAbs]
  cases htype : (fs.table.mountOf abs).type with
  | proc => exact procfsStat_keeps (offLedger_holds H.now) _
  | dev => exact devfsStat_keeps (offLedger_holds H.now) _
  | host root =>
      have hroot := hroots _ (fs.table.mountOf_best abs).mem root htype
      dsimp only
      split_ifs
      · exact (counted_stat hroot).bind fun hs _ => Keeps.pure trivial
      · refine Ends.keeps ((openHostDir_ends hroot _ _).bind fun d => ?_)
        refine (closing_first_keeps (counted_statat List.mem_cons_self _)).bind fun hs => ?_
        exact Ends.pure fun _ h => h

theorem counted_readlinkAbs (abs : Bytes) :
    Keeps (Holds ns) (readlinkAbs (countedKernel H proc stack) fs abs) (fun _ => True) := by
  rw [readlinkAbs]
  cases htype : (fs.table.mountOf abs).type with
  | proc => exact procfsReadlink_keeps _ _ _
  | dev => exact devfsReadlink_keeps _
  | host root =>
      have hroot := hroots _ (fs.table.mountOf_best abs).mem root htype
      dsimp only
      split_ifs
      · exact Keeps.throw
      · refine Ends.keeps ((openHostDir_ends hroot _ _).bind fun d => ?_)
        refine (openat_closing _ _ 0 0 0 false).bind fun o => ?_
        exact closing_first_keeps (counted_readlink List.mem_cons_self)

/-- The walk, and that the mount it ends on is one of the table's. -/
theorem counted_walkPath {base : Option Bytes} (hbase : Canonical (base.getD fs.cwd)) (p : Bytes)
    (wflags : UInt32) :
    Keeps (Holds ns) (walkPath (countedKernel H proc stack) fs base p wflags)
      (fun loc => Canonical loc.abs ∧ ∀ root, loc.m.type = .host root → root.2 ∈ ns) := by
  refine (walkPath_keeps_of (fun abs _ => counted_statAbs hroots abs)
    (fun abs _ => counted_readlinkAbs hroots abs) hbase p wflags).mono fun loc hl => ?_
  refine ⟨hl.canonical, fun root hroot => ?_⟩
  rw [hl.m_eq] at hroot
  exact hroots _ (fs.table.mountOf_best loc.abs).mem root hroot

omit hroots in
/-- A new description has the handle; without memory it is closed. -/
theorem newHostFile_ends (o : Opened (η × ℕ)) (flags : UInt32) (m : Mount (η × ℕ)) (p : Bytes) :
    Ends (Holds (o.h.2 :: ns)) (newHostFile (countedKernel H proc stack) o flags m p)
      (fun f => Holds (f.handles ++ ns)) (Holds ns) := by
  rw [newHostFile]
  refine (Ends.lift (Q := fun _ => Holds (o.h.2 :: ns)) fun s hs => offLedger_holds H.alloc s hs).bind
    fun ok => ?_
  cases ok with
  | true => exact Ends.pure fun _ hx => hx
  | false => exact throw_closing

omit hroots in
theorem openResolved_ends {root : η × ℕ} (hroot : root.2 ∈ ns) (loc : VfsLoc (η × ℕ)) (hflags : UInt32) :
    Ends (Holds ns) (openResolved (countedKernel H proc stack) root loc hflags)
      (fun o => Holds (o.h.2 :: ns)) (Holds ns) := by
  rw [openResolved]
  split_ifs
  · exact reopen_ends hroot _ true
  · exact (openHostDir_ends hroot _ _).bind fun d => openat_closing _ _ 0 0 0 true

theorem openExistingHost_ends {root : η × ℕ} (hroot : root.2 ∈ ns) (loc : VfsLoc (η × ℕ))
    (flags : UInt32) :
    Ends (Holds ns) (openExistingHost (countedKernel H proc stack) fs root loc flags)
      (fun f => Holds (f.handles ++ ns)) (Holds ns) := by
  rw [openExistingHost]
  refine (counted_statAbs hroots loc.abs).ends.bind fun st => Ends.of_fact fun _ => ?_
  refine (Ends.liftExcept (Q := fun _ => Holds ns) (fun _ _ hx _ => hx) fun _ hx => hx).bind fun _ => ?_
  refine (openResolved_ends hroot loc _).bind fun o => ?_
  split_ifs
  · exact throw_closing
  · exact throw_closing
  · exact newHostFile_ends o flags _ _

theorem openExisting_ends {loc : VfsLoc (η × ℕ)} (hloc : ∀ root, loc.m.type = .host root → root.2 ∈ ns)
    (flags : UInt32) :
    Ends (Holds ns) (openExisting (countedKernel H proc stack) fs loc flags)
      (fun f => Holds (f.handles ++ ns)) (Holds ns) := by
  rw [openExisting]
  cases htype : loc.m.type with
  | proc =>
      refine (procfsOpen_keeps (offLedger_holds H.alloc) _ _).ends.bind fun f => ?_
      exact Ends.pure fun _ hx => hx.2
  | dev =>
      refine (devfsOpen_keeps (offLedger_holds H.alloc) _ _).ends.bind fun f => ?_
      exact Ends.pure fun _ hx => hx.2
  | host root => exact openExistingHost_ends hroots (hloc root htype) loc flags

omit hroots in
theorem createdOrLink_ends (loc : VfsLoc (η × ℕ)) (flags : UInt32) (o : Opened (η × ℕ)) :
    Ends (Holds (o.h.2 :: ns)) (createdOrLink (countedKernel H proc stack) loc flags o)
      (fun r => Holds ((r.elim OpenFile.handles fun _ => []) ++ ns)) (Holds ns) := by
  rw [createdOrLink]
  split_ifs
  · exact throw_closing
  · exact throw_closing
  · refine (closing_first_keeps (counted_readlink List.mem_cons_self).attempt).bind fun r => ?_
    refine Ends.of_fact fun _ => ?_
    refine (Ends.liftExcept (Q := fun _ => Holds ns) (fun _ _ hx _ => hx) fun _ hx => hx).bind fun t => ?_
    exact Ends.pure fun _ hx => hx
  · exact throw_closing
  · exact (newHostFile_ends o flags _ _).bind fun f => Ends.pure fun _ hx => hx

omit hroots in
theorem openCreate_ends {root : η × ℕ} (hroot : root.2 ∈ ns) (loc : VfsLoc (η × ℕ)) (flags mode : UInt32) :
    Ends (Holds ns) (openCreate (countedKernel H proc stack) fs root loc flags mode)
      (fun r => Holds ((r.elim OpenFile.handles fun _ => []) ++ ns)) (Holds ns) := by
  rw [openCreate]
  refine (openHostDir_ends hroot _ _).bind fun d => ?_
  exact (openat_closing _ _ _ _ _ true).bind fun o => createdOrLink_ends loc flags o

theorem openCreating_ends (flags mode : UInt32) (n : ℕ) {base : Option Bytes}
    (hbase : Canonical (base.getD fs.cwd)) (p : Bytes) :
    Ends (Holds ns) (openCreating (countedKernel H proc stack) fs flags mode n base p)
      (fun f => Holds (f.handles ++ ns)) (Holds ns) := by
  induction n generalizing base p with
  | zero => exact Ends.throw fun _ hx => hx
  | succ n ih =>
      rw [openCreating]
      refine (counted_walkPath hroots hbase p W_PARENT).attempt.ends.bind fun r => ?_
      refine Ends.of_fact fun hr => ?_
      cases r with
      | error e =>
          dsimp only
          split_ifs
          · refine (counted_walkPath hroots hbase p 0).ends.bind fun loc => Ends.of_fact fun hloc => ?_
            exact openExisting_ends hroots hloc.2 flags
          · exact Ends.throw fun _ hx => hx
      | ok loc =>
          obtain ⟨hcanonical, hloc⟩ := hr loc rfl
          dsimp only
          cases htype : loc.m.type with
          | proc => exact Ends.throw fun _ hx => hx
          | dev => exact Ends.throw fun _ hx => hx
          | host root =>
              refine (openCreate_ends (hloc root htype) loc flags mode).bind fun r => ?_
              cases r with
              | inl f => exact Ends.pure fun _ hx => hx
              | inr t => exact @ih (some loc.abs) hcanonical t

theorem vfsOpen_ends {base : Option Bytes} (hbase : Canonical (base.getD fs.cwd)) (p : Bytes)
    (flags mode : UInt32) :
    Ends (Holds ns) (vfsOpen (countedKernel H proc stack) fs base p flags mode)
      (fun f => Holds (f.handles ++ ns)) (Holds ns) := by
  rw [vfsOpen]
  by_cases hcreat : has flags O_CREAT = true
  · rw [if_pos hcreat]
    exact openCreating_ends hroots flags mode 41 hbase p
  · rw [if_neg hcreat]
    refine (counted_walkPath hroots hbase p _).ends.bind fun loc => Ends.of_fact fun hloc => ?_
    exact openExisting_ends hroots hloc.2 flags

theorem counted_vfsStat {base : Option Bytes} (hbase : Canonical (base.getD fs.cwd)) (p : Bytes)
    (follow : Bool) :
    Keeps (Holds ns) (vfsStat (countedKernel H proc stack) fs base p follow) (fun _ => True) := by
  rw [vfsStat]
  refine (counted_walkPath hroots hbase p _).bind fun loc _ => ?_
  refine (counted_statAbs hroots loc.abs).bind fun st _ => ?_
  split_ifs
  · refine (counted_readlinkAbs hroots loc.abs).attempt.bind fun r _ => ?_
    cases r <;> exact Keeps.pure trivial
  · exact Keeps.pure trivial

theorem hostParent_ends {base : Option Bytes} (hbase : Canonical (base.getD fs.cwd)) (p : Bytes) :
    Ends (Holds ns) (hostParent (countedKernel H proc stack) fs base p)
      (fun r s => (∀ root, r.1.m.type = .host root → root.2 ∈ ns) ∧ Holds (r.2.2 :: ns) s) (Holds ns) := by
  rw [hostParent]
  refine (counted_walkPath hroots hbase p _).ends.bind fun loc => Ends.of_fact fun hloc => ?_
  cases htype : loc.m.type with
  | proc => exact Ends.throw fun _ hx => hx
  | dev => exact Ends.throw fun _ hx => hx
  | host root =>
      dsimp only
      split_ifs
      · exact Ends.throw fun _ hx => hx
      · refine (openHostDir_ends (hloc.2 root htype) _ _).bind fun d => ?_
        exact Ends.pure fun _ hx => ⟨hloc.2, hx⟩

theorem counted_vfsSymlink (target : Bytes) {base : Option Bytes} (hbase : Canonical (base.getD fs.cwd))
    (p : Bytes) :
    Keeps (Holds ns) (vfsSymlink (countedKernel H proc stack) fs target base p) (fun _ => True) := by
  rw [vfsSymlink]
  split_ifs
  · exact Keeps.throw
  · refine Ends.keeps ((hostParent_ends hroots hbase p).bind fun r => Ends.of_fact fun _ => ?_)
    exact closing_first_keeps (onHandles_keeps (by simp) _)

theorem counted_vfsLink {oldBase newBase : Option Bytes} (hold : Canonical (oldBase.getD fs.cwd))
    (hnew : Canonical (newBase.getD fs.cwd)) (oldPath newPath : Bytes) (follow : Bool) :
    Keeps (Holds ns) (vfsLink (countedKernel H proc stack) fs oldBase oldPath newBase newPath follow)
      (fun _ => True) := by
  have hsource : Keeps (Holds ns) (linkSource (countedKernel H proc stack) fs oldBase oldPath follow)
      (fun src => src.2.2 ∈ ns) := by
    rw [linkSource]
    refine (counted_walkPath hroots hold oldPath _).bind fun loc hloc => ?_
    cases htype : loc.m.type with
    | proc => exact Keeps.throw
    | dev => exact Keeps.throw
    | host root =>
        refine (counted_statAbs hroots loc.abs).bind fun st _ => ?_
        split_ifs
        · exact Keeps.throw
        · exact Keeps.pure (hloc.2 root htype)
  rw [vfsLink]
  refine hsource.bind fun src hsrc => ?_
  refine Ends.keeps ((hostParent_ends hroots hnew newPath).bind fun r => Ends.of_fact fun _ => ?_)
  refine closing_first_keeps ?_
  split_ifs
  · exact Keeps.throw
  · refine Ends.keeps ((openHostDir_ends (List.mem_cons_of_mem _ hsrc) _ _).bind fun od => ?_)
    refine (openat_closing _ _ 0 0 0 false).bind fun o => ?_
    exact closing_first_keeps (onHandles_keeps (by simp) _)

theorem counted_vfsUnlink {base : Option Bytes} (hbase : Canonical (base.getD fs.cwd)) (p : Bytes)
    (rmdir : Bool) :
    Keeps (Holds ns) (vfsUnlink (countedKernel H proc stack) fs base p rmdir) (fun _ => True) := by
  rw [vfsUnlink]
  refine (counted_walkPath hroots hbase p W_PARENT).attempt.bind fun r hr => ?_
  cases r with
  | error e =>
      dsimp only
      split_ifs <;> exact Keeps.throw
  | ok loc =>
      have hloc := (hr loc rfl).2
      dsimp only
      cases htype : loc.m.type with
      | proc => exact Keeps.throw
      | dev => exact Keeps.throw
      | host root =>
          dsimp only
          split_ifs
          · exact Keeps.throw
          · exact Keeps.throw
          · exact Keeps.throw
          · refine (counted_statAbs hroots _).bind fun st _ => ?_
            split_ifs
            · exact Keeps.throw
            · exact Keeps.throw
            · refine Ends.keeps ((openHostDir_ends (hloc root htype) _ _).bind fun d => ?_)
              exact closing_first_keeps (onHandles_keeps (by simp) _)

theorem counted_busyParent {base : Option Bytes} (hbase : Canonical (base.getD fs.cwd)) (p : Bytes) :
    Keeps (Holds ns) (busyParent (countedKernel H proc stack) fs base p)
      (fun loc => ∀ root, loc.m.type = .host root → root.2 ∈ ns) := by
  rw [busyParent]
  refine (counted_walkPath hroots hbase p W_PARENT).attempt.bind fun r hr => ?_
  cases r with
  | error e => exact Keeps.throw
  | ok loc => exact Keeps.pure (hr loc rfl).2

omit hroots in
theorem counted_renameOnHost {oroot nroot : η × ℕ} (ho : oroot.2 ∈ ns) (hn : nroot.2 ∈ ns)
    (oloc nloc : VfsLoc (η × ℕ)) (noreplace : Bool) (nst : Except Errno KStat) :
    Keeps (Holds ns)
      (renameOnHost (countedKernel H proc stack) oroot nroot oloc nloc noreplace nst) (fun _ => True) := by
  rw [renameOnHost]
  refine Ends.keeps ((openHostDir_ends ho _ _).bind fun od => ?_)
  refine (openHostDir_ends (List.mem_cons_of_mem _ hn) _ _).attempt.bind fun r => ?_
  cases r with
  | error e =>
      refine Ends.mono (throw_closing (h := od)) (fun s hs => ?_) (fun _ _ h => h) fun _ h => h
      rcases hs with ⟨_, h, _⟩ | ⟨_, hs⟩
      · cases h
      · exact hs
  | ok nd =>
      have hrename : Keeps (Holds (nd.2 :: od.2 :: ns))
          (H.counted.rename od oloc.last nd nloc.last noreplace) (fun _ => True) :=
        onHandles_keeps (by simp) _
      have hclosed : Ends (Holds (nd.2 :: od.2 :: ns))
          (closing (H.counted.close nd) (closing (H.counted.close od)
            (attempt (H.counted.rename od oloc.last nd nloc.last noreplace))))
          (fun _ => Holds ns) (Holds ns) := by
        refine closing_first (closing_first (h := od) ?_)
        have hswap : ∀ s : σ × Ledger, Holds (nd.2 :: od.2 :: ns) s → Holds (od.2 :: nd.2 :: ns) s :=
          fun s hs => hs.perm (List.Perm.swap _ _ _)
        exact hrename.attempt.ends.mono (fun _ h => h) (fun _ s hs => hswap s hs.2) hswap
      refine (hclosed.mono (fun s hs => ?_) (fun _ _ h => h) fun _ h => h).bind fun r => ?_
      · rcases hs with ⟨a, h, hs⟩ | ⟨⟨e, h⟩, _⟩
        · cases h
          exact hs
        · cases h
      · cases r with
        | ok u => exact Ends.pure fun _ hx => ⟨trivial, hx⟩
        | error e => exact Ends.throw fun _ hx => hx

theorem counted_vfsRename {oldBase newBase : Option Bytes} (hold : Canonical (oldBase.getD fs.cwd))
    (hnew : Canonical (newBase.getD fs.cwd)) (oldPath newPath : Bytes) (flags : UInt32) :
    Keeps (Holds ns) (vfsRename (countedKernel H proc stack) fs oldBase oldPath newBase newPath flags)
      (fun _ => True) := by
  rw [vfsRename]
  by_cases hflags : flags &&& ~~~RENAME_NOREPLACE ≠ 0
  · rw [if_pos hflags]
    exact Keeps.throw
  rw [if_neg hflags]
  refine (counted_busyParent hroots hold oldPath).bind fun oloc ho => ?_
  refine (counted_busyParent hroots hnew newPath).bind fun nloc hn => ?_
  cases hot : oloc.m.type with
  | proc => exact Keeps.throw
  | dev => exact Keeps.throw
  | host oroot =>
      cases hnt : nloc.m.type with
      | proc => exact Keeps.throw
      | dev => exact Keeps.throw
      | host nroot =>
          dsimp only
          split_ifs
          · exact Keeps.throw
          · exact Keeps.throw
          · exact Keeps.throw
          · refine (counted_statAbs hroots _).bind fun ost _ => ?_
            refine (counted_statAbs hroots _).attempt.bind fun nst _ => ?_
            exact Keeps.pure trivial
          · refine (counted_statAbs hroots _).bind fun ost _ => ?_
            refine (counted_statAbs hroots _).attempt.bind fun nst _ => ?_
            refine (Keeps.liftExcept _).bind fun _ _ => ?_
            exact counted_renameOnHost (ho oroot hot) (hn nroot hnt) _ _ _ _

theorem counted_vfsMkdir {base : Option Bytes} (hbase : Canonical (base.getD fs.cwd)) (p : Bytes)
    (mode : UInt32) :
    Keeps (Holds ns) (vfsMkdir (countedKernel H proc stack) fs base p mode) (fun _ => True) := by
  rw [vfsMkdir]
  refine (counted_walkPath hroots hbase p W_PARENT).bind fun loc hloc => ?_
  cases htype : loc.m.type with
  | proc => exact Keeps.throw
  | dev => exact Keeps.throw
  | host root =>
      dsimp only
      split_ifs
      · exact Keeps.throw
      · refine Ends.keeps ((openHostDir_ends (hloc.2 root htype) _ _).bind fun d => ?_)
        exact closing_first_keeps (onHandles_keeps (by simp) _)

omit hroots in
theorem filePut_holds (f : OpenFile (η × ℕ)) (s : σ × Ledger) (hs : Holds (f.handles ++ ns) s) :
    Holds ns (filePut (countedKernel H proc stack) f s).2 := by
  cases f with
  | host h kind flags path mnt => exact close_holds H h s hs
  | synth f flags path => exact hs

theorem counted_vfsMknod {base : Option Bytes} (hbase : Canonical (base.getD fs.cwd)) (p : Bytes)
    (mode major minor : UInt32) :
    Keeps (Holds ns) (vfsMknod (countedKernel H proc stack) fs base p mode major minor) (fun _ => True) := by
  rw [vfsMknod]
  split_ifs
  · refine Ends.keeps ((vfsOpen_ends hroots hbase p _ _).bind fun f => ?_)
    exact Ends.lift fun s hs => ⟨trivial, filePut_holds f s hs⟩
  · cases specialKind mode with
    | none => exact Keeps.throw
    | some kind =>
        refine Ends.keeps ((hostParent_ends hroots hbase p).bind fun r => Ends.of_fact fun _ => ?_)
        exact closing_first_keeps (onHandles_keeps (by simp) _)

theorem openAttr_ends (abs : Bytes) :
    Ends (Holds ns) (openAttr (countedKernel H proc stack) fs abs) (fun h => Holds (h.2 :: ns))
      (Holds ns) := by
  rw [openAttr]
  cases htype : (fs.table.mountOf abs).type with
  | proc => exact Ends.throw fun _ hx => hx
  | dev => exact Ends.throw fun _ hx => hx
  | host root =>
      have hroot := hroots _ (fs.table.mountOf_best abs).mem root htype
      dsimp only
      split_ifs
      · exact (reopen_ends hroot _ false).bind fun o => Ends.pure fun _ hx => hx
      · refine (openHostDir_ends hroot _ _).bind fun d => ?_
        exact (openat_closing _ _ 0 0 0 false).bind fun o => Ends.pure fun _ hx => hx

theorem counted_withAttr {base : Option Bytes} (hbase : Canonical (base.getD fs.cwd)) (p : Bytes)
    (follow : Bool) {act : η × ℕ → Call Errno (σ × Ledger) Unit}
    (hact : ∀ h, Keeps (Holds (h.2 :: ns)) (act h) (fun _ => True)) :
    Keeps (Holds ns) (withAttr (countedKernel H proc stack) fs base p follow act) (fun _ => True) := by
  rw [withAttr]
  refine (counted_walkPath hroots hbase p _).bind fun loc _ => ?_
  refine Ends.keeps ((openAttr_ends hroots loc.abs).bind fun h => ?_)
  exact closing_first_keeps (hact h)

omit hroots in
theorem counted_chmodHandle (h : η × ℕ) (mode : UInt32) :
    Keeps (Holds (h.2 :: ns)) (chmodHandle (countedKernel H proc stack) fs h mode) (fun _ => True) := by
  rw [chmodHandle]
  refine (counted_stat List.mem_cons_self).bind fun hs _ => ?_
  by_cases hperm : fs.euid ≠ 0 ∧ has hs.lxflags HFS_LX_UID = true ∧ hs.uid ≠ fs.euid
  · simp only [if_pos hperm]
    exact Keeps.throw
  · simp only [if_neg hperm]
    exact onHandles_keeps (by simp) _

omit hroots in
theorem counted_chownHandle (h : η × ℕ) (uid gid : UInt32) :
    Keeps (Holds (h.2 :: ns)) (chownHandle (countedKernel H proc stack) fs h uid gid) (fun _ => True) := by
  rw [chownHandle]
  refine (counted_stat List.mem_cons_self).bind fun hs _ => ?_
  dsimp only
  by_cases hperm : fs.euid ≠ 0
  · rw [if_pos hperm]
    exact Keeps.throw
  rw [if_neg hperm]
  by_cases hnone : ((if uid = 0xffffffff then 0 else HFS_LX_UID) |||
      (if gid = 0xffffffff then 0 else HFS_LX_GID)) = 0
  · rw [if_pos hnone]
    exact Keeps.pure trivial
  · rw [if_neg hnone]
    exact onHandles_keeps (by simp) _

theorem counted_vfsTruncate {base : Option Bytes} (hbase : Canonical (base.getD fs.cwd)) (p : Bytes)
    (size : UInt64) :
    Keeps (Holds ns) (vfsTruncate (countedKernel H proc stack) fs base p size) (fun _ => True) := by
  rw [vfsTruncate]
  refine Ends.keeps ((vfsOpen_ends hroots hbase p _ _).bind fun f => ?_)
  have hput : ∀ s, Holds (f.handles ++ ns) s → Holds ns (filePut (countedKernel H proc stack) f s).2 :=
    filePut_holds f
  cases f with
  | synth f flags path =>
      exact Ends.closing (Q := fun _ _ => False) (Ends.throw fun _ hx => hx) (fun _ _ hf => hf.elim) hput
  | host h kind flags path mnt =>
      dsimp only
      split_ifs
      · exact throw_closing
      · exact closing_first_keeps (onHandles_keeps (by simp) _)

end Operations

end SysvNt
