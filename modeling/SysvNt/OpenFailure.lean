import SysvNt.CreateExclusive
import SysvNt.DescriptorCalls
import SysvNt.HandleBalance

/-!
# An open that fails

`sys_openat` reads on its way to the host, asks it for at most one open, and may fail afterwards:
the object is of the wrong kind, there is no memory for the description, no descriptor is free.
What it holds by then it lets go, but a file that the host has made or emptied stays so. The opens
that the call asks the host for, one for each link that it creates through, say when that happens.
-/

namespace SysvNt

open FallibleCalls Ownership

variable {η σ ν : Type}

/-- An open that is asked of the host, and whether by the creating branch. -/
structure Ask (η : Type) where
  dir : η
  name : Bytes
  hflags : UInt32
  mode : UInt32
  uid : UInt32
  gid : UInt32
  creating : Bool

def Ask.make (q : Ask η) (H : HostStore η σ) : Call Errno σ (Opened η) :=
  H.openat q.dir q.name q.hflags q.mode q.uid q.gid true

def Ask.Accepts (q : Ask η) (flags : UInt32) (o : Opened η) : Prop :=
  o.reparse = false ∧
    if q.creating then o.st.kind ≠ .dir else ¬ (isSpecial o.st.kind = true ∧ has flags O_PATH = false)

/-- The host changes nothing for the open, or what comes after it finds an object that may be
opened, memory for a description, and room for it. -/
def Ask.Harmless (H : HostStore η σ) (view : σ → ν) (room : Prop) (flags : UInt32) (q : Ask η)
    (x : σ) : Prop :=
  view ((q.make H).run x).2 = view x ∨
    room ∧ ∃ o y, (q.make H).run x = (.ok o, y) ∧ q.Accepts flags o ∧
      (H.alloc (H.close q.dir y).2).1 = true

section Asks

variable (K : Kernel η σ) (fs : FsCtx η) (flags mode : UInt32)

def createAsk (d : η) (loc : VfsLoc η) : Ask η where
  dir := d
  name := loc.last
  hflags := createFlags flags
  mode := mode &&& 0o7777 &&& ~~~fs.umask
  uid := fs.euid
  gid := fs.egid
  creating := true

def existingAsk (d : η) (loc : VfsLoc η) (st : KStat) : Ask η where
  dir := d
  name := lastName loc.abs
  hflags := existingFlags st flags
  mode := 0
  uid := 0
  gid := 0
  creating := false

inductive AsksExisting (loc : VfsLoc η) (x : σ) : Ask η → σ → Prop where
  | below {root : η} {st : KStat} {y z : σ} {d : η} (mounted : loc.m.type = .host root)
      (found : (statAbs K fs loc.abs).run x = (.ok st, y)) (allowed : checkExisting fs st flags = .ok ())
      (named : loc.rel ≠ [])
      (parent : (openHostDir K.store root loc.m (pathParent loc.abs)).run y = (.ok d, z)) :
      AsksExisting loc x (existingAsk flags d loc st) z

inductive AsksCreating : ℕ → Option Bytes → Bytes → σ → Ask η → σ → Prop where
  | last {n : ℕ} {base : Option Bytes} {path : Bytes} {x y z : σ} {loc : VfsLoc η} {root d : η}
      (walked : (walkPath K fs base path W_PARENT).run x = (.ok loc, y))
      (mounted : loc.m.type = .host root)
      (parent : (openHostDir K.store root loc.m loc.abs).run y = (.ok d, z)) :
      AsksCreating (n + 1) base path x (createAsk fs flags mode d loc) z
  | link {n : ℕ} {base : Option Bytes} {path t : Bytes} {x y y' z : σ} {loc : VfsLoc η} {root : η}
      {q : Ask η} (walked : (walkPath K fs base path W_PARENT).run x = (.ok loc, y))
      (mounted : loc.m.type = .host root)
      (linked : (openCreate K fs root loc flags mode).run y = (.ok (.inr t), y'))
      (followed : AsksCreating n (some loc.abs) t y' q z) : AsksCreating (n + 1) base path x q z
  | nameless {n : ℕ} {base : Option Bytes} {path : Bytes} {x y y' z : σ} {loc : VfsLoc η} {q : Ask η}
      (walked : (walkPath K fs base path W_PARENT).run x = (.error .EEXIST, y))
      (found : (walkPath K fs base path 0).run y = (.ok loc, y'))
      (existing : AsksExisting K fs flags loc y' q z) : AsksCreating (n + 1) base path x q z

/-- The opens that `vfs_open` asks the host for, each with the state that it is asked in. -/
def VfsAsks (base : Option Bytes) (path : Bytes) (x : σ) (q : Ask η) (z : σ) : Prop :=
  if has flags O_CREAT then AsksCreating K fs flags mode 41 base path x q z
  else ∃ loc y, (walkPath K fs base path (if has flags O_NOFOLLOW then W_NOFOLLOW else 0)).run x =
    (.ok loc, y) ∧ AsksExisting K fs flags loc y q z

end Asks

/-- A store that changes nothing that the view shows unless it is asked to, and nothing when it
answers with a reparse point. -/
structure Quiet (H : HostStore η σ) (view : σ → ν) : Prop where
  guarded : ∀ v, Guarded H (fun _ _ => True) (fun x => view x = v) (fun c => c.changes = false)
  reparse : ∀ d n fl mode uid gid st x o y, (H.openat d n fl mode uid gid st).run x = (.ok o, y) →
    o.reparse = true → view y = view x

section Clean

variable {K : Kernel η σ} {fs : FsCtx η} {view : σ → ν} (hQ : Quiet K.store view)

include hQ

theorem openHostDir_quiet (root : η) (m : Mount η) (abs : Bytes) (x : σ) :
    view ((openHostDir K.store root m abs).run x).2 = view x :=
  Keeps.view_eq (fun v => openHostDir_reads (hQ.guarded v) root m abs) x

theorem close_quiet (h : η) (x : σ) : view (K.store.close h x).2 = view x :=
  (hQ.guarded (view x)).close h x rfl

theorem statAbs_quiet {abs : Bytes} (hc : Canonical abs) (x : σ) :
    view ((statAbs K fs abs).run x).2 = view x :=
  Keeps.view_eq (fun v => statAbs_keeps (hQ.guarded v) (seated_anywhere fs.table) hc) x

theorem walkPath_quiet {base : Option Bytes} (hbase : Canonical (base.getD fs.cwd)) (p : Bytes)
    (wflags : UInt32) (x : σ) : view ((walkPath K fs base p wflags).run x).2 = view x :=
  Keeps.view_eq (fun v => walkPath_keeps (hQ.guarded v) (seated_anywhere fs.table) hbase p wflags) x

omit hQ in
theorem walkPath_canonical {base : Option Bytes} (hbase : Canonical (base.getD fs.cwd)) {p : Bytes}
    {wflags : UInt32} {x y : σ} {loc : VfsLoc η} (h : (walkPath K fs base p wflags).run x = (.ok loc, y)) :
    Canonical loc.abs := (walk_good hbase h).canonical

theorem newHostFile_quiet (o : Opened η) (flags : UInt32) (m : Mount η) (p : Bytes) (x : σ) :
    view ((newHostFile K o flags m p).run x).2 = view x :=
  Keeps.view_eq (fun v => newHostFile_keeps (hQ.guarded v) o flags m p) x

theorem createdOrLink_quiet (loc : VfsLoc η) (flags : UInt32) (o : Opened η) (x : σ) :
    view ((createdOrLink K loc flags o).run x).2 = view x :=
  Keeps.view_eq (fun v => createdOrLink_keeps (hQ.guarded v) loc flags o) x

omit hQ in
theorem newHostFile_answers (o : Opened η) (flags : UInt32) (m : Mount η) (p : Bytes) (x : σ) :
    (∃ f y, (newHostFile K o flags m p).run x = (.ok f, y)) ↔ (K.store.alloc x).1 = true := by
  rw [newHostFile, run_bind, run_lift]
  cases (K.store.alloc x).1 with
  | true => exact ⟨fun _ => rfl, fun _ => ⟨_, _, rfl⟩⟩
  | false =>
      refine ⟨fun h => ?_, fun h => by cases h⟩
      obtain ⟨f, y, h⟩ := h
      cases h

omit hQ in
/-- The creating branch makes a description of an object that is no reparse point and no
directory, when there is memory. -/
theorem createdOrLink_answers (loc : VfsLoc η) (flags : UInt32) {o : Opened η} (ho : o.reparse = false)
    (x : σ) : (∃ r y, (createdOrLink K loc flags o).run x = (.ok r, y)) ↔
      o.st.kind ≠ .dir ∧ (K.store.alloc x).1 = true := by
  rw [createdOrLink, ho, if_neg Bool.false_ne_true]
  by_cases hdir : o.st.kind = .dir
  · rw [if_pos hdir]
    refine ⟨fun h => ?_, fun h => absurd hdir h.1⟩
    obtain ⟨r, y, h⟩ := h
    cases h
  · rw [if_neg hdir, ← newHostFile_answers o flags loc.m
      ((pathJoin PATH_MAX loc.abs loc.last).toOption.getD []) x]
    refine ⟨fun h => ⟨hdir, ?_⟩, fun h => ?_⟩
    · obtain ⟨r, y, h⟩ := h
      obtain ⟨f, z, hf, _⟩ := of_run_bind h
      exact ⟨f, z, hf⟩
    · obtain ⟨_, f, y, hf⟩ := h
      refine ⟨.inl f, y, ?_⟩
      rw [run_bind, hf]
      rfl

/-- The open of an existing object and what follows it. -/
theorem existingAsk_clean_iff {room : Prop} {flags : UInt32} (q : Ask η) (hq : q.creating = false)
    (m : Mount η) (p : Bytes) (x : σ) :
    Clean view room (closing (K.store.close q.dir) (q.make K.store) >>= fun o =>
      if o.reparse then closing (K.store.close o.h) (throw .ELOOP)
      else if isSpecial o.st.kind = true ∧ has flags O_PATH = false then
        closing (K.store.close o.h) (throw Errno.ENXIO)
      else newHostFile K o flags m p) x ↔ q.Harmless K.store view room flags x := by
  rw [clean_quiet_iff, run_closing, close_quiet hQ, Ask.Harmless]
  · refine or_congr Iff.rfl (and_congr_right fun _ => ⟨fun h => ?_, fun h => ?_⟩)
    · obtain ⟨o, y, f, z, ho, hf⟩ := h
      obtain ⟨w, hmake, rfl⟩ := of_run_closing ho
      split_ifs at hf with hr hs
      · cases hf
      · cases hf
      · refine ⟨o, w, hmake, ⟨by simpa using hr, ?_⟩, (newHostFile_answers o flags m p _).mp ⟨f, z, hf⟩⟩
        rw [hq]
        exact hs
    · obtain ⟨o, y, hmake, ⟨hr, hs⟩, halloc⟩ := h
      rw [hq, if_neg Bool.false_ne_true] at hs
      obtain ⟨f, z, hf⟩ := (newHostFile_answers o flags m p _).mpr halloc
      refine ⟨o, (K.store.close q.dir y).2, f, z, ?_, ?_⟩
      · rw [hmake]
      · rw [hr, if_neg Bool.false_ne_true, if_neg hs]
        exact hf
  · intro o y
    split_ifs
    · exact close_quiet hQ o.h y
    · exact close_quiet hQ o.h y
    · exact newHostFile_quiet hQ o flags m p y

/-- Opening a resolved object, and what follows it. -/
theorem openResolved_clean_iff {room : Prop} {root : η} (loc : VfsLoc η) (st : KStat) (flags : UInt32)
    (x : σ) :
    Clean view room (openResolved K root loc (existingFlags st flags) >>= fun o =>
      if o.reparse then closing (K.store.close o.h) (throw .ELOOP)
      else if isSpecial o.st.kind = true ∧ has flags O_PATH = false then
        closing (K.store.close o.h) (throw Errno.ENXIO)
      else newHostFile K o flags loc.m loc.abs) x ↔
      ∀ d z, loc.rel ≠ [] → (openHostDir K.store root loc.m (pathParent loc.abs)).run x = (.ok d, z) →
        (existingAsk flags d loc st).Harmless K.store view room flags z := by
  rw [openResolved]
  by_cases hrel : loc.rel = []
  · rw [if_pos hrel]
    refine iff_of_true (.inr (Keeps.view_eq (Q := fun _ => True) (fun v => ?_) x)) fun d z h => absurd hrel h
    have hG := hQ.guarded v
    refine (hG.reopen root [] _ true trivial).bind fun o _ => ?_
    split_ifs
    · exact Keeps.throw.closing (hG.close o.h)
    · exact Keeps.throw.closing (hG.close o.h)
    · exact newHostFile_keeps hG o flags _ _
  · rw [if_neg hrel, bind_assoc, clean_bind_iff (openHostDir_quiet hQ root _ _ x)]
    refine ⟨fun h d z _ hd => ?_, fun h d z hd => ?_⟩
    · exact (existingAsk_clean_iff hQ (existingAsk flags d loc st) rfl loc.m loc.abs z).mp (h d z hd)
    · exact (existingAsk_clean_iff hQ (existingAsk flags d loc st) rfl loc.m loc.abs z).mpr (h d z hrel hd)

theorem openExisting_clean_iff {room : Prop} {loc : VfsLoc η} (hloc : Canonical loc.abs) (flags : UInt32)
    (x : σ) : Clean view room (openExisting K fs loc flags) x ↔
      ∀ q z, AsksExisting K fs flags loc x q z → q.Harmless K.store view room flags z := by
  rw [openExisting]
  cases htype : loc.m.type with
  | proc =>
      refine iff_of_true (.inr ?_) fun q z h => ?_
      · refine Keeps.view_eq (Q := fun _ => True) (fun v => ?_) x
        exact (procfsOpen_keeps (hQ.guarded v).alloc _ _).bind fun _ _ => Keeps.pure trivial
      · obtain ⟨hmounted, _, _, _, _⟩ := h
        rw [htype] at hmounted
        cases hmounted
  | dev =>
      refine iff_of_true (.inr ?_) fun q z h => ?_
      · refine Keeps.view_eq (Q := fun _ => True) (fun v => ?_) x
        exact (devfsOpen_keeps (hQ.guarded v).alloc _ _).bind fun _ _ => Keeps.pure trivial
      · obtain ⟨hmounted, _, _, _, _⟩ := h
        rw [htype] at hmounted
        cases hmounted
  | host root =>
      dsimp only
      rw [openExistingHost, clean_bind_iff (statAbs_quiet hQ hloc x)]
      refine ⟨fun h q z hq => ?_, fun h st y hst => ?_⟩
      · obtain ⟨hmounted, hst, hallowed, hnamed, hparent⟩ := hq
        rw [htype] at hmounted
        cases hmounted
        have hrest := clean_lift_iff.mp (h _ _ hst) () hallowed
        exact (openResolved_clean_iff hQ loc _ flags _).mp hrest _ _ hnamed hparent
      · refine clean_lift_iff.mpr fun _ hallowed => ?_
        refine (openResolved_clean_iff hQ loc st flags y).mpr fun d z hnamed hparent => ?_
        exact h _ _ (.below htype hst hallowed hnamed hparent)

omit hQ in
/-- Only a reparse point sends the creating branch on. -/
theorem createdOrLink_link {loc : VfsLoc η} {flags : UInt32} {o : Opened η} {x y : σ} {t : Bytes}
    (h : (createdOrLink K loc flags o).run x = (.ok (.inr t), y)) : o.reparse = true := by
  by_contra ho
  rw [createdOrLink, if_neg ho] at h
  split_ifs at h
  · cases h
  · obtain ⟨f, z, _, h⟩ := of_run_bind h
    cases h

/-- What the creating branch does with the host's answer: a description, or the rest of the way
from the target of a link. -/
def createEnd (K : Kernel η σ) (flags : UInt32) (loc : VfsLoc η) (rest : Bytes → Call Errno σ (OpenFile η))
    (o : Opened η) : Call Errno σ (OpenFile η) := do
  let r ← createdOrLink K loc flags o
  match r with
  | .inl f => pure f
  | .inr t => rest t

/-- After an object that is no reparse point. -/
theorem createEnd_clean_iff {room : Prop} {flags mode : UInt32} {d : η} {loc : VfsLoc η}
    {rest : Bytes → Call Errno σ (OpenFile η)} {x y : σ} {o : Opened η} (ho : o.reparse = false)
    (hmake : ((createAsk fs flags mode d loc).make K.store).run x = (.ok o, y)) :
    Clean view room (closing (K.store.close d) ((createAsk fs flags mode d loc).make K.store) >>=
      createEnd K flags loc rest) x ↔ (createAsk fs flags mode d loc).Harmless K.store view room flags x := by
  have hview : view ((createEnd K flags loc rest o).run (K.store.close d y).2).2 = view y ∧
      ((∃ f z, (createEnd K flags loc rest o).run (K.store.close d y).2 = (.ok f, z)) ↔
        o.st.kind ≠ .dir ∧ (K.store.alloc (K.store.close d y).2).1 = true) := by
    have hquiet := createdOrLink_quiet hQ loc flags o (K.store.close d y).2
    rw [close_quiet hQ] at hquiet
    rw [← createdOrLink_answers loc flags ho, createEnd, run_bind]
    cases hrun : (createdOrLink K loc flags o).run (K.store.close d y).2 with
    | mk r z =>
        rw [hrun] at hquiet
        rcases r with e | f | t
        · refine ⟨hquiet, fun h => ?_, fun h => ?_⟩
          · obtain ⟨f, z, h⟩ := h
            cases h
          · obtain ⟨f, z, h⟩ := h
            cases h
        · exact ⟨hquiet, fun _ => ⟨_, _, rfl⟩, fun _ => ⟨_, _, rfl⟩⟩
        · rw [createdOrLink_link hrun] at ho
          cases ho
  rw [Clean, run_bind, run_closing, hmake, Ask.Harmless, hmake]
  dsimp only
  rw [hview.1, hview.2, or_comm]
  refine or_congr Iff.rfl (and_congr_right fun _ => ⟨fun h => ?_, fun h => ?_⟩)
  · exact ⟨o, y, rfl, ⟨ho, h.1⟩, h.2⟩
  · obtain ⟨o', y', heq, haccepts, halloc⟩ := h
    cases heq
    exact ⟨haccepts.2, halloc⟩

/-- The open of the creating branch and what follows it. -/
theorem createAsk_clean_iff {room : Prop} {flags mode : UInt32} (d : η) (loc : VfsLoc η)
    (rest : Bytes → Call Errno σ (OpenFile η)) (x : σ) :
    Clean view room (closing (K.store.close d) ((createAsk fs flags mode d loc).make K.store) >>=
      createEnd K flags loc rest) x ↔
      (createAsk fs flags mode d loc).Harmless K.store view room flags x ∧
        ∀ t y, (closing (K.store.close d) ((createAsk fs flags mode d loc).make K.store) >>=
          createdOrLink K loc flags).run x = (.ok (.inr t), y) → Clean view room (rest t) y := by
  have hclose : ∀ y, view (K.store.close d y).2 = view y := close_quiet hQ d
  cases hmake : ((createAsk fs flags mode d loc).make K.store).run x with
  | mk r y =>
      cases r with
      | error e =>
          rw [Clean, run_bind, run_bind, run_closing, hmake, Ask.Harmless, hmake]
          dsimp only
          rw [hclose]
          refine ⟨fun h => ⟨?_, fun t z hz => by cases hz⟩, fun h => ?_⟩
          · rcases h with ⟨_, f, z, h⟩ | h
            · cases h
            · exact .inl h
          · rcases h.1 with h | ⟨_, o, z, h, _⟩
            · exact .inr h
            · cases h
      | ok o =>
          have hfirst : (closing (K.store.close d) ((createAsk fs flags mode d loc).make K.store)).run x =
              (.ok o, (K.store.close d y).2) := by rw [run_closing, hmake]
          cases ho : o.reparse with
          | true =>
              have hsame : view y = view x := hQ.reparse _ _ _ _ _ _ _ _ _ _ hmake ho
              have hharmless : (createAsk fs flags mode d loc).Harmless K.store view room flags x := by
                refine .inl ?_
                rw [hmake]
                exact hsame
              rw [clean_bind_iff (by rw [hfirst]; exact (hclose y).trans hsame), run_bind, hfirst]
              refine ⟨fun h => ⟨hharmless, fun t z hz => ?_⟩, fun h o' z hz => ?_⟩
              · exact (clean_bind_iff (createdOrLink_quiet hQ loc flags o _)).mp (h o _ rfl) (.inr t) z hz
              · cases hz
                refine (clean_bind_iff (createdOrLink_quiet hQ loc flags o _)).mpr fun r z hr => ?_
                cases r with
                | inl f => exact .inr rfl
                | inr t => exact h.2 t z hr
          | false =>
              rw [createEnd_clean_iff hQ ho hmake]
              refine ⟨fun h => ⟨h, fun t z hz => ?_⟩, fun h => h.1⟩
              rw [run_bind, hfirst] at hz
              rw [createdOrLink_link hz] at ho
              cases ho

omit hQ in
theorem openCreate_bind (root : η) (loc : VfsLoc η) (flags mode : UInt32)
    (rest : Bytes → Call Errno σ (OpenFile η)) :
    (openCreate K fs root loc flags mode >>= fun r => match r with
      | .inl f => pure f
      | .inr t => rest t) =
    openHostDir K.store root loc.m loc.abs >>= fun d =>
      closing (K.store.close d) ((createAsk fs flags mode d loc).make K.store) >>=
        createEnd K flags loc rest := by
  rw [openCreate]
  simp only [bind_assoc]
  rfl

theorem openCreate_clean_iff {room : Prop} {root : η} {loc : VfsLoc η} {flags mode : UInt32}
    (rest : Bytes → Call Errno σ (OpenFile η)) (x : σ) :
    Clean view room (openCreate K fs root loc flags mode >>= fun r => match r with
      | .inl f => pure f
      | .inr t => rest t) x ↔
      (∀ d z, (openHostDir K.store root loc.m loc.abs).run x = (.ok d, z) →
        (createAsk fs flags mode d loc).Harmless K.store view room flags z) ∧
      ∀ t y, (openCreate K fs root loc flags mode).run x = (.ok (.inr t), y) →
        Clean view room (rest t) y := by
  rw [openCreate_bind, clean_bind_iff (openHostDir_quiet hQ root _ _ x)]
  refine ⟨fun h => ⟨fun d z hd => ?_, fun t y hy => ?_⟩, fun h d z hd => ?_⟩
  · exact ((createAsk_clean_iff hQ d loc rest z).mp (h d z hd)).1
  · obtain ⟨d, z, hd, hy⟩ := of_run_bind hy
    exact ((createAsk_clean_iff hQ d loc rest z).mp (h d z hd)).2 t y hy
  · refine (createAsk_clean_iff hQ d loc rest z).mpr ⟨h.1 d z hd, fun t y hy => h.2 t y ?_⟩
    rw [openCreate, run_bind, hd]
    exact hy

/-- The creating branch: by the number of times it may still call itself. -/
theorem openCreating_clean_iff {room : Prop} {flags mode : UInt32} (n : ℕ) {base : Option Bytes}
    (hbase : Canonical (base.getD fs.cwd)) (p : Bytes) (x : σ) :
    Clean view room (openCreating K fs flags mode n base p) x ↔
      ∀ q z, AsksCreating K fs flags mode n base p x q z → q.Harmless K.store view room flags z := by
  induction n generalizing base p x with
  | zero => exact iff_of_true (.inr rfl) fun q z h => by cases h
  | succ n ih =>
      have hwalk : view ((attempt (walkPath K fs base p W_PARENT)).run x).2 = view x :=
        walkPath_quiet hQ hbase p W_PARENT x
      rw [openCreating, clean_bind_iff hwalk]
      cases hw : (walkPath K fs base p W_PARENT).run x with
      | mk r y =>
          have hattempt : ∀ P : Except Errno (VfsLoc η) → σ → Prop,
              (∀ a z, (attempt (walkPath K fs base p W_PARENT)).run x = (.ok a, z) → P a z) ↔ P r y := by
            intro P
            rw [run_attempt, hw]
            refine ⟨fun h => h r y rfl, fun h a z haz => ?_⟩
            cases haz
            exact h
          rw [hattempt]
          cases r with
          | error e =>
              dsimp only
              by_cases he : e = .EEXIST
              · subst he
                rw [if_pos rfl, clean_bind_iff (walkPath_quiet hQ hbase p 0 y)]
                refine ⟨fun h q z hq => ?_, fun h loc y' hloc => ?_⟩
                · cases hq with
                  | last hwalked => rw [hw] at hwalked; cases hwalked
                  | link hwalked => rw [hw] at hwalked; cases hwalked
                  | nameless hwalked hfound hexisting =>
                      rw [hw] at hwalked
                      cases hwalked
                      exact (openExisting_clean_iff hQ (walkPath_canonical hbase hfound) flags _).mp
                        (h _ _ hfound) q z hexisting
                · refine (openExisting_clean_iff hQ (walkPath_canonical hbase hloc) flags y').mpr ?_
                  exact fun q z hq => h q z (.nameless hw hloc hq)
              · rw [if_neg he]
                refine iff_of_true (.inr rfl) fun q z hq => ?_
                cases hq with
                | last hwalked => rw [hw] at hwalked; cases hwalked
                | link hwalked => rw [hw] at hwalked; cases hwalked
                | nameless hwalked =>
                    rw [hw] at hwalked
                    cases hwalked
                    exact absurd rfl he
          | ok loc =>
              dsimp only
              have hasks : (∀ root, loc.m.type ≠ .host root) →
                  ∀ q z, ¬ AsksCreating K fs flags mode (n + 1) base p x q z := by
                intro hno q z hq
                cases hq with
                | last hwalked hmounted =>
                    rw [hw] at hwalked
                    cases hwalked
                    exact hno _ hmounted
                | link hwalked hmounted =>
                    rw [hw] at hwalked
                    cases hwalked
                    exact hno _ hmounted
                | nameless hwalked => rw [hw] at hwalked; cases hwalked
              cases htype : loc.m.type with
              | proc =>
                  exact iff_of_true (.inr rfl) fun q z hq =>
                    (hasks (fun _ h => by rw [htype] at h; cases h) q z hq).elim
              | dev =>
                  exact iff_of_true (.inr rfl) fun q z hq =>
                    (hasks (fun _ h => by rw [htype] at h; cases h) q z hq).elim
              | host root =>
                  dsimp only
                  have hloc := walkPath_canonical hbase hw
                  refine (openCreate_clean_iff hQ (openCreating K fs flags mode n (some loc.abs)) y).trans
                    ⟨fun h q z hq => ?_, fun h => ⟨fun d z hd => ?_, fun t y' hlinked => ?_⟩⟩
                  · cases hq with
                    | last hwalked hmounted hparent =>
                        rw [hw] at hwalked
                        cases hwalked
                        rw [htype] at hmounted
                        cases hmounted
                        exact h.1 _ _ hparent
                    | link hwalked hmounted hlinked hfollowed =>
                        rw [hw] at hwalked
                        cases hwalked
                        rw [htype] at hmounted
                        cases hmounted
                        exact (@ih (some loc.abs) hloc _ _).mp (h.2 _ _ hlinked) q z hfollowed
                    | nameless hwalked => rw [hw] at hwalked; cases hwalked
                  · exact h _ _ (.last hw htype hd)
                  · refine (@ih (some loc.abs) hloc t y').mpr fun q z hq => ?_
                    exact h q z (.link hw htype hlinked hq)

theorem vfsOpen_clean_iff {room : Prop} {flags mode : UInt32} {base : Option Bytes}
    (hbase : Canonical (base.getD fs.cwd)) (p : Bytes) (x : σ) :
    Clean view room (vfsOpen K fs base p flags mode) x ↔
      ∀ q z, VfsAsks K fs flags mode base p x q z → q.Harmless K.store view room flags z := by
  rw [vfsOpen]
  by_cases hcreat : has flags O_CREAT = true
  · simp only [VfsAsks, if_pos hcreat]
    exact openCreating_clean_iff hQ 41 hbase p x
  · simp only [VfsAsks, if_neg hcreat]
    rw [clean_bind_iff (walkPath_quiet hQ hbase p _ x)]
    refine ⟨fun h q z hq => ?_, fun h loc y hloc => ?_⟩
    · obtain ⟨loc, y, hloc, hq⟩ := hq
      exact (openExisting_clean_iff hQ (walkPath_canonical hbase hloc) flags y).mp (h loc y hloc) q z hq
    · refine (openExisting_clean_iff hQ (walkPath_canonical hbase hloc) flags y).mpr fun q z hq => ?_
      exact h q z ⟨loc, y, hloc, hq⟩

end Clean

/-- Counting handles shows no more of the host. -/
theorem Quiet.counted {H : HostStore η σ} {view : σ → ν} (hQ : Quiet H view) :
    Quiet H.counted (fun s => view s.1) := by
  have hkeeps : ∀ {α β : Type} {v : ν} {m : Call Errno σ α} {Q : α → Prop},
      Keeps (fun x => view x = v) m Q → ∀ (m' : Call Errno (σ × Ledger) β),
        (∀ s, ((m'.run s).2).1 = (m.run s.1).2) → Keeps (fun s => view s.1 = v) m' (fun _ => True) := by
    intro α β v m Q hm m' hrun s hs
    rw [KeepsAt, hrun]
    exact ⟨(hm s.1 hs).1, fun _ _ => trivial⟩
  have hhanding : ∀ (n : ℕ) (m : Call Errno σ (Opened η)) (s : σ × Ledger),
      (((handingOut n m).run s).2).1 = (m.run s.1).2 := by
    intro n m s
    rw [handingOut, ExceptT.run_mk]
    cases m.run s.1 with
    | mk r y => cases r <;> rfl
  refine ⟨fun v => ?_, ?_⟩
  · have hG := hQ.guarded v
    refine ⟨?_, ?_, ?_, ?_, fun h s hs => hG.close h.1 s.1 hs, fun s hs => hG.now s.1 hs,
      fun s hs => hG.alloc s.1 hs⟩
    · intro d ps n fl mode uid gid st _ hsafe
      exact hkeeps (hG.openat d.1 ps n fl mode uid gid st trivial hsafe) _ (hhanding _ _)
    · intro h ps fl st _
      exact hkeeps (hG.reopen h.1 ps fl st trivial) _ (hhanding _ _)
    · exact fun h => hkeeps (hG.stat h.1) _ fun _ => rfl
    · exact fun h => hkeeps (hG.readlink h.1) _ fun _ => rfl
  · intro d n fl mode uid gid st s o s' hrun ho
    change (handingOut d.2 (H.openat d.1 n fl mode uid gid st)).run s = (.ok o, s') at hrun
    rw [handingOut, ExceptT.run_mk] at hrun
    cases hopen : (H.openat d.1 n fl mode uid gid st).run s.1 with
    | mk r y =>
        rw [hopen] at hrun
        cases r with
        | error e => cases hrun
        | ok p =>
            cases hrun
            exact hQ.reparse _ _ _ _ _ _ _ _ _ _ hopen ho

/-- What NT documents: opening, asking and closing change no names, sizes and attributes, and
neither does an open that is refused. -/
structure Nt.Quiet (nt : Nt η σ) (rest : HostStore η σ) (view : σ → ν) : Prop where
  opened : ∀ d w a o x, view ((nt.createFile d w a .open o).run x).2 = view x
  refused : ∀ d w a disp o x e y, (nt.createFile d w a disp o).run x = (.error e, y) → view y = view x
  queried : ∀ h x, view ((nt.queryStat h).run x).2 = view x
  closed : ∀ h x, view (nt.close h x).2 = view x
  readlink : ∀ h x, view ((rest.readlink h).run x).2 = view x
  now : ∀ x, view (rest.now x).2 = view x
  alloc : ∀ x, view (rest.alloc x).2 = view x

theorem Nt.Quiet.store {nt : Nt η σ} {rest : HostStore η σ} {view : σ → ν} (hN : nt.Quiet rest view) :
    SysvNt.Quiet (nt.store rest) view := by
  have hopen : ∀ v d w a o x, view x = v → view ((nt.createFile d w a .open o).run x).2 = v :=
    fun v d w a o x hx => (hN.opened d w a o x).trans hx
  have hquery : ∀ v h x, view x = v → view ((nt.queryStat h).run x).2 = v :=
    fun v h x hx => (hN.queried h x).trans hx
  have hclose : ∀ v h x, view x = v → view (nt.close h x).2 = v :=
    fun v h x hx => (hN.closed h x).trans hx
  refine ⟨fun v => store_guarded (hopen v) (hquery v) (hclose v) (fun h x hx => (hN.readlink h x).trans hx)
    (fun x hx => (hN.now x).trans hx) fun x hx => (hN.alloc x).trans hx, ?_⟩
  intro d n fl mode uid gid st x o y hrun ho
  change (hfsOpenat nt d n fl mode uid gid st).run x = (.ok o, y) at hrun
  cases hw : nameToWide n 255 with
  | none =>
      rw [hfsOpenat, hw] at hrun
      cases hrun
  | some w =>
      by_cases hlen : w.length = 0
      · rw [hfsOpenat, hw] at hrun
        dsimp only at hrun
        rw [if_pos hlen] at hrun
        cases hrun
      · rw [run_hfsOpenat nt hw hlen] at hrun
        cases hcreate : (nt.createFile d w (accessOf fl) (dispositionOf fl mode uid gid)
            (optionsOf fl)).run x with
        | mk r z =>
            rw [hcreate] at hrun
            cases r with
            | ok h =>
                have hkeep := (openFresh_keeps (hquery (view z)) (hclose (view z)) h st z rfl).2 o
                  (congrArg Prod.fst hrun)
                rw [hkeep.2] at ho
                cases ho
            | error e =>
                dsimp only at hrun
                split_ifs at hrun
                · have hkeep := openReparse_keeps (hopen (view z)) (hquery (view z)) (hclose (view z)) d w fl
                    z rfl
                  rw [KeepsAt, hrun] at hkeep
                  exact hkeep.1.trans (hN.refused _ _ _ _ _ _ _ _ hcreate)
                · cases hrun

section Openat

def AT_FDCWD : ℤ := -100
def FILE_KIND_HOST : ℕ := 1
def FILE_KIND_HOSTDIR : ℕ := 2
def FILE_KIND_DEV : ℕ := 4
def FILE_KIND_PROC : ℕ := 5
def FILE_KIND_CONSOLE : ℕ := 6
def FILE_KIND_SYMLINK : ℕ := 7

def OpenFile.made : OpenFile η → ℕ × UInt32
  | .host _ .host flags _ _ => (FILE_KIND_HOST, flags)
  | .host _ .hostdir flags _ _ => (FILE_KIND_HOSTDIR, flags)
  | .host _ .symlink flags _ _ => (FILE_KIND_SYMLINK, flags)
  | .synth f flags _ => match f with
    | .devDir => (FILE_KIND_DEV, flags)
    | .devNode _ _ => (FILE_KIND_DEV, flags)
    | _ => (FILE_KIND_PROC, flags)

/-- `base_of`; of a description it is given the path, if it is of a directory. -/
def baseOf (t : FdState) (dirPath : ℕ → Option Bytes) (dirfd : ℤ) (path : Bytes) :
    Except Errno (Option Bytes) :=
  if path.head? = some slash then .ok none
  else if dirfd = AT_FDCWD then .ok none
  else match t.fdGet dirfd with
    | none => .error .EBADF
    | some (_, f) =>
      if path = [] then .ok none
      else match dirPath f with
        | none => .error .ENOTDIR
        | some p => .ok (some p)

/-- The start of `sys_openat`, from what `copy_path` answers: where the path starts, and the path. -/
def openatPath (t : FdState) (dirPath : ℕ → Option Bytes) (dirfd : ℤ) (copied : Except Errno Bytes) :
    Except Errno (Option Bytes × Bytes) := do
  let path ← copied
  let base ← baseOf t dirPath dirfd path
  if path = [] then throw .ENOENT else pure (base, path)

/-- The end of `sys_openat`, from the answer of `fd_install`: without a free descriptor the
description is dropped. -/
def installed (K : Kernel η σ) (f : OpenFile η) (x : σ) (r : Except Errno ℤ × FdState) :
    Except Errno ℤ × (σ × FdState) :=
  match r.1 with
  | .ok fd => (.ok fd, (x, r.2))
  | .error e => (.error e, ((filePut K f x).2, r.2))

def openatEnd (K : Kernel η σ) (flags : UInt32) (r : Except Errno (OpenFile η) × σ) (t : FdState) :
    Except Errno ℤ × (σ × FdState) :=
  match r with
  | (.error e, x) => (.error e, (x, t))
  | (.ok f, x) => installed K f x (t.sysOpen flags (.ok f.made))

def sysOpenat (K : Kernel η σ) (fs : FsCtx η) (dirPath : ℕ → Option Bytes) (dirfd : ℤ)
    (copied : Except Errno Bytes) (flags mode : UInt32) (s : σ × FdState) :
    Except Errno ℤ × (σ × FdState) :=
  match openatPath s.2 dirPath dirfd copied with
  | .error e => (.error e, s)
  | .ok (base, path) => openatEnd K flags ((vfsOpen K fs base path flags mode).run s.1) s.2

/-- The host shows what it showed, the table is as it was, and so are the descriptions, save one that
was made and is gone. -/
structure Untouched (view : σ → ν) (s s' : σ × FdState) : Prop where
  host : view s'.1 = view s.1
  files : s'.2.files = s.2.files
  cloexec : s'.2.cloexec = s.2.cloexec
  descriptions : ∀ f, s'.2.heap f = s.2.heap f ∨ f = s.2.next ∧ (s'.2.heap f).refs = 0

/-- The host shows what it showed, the same handles are open, the table is as it was, and so are
the descriptions, save one that was made and is gone. -/
structure Unchanged (view : σ → ν) (s s' : (σ × Ledger) × FdState) : Prop where
  host : view s'.1.1 = view s.1.1
  handles : s'.1.2.held.Perm s.1.2.held
  proper : s'.1.2.misused = s.1.2.misused
  files : s'.2.files = s.2.files
  cloexec : s'.2.cloexec = s.2.cloexec
  descriptions : ∀ f, s'.2.heap f = s.2.heap f ∨ f = s.2.next ∧ (s'.2.heap f).refs = 0

theorem Unchanged.refl (view : σ → ν) (s : (σ × Ledger) × FdState) : Unchanged view s s :=
  ⟨rfl, List.Perm.refl _, rfl, rfl, rfl, fun _ => .inl rfl⟩

theorem sysOpen_room {t : FdState} (hroom : ∃ i, t.files i = none) (flags : UInt32) (made : ℕ × UInt32) :
    ∃ fd t', t.sysOpen flags (.ok made) = (.ok fd, t') := by
  rw [FdState.sysOpen, FdState.fdInstall, if_neg (by decide)]
  obtain ⟨i, hi⟩ := hroom
  rcases (t.fileNew made.1 made.2).2.lowestFree_cases (0 : ℤ).toNat with ⟨j, hj, _⟩ | ⟨_, hfull⟩
  · rw [hj]
    exact ⟨_, _, rfl⟩
  · exact absurd hi (hfull i (Nat.zero_le _))

/-- Without a free descriptor the new description is dropped again. -/
theorem sysOpen_full {t : FdState} (hfull : ¬ ∃ i, t.files i = none) (flags : UInt32)
    (made : ℕ × UInt32) :
    ∃ t', t.sysOpen flags (.ok made) = (.error .EMFILE, t') ∧ t'.files = t.files ∧
      t'.cloexec = t.cloexec ∧ ∀ f, t'.heap f = t.heap f ∨ f = t.next ∧ (t'.heap f).refs = 0 := by
  rw [FdState.sysOpen, FdState.fdInstall, if_neg (by decide)]
  rcases (t.fileNew made.1 made.2).2.lowestFree_cases (0 : ℤ).toNat with ⟨j, _, _, hj, _⟩ | ⟨hnone, _⟩
  · exact absurd ⟨j, hj⟩ hfull
  · rw [hnone]
    refine ⟨_, rfl, rfl, rfl, fun f => ?_⟩
    by_cases hf : f = t.next
    · refine .inr ⟨hf, ?_⟩
      subst hf
      simp [FdState.filePut, FdState.fileNew, Desc.put_refs]
    · refine .inl ?_
      simp [FdState.filePut, FdState.fileNew, hf]

theorem baseOf_based {t : FdState} {dirPath : ℕ → Option Bytes} {dirfd : ℤ} {base : Option Bytes}
    {path cwd : Bytes} (hcwd : Canonical cwd) (hdirs : ∀ f p, dirPath f = some p → Canonical p)
    (h : baseOf t dirPath dirfd path = .ok base) : Canonical (base.getD cwd) := by
  rw [baseOf] at h
  by_cases hpath : path.head? = some slash ∨ dirfd = AT_FDCWD
  · have hnone : base = none := by
      rcases hpath with hpath | hpath
      · rw [if_pos hpath] at h
        cases h
        rfl
      · rw [if_pos hpath] at h
        split_ifs at h
        all_goals
          cases h
          rfl
    rw [hnone]
    exact hcwd
  · obtain ⟨hslash, hat⟩ := not_or.mp hpath
    rw [if_neg hslash, if_neg hat] at h
    cases hg : t.fdGet dirfd with
    | none =>
        rw [hg] at h
        cases h
    | some slot =>
        rw [hg] at h
        dsimp only at h
        by_cases hp : path = []
        · rw [if_pos hp] at h
          cases h
          exact hcwd
        · rw [if_neg hp] at h
          cases hd : dirPath slot.2 with
          | none =>
              rw [hd] at h
              cases h
          | some q =>
              rw [hd] at h
              cases h
              exact hdirs _ _ hd

theorem openatPath_based {t : FdState} {dirPath : ℕ → Option Bytes} {dirfd : ℤ}
    {copied : Except Errno Bytes} {base : Option Bytes} {path cwd : Bytes} (hcwd : Canonical cwd)
    (hdirs : ∀ f p, dirPath f = some p → Canonical p)
    (h : openatPath t dirPath dirfd copied = .ok (base, path)) : Canonical (base.getD cwd) := by
  cases copied with
  | error e => cases h
  | ok p =>
      cases hb : baseOf t dirPath dirfd p with
      | error e =>
          change (baseOf t dirPath dirfd p >>= fun b => _) = _ at h
          rw [hb] at h
          cases h
      | ok b =>
          change (baseOf t dirPath dirfd p >>= fun b => _) = _ at h
          rw [hb] at h
          change (if p = [] then throw Errno.ENOENT else pure (b, p)) = Except.ok (base, path) at h
          split_ifs at h
          cases h
          exact baseOf_based hcwd hdirs hb

/-- The end of the call, from the answer of `vfs_open`. -/
theorem openatEnd_untouched_iff {K : Kernel η σ} {view : σ → ν}
    (hclose : ∀ h x, view (K.store.close h x).2 = view x) {flags : UInt32} {s : σ × FdState}
    {m : Call Errno σ (OpenFile η)} :
    (∀ e s', openatEnd K flags (m.run s.1) s.2 = (.error e, s') → Untouched view s s') ↔
      Clean view (∃ i, s.2.files i = none) m s.1 := by
  rw [Clean]
  cases hrun : m.run s.1 with
  | mk r x =>
      cases r with
      | error e =>
          refine ⟨fun h => .inr (h e _ rfl).host, fun h e' s' he => ?_⟩
          have hs' : (x, s.2) = s' := congrArg Prod.snd he
          subst hs'
          rcases h with ⟨_, a, y, h⟩ | h
          · cases congrArg Prod.fst h
          · exact ⟨h, rfl, rfl, fun _ => .inl rfl⟩
      | ok f =>
          have hview : view (filePut K f x).2 = view x := by
            cases f with
            | host h kind flags path mnt => exact hclose h x
            | synth f flags path => rfl
          rw [openatEnd, installed]
          by_cases hroom : ∃ i, s.2.files i = none
          · obtain ⟨fd, t', hopen⟩ := sysOpen_room hroom flags f.made
            rw [hopen]
            refine iff_of_true (fun e s' h => ?_) (.inl ⟨hroom, f, x, rfl⟩)
            cases congrArg Prod.fst h
          · obtain ⟨t', hopen, hfiles, hcloexec, hheap⟩ := sysOpen_full hroom flags f.made
            rw [hopen]
            refine ⟨fun h => .inr (hview.symm.trans (h _ _ rfl).host), fun h e s' he => ?_⟩
            have hs' : ((filePut K f x).2, t') = s' := congrArg Prod.snd he
            subst hs'
            rcases h with ⟨h, _⟩ | h
            · exact absurd h hroom
            · exact ⟨hview.trans h, hfiles, hcloexec, hheap⟩

/-- What the call holds when it fails. -/
theorem openatEnd_error {K : Kernel η σ} {flags : UInt32} {s s' : σ × FdState} {m : Call Errno σ (OpenFile η)}
    {e : Errno} (h : openatEnd K flags (m.run s.1) s.2 = (.error e, s')) :
    m.run s.1 = (.error e, s'.1) ∨ ∃ f x, m.run s.1 = (.ok f, x) ∧ s'.1 = (filePut K f x).2 := by
  cases hrun : m.run s.1 with
  | mk r x =>
      rw [hrun] at h
      cases r with
      | error e' =>
          cases h
          exact .inl rfl
      | ok f =>
          refine .inr ⟨f, x, rfl, ?_⟩
          rw [openatEnd, installed] at h
          cases hopen : (s.2.sysOpen flags (.ok f.made)).1 with
          | ok fd =>
              rw [hopen] at h
              cases h
          | error e' =>
              rw [hopen] at h
              cases h
              rfl

theorem installed_unchanged_iff {K : Kernel (η × ℕ) (σ × Ledger)} {view : σ → ν}
    (hclose : ∀ h x, view (K.store.close h x).2.1 = view x.1) {flags : UInt32}
    {s : (σ × Ledger) × FdState} {m : Call Errno (σ × Ledger) (OpenFile (η × ℕ))}
    (hfailed : ∀ e x, m.run s.1 = (.error e, x) → x.2.held.Perm s.1.2.held ∧ x.2.misused = s.1.2.misused)
    (hdropped : ∀ f x, m.run s.1 = (.ok f, x) → (filePut K f x).2.2.held.Perm s.1.2.held ∧
      (filePut K f x).2.2.misused = s.1.2.misused) :
    (∀ e s', openatEnd K flags (m.run s.1) s.2 = (.error e, s') → Unchanged view s s') ↔
      Clean (fun z : σ × Ledger => view z.1) (∃ i, s.2.files i = none) m s.1 := by
  have hheld : ∀ e s', openatEnd K flags (m.run s.1) s.2 = (.error e, s') →
      s'.1.2.held.Perm s.1.2.held ∧ s'.1.2.misused = s.1.2.misused := by
    intro e s' h
    rcases openatEnd_error h with hrun | ⟨f, x, hrun, hx⟩
    · exact hfailed e _ hrun
    · rw [hx]
      exact hdropped f x hrun
  rw [← openatEnd_untouched_iff hclose]
  constructor
  · intro h e s' he
    have hun := h e s' he
    exact ⟨hun.host, hun.files, hun.cloexec, hun.descriptions⟩
  · intro h e s' he
    have hkept := h e s' he
    obtain ⟨hhandles, hproper⟩ := hheld e s' he
    exact ⟨hkept.host, hhandles, hproper, hkept.files, hkept.cloexec, hkept.descriptions⟩

/-- A failing `openat` changes nothing, if and only if each open that it asks the host for is
harmless. -/
theorem openat_failure_changes_nothing_iff {nt : Nt η σ} {rest : HostStore η σ} {view : σ → ν}
    (hN : nt.Quiet rest view) {proc : ProcView} {stack : Bytes} {fs : FsCtx (η × ℕ)}
    (hcwd : Canonical fs.cwd) {dirPath : ℕ → Option Bytes}
    (hdirs : ∀ f p, dirPath f = some p → Canonical p) {ns : List ℕ} (hroots : RootsHeld fs.table ns)
    {s : (σ × Ledger) × FdState} (hs : Holds ns s.1) (dirfd : ℤ) (copied : Except Errno Bytes)
    (flags mode : UInt32) :
    (∀ e s', sysOpenat (countedKernel (nt.store rest) proc stack) fs dirPath dirfd copied flags mode s =
      (.error e, s') → Unchanged view s s') ↔
    ∀ base path, openatPath s.2 dirPath dirfd copied = .ok (base, path) →
      ∀ q z, VfsAsks (countedKernel (nt.store rest) proc stack) fs flags mode base path s.1 q z →
        q.Harmless (nt.store rest).counted (fun z => view z.1) (∃ i, s.2.files i = none) flags z := by
  have hQ : Quiet (countedKernel (nt.store rest) proc stack).store (fun z => view z.1) := hN.store.counted
  rw [sysOpenat]
  cases hpath : openatPath s.2 dirPath dirfd copied with
  | error e =>
      refine iff_of_true (fun e' s' h => ?_) fun base path h => by cases h
      cases h
      exact Unchanged.refl view s
  | ok start =>
      obtain ⟨base, path⟩ := start
      have hbase : Canonical (base.getD fs.cwd) := openatPath_based hcwd hdirs hpath
      have hclean : Clean (fun z : σ × Ledger => view z.1) (∃ i, s.2.files i = none)
          (vfsOpen (countedKernel (nt.store rest) proc stack) fs base path flags mode) s.1 ↔ _ :=
        vfsOpen_clean_iff hQ hbase path s.1
      have hends : Ends (Holds ns) (vfsOpen (countedKernel (nt.store rest) proc stack) fs base path flags
          mode) _ _ := vfsOpen_ends hroots hbase path flags mode
      obtain ⟨hok, herror⟩ := hends s.1 hs
      have hsame : ∀ x : σ × Ledger, Holds ns x → x.2.held.Perm s.1.2.held ∧ x.2.misused = s.1.2.misused :=
        fun x hx => ⟨hx.held.trans hs.held.symm, hx.proper.trans hs.proper.symm⟩
      have hend : (∀ e s', openatEnd (countedKernel (nt.store rest) proc stack) flags _ s.2 =
          (.error e, s') → Unchanged view s s') ↔ _ :=
        installed_unchanged_iff (fun h x => close_quiet hQ h x) (fun e x h => hsame x (herror e x h))
          (fun f x h => hsame _ (filePut_holds f x (hok f x h)))
      constructor
      · intro h base' path' he
        cases he
        exact (hend.trans hclean).mp h
      · intro h
        exact (hend.trans hclean).mpr (h base path rfl)

end Openat

def fullTable : FdState where
  files _ := some 0
  cloexec _ := false
  heap _ := { refs := NR_OPEN_DEFAULT, kind := FILE_KIND_CONSOLE, flags := O_RDWR, pos := 0, releases := 0 }
  next := 1

/-- The host with a root and room for a file `f`, its root's handle open. -/
def emptyRoot : Bool × Ledger := (false, ⟨[0], 1, false⟩)

def oneNameRoot : FsCtx (Bool × ℕ) := FsCtx.initial (false, 0) 1 true

/-- The superuser's exclusive open of `/f` for writing. -/
def openatF (t : FdState) : Except Errno ℤ × ((Bool × Ledger) × FdState) :=
  sysOpenat (countedKernel (oneNameNt.store HostStore.idle) oneNameKernel.proc []) oneNameRoot
    (fun _ => none) AT_FDCWD (.ok (str "/f")) (O_CREAT ||| O_EXCL ||| O_WRONLY) 0o644 (emptyRoot, t)

/-- With a full table the call fails, and the file is there. -/
theorem failing_openat_makes_f :
    (openatF fullTable).1 = .error .EMFILE ∧ ¬ Unchanged id (emptyRoot, fullTable) (openatF fullTable).2 := by
  refine ⟨by decide +kernel, fun h => ?_⟩
  have hmade : (openatF fullTable).2.1.1 = true := by decide +kernel
  exact Bool.noConfusion (hmade.symm.trans h.host)

theorem oneNameNt_quiet : oneNameNt.Quiet HostStore.idle id where
  opened d w a o x := by
    unfold oneNameNt
    dsimp only [ExceptT.run, ExceptT.mk]
    split_ifs <;> rfl
  refused d w a disp o x e y hrun := by
    unfold oneNameNt at hrun
    dsimp only [ExceptT.run, ExceptT.mk] at hrun
    cases disp <;> dsimp only at hrun <;> (try split_ifs at hrun) <;> cases hrun <;> rfl
  queried _ _ := rfl
  closed _ _ := rfl
  readlink _ _ := rfl
  now _ := rfl
  alloc _ := rfl

theorem rootsHeld_initial (root : η × ℕ) (dev : UInt64) (lxCapable : Bool) :
    RootsHeld (MountTable.initial root dev lxCapable) [root.2] := by
  intro m hm r hr
  rcases List.mem_cons.mp hm with rfl | hm
  · cases hr
    exact List.mem_singleton_self _
  · rcases List.mem_cons.mp hm with rfl | hm
    · cases hr
    · rw [List.mem_singleton.mp hm] at hr
      cases hr

/-- The host with the file `f`, its root's handle open. -/
def rootWithF : Bool × Ledger := (true, ⟨[0], 1, false⟩)

/-- The same open where the file is there. -/
def openatThere : Except Errno ℤ × ((Bool × Ledger) × FdState) :=
  sysOpenat (countedKernel (oneNameNt.store HostStore.idle) oneNameKernel.proc []) oneNameRoot
    (fun _ => none) AT_FDCWD (.ok (str "/f")) (O_CREAT ||| O_EXCL ||| O_WRONLY) 0o644 (rootWithF, fdtableInit)

theorem openatThere_refused : openatThere.1 = .error .EEXIST ∧ Unchanged id (rootWithF, fdtableInit) openatThere.2 :=
  ⟨by decide +kernel, by decide +kernel, by decide +kernel, by decide +kernel, rfl, rfl, fun _ => .inl rfl⟩

/-- Where the file is there the call fails and changes nothing, and with a free descriptor and no file it
succeeds. In both each open that it asks for is harmless. -/
theorem openat_f_harmless :
    openatThere.1 = .error .EEXIST ∧ (openatF fdtableInit).1.isOk = true ∧
    ∀ x ∈ [rootWithF, emptyRoot],
      ∀ base path, openatPath fdtableInit (fun _ => none) AT_FDCWD (.ok (str "/f")) = .ok (base, path) →
        ∀ q z, VfsAsks (countedKernel (oneNameNt.store HostStore.idle) oneNameKernel.proc []) oneNameRoot
          (O_CREAT ||| O_EXCL ||| O_WRONLY) 0o644 base path x q z →
            q.Harmless (oneNameNt.store HostStore.idle).counted (fun z => id z.1)
              (∃ i, fdtableInit.files i = none) (O_CREAT ||| O_EXCL ||| O_WRONLY) z := by
  have hroots : RootsHeld oneNameRoot.table [0] := rootsHeld_initial (false, 0) 1 true
  have hcwd : Canonical oneNameRoot.cwd := Canonical.root
  have hok : (openatF fdtableInit).1.isOk = true := by decide +kernel
  obtain ⟨hexist, hkept⟩ := openatThere_refused
  refine ⟨hexist, hok, fun x hx => ?_⟩
  have hs : Holds [0] x := by
    rcases List.mem_pair.mp hx with rfl | rfl
    · exact ⟨List.Perm.refl _, by decide, by decide, rfl⟩
    · exact ⟨List.Perm.refl _, by decide, by decide, rfl⟩
  apply (openat_failure_changes_nothing_iff (s := (x, fdtableInit)) oneNameNt_quiet hcwd (by simp)
    hroots hs AT_FDCWD (.ok (str "/f")) (O_CREAT ||| O_EXCL ||| O_WRONLY) 0o644).mp
  intro e s' h
  rcases List.mem_pair.mp hx with rfl | rfl
  · have hs' : openatThere.2 = s' := congrArg Prod.snd h
    exact hs' ▸ hkept
  · rw [openatF, h] at hok
    cases hok

end SysvNt
