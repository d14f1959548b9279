import SysvNt.DescriptorSessions
import SysvNt.HandleRuns
import SysvNt.Task

/-!
# The account of a process

What a process holds on the host and in its rings follows from the descriptions that something refers to: a
handle for each that is open on the host, beside those of the mounts, and in each ring as many readers and
writers as there are descriptions of its ends. The account is kept when a reference is dropped or taken and
when a description is made.
-/

namespace SysvNt

open FallibleCalls FdState FileOps Ownership RefCounting

variable {η σ α : Type}

def FdState.live (t : FdState) : List ℕ := (List.range t.next).filter fun k => 0 < (t.heap k).refs

section Live

variable {t u : FdState} {held : List ℕ} {k : ℕ}

theorem nodup_live (t : FdState) : t.live.Nodup := List.nodup_range.filter _

theorem Balanced.mem_live (h : Balanced t held) : k ∈ t.live ↔ 0 < (t.heap k).refs := by
  rw [FdState.live, List.mem_filter, List.mem_range, decide_eq_true_eq]
  exact ⟨fun hk => hk.2, fun hk => ⟨((h.settled k).live hk).1, hk⟩⟩

theorem live_congr (hnext : u.next = t.next) (hrefs : ∀ k, 0 < (u.heap k).refs ↔ 0 < (t.heap k).refs) :
    u.live = t.live := by
  rw [FdState.live, FdState.live, hnext]
  refine List.filter_congr fun k _ => ?_
  rw [decide_eq_decide]
  exact hrefs k

/-- A reference more or less, of which there are others. -/
theorem live_update {d : Desc} (hk : 0 < (t.heap k).refs) (hd : 0 < d.refs)
    (hheap : u.heap = Function.update t.heap k d) (hnext : u.next = t.next) : u.live = t.live := by
  refine live_congr hnext fun j => ?_
  rw [hheap]
  by_cases hj : j = k
  · rw [hj, Function.update_self]
    exact iff_of_true hd hk
  · rw [Function.update_of_ne hj]

theorem live_fileNew (t : FdState) (kind : ℕ) (flags : UInt32) :
    (t.fileNew kind flags).2.live = t.live ++ [t.next] := by
  rw [FdState.live, FdState.live, FdState.fileNew]
  dsimp only
  rw [List.range_succ, List.filter_append]
  congr 1
  · refine List.filter_congr fun k hk => ?_
    rw [decide_eq_decide, Function.update_of_ne (List.mem_range.mp hk).ne]
  · simp

/-- The last reference takes the description with it. -/
theorem Balanced.live_last (h : Balanced t held) (hk : 0 < (t.heap k).refs) (hlast : ¬ 0 < (t.heap k).refs - 1) :
    t.live.Perm (k :: (t.filePut k).live) := by
  refine (List.perm_ext_iff_of_nodup (nodup_live t) (List.nodup_cons.mpr ⟨?_, nodup_live _⟩)).mpr fun j => ?_
  · rw [FdState.live, List.mem_filter, decide_eq_true_eq, FdState.filePut]
    dsimp only
    rw [Function.update_self, Desc.put_refs]
    exact fun hmem => hlast hmem.2
  · rw [List.mem_cons, h.mem_live, FdState.live, List.mem_filter, List.mem_range, decide_eq_true_eq,
      FdState.filePut]
    dsimp only
    by_cases hj : j = k
    · subst hj
      exact iff_of_true hk (.inl rfl)
    · rw [Function.update_of_ne hj]
      refine ⟨fun hpos => .inr ⟨((h.settled j).live hpos).1, hpos⟩, fun hor => ?_⟩
      exact (hor.resolve_left hj).2

theorem put_flags (d : Desc) : d.put.flags = d.flags := by
  rw [Desc.put]
  split_ifs <;> rfl

theorem flags_update {d : Desc} (hd : d.flags = (t.heap k).flags) (j : ℕ) :
    (Function.update t.heap k d j).flags = (t.heap j).flags := by
  by_cases hj : j = k
  · rw [hj, Function.update_self, hd]
  · rw [Function.update_of_ne hj]

end Live

/-- The files of the host with the handles of a counted store. -/
def FileOps.FileIo.counted (io : FileIo η σ) : FileIo (η × ℕ) (σ × Ledger) where
  pread h n off := onHandles [h.2] (io.pread h.1 n off)
  pwrite h b off append := onHandles [h.2] (io.pwrite h.1 b off append)
  directory h x := io.directory h.1 x.1
  copyOut a b := offLedger (io.copyOut a b)
  copyIn a n := offLedger (io.copyIn a n)
  bounce := offLedger io.bounce
  random n := offLedger (io.random n)
  consoleRead n := onHandles [] (io.consoleRead n)
  consoleWrite b := onHandles [] (io.consoleWrite b)

/-- What lies outside of the core, with an account of its handles. -/
def Platform.counted (M : Platform η σ) : Platform (η × ℕ) (σ × Ledger) where
  store := M.store.counted
  io := M.io.counted
  fsync h := onHandles [h.2] (M.fsync h.1)
  consoleRead fd len := onHandles [] (M.consoleRead fd len)
  consoleWrite fd b := onHandles [] (M.consoleWrite fd b)
  user x := M.user x.1
  openRoot path := ExceptT.mk fun s => match (M.openRoot path).run s.1 with
    | (.ok h, y) => (.ok (h, s.2.next), y, s.2.give)
    | (.error e, y) => (.error e, y, s.2)
  volumeSerial h s := ((M.volumeSerial h.1 s.1).1, (M.volumeSerial h.1 s.1).2, s.2.use h.2)
  lxCapable h s := ((M.lxCapable h.1 s.1).1, (M.lxCapable h.1 s.1).2, s.2.use h.2)
  setCaseSensitive h := onHandles [h.2] (M.setCaseSensitive h.1)
  exe := M.exe
  maps := M.maps
  frame := M.frame
  beyond := M.beyond

def OpenDescription.handles : OpenDescription (η × ℕ) → List ℕ
  | .opened f => f.handles
  | .pipe _ => []
  | .console => []

def OpenDescription.openFile : OpenDescription η → Option (OpenFile η)
  | .opened f => some f
  | .pipe _ => none
  | .console => none

def OpenDescription.isPipe : OpenDescription η → Bool
  | .pipe _ => true
  | .opened _ => false
  | .console => false

/-- The two rings have the same ends and were freed as often. -/
structure SameEnds (c d : RingCell) : Prop where
  readers : d.p.readers = c.p.readers
  writers : d.p.writers = c.p.writers
  frees : d.frees = c.frees

theorem SameEnds.refl (c : RingCell) : SameEnds c c := ⟨rfl, rfl, rfl⟩

/-- A ring has these numbers of ends for reading and for writing, and was freed once if there are none. -/
structure RingCell.Counts (c : RingCell) (ends : Bool → ℕ) : Prop where
  readers : c.p.readers = ends true
  writers : c.p.writers = ends false
  frees : c.frees = if ends true = 0 ∧ ends false = 0 then 1 else 0

theorem RingCell.Counts.congr {c d : RingCell} {ends ends' : Bool → ℕ} (h : c.Counts ends) (hcell : SameEnds c d)
    (hends : ∀ reading, ends' reading = ends reading) : d.Counts ends' where
  readers := by rw [hcell.readers, h.readers, hends]
  writers := by rw [hcell.writers, h.writers, hends]
  frees := by rw [hcell.frees, h.frees, hends, hends]

/-- `pipe_release` takes the end that goes out of the ring, and frees it after the last. -/
theorem RingCell.Counts.release {c : RingCell} {before after : Bool → ℕ} {flags : UInt32} (h : c.Counts before)
    (hends : ∀ b, before b = after b + if (decide (flags &&& O_ACCMODE = O_RDONLY) == b) = true then 1 else 0) :
    (c.release flags).Counts after := by
  obtain ⟨hreaders, hwriters, hfrees⟩ := h
  by_cases hrd : flags &&& O_ACCMODE = O_RDONLY
  · have htrue : before true = after true + 1 := by simpa [hrd] using hends true
    have hfalse : before false = after false := by simpa [hrd] using hends false
    rw [htrue, hfalse, if_neg fun h => Nat.succ_ne_zero _ h.1] at hfrees
    constructor <;> simp [RingCell.release, pipeRelease, hrd, hreaders, hwriters, hfrees, htrue, hfalse]
  · have htrue : before true = after true := by simpa [hrd] using hends true
    have hfalse : before false = after false + 1 := by simpa [hrd] using hends false
    rw [htrue, hfalse, if_neg fun h => Nat.succ_ne_zero _ h.2] at hfrees
    constructor <;> simp [RingCell.release, pipeRelease, hrd, hreaders, hwriters, hfrees, htrue, hfalse]

namespace Task

def endOf (p : Task η σ) (r : ℕ) (reading : Bool) (k : ℕ) : Bool :=
  (p.file k).isPipe && decide (p.privI k = r) && (decide ((p.fdt.heap k).flags &&& O_ACCMODE = O_RDONLY) == reading)

def ends (p : Task η σ) (r : ℕ) (reading : Bool) : ℕ := p.fdt.live.countP (p.endOf r reading)

def handles (T : MountTable (η × ℕ)) (p : Task (η × ℕ) (σ × Ledger)) : List ℕ :=
  (p.fdt.live.flatMap fun k => (p.file k).handles) ++ T.rootHandles

/-- The account of a process, of whose descriptions the code that runs has the references `held`. -/
structure Sound (T : MountTable (η × ℕ)) (held : List ℕ) (p : Task (η × ℕ) (σ × Ledger)) : Prop where
  table : p.fs.table = T
  cwd : Canonical p.fs.cwd
  fds : Balanced p.fdt held
  made : ∀ k, (p.file k).Made T
  handles : Holds (p.handles T) p.host
  rings : ∀ r < p.nextRing, (p.rings r).Counts (p.ends r)
  known : ∀ k ∈ p.fdt.live, (p.file k).isPipe = true → p.privI k < p.nextRing

section Account

variable {T : MountTable (η × ℕ)} {held held' : List ℕ} {p q : Task (η × ℕ) (σ × Ledger)} {k : ℕ}

theorem endOf_congr {a b : Task η σ} {r : ℕ} {reading : Bool} (hfile : b.file k = a.file k)
    (hpriv : b.privI k = a.privI k)
    (hflags : (b.fdt.heap k).flags &&& O_ACCMODE = (a.fdt.heap k).flags &&& O_ACCMODE) :
    b.endOf r reading k = a.endOf r reading k := by
  rw [endOf, endOf, hfile, hpriv, hflags]

/-- What leaves the descriptions and the ends of the rings as they are. -/
structure SameObjects (a b : Task η σ) : Prop where
  live : b.fdt.live = a.fdt.live
  flags : ∀ k, (b.fdt.heap k).flags &&& O_ACCMODE = (a.fdt.heap k).flags &&& O_ACCMODE
  file : b.file = a.file
  privI : b.privI = a.privI
  rings : ∀ r, SameEnds (a.rings r) (b.rings r)
  nextRing : b.nextRing = a.nextRing

theorem SameObjects.ends {a b : Task η σ} (h : SameObjects a b) (r : ℕ) (reading : Bool) :
    b.ends r reading = a.ends r reading := by
  rw [Task.ends, Task.ends, h.live]
  refine List.countP_congr fun k _ => ?_
  rw [endOf_congr (congrFun h.file k) (congrFun h.privI k) (h.flags k)]

theorem Sound.of_sameObjects (hp : Sound T held p) (h : SameObjects p q) (hfds : Balanced q.fdt held')
    (hhost : Holds (p.handles T) q.host) (htable : q.fs.table = p.fs.table) (hcwd : Canonical q.fs.cwd) :
    Sound T held' q where
  table := htable.trans hp.table
  cwd := hcwd
  fds := hfds
  made := by
    rw [h.file]
    exact hp.made
  handles := by
    rw [Task.handles, h.live, h.file]
    exact hhost
  rings := by
    rw [h.nextRing]
    exact fun r hr => (hp.rings r hr).congr (h.rings r) (h.ends r)
  known := by
    rw [h.live, h.file, h.privI, h.nextRing]
    exact hp.known

/-- A change of the table that leaves the descriptions and their access as they are. -/
theorem Sound.setFdt {t : FdState} (hp : Sound T held p) (hfds : Balanced t held') (hlive : t.live = p.fdt.live)
    (hflags : ∀ k, (t.heap k).flags &&& O_ACCMODE = (p.fdt.heap k).flags &&& O_ACCMODE) :
    Sound T held' (p.setFdt t) :=
  hp.of_sameObjects ⟨hlive, hflags, rfl, rfl, fun _ => .refl _, rfl⟩ hfds hp.handles rfl hp.cwd

theorem Sound.withHost {x : σ × Ledger} (hp : Sound T held p) (hx : Holds (p.handles T) x) :
    Sound T held (p.withHost x) :=
  hp.of_sameObjects ⟨rfl, fun _ => rfl, rfl, rfl, fun _ => .refl _, rfl⟩ hp.fds hx rfl hp.cwd

theorem Sound.perm (hp : Sound T held p) (h : held.Perm held') : Sound T held' p :=
  hp.of_sameObjects ⟨rfl, fun _ => rfl, rfl, rfl, fun _ => .refl _, rfl⟩ (hp.fds.perm h) hp.handles rfl hp.cwd

theorem Sound.setFs {fs : FsCtx (η × ℕ)} (hp : Sound T held p) (htable : fs.table = p.fs.table)
    (hcwd : Canonical fs.cwd) : Sound T held { p with fs := fs } :=
  hp.of_sameObjects ⟨rfl, fun _ => rfl, rfl, rfl, fun _ => .refl _, rfl⟩ hp.fds hp.handles htable hcwd

/-- The handles without those of a description that goes. -/
theorem handles_last (hp : Sound T (k :: held) p) (hlast : ¬ 0 < (p.fdt.heap k).refs - 1) :
    (p.handles T).Perm ((p.file k).handles ++
      (((p.fdt.filePut k).live.flatMap fun j => (p.file j).handles) ++ T.rootHandles)) := by
  have hpos := hp.fds.counted.pos_of_held (List.mem_cons_self (a := k) (l := held))
  have hlive := (hp.fds.live_last hpos hlast).flatMap_right fun j => (p.file j).handles
  rw [List.flatMap_cons] at hlive
  rw [Task.handles, ← List.append_assoc]
  exact hlive.append_right _

theorem flags_fileGet (t : FdState) (k j : ℕ) : ((t.fileGet k).heap j).flags = (t.heap j).flags := by
  rw [FdState.fileGet]
  exact flags_update (d := { t.heap k with refs := (t.heap k).refs + 1 }) rfl j

theorem flags_filePut (t : FdState) (k j : ℕ) : ((t.filePut k).heap j).flags = (t.heap j).flags :=
  flags_update (put_flags _) j

/-- The process after the last reference to a description, with what the release leaves. -/
def dropped (a : Task η σ) (k : ℕ) (host : σ) (rings : ℕ → RingCell) : Task η σ :=
  { a with host := host, rings := rings, fdt := a.fdt.filePut k }

/-- The ends of a ring without a description that goes. -/
theorem ends_last (hp : Sound T (k :: held) p) (hlast : ¬ 0 < (p.fdt.heap k).refs - 1) (host : σ × Ledger)
    (rings : ℕ → RingCell) (r : ℕ) (reading : Bool) :
    p.ends r reading = (p.dropped k host rings).ends r reading + if p.endOf r reading k = true then 1 else 0 := by
  have hpos := hp.fds.counted.pos_of_held (List.mem_cons_self (a := k) (l := held))
  have hlive := (hp.fds.live_last hpos hlast).countP_eq (p.endOf r reading)
  have hsame (j : ℕ) : (p.dropped k host rings).endOf r reading j = p.endOf r reading j :=
    endOf_congr rfl rfl (congrArg (· &&& O_ACCMODE) (flags_filePut p.fdt k j))
  rw [List.countP_cons] at hlive
  rw [Task.ends, hlive, Task.ends]
  congr 1
  refine List.countP_congr fun j _ => ?_
  rw [hsame]

theorem Sound.dropped (hp : Sound T (k :: held) p) (hlast : ¬ 0 < (p.fdt.heap k).refs - 1) {host : σ × Ledger}
    {rings : ℕ → RingCell}
    (hhost : Holds (((p.fdt.filePut k).live.flatMap fun j => (p.file j).handles) ++ T.rootHandles) host)
    (hrings : ∀ r < p.nextRing, (rings r).Counts ((p.dropped k host rings).ends r)) :
    Sound T held (p.dropped k host rings) where
  table := hp.table
  cwd := hp.cwd
  fds := hp.fds.filePut
  made := hp.made
  handles := hhost
  rings := hrings
  known j hj := by
    have hpos := hp.fds.counted.pos_of_held (List.mem_cons_self (a := k) (l := held))
    exact hp.known j ((hp.fds.live_last hpos hlast).mem_iff.mpr (List.mem_cons_of_mem _ hj))

theorem endOf_not_pipe {a : Task η σ} (hk : (a.file k).isPipe = false) (r : ℕ) (reading : Bool) :
    a.endOf r reading k = false := by
  rw [endOf, hk]
  rfl

/-- The rings are as they were where no end of a pipe goes. -/
theorem counts_dropped (hp : Sound T (k :: held) p) (hlast : ¬ 0 < (p.fdt.heap k).refs - 1)
    (hk : (p.file k).isPipe = false) (host : σ × Ledger) (r : ℕ) (hr : r < p.nextRing) :
    (p.rings r).Counts ((p.dropped k host p.rings).ends r) := by
  refine (hp.rings r hr).congr (.refl _) fun reading => ?_
  rw [ends_last hp hlast host p.rings r reading, endOf_not_pipe hk, if_neg Bool.false_ne_true, Nat.add_zero]

theorem endOf_other {a : Task η σ} {r : ℕ} (hr : r ≠ a.privI k) (reading : Bool) : a.endOf r reading k = false := by
  rw [endOf, decide_eq_false (Ne.symm hr), Bool.and_false, Bool.false_and]

theorem endOf_own {a : Task η σ} (hk : (a.file k).isPipe = true) (reading : Bool) :
    a.endOf (a.privI k) reading k = (decide ((a.fdt.heap k).flags &&& O_ACCMODE = O_RDONLY) == reading) := by
  rw [endOf, hk, decide_eq_true rfl, Bool.and_true, Bool.true_and]

def releasedRings (a : Task η σ) (k : ℕ) : ℕ → RingCell :=
  Function.update a.rings (a.privI k) ((a.rings (a.privI k)).release (a.fdt.heap k).flags)

theorem counts_released (hp : Sound T (k :: held) p) (hlast : ¬ 0 < (p.fdt.heap k).refs - 1)
    (hk : (p.file k).isPipe = true) (r : ℕ) (hr : r < p.nextRing) :
    (p.releasedRings k r).Counts ((p.dropped k p.host (p.releasedRings k)).ends r) := by
  have hends := ends_last hp hlast p.host (p.releasedRings k) r
  by_cases hown : r = p.privI k
  · subst hown
    rw [releasedRings, Function.update_self]
    refine (hp.rings _ hr).release fun reading => ?_
    rw [hends reading, endOf_own hk]
    rfl
  · rw [releasedRings, Function.update_of_ne hown]
    refine (hp.rings r hr).congr (.refl _) fun reading => ?_
    have hreading := hends reading
    rw [endOf_other hown, if_neg Bool.false_ne_true, Nat.add_zero] at hreading
    exact hreading.symm

variable {M : Platform η σ}

theorem Sound.filePut (hp : Sound T (k :: held) p) : Sound T held (p.filePut M.counted k) := by
  have hpos := hp.fds.counted.pos_of_held (List.mem_cons_self (a := k) (l := held))
  rw [Task.filePut]
  by_cases hmore : 0 < (p.fdt.heap k).refs - 1
  · rw [if_pos hmore]
    refine hp.setFdt hp.fds.filePut (live_update hpos ?_ rfl rfl) fun j => ?_
    · rwa [Desc.put_refs]
    · rw [flags_filePut]
  · rw [if_neg hmore, Task.release]
    have hhandles := hp.handles.perm (handles_last hp hmore)
    cases hfile : p.file k with
    | opened f =>
        have hpipe : (p.file k).isPipe = false := by rw [hfile, OpenDescription.isPipe]
        rw [hfile] at hhandles
        exact hp.dropped hmore (filePut_holds f p.host hhandles) (counts_dropped hp hmore hpipe _)
    | pipe ino =>
        have hpipe : (p.file k).isPipe = true := by rw [hfile, OpenDescription.isPipe]
        rw [hfile] at hhandles
        exact hp.dropped hmore hhandles (counts_released hp hmore hpipe)
    | console =>
        have hpipe : (p.file k).isPipe = false := by rw [hfile, OpenDescription.isPipe]
        rw [hfile] at hhandles
        exact hp.dropped hmore hhandles (counts_dropped hp hmore hpipe _)

theorem Sound.mem_live (hp : Sound T held p) : k ∈ p.fdt.live ↔ 0 < (p.fdt.heap k).refs := hp.fds.mem_live

theorem Sound.fdInstall (hp : Sound T held p) (hk : 0 < (p.fdt.heap k).refs) (cloexec : Bool) (min : ℤ) :
    Sound T held (p.setFdt (p.fdt.fdInstall k cloexec min).2) := by
  have hfds := hp.fds.fdInstall hk cloexec min
  rw [FdState.fdInstall] at hfds ⊢
  by_cases hmin : min < 0
  · rw [if_pos hmin]
    exact hp
  · rw [if_neg hmin] at hfds ⊢
    cases hfree : p.fdt.lowestFree min.toNat with
    | none => exact hp
    | some i =>
        rw [hfree] at hfds
        refine hp.setFdt hfds (live_update hk ?_ rfl rfl) fun j => ?_
        · dsimp only
          omega
        · exact congrArg (· &&& O_ACCMODE) (flags_fileGet p.fdt k j)

/-- A slot gives its reference to the code that runs. -/
theorem Sound.unseat (hp : Sound T held p) {i : Slot} (hi : p.fdt.files i = some k) :
    Sound T (k :: held) (p.unseat i) :=
  hp.setFdt ((hp.fds.lift hi).mark i false) (live_congr rfl fun _ => Iff.rfl) fun _ => rfl

/-- A reference of the code that runs goes into an empty slot. -/
theorem Sound.reseat (hp : Sound T (k :: held) p) {i : Slot} (hi : p.fdt.files i = none) (cloexec : Bool) :
    Sound T held (p.reseat i k cloexec) :=
  hp.setFdt ((hp.fds.seat hi).mark i cloexec) (live_congr rfl fun _ => Iff.rfl) fun _ => rfl

theorem Sound.fdClose (hp : Sound T held p) (fd : ℤ) : Sound T held (p.fdClose M.counted fd).2 := by
  rw [Task.fdClose]
  cases hget : p.fdt.fdGet fd with
  | none => exact hp
  | some e =>
      obtain ⟨i, k⟩ := e
      obtain ⟨-, hi⟩ := fdGet_some hget
      exact (hp.unseat hi).filePut

theorem filePut_store {K K' : Kernel η σ} (h : K.store = K'.store) (f : OpenFile η) :
    SysvNt.filePut K f = SysvNt.filePut K' f := by
  cases f with
  | host hd kind flags path mnt => rw [SysvNt.filePut, SysvNt.filePut, h]
  | synth f flags path => rfl

theorem kernel_store (M : Platform η σ) (a : Task η σ) : (a.kernel M).store = M.store := rfl

/-- What a release does depends on the description alone, not on the rest of the table. -/
theorem filePut_setFdt (M : Platform η σ) (a : Task η σ) (g : ℕ) {t : FdState} (ht : t.heap = a.fdt.heap) :
    (a.setFdt t).filePut M g = (a.filePut M g).setFdt (t.filePut g) := by
  have hstore (f : OpenFile η) : SysvNt.filePut ((a.setFdt t).kernel M) f = SysvNt.filePut (a.kernel M) f :=
    filePut_store ((kernel_store M (a.setFdt t)).trans (kernel_store M a).symm) f
  have hheap : (a.setFdt t).fdt.heap g = a.fdt.heap g := congrFun ht g
  have hfile : (a.setFdt t).file g = a.file g := rfl
  rw [Task.filePut, Task.filePut, hheap]
  by_cases hmore : 0 < (a.fdt.heap g).refs - 1
  · rw [if_pos hmore, if_pos hmore]
    rfl
  · rw [if_neg hmore, if_neg hmore, Task.release, Task.release, hfile]
    cases a.file g with
    | opened f =>
        dsimp only
        rw [hstore]
        rfl
    | pipe ino =>
        dsimp only
        rw [hheap]
        rfl
    | console => rfl

theorem filePut_files (M : Platform η σ) (a : Task η σ) (g : ℕ) : (a.filePut M g).fdt = a.fdt.filePut g := by
  rw [Task.filePut]
  by_cases hmore : 0 < (a.fdt.heap g).refs - 1
  · rw [if_pos hmore]
  · rw [if_neg hmore, Task.release]
    cases a.file g <;> rfl

theorem filePut_reseat (M : Platform η σ) (a : Task η σ) (g : ℕ) (i : Slot) (k : ℕ) (cloexec : Bool) :
    (a.filePut M g).reseat i k cloexec = ((a.unseat i).filePut M g).reseat i k cloexec := by
  have htable (t : FdState) : ((((t.seat i none).mark i false).filePut g).seat i (some k)).mark i cloexec =
      ((t.filePut g).seat i (some k)).mark i cloexec := by
    simp [FdState.seat, FdState.mark, FdState.filePut]
  have hunseat : (a.unseat i).filePut M g = (a.filePut M g).setFdt (((a.fdt.seat i none).mark i false).filePut g) :=
    filePut_setFdt M a g rfl
  rw [hunseat, Task.reseat, Task.reseat, Task.setFdt, Task.setFdt, Task.setFdt, htable, filePut_files]

theorem Sound.putOld_reseat (hp : Sound T (k :: held) p) (i : Slot) (cloexec : Bool) :
    Sound T held ((p.putOld M.counted i).reseat i k cloexec) := by
  rw [Task.putOld]
  cases hold : p.fdt.files i with
  | none => exact hp.reseat hold cloexec
  | some g =>
      dsimp only
      rw [filePut_reseat]
      refine (hp.unseat hold).filePut.reseat ?_ cloexec
      rw [filePut_files]
      exact Function.update_self ..

theorem Sound.fdDup2 (hp : Sound T held p) (oldfd newfd : ℤ) (cloexec : Bool) :
    Sound T held (p.fdDup2 M.counted oldfd newfd cloexec).2 := by
  rw [Task.fdDup2]
  cases hget : p.fdt.fdGet oldfd with
  | none => exact hp
  | some e =>
      obtain ⟨j, k⟩ := e
      obtain ⟨-, hj⟩ := fdGet_some hget
      have hpos := hp.fds.counted.pos_of_slot hj
      have hgot : Sound T (k :: held) (p.setFdt (p.fdt.fileGet k)) := by
        refine hp.setFdt (hp.fds.fileGet hpos) (live_update hpos ?_ rfl rfl) fun j => ?_
        · dsimp only
          omega
        · exact congrArg (· &&& O_ACCMODE) (flags_fileGet p.fdt k j)
      cases hi : slotOf newfd with
      | none => exact hp
      | some i =>
          dsimp only
          by_cases hsame : oldfd = newfd
          · rw [if_pos hsame]
            exact hp
          · rw [if_neg hsame]
            exact hgot.putOld_reseat i cloexec

section Making

variable {a : Task η σ} (kind : ℕ) (flags : UInt32) (what : OpenDescription η) (privI : ℕ)

theorem file_made (a : Task η σ) : (a.fileNew kind flags what privI).file a.fdt.next = what := Function.update_self ..

theorem file_other (hk : k ≠ a.fdt.next) : (a.fileNew kind flags what privI).file k = a.file k :=
  Function.update_of_ne hk ..

/-- A description that was made before is as it was. -/
theorem fileNew_before (hk : k < a.fdt.next) :
    (a.fileNew kind flags what privI).file k = a.file k ∧ (a.fileNew kind flags what privI).privI k = a.privI k ∧
      (a.fileNew kind flags what privI).fdt.heap k = a.fdt.heap k :=
  ⟨file_other kind flags what privI hk.ne, Function.update_of_ne hk.ne .., Function.update_of_ne hk.ne ..⟩

theorem lt_next_of_live {t : FdState} (hk : k ∈ t.live) : k < t.next :=
  List.mem_range.mp (List.mem_filter.mp hk).1

theorem live_made (a : Task η σ) : (a.fileNew kind flags what privI).fdt.live = a.fdt.live ++ [a.fdt.next] :=
  live_fileNew a.fdt kind flags

def newEnd (r : ℕ) (reading : Bool) : Bool :=
  what.isPipe && decide (privI = r) && (decide (flags &&& O_ACCMODE = O_RDONLY) == reading)

theorem ends_fileNew (a : Task η σ) (r : ℕ) (reading : Bool) :
    (a.fileNew kind flags what privI).ends r reading =
      a.ends r reading + if newEnd flags what privI r reading = true then 1 else 0 := by
  have hnew : (a.fileNew kind flags what privI).endOf r reading a.fdt.next = newEnd flags what privI r reading := by
    simp [endOf, newEnd, Task.fileNew, FdState.fileNew]
  rw [Task.ends, live_made, List.countP_append, List.countP_singleton, hnew, Task.ends]
  congr 1
  refine List.countP_congr fun k hk => ?_
  obtain ⟨hfile, hpriv, hheap⟩ := fileNew_before kind flags what privI (lt_next_of_live hk)
  rw [endOf_congr hfile hpriv (by rw [hheap])]

theorem known_fileNew {bound : ℕ} (hknown : ∀ k ∈ a.fdt.live, (a.file k).isPipe = true → a.privI k < bound)
    (hwhat : what.isPipe = true → privI < bound) :
    ∀ k ∈ (a.fileNew kind flags what privI).fdt.live, ((a.fileNew kind flags what privI).file k).isPipe = true →
      (a.fileNew kind flags what privI).privI k < bound := by
  intro k hk hpipe
  rw [live_made, List.mem_append, List.mem_singleton] at hk
  rcases hk with hk | rfl
  · obtain ⟨hfile, hpriv, -⟩ := fileNew_before kind flags what privI (lt_next_of_live hk)
    rw [hpriv]
    exact hknown k hk (hfile ▸ hpipe)
  · rw [file_made] at hpipe
    rw [Task.fileNew]
    dsimp only
    rw [Function.update_self]
    exact hwhat hpipe

end Making

theorem handles_fileNew (T : MountTable (η × ℕ)) (p : Task (η × ℕ) (σ × Ledger)) (kind : ℕ) (flags : UInt32)
    (what : OpenDescription (η × ℕ)) (privI : ℕ) :
    ((p.fileNew kind flags what privI).handles T).Perm (what.handles ++ p.handles T) := by
  have hold : (p.fdt.live.flatMap fun k => ((p.fileNew kind flags what privI).file k).handles) =
      p.fdt.live.flatMap fun k => (p.file k).handles := by
    refine List.flatMap_congr fun k hk => ?_
    rw [(fileNew_before kind flags what privI (lt_next_of_live hk)).1]
  rw [Task.handles, live_made, List.flatMap_append, hold, List.flatMap_singleton, file_made, Task.handles,
    ← List.append_assoc]
  exact List.perm_append_comm.append_right _

theorem made_fileNew (hp : ∀ k, (p.file k).Made T) {what : OpenDescription (η × ℕ)} (hwhat : what.Made T) (kind : ℕ)
    (flags : UInt32) (privI : ℕ) (k : ℕ) : ((p.fileNew kind flags what privI).file k).Made T := by
  by_cases hk : k = p.fdt.next
  · rw [hk, file_made]
    exact hwhat
  · rw [file_other kind flags what privI hk]
    exact hp k

/-- A description of an object that is no pipe's, with the handle that was opened for it. -/
theorem Sound.fileNew (hp : Sound T held p) {what : OpenDescription (η × ℕ)} (hwhat : what.Made T)
    (hpipe : what.isPipe = false) {host : σ × Ledger} (hhost : Holds (what.handles ++ p.handles T) host) (kind : ℕ)
    (flags : UInt32) (privI : ℕ) :
    Sound T (p.fdt.next :: held) ((p.withHost host).fileNew kind flags what privI) where
  table := hp.table
  cwd := hp.cwd
  fds := hp.fds.fileNew kind flags
  made := made_fileNew hp.made hwhat kind flags privI
  handles := hhost.perm (handles_fileNew T (p.withHost host) kind flags what privI).symm
  rings r hr := by
    refine (hp.rings r hr).congr (.refl _) fun reading => ?_
    rw [ends_fileNew, newEnd, hpipe]
    rfl
  known := known_fileNew kind flags what privI hp.known fun h => absurd (hpipe.symm.trans h) Bool.false_ne_true

/-- No description is of an end of a ring that is not made yet. -/
theorem Sound.ends_next (hp : Sound T held p) (reading : Bool) : p.ends p.nextRing reading = 0 := by
  rw [Task.ends, List.countP_eq_zero]
  intro k hk
  by_cases hpipe : (p.file k).isPipe = true
  · rw [endOf_other (hp.known k hk hpipe).ne', Bool.not_eq_true]
  · rw [endOf_not_pipe (Bool.eq_false_iff.mpr hpipe), Bool.not_eq_true]

theorem ringNew_other {a : Task η σ} {r : ℕ} (hr : r < a.nextRing) : a.ringNew.rings r = a.rings r :=
  Function.update_of_ne hr.ne ..

/-- A new ring has no ends and was not freed. -/
theorem ringNew_self (a : Task η σ) : (a.ringNew.rings a.nextRing).p.readers = 0 ∧
    (a.ringNew.rings a.nextRing).p.writers = 0 ∧ (a.ringNew.rings a.nextRing).frees = 0 := by
  rw [Task.ringNew]
  dsimp only
  rw [Function.update_self]
  exact ⟨rfl, rfl, rfl⟩

/-- Of the ends of a pipe one is for reading and one for writing. -/
theorem ends_pipeEnds (a : Task η σ) (r : ℕ) (flags : UInt32) (s : ℕ) (reading : Bool) :
    (a.pipeEnds r flags).ends s reading = a.ends s reading + if r = s then 1 else 0 := by
  have hrd : (O_RDONLY ||| flags &&& O_NONBLOCK) &&& O_ACCMODE = O_RDONLY := end_accmode O_RDONLY flags
  have hwr : (O_WRONLY ||| flags &&& O_NONBLOCK) &&& O_ACCMODE = O_WRONLY := end_accmode O_WRONLY flags
  have hne : O_WRONLY ≠ O_RDONLY := by decide
  let rd := a.fileNew FILE_KIND_PIPE (O_RDONLY ||| flags &&& O_NONBLOCK) (.pipe (a.rings r).p.ino) r
  change (rd.fileNew FILE_KIND_PIPE (O_WRONLY ||| flags &&& O_NONBLOCK) (.pipe (a.rings r).p.ino) r).ends s reading = _
  rw [ends_fileNew, ends_fileNew, newEnd, newEnd, hrd, hwr]
  by_cases hs : r = s
  · cases reading <;> simp [hs, hne, OpenDescription.isPipe]
  · simp [hs]

theorem rings_pipeEnds (a : Task η σ) (r : ℕ) (flags : UInt32) :
    (a.pipeEnds r flags).rings =
      Function.update a.rings r { a.rings r with p := { (a.rings r).p with readers := 1, writers := 1 } } := rfl

/-- The two ends of a new ring, with a reference each. -/
theorem Sound.pipeEnds (hp : Sound T held p) (flags : UInt32) :
    Sound T ((p.fdt.next + 1) :: p.fdt.next :: held) (p.ringNew.pipeEnds p.nextRing flags) where
  table := hp.table
  cwd := hp.cwd
  fds := (hp.fds.fileNew FILE_KIND_PIPE (O_RDONLY ||| flags &&& O_NONBLOCK)).fileNew FILE_KIND_PIPE
    (O_WRONLY ||| flags &&& O_NONBLOCK)
  made := by
    have hrd := made_fileNew (p := p.ringNew) hp.made (.pipe (p.ringNew.rings p.nextRing).p.ino) FILE_KIND_PIPE
      (O_RDONLY ||| flags &&& O_NONBLOCK) p.nextRing
    exact made_fileNew hrd (.pipe (p.ringNew.rings p.nextRing).p.ino) FILE_KIND_PIPE
      (O_WRONLY ||| flags &&& O_NONBLOCK) p.nextRing
  handles := by
    have hrd := handles_fileNew T p.ringNew FILE_KIND_PIPE (O_RDONLY ||| flags &&& O_NONBLOCK)
      (.pipe (p.ringNew.rings p.nextRing).p.ino) p.nextRing
    have hwr := handles_fileNew T (p.ringNew.fileNew FILE_KIND_PIPE (O_RDONLY ||| flags &&& O_NONBLOCK)
      (.pipe (p.ringNew.rings p.nextRing).p.ino) p.nextRing) FILE_KIND_PIPE (O_WRONLY ||| flags &&& O_NONBLOCK)
      (.pipe (p.ringNew.rings p.nextRing).p.ino) p.nextRing
    exact hp.handles.perm (hwr.trans hrd).symm
  rings r hr := by
    have hends (reading : Bool) : (p.ringNew.pipeEnds p.nextRing flags).ends r reading =
        p.ends r reading + if p.nextRing = r then 1 else 0 := ends_pipeEnds p.ringNew p.nextRing flags r reading
    rw [rings_pipeEnds]
    by_cases hnew : r = p.nextRing
    · subst hnew
      have hone (reading : Bool) : (p.ringNew.pipeEnds p.nextRing flags).ends p.nextRing reading = 1 := by
        rw [hends, hp.ends_next, if_pos rfl]
      rw [Function.update_self]
      refine ⟨by rw [hone]; rfl, by rw [hone]; rfl, ?_⟩
      rw [hone, if_neg fun h => one_ne_zero h.1]
      exact (ringNew_self p).2.2
    · have hlt : r < p.nextRing := lt_of_le_of_ne (Nat.lt_succ_iff.mp hr) hnew
      rw [Function.update_of_ne hnew, ringNew_other hlt]
      refine (hp.rings r hlt).congr (.refl _) fun reading => ?_
      rw [hends, if_neg (Ne.symm hnew), Nat.add_zero]
  known := by
    have hknown : ∀ k ∈ p.ringNew.fdt.live, (p.ringNew.file k).isPipe = true → p.ringNew.privI k < p.nextRing + 1 :=
      fun k hk hpipe => Nat.lt_succ_of_lt (hp.known k hk hpipe)
    have hlt : (OpenDescription.pipe (η := η × ℕ) (p.ringNew.rings p.nextRing).p.ino).isPipe = true →
        p.nextRing < p.nextRing + 1 := fun _ => Nat.lt_succ_self _
    exact known_fileNew _ _ _ _ (known_fileNew _ _ _ _ hknown hlt) hlt

theorem rings_ringDrop (a : Task η σ) (r : ℕ) : (a.ringDrop r).rings =
    Function.update a.rings r { a.rings r with frees := (a.rings r).frees + 1 } := rfl

/-- A ring that gets no ends is freed. -/
theorem Sound.ringDrop (hp : Sound T held p) : Sound T held (p.ringNew.ringDrop p.nextRing) where
  table := hp.table
  cwd := hp.cwd
  fds := hp.fds
  made := hp.made
  handles := hp.handles
  rings r hr := by
    rw [rings_ringDrop]
    by_cases hnew : r = p.nextRing
    · subst hnew
      have hnone (reading : Bool) : (p.ringNew.ringDrop p.nextRing).ends p.nextRing reading = 0 := hp.ends_next reading
      rw [Function.update_self]
      obtain ⟨hreaders, hwriters, hfrees⟩ := ringNew_self p
      refine ⟨by rw [hnone]; exact hreaders, by rw [hnone]; exact hwriters, ?_⟩
      dsimp only
      rw [hnone, hnone, hfrees, if_pos ⟨rfl, rfl⟩]
    · have hlt : r < p.nextRing := lt_of_le_of_ne (Nat.lt_succ_iff.mp hr) hnew
      rw [Function.update_of_ne hnew, ringNew_other hlt]
      exact hp.rings r hlt
  known k hk hpipe := Nat.lt_succ_of_lt (hp.known k hk hpipe)

theorem live_alter {t : FdState} {g : Desc → Desc} (hrefs : ∀ d, (g d).refs = d.refs) (k : ℕ) :
    (t.alter k g).live = t.live := by
  refine live_congr rfl fun j => ?_
  rw [FdState.alter]
  dsimp only
  by_cases hj : j = k
  · rw [hj, Function.update_self, hrefs]
  · rw [Function.update_of_ne hj]

/-- A change of a description that leaves its count, its release and its access as they are. -/
theorem Sound.alter (hp : Sound T held p) {g : Desc → Desc} (hrefs : ∀ d, (g d).refs = d.refs)
    (hreleases : ∀ d, (g d).releases = d.releases) (hflags : ∀ d, (g d).flags &&& O_ACCMODE = d.flags &&& O_ACCMODE)
    (k : ℕ) : Sound T held (p.setFdt (p.fdt.alter k g)) := by
  refine hp.setFdt (hp.fds.alter k fun d => ⟨hrefs d, hreleases d⟩) (live_alter hrefs k) fun j => ?_
  rw [FdState.alter]
  dsimp only
  by_cases hj : j = k
  · rw [hj, Function.update_self, hflags]
  · rw [Function.update_of_ne hj]

theorem Sound.sysDup (hp : Sound T held p) (fd : ℤ) : Sound T held (p.setFdt (p.fdt.sysDup fd).2) := by
  rw [FdState.sysDup]
  cases hget : p.fdt.fdGet fd with
  | none => exact hp
  | some e =>
      obtain ⟨i, k⟩ := e
      obtain ⟨-, hi⟩ := fdGet_some hget
      exact hp.fdInstall (hp.fds.counted.pos_of_slot hi) false 0

theorem Sound.sysFcntl (hp : Sound T held p) (fd cmd arg : ℤ) :
    Sound T held (p.setFdt (p.fdt.sysFcntl fd cmd arg).2) := by
  rw [FdState.sysFcntl]
  cases hget : p.fdt.fdGet fd with
  | none => exact hp
  | some e =>
      obtain ⟨i, k⟩ := e
      obtain ⟨-, hi⟩ := fdGet_some hget
      have hpos := hp.fds.counted.pos_of_slot hi
      dsimp only
      split_ifs
      · exact hp.fdInstall hpos false _
      · exact hp.fdInstall hpos true _
      · exact hp
      · rw [FdState.fdSetCloexec, hget]
        exact hp.setFdt (hp.fds.mark i _) (live_congr rfl fun _ => Iff.rfl) fun _ => rfl
      · exact hp
      · rw [FdState.through, hget]
        dsimp only
        refine hp.alter ?_ ?_ ?_ k
        · exact fun d => rfl
        · exact fun d => rfl
        · exact fun d => setfl_accmode d.flags _
      · exact hp

end Account

end Task

end SysvNt
