import SysvNt.SystemCalls
import SysvNt.TableKeeps
import SysvNt.TaskAccount

/-!
# What a call leaves of the account

A call of the host keeps the handles that it finds open, and an operation of a description works on the object
of its handle or on the bytes of its ring. So the rest of a process is accounted for as it was.
-/

namespace SysvNt

open FallibleCalls FdState FileOps Ownership

variable {η σ τ α β : Type}

namespace FileOps

section Lifted

variable {get : τ → σ} {set : τ → σ → τ} {I : τ → Prop}

/-- On a part of the world an operation keeps what it keeps of the whole with that part put back. -/
theorem lifted_onHost {m : Call Errno (FileOps.Live σ) α} {Q : α → Prop} (hget : ∀ y, I y → I (set y (get y)))
    (hm : ∀ y, I y → Keeps (OnHost fun x => I (set y x)) m Q) : Keeps (OnHost I) (FileOps.lifted get set m) Q := by
  intro l hl
  exact hm l.host hl ⟨get l.host, l.pos, l.scan, l.reached⟩ (hget l.host hl)

theorem Table.Kept.lifted {ops : Table σ} (hget : ∀ y, I y → I (set y (get y)))
    (hops : ∀ y, I y → ops.Kept fun x => I (set y x)) : (ops.lifted get set).Kept I where
  read n := lifted_onHost hget fun y hy => (hops y hy).read n
  write b := lifted_onHost hget fun y hy => (hops y hy).write b
  pread op hop n off := by
    obtain ⟨op₀, hop₀, rfl⟩ := Option.map_eq_some_iff.mp hop
    exact lifted_onHost hget fun y hy => (hops y hy).pread op₀ hop₀ n off
  pwrite op hop b off := by
    obtain ⟨op₀, hop₀, rfl⟩ := Option.map_eq_some_iff.mp hop
    exact lifted_onHost hget fun y hy => (hops y hy).pwrite op₀ hop₀ b off
  getdents op hop cap := by
    obtain ⟨op₀, hop₀, rfl⟩ := Option.map_eq_some_iff.mp hop
    exact lifted_onHost hget fun y hy => (hops y hy).getdents op₀ hop₀ cap
  truncate op hop size := by
    obtain ⟨op₀, hop₀, rfl⟩ := Option.map_eq_some_iff.mp hop
    exact lifted_onHost hget fun y hy => (hops y hy).truncate op₀ hop₀ size

end Lifted

/-- A fact of something else is kept beside. -/
theorem onHost_and {I : σ → Prop} {c : Prop} (hc : c) {m : Call Errno (FileOps.Live σ) α} {Q : α → Prop}
    (hm : Keeps (OnHost I) m Q) : Keeps (OnHost fun x => I x ∧ c) m Q :=
  fun l hl => ⟨⟨(hm l hl.1).1, hc⟩, (hm l hl.1).2⟩

theorem Table.Kept.and {I : σ → Prop} {c : Prop} (hc : c) {ops : Table σ} (hops : ops.Kept I) :
    ops.Kept fun x => I x ∧ c where
  read n := onHost_and hc (hops.read n)
  write b := onHost_and hc (hops.write b)
  pread op hop n off := onHost_and hc (hops.pread op hop n off)
  pwrite op hop b off := onHost_and hc (hops.pwrite op hop b off)
  getdents op hop cap := onHost_and hc (hops.getdents op hop cap)
  truncate op hop size := onHost_and hc (hops.truncate op hop size)

end FileOps

section Rings

/-- A read or a write of a pipe moves bytes. The ends of the ring stay. -/
def EndsAre (readers writers : ℤ) (p : PipeRing) : Prop := p.readers = readers ∧ p.writers = writers

variable {readers writers : ℤ}

theorem pipeRead_ends {p : PipeRing} (h : EndsAre readers writers p) (len : ℕ) :
    EndsAre readers writers (pipeRead p len).2 := by
  rw [pipeRead]
  split_ifs <;> exact h

theorem pipeWrite_ends {p : PipeRing} (h : EndsAre readers writers p) (b : Bytes) :
    EndsAre readers writers (pipeWrite p b).2 := by
  rw [pipeWrite]
  split_ifs <;> exact h

theorem pipeOps_kept : pipeOps.Kept (EndsAre readers writers) where
  read len l hl := ⟨pipeRead_ends hl len, fun _ _ => trivial⟩
  write b l hl := ⟨pipeWrite_ends hl b, fun _ _ => trivial⟩
  pread op hop := by cases hop
  pwrite op hop := by cases hop
  getdents op hop := by cases hop
  truncate op hop := by cases hop

end Rings

/-- The handles open and the ends of the rings, in the world of the operations. -/
structure World (ns : List ℕ) (rings : Rings) (y : (σ × Ledger) × Rings) : Prop where
  handles : Holds ns y.1
  ends : ∀ r, SameEnds (rings r) (y.2 r)

section World

variable {ns : List ℕ} {rings : Rings} {M : Platform η σ}

theorem counted_objectKept {h : η × ℕ} (hh : h.2 ∈ ns) :
    ObjectKept M.store.counted M.io.counted (Holds ns) h where
  pread n off := onHandles_keeps (by simpa using hh) _
  pwrite b off append := onHandles_keeps (by simpa using hh) _
  stat := counted_stat hh
  truncate size := onHandles_keeps (by simpa using hh) _

theorem counted_asideKept : AsideKept M.io.counted (Holds ns) where
  random n := offLedger_holds (M.io.random n)
  consoleRead n := onHandles_keeps (by simp) _
  consoleWrite b := onHandles_keeps (by simp) _

theorem counted_crossOut (uaddr : UInt64) (b : Bytes) (x : σ × Ledger) (hx : Holds ns x) :
    Holds ns (M.io.counted.crossOut uaddr b x).2 := by
  rw [FileIo.crossOut]
  split_ifs
  · exact hx
  · exact offLedger_holds (M.io.copyOut uaddr b) x hx

theorem counted_crossIn (uaddr : UInt64) (n : ℕ) (x : σ × Ledger) (hx : Holds ns x) :
    Holds ns (M.io.counted.crossIn uaddr n x).2 := by
  rw [FileIo.crossIn]
  split_ifs
  · exact hx
  · exact offLedger_holds (M.io.copyIn uaddr n) x hx

theorem world_besideRings {m : StateM (σ × Ledger) α} (hm : ∀ x, Holds ns x → Holds ns (m x).2)
    (y : (σ × Ledger) × Rings) (hy : World ns rings y) : World ns rings (besideRings m y).2 :=
  ⟨hm y.1 hy.handles, hy.ends⟩

theorem besideRings_kept : (M.counted.io.besideRings).Kept (World ns rings) where
  copyOut a b := world_besideRings (counted_crossOut (M := M) a b)
  copyIn a n := world_besideRings (counted_crossIn (M := M) a n)
  bounce := world_besideRings (offLedger_holds M.io.bounce)

theorem world_host_iff {x : σ × Ledger} {rs : Rings} :
    World ns rings (x, rs) ↔ Holds ns x ∧ ∀ r, SameEnds (rings r) (rs r) :=
  ⟨fun h => ⟨h.handles, h.ends⟩, fun h => ⟨h.1, h.2⟩⟩

theorem hostPart_kept {ops : Table (σ × Ledger)} (hops : ops.Kept (Holds ns)) :
    (ops.lifted Prod.fst fun (x : (σ × Ledger) × Rings) y => (y, x.2)).Kept (World ns rings) := by
  refine Table.Kept.lifted (fun y hy => hy) fun y hy => ?_
  simp only [world_host_iff]
  exact hops.and hy.ends

theorem onHostPart_world {m : Call Errno (FileOps.Live (σ × Ledger)) α} {Q : α → Prop}
    (hm : Keeps (OnHost (Holds ns)) m Q) : Keeps (OnHost (World ns rings)) (onHostPart m) Q := by
  refine lifted_onHost (fun y hy => hy) fun y hy => ?_
  simp only [world_host_iff]
  exact onHost_and hy.ends hm

/-- What a change of one ring has to leave there. -/
theorem world_ring_iff {y : (σ × Ledger) × Rings} (hy : World ns rings y) (k : ℕ) (p : PipeRing) :
    World ns rings (y.1, Function.update y.2 k { y.2 k with p := p }) ↔
      EndsAre (rings k).p.readers (rings k).p.writers p := by
  refine ⟨fun h => ?_, fun h => ⟨hy.handles, fun r => ?_⟩⟩
  · have hk := h.ends k
    dsimp only at hk
    rw [Function.update_self] at hk
    exact ⟨hk.readers, hk.writers⟩
  · dsimp only
    by_cases hr : r = k
    · rw [hr, Function.update_self]
      exact ⟨h.1, h.2, (hy.ends k).frees⟩
    · rw [Function.update_of_ne hr]
      exact hy.ends r

theorem ringPart_kept (k : ℕ) :
    (pipeOps.lifted (fun (x : (σ × Ledger) × Rings) => (x.2 k).p)
      fun x p => (x.1, Function.update x.2 k { x.2 k with p := p })).Kept (World ns rings) := by
  refine Table.Kept.lifted (fun y hy => ?_) fun y hy => ?_
  · rw [Function.update_eq_self]
    exact hy
  · simp only [world_ring_iff hy]
    exact pipeOps_kept

theorem conOps_kept (fd : ℕ) : (M.counted.conOps fd).Kept (Holds ns) where
  read n := reach_onHost (onHandles_keeps (by simp) _) []
  write b := reach_onHost (onHandles_keeps (by simp) _) []
  pread op hop := by cases hop
  pwrite op hop := by cases hop
  getdents op hop := by cases hop
  truncate op hop := by cases hop

/-- The operations of a description whose handle is open. -/
theorem opsOf_world {f : OpenDescription (η × ℕ)} (hf : ∀ n ∈ f.handles, n ∈ ns) (flags : UInt32) (privI : ℕ) :
    (M.counted.opsOf flags privI f).Kept (World ns rings) := by
  cases f with
  | opened f =>
      refine hostPart_kept (opsOf_kept (fun h hh => ?_) counted_asideKept flags)
      refine counted_objectKept (hf _ ?_)
      cases f with
      | host h' kind fl path m =>
          cases hh
          exact List.mem_cons_self
      | synth f fl path => cases hh
  | pipe ino => exact ringPart_kept privI
  | console => exact hostPart_kept (conOps_kept privI)

theorem lseekOf_world {f : OpenDescription (η × ℕ)} (hf : ∀ n ∈ f.handles, n ∈ ns) (off : Int64) (whence : Int32) :
    Keeps (OnHost (World ns rings)) (M.counted.lseekOf off whence f) (fun _ => True) := by
  cases f with
  | opened f =>
      cases f with
      | host h kind fl path m =>
          have hstat : Keeps (Holds ns) (M.store.counted.stat h) (fun _ => True) :=
            counted_stat (hf _ List.mem_cons_self)
          cases kind with
          | hostdir => exact onHostPart_world fun _ hl => ⟨hl, fun _ _ => trivial⟩
          | host => exact onHostPart_world (hostfileLseek_onHost hstat off whence)
          | symlink => exact onHostPart_world (hostfileLseek_onHost hstat off whence)
      | synth f fl path =>
          cases f with
          | procLink => exact onHostPart_world (snapLseek_onHost [] off whence)
          | procFile text => exact onHostPart_world (snapLseek_onHost text off whence)
          | procDir d => exact onHostPart_world fun _ hl => ⟨hl, fun _ _ => trivial⟩
          | devDir => exact onHostPart_world fun _ hl => ⟨hl, fun _ _ => trivial⟩
          | devNode major minor => exact Keeps.pure trivial
  | pipe ino => exact Keeps.throw
  | console => exact Keeps.throw

theorem fsyncOf_holds {f : OpenDescription (η × ℕ)} (hf : ∀ n ∈ f.handles, n ∈ ns) :
    Keeps (Holds ns) (M.counted.fsyncOf f) (fun _ => True) := by
  cases f with
  | opened f =>
      cases f with
      | host h kind fl path m => exact onHandles_keeps (by simpa using hf h.2 List.mem_cons_self) _
      | synth f fl path => exact Keeps.throw
  | pipe ino => exact Keeps.throw
  | console => exact Keeps.throw

theorem vfsFstat_holds {f : OpenDescription (η × ℕ)} (hf : ∀ n ∈ f.handles, n ∈ ns) (proc : ProcView) (stack : Bytes) :
    Keeps (Holds ns) (vfsFstat (countedKernel M.store proc stack) f) (fun _ => True) := by
  have hnow : Keeps (Holds ns) (liftM M.store.counted.now : Call Errno (σ × Ledger) Int64) (fun _ => True) :=
    Keeps.lift (offLedger_holds M.store.now)
  cases f with
  | opened f =>
      cases f with
      | host h kind fl path m =>
          have hh : h.2 ∈ ns := hf h.2 List.mem_cons_self
          refine (counted_stat hh).bind fun hs _ => ?_
          dsimp only
          by_cases hsym : kind = .symlink
          · rw [if_pos hsym]
            refine (counted_readlink hh).attempt.bind fun r _ => ?_
            cases r with
            | ok t => exact Keeps.pure trivial
            | error e => exact Keeps.pure trivial
          · rw [if_neg hsym]
            exact Keeps.pure trivial
      | synth f fl path =>
          cases f with
          | procLink => exact Keeps.throw
          | procFile text => exact hnow.bind fun _ _ => Keeps.pure trivial
          | procDir d => exact hnow.bind fun _ _ => Keeps.pure trivial
          | devDir => exact hnow.bind fun _ _ => Keeps.pure trivial
          | devNode major minor =>
              rw [vfsFstat, devStat]
              cases devOf major minor with
              | none => exact Keeps.throw
              | some d => exact hnow.bind fun _ _ => Keeps.pure trivial
  | pipe ino => exact hnow.bind fun _ _ => Keeps.pure trivial
  | console => exact hnow.bind fun _ _ => Keeps.pure trivial

end World

end SysvNt
