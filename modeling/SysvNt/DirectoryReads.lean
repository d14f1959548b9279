import SysvNt.ActionRuns
import SysvNt.HostDirectories

/-!
# Reads of a host directory across its batches

A reader is a cursor over what the host answers, batch by batch, with the rest of a batch kept in
its buffer. The reads since a restart are to return every entry that the host has delivered and the
reader takes, once and in order: what has been returned and what is left in the buffer together are
what has been delivered. A read that meets a failure of the host behind entries it has already
taken gives up those entries.
-/

namespace SysvNt.DirectoryReads

def delivered (answers : List DirAnswer) : List Dirent :=
  answers.flatMap fun
    | .error _ => []
    | .ok b => (b.1 :: b.2).filterMap direntOf

/-- The entries delivered into the buffer and not yet read. -/
def buffered (c : Cursor) : List Dirent := c.pending.filterMap direntOf

def unread (c : Cursor) : List Dirent := listed c.stream

/-- Once the host has said that there are no more files, there is nothing left of its answers. -/
def Spent (c : Cursor) : Prop := c.exhausted = true → c.pending = [] ∧ c.answers = []

@[simp] theorem delivered_append (as bs : List DirAnswer) :
    delivered (as ++ bs) = delivered as ++ delivered bs := by
  simp [delivered]

theorem unread_eq {c : Cursor} (hc : Spent c) : unread c = buffered c ++ delivered c.answers := by
  obtain ⟨pending, exhausted, answers⟩ := c
  cases exhausted with
  | true =>
      obtain ⟨hp, ha⟩ := hc rfl
      dsimp only at hp ha
      rw [hp, ha]
      rfl
  | false =>
      have hanswers : ∀ as : List DirAnswer, listed (as.flatMap fun
          | .error e => [.error e]
          | .ok b => ((b.1 :: b.2).filterMap direntOf).map .ok) = delivered as := by
        intro as
        induction as with
        | nil => rfl
        | cons a as ih =>
            cases a with
            | error e => exact ih
            | ok b =>
                rw [List.flatMap_cons, listed_append, ih]
                rfl
      rw [unread, Cursor.stream, if_neg Bool.false_ne_true, listed_append]
      exact congrArg (buffered _ ++ ·) (hanswers answers)

theorem dirFill_spent (c : Cursor) (hc : c.exhausted = false) :
    Spent (dirFill c).2 ∧ (dirFill c).2.answers <:+ c.answers := by
  obtain ⟨pending, exhausted, answers⟩ := c
  dsimp only at hc
  subst hc
  rcases answers with _ | ⟨e | b, as⟩
  · exact ⟨fun _ => ⟨rfl, rfl⟩, List.suffix_rfl⟩
  · exact ⟨fun h => absurd h Bool.false_ne_true, List.suffix_cons _ _⟩
  · exact ⟨fun h => absurd h Bool.false_ne_true, List.suffix_cons _ _⟩

/-- A read keeps the buffer and the host's answers in step, and takes less than it was asked for
only when the host has said that there is no more. -/
theorem dirBody_ends (cap : ℕ) (x : Cursor × List Dirent) (hx : Spent x.1) :
    Spent ((dirBody cap).run x).2 ∧ ((dirBody cap).run x).2.answers <:+ x.1.answers ∧
      ∀ ds, ((dirBody cap).run x).1 = .ok ds → ds.length < cap →
        ((dirBody cap).run x).2.exhausted = true := by
  induction x using (dirBody cap).step_induction with
  | _ x ih =>
      by_cases hgo : x.2.length < cap ∧ x.1.exhausted = false
      · have hstep : (dirBody cap).step x = _ := if_pos hgo
        have hfill := dirFill_spent x.1 hgo.2
        cases hp : x.1.pending with
        | cons e es =>
            rw [hp] at hstep
            rw [(dirBody cap).run_of_continue hstep]
            apply ih _ hstep
            intro h
            exact absurd (h.symm.trans hgo.2) (by decide)
        | nil =>
            rw [hp] at hstep
            cases hf : dirFill x.1 with
            | mk r c =>
                rw [hf] at hstep hfill
                cases r with
                | error e =>
                    rw [(dirBody cap).run_of_stop hstep]
                    exact ⟨hfill.1, hfill.2, fun ds h => by cases h⟩
                | ok u =>
                    rw [(dirBody cap).run_of_continue hstep]
                    obtain ⟨hspent, hsuffix, hend⟩ := ih _ hstep hfill.1
                    exact ⟨hspent, hsuffix.trans hfill.2, hend⟩
      · have hstep : (dirBody cap).step x = _ := if_neg hgo
        rw [(dirBody cap).run_of_stop hstep]
        refine ⟨hx, List.suffix_rfl, fun ds h hlt => ?_⟩
        cases h
        simpa [hlt] using hgo

/-- A call of `hfs_dir_read`: the room in the caller's array and, when the call restarts the reader,
what the host answers from there on. -/
structure ReadCall where
  cap : ℕ
  room : 0 < cap
  restart : Option (List DirAnswer)

/-- A reader, with what the host answers since the last restart and what has been returned of it. -/
structure Reader where
  cursor : Cursor
  answers : List DirAnswer
  returned : List Dirent

def opened (answers : List DirAnswer) : Reader := ⟨⟨[], false, answers⟩, answers, []⟩

/-- The `(int)n` that `hfs_dir_read` returns. -/
def intCount (n : ℕ) : ℤ := (n : ℤ).bmod (2 ^ 32)

theorem intCount_lt (n : ℕ) : intCount n < 2 ^ 31 := by
  have hlt := Int.bmod_lt (x := n) (m := 2 ^ 32) (by decide)
  unfold intCount
  omega

theorem intCount_eq {n : ℕ} (h : n < 2 ^ 31) : intCount n = n := by
  unfold intCount
  apply Int.bmod_eq_of_le
  · omega
  · omega

/-- A negative result is an error to the caller, whether it is `-errno` or a count. -/
def Failed : Except Errno ℤ → Prop
  | .error _ => True
  | .ok n => n < 0

namespace Reader

variable (r : Reader) (k : ReadCall)

def read : Except Errno (List Dirent) × Cursor :=
  hfsDirRead (k.restart.getD []) r.cursor k.cap k.restart.isSome

def ret : Except Errno ℤ := (r.read k).1.map fun ds => intCount ds.length

/-- The entries that a call returns: as many of the array as the count says. -/
def gives : List Dirent :=
  match (r.read k).1 with
  | .error _ => []
  | .ok ds => ds.take (intCount ds.length).toNat

def begun : Reader :=
  match k.restart with
  | none => r
  | some as => opened as

def step : Reader := ⟨(r.read k).2, (r.begun k).answers, (r.begun k).returned ++ r.gives k⟩

/-- A call returns what it takes from the reader; one that fails has taken nothing, and none returns
zero before the end. -/
structure Honest : Prop where
  kept : unread (r.begun k).cursor = r.gives k ++ unread (r.step k).cursor
  failed : Failed (r.ret k) → unread (r.step k).cursor = unread (r.begun k).cursor
  ended : r.ret k = .ok 0 → (r.step k).cursor.exhausted = true

/-- What the host has delivered since the last restart is what has been returned since, and then
what is in the buffer. -/
structure Accounted : Prop where
  spent : Spent r.cursor
  given : ∃ said, r.answers = said ++ r.cursor.answers ∧
    delivered said = r.returned ++ buffered r.cursor

/-- A call that does not meet a failure of the host behind the first entry that it takes, and takes
no more entries than an `int` counts. -/
def Unbroken : Prop :=
  ¬ (failing (r.begun k).cursor.stream = true ∧ leading (r.begun k).cursor.stream ≠ [] ∧
      (leading (r.begun k).cursor.stream).length < k.cap) ∧
    min k.cap (leading (r.begun k).cursor.stream).length < 2 ^ 31

theorem begun_cursor :
    r.cursor.begin (k.restart.getD []) k.restart.isSome = (r.begun k).cursor := by
  rw [begun]
  cases k.restart <;> rfl

theorem accounted_opened (answers : List DirAnswer) : (opened answers).Accounted :=
  ⟨fun h => absurd h Bool.false_ne_true, [], rfl, rfl⟩

variable {r k}

theorem Accounted.begun (hr : r.Accounted) : (r.begun k).Accounted := by
  rw [Reader.begun]
  cases k.restart with
  | none => exact hr
  | some as => exact accounted_opened as

/-- What the loop leaves behind it. -/
theorem Accounted.read_ends (hr : r.Accounted) :
    Spent (r.read k).2 ∧ (r.read k).2.answers <:+ (r.begun k).cursor.answers ∧
      ∀ ds, (r.read k).1 = .ok ds → ds.length < k.cap → (r.read k).2.exhausted = true := by
  rw [Reader.read, hfsDirRead_run _ _ k.room, begun_cursor]
  exact dirBody_ends k.cap _ (Accounted.begun hr).spent

theorem Honest.accounted (h : r.Honest k) (hr : r.Accounted) : (r.step k).Accounted := by
  obtain ⟨hspent, ⟨new, hnew⟩, _⟩ := hr.read_ends (k := k)
  obtain ⟨hbegun, said, hsaid, hgiven⟩ := Accounted.begun hr (k := k)
  refine ⟨hspent, said ++ new, ?_, ?_⟩
  · change (r.begun k).answers = said ++ new ++ (r.read k).2.answers
    rw [hsaid, List.append_assoc, hnew]
  · have hkept := h.kept
    have hafter : unread (r.step k).cursor = _ := unread_eq hspent
    rw [unread_eq hbegun, hafter, ← hnew, delivered_append, ← List.append_assoc, ← List.append_assoc] at hkept
    change delivered (said ++ new) = (r.begun k).returned ++ r.gives k ++ buffered (r.read k).2
    rw [delivered_append, hgiven, List.append_assoc, List.append_cancel_right hkept, List.append_assoc]
    rfl

theorem unread_step {rest : List (Except Errno Dirent)} {a : Except Errno (List Dirent)}
    (h : readStream k.cap [] (r.begun k).cursor.stream = (a, rest)) :
    (r.read k).1 = a ∧ unread (r.step k).cursor = listed rest := by
  obtain ⟨hret, hrest⟩ := hfsDirRead_stream (k.restart.getD []) r.cursor k.room k.restart.isSome
  rw [begun_cursor, h] at hret hrest
  exact ⟨hret, congrArg listed hrest⟩

theorem take_intCount_iff (ds : List Dirent) :
    ds.take (intCount ds.length).toNat = ds ↔ ds.length < 2 ^ 31 := by
  have hlt := intCount_lt ds.length
  rw [List.take_eq_self_iff]
  constructor
  · intro h
    omega
  · intro h
    rw [intCount_eq h, Int.toNat_natCast]

/-- A call keeps the reader's account exactly when it is not broken off. -/
theorem honest_iff (hr : r.Accounted) : r.Honest k ↔ r.Unbroken k := by
  rcases readStream_cases k.cap [] (r.begun k).cursor.stream with
    ⟨ds, rest, hread, hs, hle, hend⟩ | ⟨ds, e, rest, hread, hs, hlt⟩
  · obtain ⟨hret, hrest⟩ := unread_step hread
    rw [List.nil_append] at hret hle hend
    have hbegun : unread (r.begun k).cursor = ds ++ listed rest := by
      rw [unread, hs, listed_append]
    have hgives : r.gives k = ds.take (intCount ds.length).toNat := by
      rw [gives, hret]
    have hkept : unread (r.begun k).cursor = r.gives k ++ unread (r.step k).cursor ↔
        ds.length < 2 ^ 31 := by
      rw [hbegun, hrest, hgives, List.append_left_inj, eq_comm, take_intCount_iff]
    have hmin : r.Unbroken k ↔ ds.length < 2 ^ 31 := by
      rw [Unbroken, hs, failing_append, leading_append]
      by_cases hlt : ds.length < k.cap
      · rw [hend hlt]
        simp [failing, leading]
        omega
      · have hcap : ds.length = k.cap := by
          simp at hle
          omega
        rw [List.length_append]
        omega
    rw [hmin]
    constructor
    · intro h
      exact hkept.mp h.kept
    · intro h
      refine ⟨hkept.mpr h, fun hfail => ?_, fun hzero => ?_⟩
      · rw [ret, hret] at hfail
        change intCount ds.length < 0 at hfail
        rw [intCount_eq h] at hfail
        omega
      · rw [ret, hret] at hzero
        have hcount : intCount ds.length = 0 := Except.ok.inj hzero
        rw [intCount_eq h] at hcount
        have hroom := k.room
        exact hr.read_ends.2.2 ds hret (by omega)
  · obtain ⟨hret, hrest⟩ := unread_step hread
    have hbegun : unread (r.begun k).cursor = ds ++ listed rest := by
      rw [unread, hs, listed_append]
      rfl
    have hgives : r.gives k = [] := by
      rw [gives, hret]
    have hlead : leading (.error e :: rest) = [] := rfl
    have hmin : r.Unbroken k ↔ ds = [] := by
      have hfail : failing (.error e :: rest) = true := rfl
      rw [Unbroken, hs, failing_append, leading_append, hlead, hfail, List.append_nil]
      constructor
      · intro h
        by_contra hne
        exact h.1 ⟨rfl, hne, by simpa using hlt⟩
      · rintro rfl
        simp
    rw [hmin]
    constructor
    · intro h
      have hkept := h.kept
      rw [hbegun, hgives, hrest] at hkept
      simpa using hkept
    · rintro rfl
      refine ⟨?_, fun _ => ?_, fun hzero => ?_⟩
      · rw [hbegun, hgives, hrest]
      · rw [hbegun, hrest]
        rfl
      · rw [ret, hret] at hzero
        cases hzero

end Reader

/-- The runs whose calls all return what they take, with the account right after each call, are the
runs whose calls are not broken off. -/
theorem reads_lose_nothing (answers : List DirAnswer) (calls : List ReadCall) :
    ActionRuns.Along Reader.step Reader.Unbroken (opened answers) calls ↔
      ActionRuns.Along Reader.step (fun r k => r.Honest k ∧ (r.step k).Accounted) (opened answers)
        calls := by
  constructor
  · intro h
    have hstep : ∀ (r : Reader) (k : ReadCall), r.Accounted → r.Unbroken k →
        (r.step k).Accounted ∧ r.Honest k ∧ (r.step k).Accounted := by
      intro r k hr hk
      have hhonest := (Reader.honest_iff hr).mpr hk
      have hnext := hhonest.accounted hr
      exact ⟨hnext, hhonest, hnext⟩
    exact (ActionRuns.along_invariant hstep calls (Reader.accounted_opened answers) h).2
  · intro h
    have hstep : ∀ (r : Reader) (k : ReadCall), r.Accounted → r.Honest k ∧ (r.step k).Accounted →
        (r.step k).Accounted ∧ r.Unbroken k := by
      intro r k hr hk
      exact ⟨hk.2, (Reader.honest_iff hr).mp hk.1⟩
    exact (ActionRuns.along_invariant hstep calls (Reader.accounted_opened answers) h).2

def entryA : DirInfo := ⟨[0x61], 7, 0x20, 0⟩
def entryB : DirInfo := ⟨[0x62], 8, 0x20, 0⟩

/-- A host that fails once between two batches of one entry. -/
def failingOnce : List DirAnswer := [.ok (entryA, []), .error Errno.EIO, .ok (entryB, [])]

def fullRead : ReadCall := ⟨32, by decide, none⟩

/-- The entry of the first batch goes with the failure behind it: the calls after it return the other
entry and then the end. -/
theorem failing_read_loses_entry :
    (opened failingOnce).ret fullRead = .error Errno.EIO ∧
    ((opened failingOnce).step fullRead).gives fullRead = (direntOf entryB).toList ∧
    (((opened failingOnce).step fullRead).step fullRead).ret fullRead = .ok 0 ∧
    ¬ ActionRuns.Along Reader.step (fun r k => r.Honest k ∧ (r.step k).Accounted) (opened failingOnce)
      [fullRead] := by
  refine ⟨by decide +kernel, by decide +kernel, by decide +kernel, fun h => ?_⟩
  have hkept := h.1.1.kept
  revert hkept
  decide +kernel

end SysvNt.DirectoryReads
