import SysvNt.Directories

/-!
# A directory on the host

`hostdir_getdents` packs the two dot records, then the entries held back by the call before,
then what `hfs_dir_read` gives it, thirty-two at a time. `HostDir.remaining` is what a
description has still to list. What a call packs comes off its front; what a failing read had
already taken comes off too and is packed by nobody.
-/

namespace SysvNt

/-- A directory's description: its position, whether the array for held entries has been
allocated, the entries in it, and the host's cursor. -/
structure HostDir where
  pos : ℕ
  priv : Bool
  held : List Dirent
  dir : Option Cursor
  deriving DecidableEq

/-- What the host answers a call: the directory's own number, its listing from the start, and
whether the two allocations succeed. -/
structure DirHost where
  ino : UInt64
  listing : List DirAnswer
  privOk : Bool
  dirOk : Bool

structure Scan where
  buf : Bytes
  pos : ℕ
  held : List Dirent
  cursor : Cursor
  restart : Bool

def usedOr (buf : Bytes) (e : Errno) : Except Errno Bytes := if buf = [] then .error e else .ok buf

/-- One turn of the loop: pack what is held, then ask for more. -/
def scanStep (listing : List DirAnswer) (cap : ℕ) (x : Scan) :
    Scan ⊕ (Except Errno Bytes × HostDir) :=
  let r := packAll cap x.buf x.pos x.held
  if r.2.2 ≠ [] then .inr (usedOr r.1 .EINVAL, ⟨r.2.1, true, r.2.2, some x.cursor⟩)
  else
    match hfsDirRead listing x.cursor 32 x.restart with
    | (.error e, c) => .inr (usedOr r.1 e, ⟨r.2.1, true, [], some c⟩)
    | (.ok [], c) => .inr (.ok r.1, ⟨r.2.1, true, [], some c⟩)
    | (.ok (d :: ds), c) => .inl ⟨r.1, r.2.1, d :: ds, c, false⟩

/-- The read's result and the stream left, when a read of the stream gives them. -/
theorem readStream_cases (cap : ℕ) (got : List Dirent) (s : List (Except Errno Dirent)) :
    (∃ (ds : List Dirent) (rest : List (Except Errno Dirent)),
      readStream cap got s = (.ok (got ++ ds), rest) ∧ s = ds.map .ok ++ rest ∧
      ((got ++ ds).length ≤ max cap got.length) ∧ ((got ++ ds).length < cap → rest = [])) ∨
    (∃ (ds : List Dirent) (e : Errno) (rest : List (Except Errno Dirent)),
      readStream cap got s = (.error e, rest) ∧ s = ds.map .ok ++ .error e :: rest ∧
      got.length + ds.length < cap) := by
  induction s generalizing got with
  | nil => exact .inl ⟨[], [], by simp [readStream]⟩
  | cons x xs ih =>
      by_cases hlen : got.length < cap
      · cases x with
        | error e => exact .inr ⟨[], e, xs, by simp [readStream, hlen], rfl, hlen⟩
        | ok d =>
            have hread : readStream cap got (.ok d :: xs) = readStream cap (got ++ [d]) xs := by
              simp [readStream, hlen]
            rw [hread]
            rcases ih (got ++ [d]) with ⟨ds, rest, hr, hs, hle, hend⟩ | ⟨ds, e, rest, hr, hs, hlt⟩
            · refine .inl ⟨d :: ds, rest, ?_, by rw [hs]; rfl, ?_, ?_⟩
              · rw [hr, List.append_assoc, List.singleton_append]
              · simp only [List.length_append, List.length_cons, List.length_nil] at hle ⊢
                omega
              · rw [List.append_assoc] at hend
                exact hend
            · refine .inr ⟨d :: ds, e, rest, hr, by rw [hs]; rfl, ?_⟩
              simp only [List.length_append, List.length_cons, List.length_nil] at hlt ⊢
              omega
      · refine .inl ⟨[], x :: xs, ?_, rfl, ?_, ?_⟩
        · rw [List.append_nil, readStream_full (by omega)]
        · rw [List.append_nil]
          omega
        · rw [List.append_nil]
          omega

def Scan.stream (listing : List DirAnswer) (x : Scan) : List (Except Errno Dirent) :=
  (x.cursor.begin listing x.restart).stream

/-- What one turn can do: stop for want of room, stop at a failure, stop at the end, or go on
with up to thirty-two entries more. -/
inductive ScanTurn (listing : List DirAnswer) (cap : ℕ) (x : Scan) (fit : List Dirent) : Prop where
  | full (hne : fit ≠ x.held)
      (hstep : scanStep listing cap x = .inr (usedOr (x.buf ++ records x.pos fit) .EINVAL,
        ⟨x.pos + fit.length, true, x.held.drop fit.length, some x.cursor⟩))
  | failed (hfit : fit = x.held) (ds : List Dirent) (e : Errno) (c : Cursor)
      (hs : x.stream listing = ds.map .ok ++ .error e :: c.stream) (hlt : ds.length < 32)
      (hstep : scanStep listing cap x = .inr (usedOr (x.buf ++ records x.pos fit) e,
        ⟨x.pos + fit.length, true, [], some c⟩))
  | finished (hfit : fit = x.held) (c : Cursor) (hs : x.stream listing = []) (hc : c.stream = [])
      (hstep : scanStep listing cap x = .inr (.ok (x.buf ++ records x.pos fit),
        ⟨x.pos + fit.length, true, [], some c⟩))
  | more (hfit : fit = x.held) (d : Dirent) (ds : List Dirent) (c : Cursor)
      (hs : x.stream listing = (d :: ds).map .ok ++ c.stream) (hle : (d :: ds).length ≤ 32)
      (hend : (d :: ds).length < 32 → c.stream = [])
      (hstep : scanStep listing cap x =
        .inl ⟨x.buf ++ records x.pos fit, x.pos + fit.length, d :: ds, c, false⟩)

theorem scanTurn (listing : List DirAnswer) (cap : ℕ) (x : Scan) :
    ScanTurn listing cap x (fitting (cap - x.buf.length) x.held) := by
  obtain ⟨y, hy⟩ : ∃ y, scanStep listing cap x = y := ⟨_, rfl⟩
  have hstep := hy
  rw [scanStep, packAll_eq] at hstep
  dsimp only at hstep
  have hpre := fitting_initial (cap - x.buf.length) x.held
  generalize fitting (cap - x.buf.length) x.held = fit at hstep hpre
  by_cases hfit : fit = x.held
  · rw [if_neg (by rw [hfit]; simp)] at hstep
    obtain ⟨hret, hrest⟩ := hfsDirRead_stream listing x.cursor (by decide : 0 < 32) x.restart
    change _ = (readStream 32 [] (x.stream listing)).1 at hret
    change _ = (readStream 32 [] (x.stream listing)).2 at hrest
    generalize hfsDirRead listing x.cursor 32 x.restart = q at hstep hret hrest
    obtain ⟨r, c⟩ := q
    dsimp only at hret hrest
    rcases readStream_cases 32 [] (x.stream listing) with
      ⟨ds, rest, hr, hs, hle, hend⟩ | ⟨ds, e, rest, hr, hs, hlt⟩
    · rw [hr] at hret hrest
      dsimp only at hret hrest
      rw [List.nil_append] at hret hle hend
      subst hret hrest
      cases ds with
      | nil =>
          have hc := hend (by decide)
          exact .finished hfit c (by rw [hs, hc]; rfl) hc (hy.trans hstep.symm)
      | cons d ds => exact .more hfit d ds c hs (by simpa using hle) hend (hy.trans hstep.symm)
    · rw [hr] at hret hrest
      dsimp only at hret hrest
      subst hret hrest
      rw [List.length_nil, Nat.zero_add] at hlt
      exact .failed hfit ds e c hs hlt (hy.trans hstep.symm)
  · rw [if_pos] at hstep
    · exact .full hfit (hy.trans hstep.symm)
    · rw [Ne, List.drop_eq_nil_iff]
      intro hle
      exact hfit (hpre.eq_of_length_le hle)

def scanBody (listing : List DirAnswer) (cap : ℕ) :
    BoundedLoop.Body Scan (Except Errno Bytes × HostDir) where
  step := scanStep listing cap
  measure x := (x.stream listing).length
  decreases x x' h := by
    cases scanTurn listing cap x with
    | full hne hstep => rw [hstep] at h; cases h
    | failed hfit ds e c hs hlt hstep => rw [hstep] at h; cases h
    | finished hfit c hs hc hstep => rw [hstep] at h; cases h
    | more hfit d ds c hs hle hend hstep =>
        rw [hstep] at h
        cases h
        rw [hs]
        simp [Scan.stream, Cursor.begin]

def selfEntry (ino : UInt64) : Dirent := ⟨ino, DT_DIR, str "."⟩
def parentEntry : Dirent := ⟨1, DT_DIR, str ".."⟩

def leading : List (Except Errno Dirent) → List Dirent
  | .ok d :: s => d :: leading s
  | _ => []

def failing (s : List (Except Errno Dirent)) : Bool := s.any fun x => !x.isOk

def listed (s : List (Except Errno Dirent)) : List Dirent := s.filterMap Except.toOption

/-- The entries that reads of thirty-two can get at: before a failure, whole reads only. -/
def readable (s : List (Except Errno Dirent)) : List Dirent :=
  if failing s then (leading s).take ((leading s).length / 32 * 32) else leading s

def CutShort (s : List (Except Errno Dirent)) : Prop :=
  failing s = true ∧ (leading s).length % 32 ≠ 0

@[simp] theorem leading_append (ds : List Dirent) (s : List (Except Errno Dirent)) :
    leading (ds.map .ok ++ s) = ds ++ leading s := by
  induction ds with
  | nil => rfl
  | cons d ds ih => rw [List.map_cons, List.cons_append, leading, ih, List.cons_append]

@[simp] theorem failing_append (ds : List Dirent) (s : List (Except Errno Dirent)) :
    failing (ds.map .ok ++ s) = failing s := by
  simp [failing, Except.isOk, Except.toBool]

@[simp] theorem listed_append (ds : List Dirent) (s : List (Except Errno Dirent)) :
    listed (ds.map .ok ++ s) = ds ++ listed s := by
  simp [listed, Except.toOption, Function.comp_def]

/-- A read that returns takes what it returns off the front and changes nothing behind. -/
theorem readable_append {ds : List Dirent} {s : List (Except Errno Dirent)} (hle : ds.length ≤ 32)
    (hend : ds.length < 32 → s = []) :
    readable (ds.map .ok ++ s) = ds ++ readable s ∧ (CutShort (ds.map .ok ++ s) ↔ CutShort s) := by
  rw [readable, readable, CutShort, CutShort, failing_append, leading_append]
  by_cases hlt : ds.length < 32
  · rw [hend hlt]
    simp [failing, leading]
  · have hlen : (ds ++ leading s).length = 32 + (leading s).length := by
      rw [List.length_append]
      omega
    have hdiv : (32 + (leading s).length) / 32 * 32 = ds.length + (leading s).length / 32 * 32 := by
      omega
    rw [hlen, hdiv, List.take_length_add_append]
    refine ⟨by split_ifs <;> rfl, ?_⟩
    rw [Nat.add_mod_left]

/-- A read that fails has the entries in front of the failure. -/
theorem readable_failed {ds : List Dirent} {e : Errno} {s : List (Except Errno Dirent)}
    (hlt : ds.length < 32) :
    readable (ds.map .ok ++ .error e :: s) = [] ∧
      (CutShort (ds.map .ok ++ .error e :: s) ↔ ds ≠ []) := by
  have hfail : failing (.error e :: s) = true := rfl
  have hlead : leading (.error e :: s) = [] := rfl
  rw [readable, CutShort, failing_append, leading_append, hfail, hlead, List.append_nil, if_pos rfl]
  refine ⟨?_, ?_⟩
  · rw [Nat.div_eq_of_lt hlt, Nat.zero_mul, List.take_zero]
  · rw [Nat.mod_eq_of_lt hlt, Ne, List.length_eq_zero_iff]
    simp

def HostDir.entries (listing : List DirAnswer) (d : HostDir) : List Dirent :=
  d.held ++ listed (d.dir.getD ⟨[], false, listing⟩).stream

/-- The loop of `hostdir_getdents` packs `fit` and loses `lost`. -/
structure ScanSpec (listing : List DirAnswer) (cap : ℕ) (x : Scan)
    (r : Except Errno Bytes × HostDir) (fit lost : List Dirent) : Prop where
  fit_eq : fit = fitting (cap - x.buf.length) (x.held ++ readable (x.stream listing))
  entries_eq : x.held ++ listed (x.stream listing) = fit ++ lost ++ r.2.entries listing
  pos_eq : r.2.pos = x.pos + fit.length
  opened : r.2.dir ≠ none
  ret_eq : r.1 = .ok (x.buf ++ records x.pos fit) ∨
    (∃ e, r.1 = .error e) ∧ x.buf ++ records x.pos fit = []
  lost_iff : lost ≠ [] ↔
    fit = x.held ++ readable (x.stream listing) ∧ CutShort (x.stream listing)

theorem usedOr_cases (buf : Bytes) (e : Errno) :
    usedOr buf e = .ok buf ∨ (∃ e', usedOr buf e = .error e') ∧ buf = [] := by
  rw [usedOr]
  split_ifs with h
  · exact .inr ⟨⟨e, rfl⟩, h⟩
  · exact .inl rfl

theorem scanBody_run (listing : List DirAnswer) (cap : ℕ) (x : Scan) :
    (x.restart = true → x.held = []) →
      ∃ fit lost, ScanSpec listing cap x ((scanBody listing cap).run x) fit lost := by
  induction x using (scanBody listing cap).step_induction with
  | _ x ih =>
      intro hrestart
      have happend := fitting_append (cap - x.buf.length) x.held (readable (x.stream listing))
      have hpre := fitting_initial (cap - x.buf.length) x.held
      have hturn := scanTurn listing cap x
      generalize hf : fitting (cap - x.buf.length) x.held = fit at happend hpre hturn
      cases hturn with
      | full hne hstep =>
          have hstream : x.stream listing = x.cursor.stream := by
            have hold : x.restart = false := by
              by_contra h
              have hnil := hrestart (by simpa using h)
              rw [hnil] at hpre hne
              exact hne (List.prefix_nil.mp hpre)
            rw [Scan.stream, hold]
            rfl
          rw [if_neg hne] at happend
          rw [(scanBody listing cap).run_of_stop hstep]
          refine ⟨fit, [], happend.symm, ?_, rfl, Option.some_ne_none _, usedOr_cases _ _, ?_⟩
          · obtain ⟨rest, hrest⟩ := hpre
            rw [hstream, HostDir.entries, ← hrest]
            simp
          · refine ⟨fun h => absurd rfl h, fun h => absurd ?_ hne⟩
            have hlen := congrArg List.length h.1
            rw [List.length_append] at hlen
            exact hpre.eq_of_length_le (by omega)
      | failed hfit ds e c hs hlt hstep =>
          rw [(scanBody listing cap).run_of_stop hstep]
          obtain ⟨hread, hcut⟩ := readable_failed (e := e) (s := c.stream) hlt
          rw [← hs] at hread hcut
          refine ⟨x.held, ds, ?_, ?_, ?_, Option.some_ne_none _, ?_, ?_⟩
          · rw [hread, List.append_nil, hf, hfit]
          · have hlisted : listed (.error e :: c.stream) = listed c.stream := rfl
            rw [hs, listed_append, hlisted]
            simp [HostDir.entries]
          · rw [hfit]
          · rw [hfit]
            exact usedOr_cases _ _
          · rw [hread, List.append_nil, hcut]
            simp
      | finished hfit c hs hc hstep =>
          rw [(scanBody listing cap).run_of_stop hstep]
          have hread : readable ([] : List (Except Errno Dirent)) = [] := rfl
          refine ⟨x.held, [], ?_, ?_, ?_, Option.some_ne_none _, ?_, ?_⟩
          · rw [hs, hread, List.append_nil, hf, hfit]
          · rw [hs, HostDir.entries]
            simp [hc, listed]
          · rw [hfit]
          · rw [hfit]
            exact .inl rfl
          · rw [hs]
            simp [CutShort, failing]
      | more hfit d ds c hs hle hend hstep =>
          obtain ⟨fit', lost, hspec⟩ := ih _ hstep (fun h => by cases h)
          obtain ⟨hread, hcut⟩ := readable_append hle hend
          rw [← hs] at hread hcut
          have hstream : (Scan.mk (x.buf ++ records x.pos fit) (x.pos + fit.length) (d :: ds) c
            false).stream listing = c.stream := rfl
          rw [(scanBody listing cap).run_of_continue hstep]
          rw [hfit] at hspec hstream ⊢
          obtain ⟨hfit', hentries, hpos, hopened, hret, hlost⟩ := hspec
          rw [hstream] at hfit' hentries hlost
          dsimp only at hfit' hentries hpos hret hlost
          refine ⟨x.held ++ fit', lost, ?_, ?_, ?_, hopened, ?_, ?_⟩
          · rw [happend, if_pos hfit, hread, hfit', List.length_append, length_records,
              ← Nat.sub_sub]
          · rw [hs, listed_append, hentries]
            simp
          · rw [hpos, List.length_append, Nat.add_assoc]
          · rw [records_append, ← List.append_assoc]
            exact hret
          · rw [hlost, hread, hcut, List.append_cancel_left_eq]

def hostdirScan (host : DirHost) (cap : ℕ) (buf : Bytes) (restart : Bool) (d : HostDir) :
    Except Errno Bytes × HostDir :=
  match d.dir with
  | none =>
    if host.dirOk then
      (scanBody host.listing cap).run ⟨buf, d.pos, d.held, ⟨[], false, host.listing⟩, true⟩
    else (.error .ENOMEM, d)
  | some c => (scanBody host.listing cap).run ⟨buf, d.pos, d.held, c, restart⟩

def hostdirGetdents (host : DirHost) (d : HostDir) (cap : ℕ) : Except Errno Bytes × HostDir :=
  if d.priv = false ∧ host.privOk = false then (.error .ENOMEM, d)
  else
    let d := { d with priv := true }
    match if d.pos = 0 then (direntPack cap [] 1 (selfEntry host.ino)).map fun b => (b, { d with pos := 1 })
      else some ([], d) with
    | none => (.error .EINVAL, d)
    | some (buf, d) =>
      if d.pos = 1 then
        match direntPack cap buf 2 parentEntry with
        | none => (.ok buf, d)
        | some buf => hostdirScan host cap buf true { d with pos := 2 }
      else hostdirScan host cap buf false d

/-- `hostdir_lseek`, which takes a seek to the start and a question for the position. -/
def hostdirLseek (d : HostDir) (off : ℤ) (whence : ℕ) : Except Errno ℕ × HostDir :=
  if whence = 0 ∧ off = 0 then (.ok 0, { d with pos := 0, held := [], dir := none })
  else if whence = 1 ∧ off = 0 then (.ok d.pos, d)
  else (.error .EINVAL, d)

/-- The host's cursor is opened behind the dot records, and entries are held from it. -/
structure HostDir.Sound (d : HostDir) : Prop where
  behind_dots : d.pos < 2 → d.dir = none
  held_from : d.dir = none → d.held = []

def HostDir.dots (host : DirHost) (d : HostDir) : List Dirent :=
  if d.pos = 0 then [selfEntry host.ino, parentEntry]
  else if d.pos = 1 then [parentEntry]
  else []

def HostDir.remaining (host : DirHost) (d : HostDir) : List Dirent :=
  d.dots host ++ d.entries host.listing

def HostDir.stream (host : DirHost) (d : HostDir) : List (Except Errno Dirent) :=
  (d.dir.getD ⟨[], false, host.listing⟩).stream

/-- There is a cursor to read from, or there will be. -/
def HostDir.HasCursor (host : DirHost) (d : HostDir) : Prop := d.dir ≠ none ∨ host.dirOk = true

instance (host : DirHost) (d : HostDir) : Decidable (d.HasCursor host) :=
  inferInstanceAs (Decidable (_ ∨ _))

def HostDir.Allocated (host : DirHost) (d : HostDir) : Prop := d.priv = true ∨ host.privOk = true

instance (host : DirHost) (d : HostDir) : Decidable (d.Allocated host) :=
  inferInstanceAs (Decidable (_ ∨ _))

/-- The entries a call may pack, given room. -/
def HostDir.offer (host : DirHost) (d : HostDir) : List Dirent :=
  d.dots host ++ if d.HasCursor host then d.held ++ readable (d.stream host) else []

def HostDir.packs (host : DirHost) (d : HostDir) (cap : ℕ) : List Dirent :=
  if d.Allocated host then fitting cap (d.offer host) else []

/-- The call has packed the dot records and then has no cursor to go on with. -/
structure HostDir.Stranded (host : DirHost) (d : HostDir) (cap : ℕ) : Prop where
  allocated : d.Allocated host
  noCursor : ¬ d.HasCursor host
  dots_ne : d.dots host ≠ []
  dots_fit : fitting cap (d.dots host) = d.dots host

structure HostDir.Loses (host : DirHost) (d : HostDir) (cap : ℕ) : Prop where
  allocated : d.Allocated host
  hasCursor : d.HasCursor host
  packs_all : fitting cap (d.offer host) = d.offer host
  cutShort : CutShort (d.stream host)

theorem HostDir.dots_of_cursor {host : DirHost} {d : HostDir} (hd : d.Sound) (h : d.dir ≠ none) :
    d.dots host = [] := by
  have hpos : ¬ d.pos < 2 := fun hlt => h (hd.behind_dots hlt)
  rw [HostDir.dots, if_neg (by omega), if_neg (by omega)]

theorem reclen_selfEntry (ino : UInt64) : reclen (selfEntry ino) = 24 := by
  change (LX_DIRENT64_HDR + (cstr (str ".")).length + 1 + 7) / 8 * 8 = 24
  decide

theorem reclen_parentEntry : reclen parentEntry = 24 := rfl

/-- The dot records, and where the call goes on. -/
theorem hostdirGetdents_dots (host : DirHost) (d : HostDir) (cap : ℕ) (hal : d.Allocated host) :
    hostdirGetdents host d cap =
      if fitting cap (d.dots host) = d.dots host then
        hostdirScan host cap (records d.pos (d.dots host)) (d.dots host ≠ [])
          { d with priv := true, pos := d.pos + (d.dots host).length }
      else if d.pos = 0 ∧ fitting cap (d.dots host) = [] then
        (.error .EINVAL, { d with priv := true })
      else (.ok (records d.pos (fitting cap (d.dots host))),
        { d with priv := true, pos := d.pos + (fitting cap (d.dots host)).length }) := by
  have halloc : ¬ (d.priv = false ∧ host.privOk = false) := by
    simpa [HostDir.Allocated, or_iff_not_imp_left] using hal
  have hself := reclen_selfEntry host.ino
  have hparent := reclen_parentEntry
  obtain ⟨pos, priv, held, dir⟩ := d
  rw [hostdirGetdents, if_neg halloc]
  rcases pos with _ | _ | pos
  · by_cases h1 : cap < 24
    · simp [HostDir.dots, fitting, direntPack, hself, h1, Nat.not_le.mpr h1]
    · by_cases h2 : cap < 48
      · have h24 : ¬ 24 ≤ cap - 24 := by omega
        simp [HostDir.dots, fitting, direntPack, hself, hparent, h1, h2, h24, Nat.not_lt.mp h1,
          records]
      · have h24 : 24 ≤ cap - 24 := by omega
        simp [HostDir.dots, fitting, direntPack, hself, hparent, h1, h2, h24, Nat.not_lt.mp h1,
          records]
  · by_cases h1 : cap < 24
    · simp [HostDir.dots, fitting, direntPack, hparent, h1, Nat.not_le.mpr h1, records]
    · simp [HostDir.dots, fitting, direntPack, hparent, h1, Nat.not_lt.mp h1, records]
  · simp [HostDir.dots, fitting, records]

/-- `hostdir_getdents` packs `fit` and loses `lost`. -/
structure GetdentsSpec (host : DirHost) (d : HostDir) (cap : ℕ) (r : Except Errno Bytes × HostDir)
    (lost : List Dirent) : Prop where
  sound : r.2.Sound
  remaining_eq : d.remaining host = d.packs host cap ++ lost ++ r.2.remaining host
  pos_eq : r.2.pos = d.pos + (d.packs host cap).length
  ret_eq : r.1 = .ok (records d.pos (d.packs host cap)) ∧ ¬ d.Stranded host cap ∨
    (∃ e, r.1 = .error e) ∧ (d.packs host cap = [] ∧ ¬ d.Stranded host cap ∨
      d.packs host cap ≠ [] ∧ d.Stranded host cap)
  lost_iff : lost ≠ [] ↔ d.Loses host cap

theorem HostDir.dots_of_behind {host : DirHost} {d : HostDir} (h : 2 ≤ d.pos) :
    d.dots host = [] := by
  rw [HostDir.dots, if_neg (by omega), if_neg (by omega)]

theorem HostDir.behind_dots (host : DirHost) (d : HostDir) :
    2 ≤ d.pos + (d.dots host).length := by
  rw [HostDir.dots]
  split_ifs with h0 h1
  · simp [h0]
  · simp [h1]
  · simp only [List.length_nil]
    omega

/-- The dot records go one by one as the position moves. -/
theorem HostDir.dots_drop (host : DirHost) (d d' : HostDir) {k : ℕ}
    (hk : k ≤ (d.dots host).length) (hpos : d'.pos = d.pos + k) :
    d'.dots host = (d.dots host).drop k := by
  obtain ⟨pos, priv, held, dir⟩ := d
  simp only [HostDir.dots] at hk ⊢
  dsimp only at hpos
  rw [hpos]
  rcases pos with _ | _ | pos
  · have hk' : k ≤ 2 := hk
    interval_cases k <;> rfl
  · have hk' : k ≤ 1 := hk
    interval_cases k <;> rfl
  · have hk' : k = 0 := by simpa using hk
    rw [hk']
    rfl

/-- The loop that a call enters behind the dot records, when there is a cursor. -/
theorem hostdirScan_loop (host : DirHost) {d : HostDir} (hd : d.Sound) (cap : ℕ)
    (hcur : d.HasCursor host) :
    ∃ x : Scan, hostdirScan host cap (records d.pos (d.dots host)) (d.dots host ≠ [])
        { d with priv := true, pos := d.pos + (d.dots host).length } =
          (scanBody host.listing cap).run x ∧
      x.buf = records d.pos (d.dots host) ∧ x.pos = d.pos + (d.dots host).length ∧
      x.held = d.held ∧ x.stream host.listing = d.stream host ∧
      (x.restart = true → x.held = []) := by
  rw [hostdirScan]
  cases hdir : d.dir with
  | none =>
      have hok : host.dirOk = true := hcur.resolve_left (fun h => h hdir)
      simp only [hok, if_true]
      refine ⟨_, rfl, rfl, rfl, rfl, ?_, fun _ => hd.held_from hdir⟩
      rw [HostDir.stream, hdir]
      rfl
  | some c =>
      have hnil : d.dots host = [] := HostDir.dots_of_cursor hd (by rw [hdir]; simp)
      refine ⟨_, rfl, rfl, rfl, rfl, ?_, ?_⟩
      · rw [HostDir.stream, hdir, hnil]
        rfl
      · rw [hnil]
        intro h
        simp at h

theorem hostdirScan_spec (host : DirHost) {d : HostDir} (hd : d.Sound) (cap : ℕ)
    (hal : d.Allocated host) (hcur : d.HasCursor host)
    (hfit : fitting cap (d.dots host) = d.dots host) :
    ∃ lost, GetdentsSpec host d cap (hostdirScan host cap (records d.pos (d.dots host))
      (d.dots host ≠ []) { d with priv := true, pos := d.pos + (d.dots host).length }) lost := by
  have hbehind := d.behind_dots host
  obtain ⟨x, hx, hbuf, hxpos, hheld, hstream, hrestart⟩ := hostdirScan_loop host hd cap hcur
  obtain ⟨fit, lost, hspec⟩ := scanBody_run host.listing cap x hrestart
  rw [hx]
  generalize (scanBody host.listing cap).run x = r at hspec
  obtain ⟨hfiteq, hentries, hrpos, hopened, hret, hlost⟩ := hspec
  rw [hbuf, hheld, hstream, length_records] at hfiteq
  rw [hheld, hstream] at hentries hlost
  rw [hbuf, hxpos, ← records_append] at hret
  have hoffer : d.offer host = d.dots host ++ (d.held ++ readable (d.stream host)) := by
    rw [HostDir.offer, if_pos hcur]
  have hfitting : fitting cap (d.offer host) = d.dots host ++ fit := by
    rw [hoffer, fitting_append, if_pos hfit, hfiteq]
  have hpacks : d.packs host cap = d.dots host ++ fit := by
    rw [HostDir.packs, if_pos hal, hfitting]
  have hstr : ¬ d.Stranded host cap := fun h => h.noCursor hcur
  refine ⟨lost, ⟨fun h => ?_, fun h => absurd h hopened⟩, ?_, ?_, ?_, ?_⟩
  · rw [hrpos, hxpos] at h
    omega
  · have hentries' : d.entries host.listing = fit ++ lost ++ r.2.entries host.listing := hentries
    rw [HostDir.remaining, HostDir.remaining, HostDir.dots_of_behind (d := r.2) (by omega),
      hentries', hpacks]
    simp
  · rw [hrpos, hxpos, hpacks, List.length_append, Nat.add_assoc]
  · rw [hpacks]
    rcases hret with hret | ⟨he, hnil⟩
    · exact .inl ⟨hret, hstr⟩
    · exact .inr ⟨he, .inl ⟨records_eq_nil hnil, hstr⟩⟩
  · rw [hlost]
    constructor
    · rintro ⟨hall, hcut⟩
      exact ⟨hal, hcur, by rw [hfitting, hall, hoffer], hcut⟩
    · intro h
      have hall := h.packs_all
      rw [hfitting, hoffer, List.append_cancel_left_eq] at hall
      exact ⟨hall, h.cutShort⟩

theorem hostdirScan_stranded (host : DirHost) {d : HostDir} (hd : d.Sound) (cap : ℕ)
    (hal : d.Allocated host) (hcur : ¬ d.HasCursor host)
    (hfit : fitting cap (d.dots host) = d.dots host) :
    GetdentsSpec host d cap (hostdirScan host cap (records d.pos (d.dots host))
      (d.dots host ≠ []) { d with priv := true, pos := d.pos + (d.dots host).length }) [] := by
  have hbehind := d.behind_dots host
  obtain ⟨hdir, hok⟩ : d.dir = none ∧ host.dirOk = false := by
    simpa [HostDir.HasCursor, not_or] using hcur
  have hscan : hostdirScan host cap (records d.pos (d.dots host)) (d.dots host ≠ [])
      { d with priv := true, pos := d.pos + (d.dots host).length } =
        (.error .ENOMEM, { d with priv := true, pos := d.pos + (d.dots host).length }) := by
    rw [hostdirScan, hdir]
    simp [hok]
  have hpacks : d.packs host cap = d.dots host := by
    rw [HostDir.packs, if_pos hal, HostDir.offer, if_neg hcur, List.append_nil, hfit]
  rw [hscan]
  refine ⟨⟨fun h => ?_, hd.held_from⟩, ?_, ?_, ?_, ?_⟩
  · dsimp only at h
    omega
  · have hnil : HostDir.dots host
        { d with priv := true, pos := d.pos + (d.dots host).length } = [] :=
      HostDir.dots_of_behind hbehind
    rw [hpacks, HostDir.remaining, HostDir.remaining, hnil]
    simp [HostDir.entries]
  · rw [hpacks]
  · rw [hpacks]
    refine .inr ⟨⟨_, rfl⟩, ?_⟩
    by_cases hne : d.dots host = []
    · exact .inl ⟨hne, fun h => h.dots_ne hne⟩
    · exact .inr ⟨hne, hal, hcur, hne, hfit⟩
  · exact ⟨fun h => absurd rfl h, fun h => absurd h.hasCursor hcur⟩

/-- A call that runs out of room among the dot records. -/
theorem hostdirGetdents_short (host : DirHost) {d : HostDir} (hd : d.Sound) (cap : ℕ)
    (hal : d.Allocated host) (hfit : fitting cap (d.dots host) ≠ d.dots host) :
    GetdentsSpec host d cap (hostdirGetdents host d cap) [] := by
  have hpre := fitting_initial cap (d.dots host)
  have hne : d.dots host ≠ [] := fun h => hfit (by rw [h]; rfl)
  have hdir : d.dir = none := by
    by_contra h
    exact hne (HostDir.dots_of_cursor hd h)
  have hpacks : d.packs host cap = fitting cap (d.dots host) := by
    rw [HostDir.packs, if_pos hal, HostDir.offer, fitting_append, if_neg hfit]
  have hstr : ¬ d.Stranded host cap := fun h => hfit h.dots_fit
  have hlose : ¬ d.Loses host cap := by
    intro h
    have hall := h.packs_all
    rw [HostDir.offer, fitting_append, if_neg hfit] at hall
    have hlen := congrArg List.length hall
    rw [List.length_append] at hlen
    exact hfit (hpre.eq_of_length_le (by omega))
  have hspec : ∀ ret d', d' = { d with priv := true, pos := d.pos + (d.packs host cap).length } →
      (ret = .ok (records d.pos (d.packs host cap)) ∨
        (∃ e, ret = .error e) ∧ d.packs host cap = []) →
      GetdentsSpec host d cap (ret, d') [] := by
    rintro ret d' rfl hret
    refine ⟨⟨fun _ => hdir, hd.held_from⟩, ?_, rfl, ?_, ?_⟩
    · have hdots := HostDir.dots_drop host d
        { d with priv := true, pos := d.pos + (d.packs host cap).length }
        (by rw [hpacks]; exact hpre.length_le) rfl
      have hsplit := List.prefix_iff_eq_append.mp hpre
      rw [← hpacks] at hsplit
      rw [HostDir.remaining, HostDir.remaining, hdots, List.append_nil, ← List.append_assoc, hsplit]
      rfl
    · rcases hret with hret | ⟨he, hnil⟩
      · exact .inl ⟨hret, hstr⟩
      · exact .inr ⟨he, .inl ⟨hnil, hstr⟩⟩
    · exact ⟨fun h => absurd rfl h, fun h => absurd h hlose⟩
  rw [hostdirGetdents_dots host d cap hal, if_neg hfit, ← hpacks]
  split_ifs with hnone
  · exact hspec _ _ (by rw [hnone.2]; rfl) (.inr ⟨⟨_, rfl⟩, hnone.2⟩)
  · exact hspec _ _ rfl (.inl rfl)

theorem hostdirGetdents_spec (host : DirHost) {d : HostDir} (hd : d.Sound) (cap : ℕ) :
    ∃ lost, GetdentsSpec host d cap (hostdirGetdents host d cap) lost := by
  by_cases hal : d.Allocated host
  · by_cases hfit : fitting cap (d.dots host) = d.dots host
    · rw [hostdirGetdents_dots host d cap hal, if_pos hfit]
      by_cases hcur : d.HasCursor host
      · exact hostdirScan_spec host hd cap hal hcur hfit
      · exact ⟨[], hostdirScan_stranded host hd cap hal hcur hfit⟩
    · exact ⟨[], hostdirGetdents_short host hd cap hal hfit⟩
  · have hrefused : hostdirGetdents host d cap = (.error .ENOMEM, d) := by
      rw [hostdirGetdents, if_pos]
      simpa [HostDir.Allocated, not_or] using hal
    have hpacks : d.packs host cap = [] := by rw [HostDir.packs, if_neg hal]
    rw [hrefused]
    refine ⟨[], hd, by simp [hpacks], by simp [hpacks], .inr ⟨⟨_, rfl⟩, .inl ⟨hpacks, ?_⟩⟩, ?_⟩
    · exact fun h => hal h.allocated
    · exact ⟨fun h => absurd rfl h, fun h => absurd h.allocated hal⟩

theorem hostdirGetdents_sound (host : DirHost) {d : HostDir} (hd : d.Sound) (cap : ℕ) :
    (hostdirGetdents host d cap).2.Sound := by
  obtain ⟨lost, hspec⟩ := hostdirGetdents_spec host hd cap
  exact hspec.sound

end SysvNt
