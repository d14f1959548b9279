import SysvNt.ActionRuns
import SysvNt.DirectoryRecords
import SysvNt.HostDirectories
import SysvNt.NameRoundTrip

/-!
# Listing a directory to its end

A description of a directory of `/proc`, of `/dev` or of a directory on the host that reports no
failure, read by calls of `getdents64` with buffers of any lengths and moved by `lseek`. What such
a description lists is fixed: the two dots and the entries. A call is exact if it gives the next
of them as whole records, none only at the end, and refuses a buffer that the next record does not
fit. The host's directories have two calls that are not exact, and runs without them are.
-/

namespace SysvNt

/-- What a loop of `dirent_pack` over some entries is to answer. -/
def packAnswer (cap : ℕ) (buf : Bytes) (pos : ℕ) (ds : List Dirent) : Except Errno Bytes :=
  if fitting (cap - buf.length) ds = ds then .ok (buf ++ records pos ds)
  else usedOr (buf ++ records pos (fitting (cap - buf.length) ds)) .EINVAL

/-- Entries in front that found room are part of the buffer. -/
theorem packAnswer_append {cap : ℕ} (buf : Bytes) (pos : ℕ) {ds : List Dirent} (es : List Dirent)
    (h : fitting (cap - buf.length) ds = ds) :
    packAnswer cap (buf ++ records pos ds) (pos + ds.length) es = packAnswer cap buf pos (ds ++ es) := by
  have hlen : cap - (buf ++ records pos ds).length = cap - buf.length - (ds.map reclen).sum := by
    rw [List.length_append, length_records, Nat.sub_sub]
  rw [packAnswer, packAnswer, fitting_append, if_pos h, hlen, records_append, List.append_assoc,
    records_append, List.append_assoc]
  simp only [List.append_cancel_left_eq]

theorem synthGetdents_eq (ents : List Dirent) (pos cap : ℕ) :
    synthGetdents ents pos cap = (packAnswer cap [] pos (ents.drop pos),
      pos + (fitting cap (ents.drop pos)).length) := by
  rw [synthGetdents, packAll_eq, packAnswer]
  have hpre := fitting_initial cap (ents.drop pos)
  simp only [List.length_nil, Nat.sub_zero, List.nil_append, List.drop_eq_nil_iff]
  generalize fitting cap (ents.drop pos) = fit at hpre ⊢
  by_cases hall : fit = ents.drop pos
  · rw [if_pos hall, if_pos (.inl (by rw [hall])), hall]
  · have hlt : ¬ (ents.drop pos).length ≤ fit.length := fun hle => hall (hpre.eq_of_length_le hle)
    rw [if_neg hall, usedOr]
    by_cases hnone : records pos fit = []
    · rw [if_neg (fun h => h.elim hlt fun hne => hne hnone), if_pos hnone]
    · rw [if_pos (.inr hnone), if_neg hnone]

/-- A part at the front of a stream without a failure leaves one without. -/
theorem of_map_ok_eq_append {ds es : List Dirent} {s : List (Except Errno Dirent)}
    (h : ds.map .ok = es.map .ok ++ s) : ∃ fs, ds = es ++ fs ∧ s = fs.map .ok := by
  obtain ⟨front, back, rfl, hfront, hback⟩ := List.map_eq_append_iff.mp h
  have hinj : Function.Injective (Except.ok : Dirent → Except Errno Dirent) := fun _ _ => Except.ok.inj
  exact ⟨back, by rw [hinj.list_map hfront], hback.symm⟩

/-- The loop over a stream without a failure: the answer, and that no failure is left. -/
theorem scanBody_answer (listing : List DirAnswer) (cap : ℕ) (x : Scan) :
    ∀ ds, x.stream listing = ds.map .ok → (x.restart = true → x.held = []) →
      ((scanBody listing cap).run x).1 = packAnswer cap x.buf x.pos (x.held ++ ds) ∧
      ∃ c, ∃ es : List Dirent, ((scanBody listing cap).run x).2.dir = some c ∧ c.stream = es.map .ok := by
  induction x using (scanBody listing cap).step_induction with
  | _ x ih =>
      intro ds hds hrestart
      have happend := fitting_append (cap - x.buf.length) x.held ds
      have hpre := fitting_initial (cap - x.buf.length) x.held
      have hturn := scanTurn listing cap x
      generalize hf : fitting (cap - x.buf.length) x.held = fit at happend hpre hturn
      cases hturn with
      | full hne hstep =>
          have hstream : x.stream listing = x.cursor.stream := by
            have hold : x.restart = false := by
              by_contra h
              rw [hrestart (by simpa using h)] at hpre hne
              exact hne (List.prefix_nil.mp hpre)
            rw [Scan.stream, hold]
            rfl
          have hpart : ¬ fit = x.held ++ ds := by
            intro h
            have hlen := congrArg List.length h
            rw [List.length_append] at hlen
            exact hne (hpre.eq_of_length_le (by omega))
          rw [if_neg hne] at happend
          rw [(scanBody listing cap).run_of_stop hstep, packAnswer, happend, if_neg hpart]
          exact ⟨rfl, x.cursor, ds, rfl, hstream.symm.trans hds⟩
      | failed hfit es e c hs hlt hstep =>
          obtain ⟨fs, _, hfs⟩ := of_map_ok_eq_append (hds.symm.trans hs)
          cases fs <;> cases hfs
      | finished hfit c hs hc hstep =>
          obtain rfl : ds = [] := List.map_eq_nil_iff.mp (hds.symm.trans hs)
          rw [(scanBody listing cap).run_of_stop hstep, List.append_nil, packAnswer, hf, if_pos hfit, hfit]
          exact ⟨rfl, c, [], rfl, hc⟩
      | more hfit d es c hs hle hend hstep =>
          obtain ⟨fs, rfl, hfs⟩ := of_map_ok_eq_append (hds.symm.trans hs)
          obtain ⟨hanswer, hdir⟩ := ih _ hstep fs hfs (fun h => by cases h)
          rw [(scanBody listing cap).run_of_continue hstep]
          refine ⟨hanswer.trans ?_, hdir⟩
          rw [hfit]
          exact packAnswer_append x.buf x.pos _ (hf.trans hfit)

def DirHost.lists (host : DirHost) : List Dirent :=
  selfEntry host.ino :: parentEntry :: listed (Cursor.mk [] false host.listing).stream

/-- A description of a directory that reports no failure: what it has still to list is what its
position says. -/
structure HostDir.Reads (host : DirHost) (d : HostDir) : Prop where
  sound : d.Sound
  opened : 2 ≤ d.pos → d.dir ≠ none
  unfailing : ∃ ds : List Dirent, d.stream host = ds.map .ok
  remaining : d.remaining host = host.lists.drop d.pos

theorem listed_map_ok (ds : List Dirent) : listed (ds.map .ok) = ds := by
  simpa [listed] using listed_append ds []

theorem readable_map_ok (ds : List Dirent) : readable (ds.map .ok) = ds ∧ ¬ CutShort (ds.map .ok) := by
  have hlead : leading (ds.map .ok) = ds := by simpa [leading] using leading_append ds []
  have hfail : failing (ds.map .ok) = false := by simpa [failing] using failing_append ds []
  refine ⟨by rw [readable, hfail, if_neg (by decide), hlead], fun h => ?_⟩
  rw [CutShort, hfail] at h
  cases h.1

/-- The buffer is too short for the second dot record, the next to be listed. -/
def HostDir.BetweenDots (d : HostDir) (cap : ℕ) : Prop := d.pos = 1 ∧ cap < 24

section Host

variable {host : DirHost} {d : HostDir} {cap : ℕ}

/-- Where the dots fit there is a cursor, unless the call is stranded. -/
theorem HostDir.Reads.hasCursor (hd : d.Reads host) (hal : d.Allocated host)
    (hstranded : ¬ d.Stranded host cap) (hfit : fitting cap (d.dots host) = d.dots host) :
    d.HasCursor host := by
  by_contra hcur
  have hdir : d.dir = none := by
    by_contra h
    exact hcur (.inl h)
  have hpos : d.pos < 2 := by
    by_contra h
    exact hd.opened (by omega) hdir
  refine hstranded ⟨hal, hcur, ?_, hfit⟩
  rw [HostDir.dots]
  split_ifs <;> first | exact List.cons_ne_nil _ _ | omega

theorem HostDir.entries_of_stream {ds : List Dirent} (hds : d.stream host = ds.map .ok) :
    d.entries host.listing = d.held ++ ds := by
  have hlisted := listed_map_ok ds
  rw [← hds] at hlisted
  rw [← hlisted]
  rfl

theorem HostDir.Reads.packs_eq (hd : d.Reads host) (hal : d.Allocated host)
    (hstranded : ¬ d.Stranded host cap) : d.packs host cap = fitting cap (d.remaining host) := by
  obtain ⟨ds, hds⟩ := hd.unfailing
  have hentries := HostDir.entries_of_stream hds
  rw [HostDir.packs, if_pos hal, HostDir.offer, HostDir.remaining, hentries]
  by_cases hcur : d.HasCursor host
  · rw [if_pos hcur, hds, (readable_map_ok ds).1]
  · have hfit : ¬ fitting cap (d.dots host) = d.dots host := fun h =>
      hcur (hd.hasCursor hal hstranded h)
    rw [if_neg hcur, List.append_nil, fitting_append, if_neg hfit]

theorem HostDir.dots_length (host : DirHost) (d : HostDir) : (d.dots host).length = 2 - d.pos := by
  rw [HostDir.dots]
  split_ifs with h0 h1
  · rw [h0]
    rfl
  · rw [h1]
    rfl
  · rw [List.length_nil]
    omega

/-- A call that stops among the dot records. -/
theorem hostdirGetdents_between (hal : d.Allocated host) (hbetween : ¬ d.BetweenDots cap)
    (hfit : ¬ fitting cap (d.dots host) = d.dots host) :
    hostdirGetdents host d cap = (packAnswer cap [] d.pos (d.remaining host),
      { d with priv := true, pos := d.pos + (fitting cap (d.dots host)).length }) := by
  have hpre := fitting_initial cap (d.dots host)
  have hall : fitting cap (d.remaining host) = fitting cap (d.dots host) := by
    rw [HostDir.remaining, fitting_append, if_neg hfit]
  have hpart : ¬ fitting cap (d.dots host) = d.remaining host := by
    intro h
    have hlen := congrArg List.length h
    rw [HostDir.remaining, List.length_append] at hlen
    exact hfit (hpre.eq_of_length_le (by omega))
  rw [hostdirGetdents_dots host d cap hal, if_neg hfit, packAnswer, List.length_nil, Nat.sub_zero, hall,
    if_neg hpart, List.nil_append, usedOr]
  by_cases hnone : fitting cap (d.dots host) = []
  · have hzero : d.pos = 0 := by
      by_contra hne
      have hone : d.pos = 1 := by
        by_contra hmore
        rw [HostDir.dots, if_neg hne, if_neg hmore] at hfit
        exact hfit rfl
      refine hbetween ⟨hone, ?_⟩
      rw [HostDir.dots, if_neg hne, if_pos hone, fitting, reclen_parentEntry] at hnone
      by_contra hlt
      rw [if_pos (by omega)] at hnone
      cases hnone
    rw [if_pos ⟨hzero, hnone⟩, hnone]
    rfl
  · have hrecords : ¬ records d.pos (fitting cap (d.dots host)) = [] := fun h => hnone (records_eq_nil h)
    rw [if_neg (fun h => hnone h.2), if_neg hrecords]

/-- A call on such a description: its answer, and that the description goes on being one. -/
theorem HostDir.Reads.getdents (hd : d.Reads host) (hal : d.Allocated host)
    (hbetween : ¬ d.BetweenDots cap) (hstranded : ¬ d.Stranded host cap) :
    (hostdirGetdents host d cap).1 = packAnswer cap [] d.pos (d.remaining host) ∧
      (hostdirGetdents host d cap).2.Reads host ∧
      (hostdirGetdents host d cap).2.pos = d.pos + (fitting cap (d.remaining host)).length := by
  obtain ⟨ds, hds⟩ := hd.unfailing
  obtain ⟨lost, hspec⟩ := hostdirGetdents_spec host hd.sound cap
  have hlost : lost = [] := by
    by_contra h
    have hcut := (hspec.lost_iff.mp h).cutShort
    rw [hds] at hcut
    exact (readable_map_ok ds).2 hcut
  have hpos := hspec.pos_eq
  have hremaining := hspec.remaining_eq
  rw [hd.packs_eq hal hstranded] at hpos hremaining
  rw [hlost, List.append_nil] at hremaining
  have hleft : (hostdirGetdents host d cap).2.remaining host =
      host.lists.drop (hostdirGetdents host d cap).2.pos := by
    have hdrop := congrArg (List.drop (fitting cap (d.remaining host)).length) hremaining
    rw [List.drop_left] at hdrop
    rw [hpos, ← List.drop_drop, ← hd.remaining, hdrop]
  by_cases hfit : fitting cap (d.dots host) = d.dots host
  · have hcur := hd.hasCursor hal hstranded hfit
    have hscan := hostdirGetdents_dots host d cap hal
    rw [if_pos hfit] at hscan
    obtain ⟨x, hx, hbuf, hxpos, hheld, hstream, hrestart⟩ := hostdirScan_loop host hd.sound cap hcur
    obtain ⟨hanswer, c, es, hdir, hes⟩ := scanBody_answer host.listing cap x ds (hstream.trans hds) hrestart
    rw [← hx, ← hscan] at hanswer hdir
    refine ⟨hanswer.trans ?_, ⟨hspec.sound, fun _ => ?_, ⟨es, ?_⟩, hleft⟩, hpos⟩
    · have happend := packAnswer_append [] d.pos (d.held ++ ds) hfit
      rw [List.nil_append] at happend
      rw [hbuf, hxpos, hheld, happend, HostDir.remaining, HostDir.entries_of_stream hds]
    · rw [hdir]
      exact Option.some_ne_none c
    · rw [HostDir.stream, hdir]
      exact hes
  · have hrun := hostdirGetdents_between hal hbetween hfit
    have hsound := hspec.sound
    have hdir : d.dir = none := by
      by_contra h
      rw [HostDir.dots_of_cursor hd.sound h] at hfit
      exact hfit rfl
    have hlt : (fitting cap (d.dots host)).length < (d.dots host).length := by
      by_contra hle
      exact hfit ((fitting_initial cap (d.dots host)).eq_of_length_le (by omega))
    have hend := d.dots_length host
    rw [hrun] at hleft hpos hsound ⊢
    exact ⟨rfl, ⟨hsound, fun h => by dsimp only at h; omega, ⟨ds, hds⟩, hleft⟩, hpos⟩

end Host

def procDirLseek (pos : ℕ) (off : ℤ) (whence : ℕ) : Except Errno ℕ × ℕ :=
  if whence = 0 ∧ off = 0 then (.ok 0, 0)
  else if whence = 1 ∧ off = 0 then (.ok pos, pos)
  else (.error .EINVAL, pos)

/-- A description of a directory; for one on the host, with the number and the listing that the
host answers with. -/
inductive DirFile where
  | proc (d : ProcDir) (pos : ℕ)
  | dev (pos : ℕ)
  | host (ino : UInt64) (listing : List DirAnswer) (d : HostDir)

/-- A call on a directory; for a listing, whether the allocations it may need succeed. -/
inductive DirCall where
  | getdents (len : ℕ) (privOk dirOk : Bool)
  | lseek (off : ℤ) (whence : ℕ)

namespace DirFile

def pos : DirFile → ℕ
  | proc _ p => p
  | dev p => p
  | host _ _ d => d.pos

def names : DirFile → List Bytes
  | proc d _ => d.names.map Prod.fst
  | dev _ => devnodes.map DevNode.name
  | host _ listing _ => (listed (Cursor.mk [] false listing).stream).map Dirent.name

def entries : DirFile → List Dirent
  | proc d _ => d.entries
  | dev _ => devEntries
  | host ino listing _ => (DirHost.mk ino listing true true).lists

def getdents (f : DirFile) (len : ℕ) (privOk dirOk : Bool) : Except Errno Bytes × DirFile :=
  match f with
  | proc d p => ((procGetdents d p len).1, proc d (procGetdents d p len).2)
  | dev p => ((devdirGetdents p len).1, dev (devdirGetdents p len).2)
  | host ino listing d =>
    let r := hostdirGetdents ⟨ino, listing, privOk, dirOk⟩ d len
    (r.1, host ino listing r.2)

def lseek (f : DirFile) (off : ℤ) (whence : ℕ) : Except Errno ℕ × DirFile :=
  match f with
  | proc d p => ((procDirLseek p off whence).1, proc d (procDirLseek p off whence).2)
  | dev p => ((procDirLseek p off whence).1, dev (procDirLseek p off whence).2)
  | host ino listing d => ((hostdirLseek d off whence).1, host ino listing (hostdirLseek d off whence).2)

/-- A directory as `open` leaves it, on a host that reports no failure. -/
def Opened : DirFile → Prop
  | proc d p => (∃ pv, d.names = procNames pv d.cls) ∧ p = 0
  | dev p => p = 0
  | host _ listing d => (∀ a ∈ listing, a.isOk = true) ∧ d = ⟨0, false, [], none⟩

def Mishandles : DirFile → DirCall → Prop
  | host ino listing d, .getdents len privOk dirOk =>
    d.BetweenDots len ∨ d.Stranded ⟨ino, listing, privOk, dirOk⟩ len
  | _, _ => False

end DirFile

/-- A directory being listed: the description, and the bytes delivered since the last seek to the
start. -/
structure Enumeration where
  file : DirFile
  seen : Bytes

def Enumeration.step (x : Enumeration) : DirCall → Enumeration
  | .getdents len privOk dirOk => match x.file.getdents len privOk dirOk with
    | (.ok bytes, f) => ⟨f, x.seen ++ bytes⟩
    | (.error _, f) => ⟨f, x.seen⟩
  | .lseek off whence =>
    ⟨(x.file.lseek off whence).2, if whence = 0 ∧ off = 0 then [] else x.seen⟩

inductive Enumeration.Exact (x : Enumeration) : DirCall → Prop where
  | getdents {len : ℕ} {privOk dirOk : Bool} {answer : Except Errno Bytes} {f : DirFile}
      (call : x.file.getdents len privOk dirOk = (answer, f))
      (whole : ∀ bytes, answer = .ok bytes → bytes.length ≤ len ∧ ∃ ds, x.file.entries.drop x.file.pos =
        ds ++ x.file.entries.drop f.pos ∧ decode bytes = some (recordsOf x.file.pos ds))
      (ended : answer = .ok [] → decode x.seen = some (recordsOf 0 x.file.entries))
      (tooSmall : ∀ d, x.file.entries[x.file.pos]? = some d → len < reclen d →
        answer = .error .EINVAL ∨ answer = .error .ENOMEM ∧ privOk = false)
      (failed : ∀ e, answer = .error e → f.pos = x.file.pos) : Exact x (.getdents len privOk dirOk)
  | lseek {off : ℤ} {whence : ℕ}
      (moved : (x.file.lseek off whence).2.pos = if whence = 0 ∧ off = 0 then 0 else x.file.pos) :
      Exact x (.lseek off whence)

theorem fitting_sum_le (cap : ℕ) (ds : List Dirent) : ((fitting cap ds).map reclen).sum ≤ cap := by
  induction ds generalizing cap with
  | nil => exact Nat.zero_le _
  | cons d ds ih =>
      rw [fitting]
      split_ifs with h
      · have := ih (cap - reclen d)
        rw [List.map_cons, List.sum_cons]
        omega
      · exact Nat.zero_le _

/-- What the answer of a loop says of the entries that fit. -/
theorem packAnswer_cases (cap pos : ℕ) (ds : List Dirent) :
    (packAnswer cap [] pos ds = .ok (records pos (fitting cap ds)) ∧ (fitting cap ds = [] → ds = [])) ∨
      (packAnswer cap [] pos ds = .error .EINVAL ∧ fitting cap ds = []) := by
  rw [packAnswer, List.length_nil, Nat.sub_zero, List.nil_append, List.nil_append, usedOr]
  by_cases hall : fitting cap ds = ds
  · rw [if_pos hall, hall]
    exact .inl ⟨rfl, id⟩
  rw [if_neg hall]
  by_cases hnone : fitting cap ds = []
  · rw [hnone]
    exact .inr ⟨if_pos rfl, rfl⟩
  · rw [if_neg fun h => hnone (records_eq_nil h)]
    exact .inl ⟨rfl, fun h => absurd h hnone⟩

theorem unfailing_stream {listing : List DirAnswer} (h : ∀ a ∈ listing, a.isOk = true) :
    ∃ ds : List Dirent, (Cursor.mk [] false listing).stream = ds.map .ok := by
  induction listing with
  | nil => exact ⟨[], rfl⟩
  | cons a as ih =>
      obtain ⟨ha, has⟩ := List.forall_mem_cons.mp h
      obtain ⟨ds, hds⟩ := ih has
      cases a with
      | error e => cases ha
      | ok b =>
          refine ⟨(b.1 :: b.2).filterMap direntOf ++ ds, ?_⟩
          rw [List.map_append, ← hds]
          rfl

/-- A description at its start, opened or sought to. -/
theorem HostDir.reads_start {ino : UInt64} {listing : List DirAnswer} {privOk dirOk : Bool}
    (h : ∀ a ∈ listing, a.isOk = true) (priv : Bool) :
    (HostDir.mk 0 priv [] none).Reads ⟨ino, listing, privOk, dirOk⟩ where
  sound := ⟨fun _ => rfl, fun _ => rfl⟩
  opened hpos := by cases hpos
  unfailing := unfailing_stream h
  remaining := rfl

namespace DirFile

/-- A description on the host is in step with its listing, which has no failure. -/
def Reads : DirFile → Prop
  | host ino listing d => (∀ a ∈ listing, a.isOk = true) ∧ d.Reads ⟨ino, listing, true, true⟩
  | _ => True

/-- A listing that is not mishandled: the loop's answer, or no memory and no change. -/
theorem getdents_cases {f : DirFile} (hf : f.Reads) {len : ℕ} {privOk dirOk : Bool}
    (hmis : ¬ f.Mishandles (.getdents len privOk dirOk)) :
    (∃ f', f.getdents len privOk dirOk = (packAnswer len [] f.pos (f.entries.drop f.pos), f') ∧
      f'.entries = f.entries ∧ f'.Reads ∧
      f'.pos = f.pos + (fitting len (f.entries.drop f.pos)).length) ∨
    f.getdents len privOk dirOk = (.error .ENOMEM, f) ∧ privOk = false := by
  cases f with
  | proc d p =>
      refine .inl ⟨proc d (p + (fitting len (d.entries.drop p)).length), ?_, rfl, trivial, rfl⟩
      exact congrArg (fun r : Except Errno Bytes × ℕ => (r.1, proc d r.2)) (synthGetdents_eq d.entries p len)
  | dev p =>
      refine .inl ⟨dev (p + (fitting len (devEntries.drop p)).length), ?_, rfl, trivial, rfl⟩
      exact congrArg (fun r : Except Errno Bytes × ℕ => (r.1, dev r.2)) (synthGetdents_eq devEntries p len)
  | host ino listing d =>
      obtain ⟨hok, hf⟩ := hf
      have hd : d.Reads ⟨ino, listing, privOk, dirOk⟩ := ⟨hf.sound, hf.opened, hf.unfailing, hf.remaining⟩
      by_cases hal : d.Allocated ⟨ino, listing, privOk, dirOk⟩
      · obtain ⟨hanswer, hreads, hpos⟩ := hd.getdents hal (fun h => hmis (.inl h)) (fun h => hmis (.inr h))
        have hremaining : d.remaining ⟨ino, listing, privOk, dirOk⟩ =
          (host ino listing d).entries.drop d.pos := hd.remaining
        rw [hremaining] at hanswer hpos
        refine .inl ⟨_, Prod.ext hanswer rfl, rfl, ?_, hpos⟩
        exact ⟨hok, hreads.sound, hreads.opened, hreads.unfailing, hreads.remaining⟩
      · rw [HostDir.Allocated, not_or, Bool.not_eq_true, Bool.not_eq_true] at hal
        refine .inr ⟨?_, hal.2⟩
        rw [getdents, hostdirGetdents, if_pos hal]

theorem lseek_moves (f : DirFile) (off : ℤ) (whence : ℕ) :
    (f.lseek off whence).2.pos = if whence = 0 ∧ off = 0 then 0 else f.pos := by
  cases f with
  | proc d p => simp only [lseek, procDirLseek, pos]; split_ifs <;> rfl
  | dev p => simp only [lseek, procDirLseek, pos]; split_ifs <;> rfl
  | host ino listing d => simp only [lseek, hostdirLseek, pos]; split_ifs <;> rfl

theorem lseek_entries (f : DirFile) (off : ℤ) (whence : ℕ) :
    (f.lseek off whence).2.entries = f.entries := by
  cases f <;> rfl

theorem lseek_reads {f : DirFile} (hf : f.Reads) (off : ℤ) (whence : ℕ) : (f.lseek off whence).2.Reads := by
  cases f with
  | proc d p => trivial
  | dev p => trivial
  | host ino listing d =>
      obtain ⟨hok, hf⟩ := hf
      refine ⟨hok, ?_⟩
      rw [hostdirLseek]
      split_ifs
      · exact HostDir.reads_start hok d.priv
      · exact hf
      · exact hf

end DirFile

/-- A listing in progress: what was delivered is what is in front of the position. -/
structure Enumeration.Delivers (ents : List Dirent) (x : Enumeration) : Prop where
  entries : x.file.entries = ents
  short : ∀ d ∈ ents, d.Short
  pos_le : x.file.pos ≤ ents.length
  reads : x.file.Reads
  seen : x.seen = records 0 (ents.take x.file.pos)

namespace Enumeration

variable {ents : List Dirent} {x : Enumeration}

theorem Delivers.lseek (hx : x.Delivers ents) (off : ℤ) (whence : ℕ) :
    (x.step (.lseek off whence)).Delivers ents ∧ x.Exact (.lseek off whence) := by
  have hmoves := x.file.lseek_moves off whence
  refine ⟨⟨(x.file.lseek_entries off whence).trans hx.entries, hx.short, ?_, ?_, ?_⟩, .lseek hmoves⟩
  · change (x.file.lseek off whence).2.pos ≤ _
    rw [hmoves]
    split_ifs
    · exact Nat.zero_le _
    · exact hx.pos_le
  · exact DirFile.lseek_reads hx.reads off whence
  · change (if whence = 0 ∧ off = 0 then [] else x.seen) = _
    change _ = records 0 (ents.take (x.file.lseek off whence).2.pos)
    rw [hmoves]
    split_ifs
    · rfl
    · exact hx.seen

theorem Delivers.getdents (hx : x.Delivers ents) {len : ℕ} {privOk dirOk : Bool}
    (hmis : ¬ x.file.Mishandles (.getdents len privOk dirOk)) :
    (x.step (.getdents len privOk dirOk)).Delivers ents ∧ x.Exact (.getdents len privOk dirOk) := by
  have hentries := hx.entries
  rcases DirFile.getdents_cases hx.reads hmis with ⟨f, hcall, hsame, hreads, hpos⟩ | ⟨hcall, hmem⟩
  · rw [hentries] at hcall hpos hsame
    have hpre := fitting_initial len (ents.drop x.file.pos)
    have hle : f.pos ≤ ents.length := by
      have hlen := hpre.length_le
      have := hx.pos_le
      rw [List.length_drop] at hlen
      omega
    have hsplit : ents.drop x.file.pos = fitting len (ents.drop x.file.pos) ++ ents.drop f.pos := by
      rw [hpos, ← List.drop_drop]
      exact (List.prefix_iff_eq_append.mp hpre).symm
    rcases packAnswer_cases len x.file.pos (ents.drop x.file.pos) with ⟨hok, hend⟩ | ⟨herr, hnone⟩
    · rw [hok] at hcall
      have hshort : ∀ d ∈ fitting len (ents.drop x.file.pos), d.Short := fun d hd =>
        hx.short d (List.mem_of_mem_drop (hpre.subset hd))
      have hseen : x.seen ++ records x.file.pos (fitting len (ents.drop x.file.pos)) =
          records 0 (ents.take f.pos) := by
        have hlen : (ents.take x.file.pos).length = x.file.pos := List.length_take_of_le hx.pos_le
        have htake := records_append 0 (ents.take x.file.pos) (fitting len (ents.drop x.file.pos))
        rw [hlen, Nat.zero_add] at htake
        rw [hx.seen, ← htake, hpos, List.take_add, ← List.prefix_iff_eq_take.mp hpre]
      refine ⟨?_, .getdents hcall ?_ ?_ ?_ ?_⟩
      · rw [step, hcall]
        exact ⟨hsame, hx.short, hle, hreads, hseen⟩
      · intro bytes h
        cases h
        refine ⟨?_, _, ?_, decode_records _ hshort⟩
        · rw [length_records]
          exact fitting_sum_le _ _
        · rw [hentries]
          exact hsplit
      · intro h
        have hdone := hend (records_eq_nil (Except.ok.inj h))
        rw [List.drop_eq_nil_iff] at hdone
        rw [hx.seen, List.take_of_length_le hdone, hentries]
        exact decode_records 0 hx.short
      · intro d hd hlt
        rw [hentries] at hd
        obtain ⟨hin, hget⟩ := List.getElem?_eq_some_iff.mp hd
        have hnone : fitting len (ents.drop x.file.pos) = [] := by
          rw [List.drop_eq_getElem_cons hin, hget, fitting, if_neg (by omega)]
        have hdone := hend hnone
        rw [List.drop_eq_nil_iff] at hdone
        omega
      · exact fun _ h => by cases h
    · rw [herr] at hcall
      have hstay : f.pos = x.file.pos := by rw [hpos, hnone]; rfl
      refine ⟨?_, .getdents hcall ?_ ?_ ?_ ?_⟩
      · rw [step, hcall]
        refine ⟨hsame, hx.short, hle, hreads, ?_⟩
        rw [hstay]
        exact hx.seen
      · exact fun _ h => by cases h
      · exact fun h => by cases h
      · exact fun _ _ _ => .inl rfl
      · exact fun _ _ => hstay
  · refine ⟨?_, .getdents hcall ?_ ?_ ?_ ?_⟩
    · rw [step, hcall]
      exact hx
    · exact fun _ h => by cases h
    · exact fun h => by cases h
    · exact fun _ _ _ => .inr ⟨rfl, hmem⟩
    · exact fun _ _ => rfl

end Enumeration

theorem synthEntries_names (ino : ℕ → UInt64) (names : List (Bytes × UInt8)) :
    (synthEntries ino names).map Dirent.name = str "." :: str ".." :: names.map Prod.fst := by
  have hmap : str "." :: str ".." :: names.map Prod.fst =
      ((str ".", DT_DIR) :: (str "..", DT_DIR) :: names).map Prod.fst := rfl
  rw [hmap, synthEntries]
  refine List.ext_getElem? fun i => ?_
  rw [List.getElem?_map, List.getElem?_map, List.getElem?_mapIdx, Option.map_map]
  rfl

theorem DirFile.entries_names (f : DirFile) :
    f.entries.map Dirent.name = str "." :: str ".." :: f.names := by
  cases f with
  | proc d p => exact synthEntries_names _ _
  | dev p =>
      refine (synthEntries_names _ _).trans ?_
      rw [List.map_map]
      rfl
  | host ino listing d => rfl

theorem names_recordsOf (pos : ℕ) (ds : List Dirent) :
    (recordsOf pos ds).map DirRecord.name = (ds.map Dirent.name).map cstr := by
  induction ds generalizing pos with
  | nil => rfl
  | cons d ds ih => rw [recordsOf, List.map_cons, List.map_cons, List.map_cons, ih]; rfl

/-- A name is that of an entry. -/
theorem short_of_names {ents : List Dirent} {names : List Bytes} (hnames : ents.map Dirent.name = names)
    (h : ∀ n ∈ names, n.length ≤ 255) : ∀ d ∈ ents, d.Short := fun d hd =>
  le_trans (length_cstr_le d.name) (h d.name (by rw [← hnames]; exact List.mem_map_of_mem hd))

theorem length_number : ∀ n < NR_OPEN_DEFAULT, (str (toString n)).length ≤ 255 := by
  decide +kernel

theorem procNames_short (pv : ProcView) (cls : ProcClass) :
    ∀ x ∈ procNames pv cls, x.1.length ≤ 255 := by
  have hfds : ∀ x ∈ ((List.range NR_OPEN_DEFAULT).filter fun n => (pv.fds n).isSome).map fun n =>
      (str (toString n), DT_LNK), x.1.length ≤ 255 := by
    intro x hx
    obtain ⟨n, hn, rfl⟩ := List.mem_map.mp hx
    exact length_number n (List.mem_range.mp (List.mem_filter.mp hn).1)
  cases cls with
  | root => exact fun x hx => by fin_cases hx <;> decide
  | self => exact fun x hx => by fin_cases hx <;> decide
  | _ => exact hfds

/-- What is listed of a directory on the host is what `hfs_dir_read` makes of its entries. -/
theorem direntOf_of_listed {listing : List DirAnswer} {e : Dirent}
    (h : e ∈ listed (Cursor.mk [] false listing).stream) : ∃ info, direntOf info = some e := by
  obtain ⟨r, hr, hok⟩ := List.mem_filterMap.mp h
  obtain ⟨a, _, ha⟩ := List.mem_flatMap.mp hr
  cases a with
  | error err =>
      obtain rfl := List.mem_singleton.mp ha
      cases hok
  | ok b =>
      obtain ⟨d, hd, rfl⟩ := List.mem_map.mp ha
      cases hok
      obtain ⟨info, _, hinfo⟩ := List.mem_filterMap.mp hd
      exact ⟨info, hinfo⟩

theorem DirFile.Opened.names_short {f : DirFile} (hf : f.Opened) : ∀ n ∈ f.names, n.length ≤ 255 := by
  intro n hn
  cases f with
  | proc d p =>
      obtain ⟨⟨pv, hnames⟩, _⟩ := hf
      obtain ⟨x, hx, rfl⟩ := List.mem_map.mp hn
      rw [hnames] at hx
      exact procNames_short pv _ x hx
  | dev p =>
      change n ∈ devnodes.map DevNode.name at hn
      revert n
      decide
  | host ino listing d =>
      obtain ⟨e, he, rfl⟩ := List.mem_map.mp hn
      obtain ⟨info, hinfo⟩ := direntOf_of_listed he
      obtain ⟨name, hname, rfl⟩ := Option.map_eq_some_iff.mp hinfo
      exact (direntName_spelled hname).2

theorem DirFile.Opened.delivers {f : DirFile} (hf : f.Opened) :
    Enumeration.Delivers f.entries ⟨f, []⟩ := by
  have hshort : ∀ n ∈ str "." :: str ".." :: f.names, n.length ≤ 255 := by
    simp only [List.forall_mem_cons]
    exact ⟨by decide, by decide, hf.names_short⟩
  have hzero : f.pos = 0 := by
    cases f with
    | proc d p => exact hf.2
    | dev p => exact hf
    | host ino listing d => rw [pos, hf.2]
  refine ⟨rfl, short_of_names f.entries_names hshort, ?_, ?_, ?_⟩
  · rw [hzero]
    exact Nat.zero_le _
  · cases f with
    | proc d p => trivial
    | dev p => trivial
    | host ino listing d =>
        obtain ⟨hok, rfl⟩ := hf
        exact ⟨hok, HostDir.reads_start hok false⟩
  · rw [hzero]
    rfl

/-- A directory that was opened is listed exactly by every run of calls that are not mishandled, and
what has been delivered since the last seek to the start is the dots and the names up to the
position. -/
theorem enumeration_exact {f : DirFile} (hf : f.Opened) (calls : List DirCall)
    (h : ActionRuns.Along Enumeration.step (fun x c => ¬ x.file.Mishandles c) ⟨f, []⟩ calls) :
    ActionRuns.Along Enumeration.step Enumeration.Exact ⟨f, []⟩ calls ∧
    (calls.foldl Enumeration.step ⟨f, []⟩).file.entries = f.entries ∧
    ∃ rs, decode (calls.foldl Enumeration.step ⟨f, []⟩).seen = some rs ∧
      rs = recordsOf 0 (f.entries.take (calls.foldl Enumeration.step ⟨f, []⟩).file.pos) ∧
      rs.map DirRecord.name = ((str "." :: str ".." :: f.names).map cstr).take
        (calls.foldl Enumeration.step ⟨f, []⟩).file.pos := by
  have hstep : ∀ (x : Enumeration) (c : DirCall), x.Delivers f.entries → ¬ x.file.Mishandles c →
      (x.step c).Delivers f.entries ∧ x.Exact c := by
    intro x c hx hc
    cases c with
    | getdents len privOk dirOk => exact hx.getdents hc
    | lseek off whence => exact hx.lseek off whence
  obtain ⟨hend, hall⟩ := ActionRuns.along_invariant hstep calls hf.delivers h
  refine ⟨hall, hend.entries, _, ?_, rfl, ?_⟩
  · rw [hend.seen]
    exact decode_records 0 fun d hd => hend.short d (List.mem_of_mem_take hd)
  · rw [names_recordsOf, List.map_take, DirFile.entries_names, List.map_take]

def smallDir : DirFile := .host 5 [.ok (⟨[0x61], 7, 0x20, 0⟩, [])] ⟨0, false, [], none⟩

theorem smallDir_opened : smallDir.Opened := ⟨by decide, rfl⟩

theorem enumeration_exact_smallDir :
    ActionRuns.Along Enumeration.step Enumeration.Exact ⟨smallDir, []⟩
      [.getdents 16 true true, .getdents 48 true true, .getdents 4096 true true, .lseek 0 0,
        .getdents 4096 true true] := by
  have hopen : ∀ {x : Enumeration} {len : ℕ}, 24 ≤ len →
      ¬ x.file.Mishandles (.getdents len true true) := by
    rintro ⟨f, seen⟩ len hlen h
    cases f with
    | proc d p => exact h
    | dev p => exact h
    | host ino listing d =>
        rcases h with h | h
        · exact absurd h.2 (by omega)
        · exact h.noCursor (.inr rfl)
  have hfirst : ¬ smallDir.Mishandles (.getdents 16 true true) := by
    rintro (h | h)
    · exact absurd h.1 (by decide)
    · exact h.noCursor (.inr rfl)
  have hcalls : ActionRuns.Along Enumeration.step (fun x c => ¬ x.file.Mishandles c) ⟨smallDir, []⟩
      [.getdents 16 true true, .getdents 48 true true, .getdents 4096 true true, .lseek 0 0,
        .getdents 4096 true true] :=
    ⟨hfirst, hopen (by decide), hopen (by decide), fun h => h, hopen (by decide), trivial⟩
  exact (enumeration_exact smallDir_opened _ hcalls).1

/-- Between the dots a short buffer is taken for the end. -/
theorem enumeration_ends_between_dots :
    smallDir.Opened ∧ ¬ ActionRuns.Along Enumeration.step Enumeration.Exact ⟨smallDir, []⟩
      [.getdents 24 true true, .getdents 16 true true] := by
  refine ⟨smallDir_opened, fun h => ?_⟩
  have hanswer : ((Enumeration.step ⟨smallDir, []⟩ (.getdents 24 true true)).file.getdents 16 true true).1 =
      .ok [] := by decide +kernel
  have hseen : ¬ decode (Enumeration.step ⟨smallDir, []⟩ (.getdents 24 true true)).seen = some
      (recordsOf 0 (Enumeration.step ⟨smallDir, []⟩ (.getdents 24 true true)).file.entries) := by
    decide +kernel
  cases h.2.1 with
  | getdents call whole ended tooSmall failed =>
      rw [call] at hanswer
      exact hseen (ended hanswer)

end SysvNt
