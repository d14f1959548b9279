import SysvNt.HostDirectories
import SysvNt.ReadKinds

/-!
# What read, readv and getdents64 consume

The calls over every kind of description. Each kind's operation moves the description on
before the bytes are copied to user memory, so a call consumes exactly what it delivers when
the bytes the description has for it land in writable memory, and for a directory on the host
when also no entry is lost to a failing read and a cursor could be had.
-/

namespace SysvNt

open RingQueue

/-- What a call depends on beside the description: the answers of the host to reads on the
description's handle, its directory, which user memory may be written, and whether the
allocations for the bounce buffer and for the vectors succeed. -/
structure ReadHost where
  pread : UInt64 → ℕ → Except Errno Bytes
  pread_le : ∀ off n b, pread off n = .ok b → b.length ≤ n
  dir : DirHost
  writable : UInt64 → Bool
  bounce : Bool
  iovOk : Bool

inductive Description where
  | hostFile (f : HostFile)
  | snapshot (f : Snapshot)
  | pipe (p : PipeRing)
  | procDir (d : ProcDir) (pos : ℕ)
  | devDir (pos : ℕ)
  | hostDir (d : { d : HostDir // d.Sound })

def refusingSource (σ : Type) (e : Errno) : Source σ where
  read s _ := (.error e, s)
  advance s _ := s
  advance_zero _ := rfl
  advance_add _ _ _ := rfl
  read_error _ _ _ _ := rfl
  read_ok _ _ _ _ h := by cases h

/-- A description as a source of bytes, and how many bytes it has for a request. -/
structure Reader where
  σ : Type
  source : Source σ
  state : σ
  put : σ → Description
  stock : σ → ℕ → ℕ
  stock_eq : ∀ s len, (handed source s len).length = stock s len

theorem handed_refusing (σ : Type) (e : Errno) (s : σ) (len : ℕ) :
    (handed (refusingSource σ e) s len).length = 0 := by
  rw [handed_length (refusingSource σ e) (fun _ => 0) (fun _ _ _ h => by cases h)
    (fun _ _ _ _ => rfl) (fun _ _ _ => by simp), Nat.min_zero]

def Description.reader (host : ReadHost) : Description → Reader
  | .hostFile f => ⟨_, hostFileSource host.pread host.pread_le, f, .hostFile,
      fun f len => (handed (hostFileSource host.pread host.pread_le) f len).length,
      fun _ _ => rfl⟩
  | .snapshot f => ⟨_, snapshotSource, f, .snapshot, fun f len => min len f.avail, handed_snapshot⟩
  | .pipe p => ⟨_, pipeSource, p, .pipe, fun p len => min len p.ring.count, handed_pipe⟩
  | .procDir d pos => ⟨_, refusingSource ℕ .EISDIR, pos, .procDir d, fun _ _ => 0,
      handed_refusing ℕ .EISDIR⟩
  | .devDir pos => ⟨_, refusingSource ℕ .EISDIR, pos, .devDir, fun _ _ => 0,
      handed_refusing ℕ .EISDIR⟩
  | .hostDir d => ⟨_, refusingSource { d : HostDir // d.Sound } .EINVAL, d, .hostDir, fun _ _ => 0,
      handed_refusing _ .EINVAL⟩

/-- The checks of `do_read` on a description with the given flags; every kind has a read
operation. -/
def readRefused (host : ReadHost) (flags : UInt32) (len : ℤ) : Option Errno :=
  if len < 0 then some .EINVAL
  else if host.bounce = false then some .ENOMEM
  else if flags &&& O_ACCMODE = O_WRONLY ∨ flags &&& O_ACCMODE = 3 then some .EBADF
  else if has flags O_PATH then some .EBADF
  else none

/-- The checks of `sys_readv_writev`, and the vectors it then goes through. -/
def readvRefused (host : ReadHost) (cnt : ℤ) (iov : Option (List Iovec)) :
    Except Errno (List Iovec) :=
  if cnt < 0 ∨ 1024 < cnt then .error .EINVAL
  else if host.iovOk = false then .error .ENOMEM
  else match iov with
    | none => .error .EFAULT
    | some vs => .ok vs

inductive ReadCall where
  | read (ubuf : UInt64) (len : ℤ)
  | readv (cnt : ℤ) (iov : Option (List Iovec))
  | getdents64 (ubuf : UInt64) (len : ℤ)

def ReadOut.map {σ τ : Type} (f : σ → τ) (r : ReadOut σ) : ReadOut τ := ⟨r.ret, r.out, f r.state⟩

def Description.getdents (host : ReadHost) (cap : ℕ) : Description → Option (Except Errno Bytes × Description)
  | .hostFile _ | .snapshot _ | .pipe _ => none
  | .procDir d pos => some ((procGetdents d pos cap).1, .procDir d (procGetdents d pos cap).2)
  | .devDir pos => some ((devdirGetdents pos cap).1, .devDir (devdirGetdents pos cap).2)
  | .hostDir d => some ((hostdirGetdents host.dir d.1 cap).1,
      .hostDir ⟨(hostdirGetdents host.dir d.1 cap).2, hostdirGetdents_sound host.dir d.2 cap⟩)

def copyRecords (writable : UInt64 → Bool) (ubuf : UInt64) (r : Except Errno Bytes × Description) :
    ReadOut Description :=
  match r.1 with
  | .error e => ⟨.error e, [], r.2⟩
  | .ok b =>
    if b = [] then ⟨.ok 0, [], r.2⟩
    else if copyOut writable ubuf b.length = false then ⟨.error .EFAULT, [], r.2⟩
    else ⟨.ok b.length, b, r.2⟩

def sysGetdents64 (host : ReadHost) (d : Description) (ubuf : UInt64) (len : ℤ) : ReadOut Description :=
  match d.getdents host (min len.toNat BOUNCE) with
  | none => ⟨.error .ENOTDIR, [], d⟩
  | some r =>
    if len < 0 then ⟨.error .EINVAL, [], d⟩
    else if host.bounce = false then ⟨.error .ENOMEM, [], d⟩
    else copyRecords host.writable ubuf r

def Description.call (host : ReadHost) (flags : UInt32) (d : Description) : ReadCall → ReadOut Description
  | .read ubuf len =>
    (doRead (d.reader host).source host.writable (readRefused host flags len)
      (d.reader host).state ubuf len.toNat).map (d.reader host).put
  | .readv cnt iov => match readvRefused host cnt iov with
    | .error e => ⟨.error e, [], d⟩
    | .ok vs =>
      (readvLoop (d.reader host).source host.writable (readRefused host flags 0)
        (d.reader host).state [] vs).map (d.reader host).put
  | .getdents64 ubuf len => sysGetdents64 host d ubuf len

/-- The description `d'` is `d` less the bytes or records `out`. -/
def Drained (host : ReadHost) : Description → Bytes → Description → Prop
  | .hostFile f, out, .hostFile f' => f' = { f with pos := f.pos + UInt64.ofNat out.length }
  | .snapshot f, out, .snapshot f' => f' = { f with pos := f.pos + UInt64.ofNat out.length }
  | .pipe p, out, .pipe p' => p' = { p with ring := (Ring.drain out.length p.ring).2 }
  | .procDir d pos, out, .procDir d' pos' => d' = d ∧ ∃ taken,
      d.entries.drop pos = taken ++ d.entries.drop pos' ∧ pos' = pos + taken.length ∧
      out = records pos taken
  | .devDir pos, out, .devDir pos' => ∃ taken,
      devEntries.drop pos = taken ++ devEntries.drop pos' ∧ pos' = pos + taken.length ∧
      out = records pos taken
  | .hostDir d, out, .hostDir d' => ∃ taken,
      d.1.remaining host.dir = taken ++ d'.1.remaining host.dir ∧
      d'.1.pos = d.1.pos + taken.length ∧ out = records d.1.pos taken
  | _, _, _ => False

/-- A call has consumed exactly what it delivered and reports; one that reports an error has
delivered nothing. -/
structure Description.ConsumesWhatItDelivers (host : ReadHost) (d : Description) (r : ReadOut Description) : Prop where
  drained : Drained host d r.out r.state
  reported : r.ret = .ok r.out.length ∨ (∃ e, r.ret = .error e) ∧ r.out = []

/-- What the getdents operation of a kind packs lands in writable memory, and none of it is
lost on the way. -/
def Description.RecordsLand (host : ReadHost) (ubuf : UInt64) (cap : ℕ) : Description → Prop
  | .hostFile _ | .snapshot _ | .pipe _ => True
  | .procDir d pos => Writable host.writable ubuf 0
      ((fitting cap (d.entries.drop pos)).map reclen).sum
  | .devDir pos => Writable host.writable ubuf 0 ((fitting cap (devEntries.drop pos)).map reclen).sum
  | .hostDir d => ¬ d.1.Stranded host.dir cap ∧ ¬ d.1.Loses host.dir cap ∧
      Writable host.writable ubuf 0 ((d.1.packs host.dir cap).map reclen).sum

/-- What the description has for the call lands in writable memory. -/
def Description.Lands (host : ReadHost) (flags : UInt32) (d : Description) : ReadCall → Prop
  | .read ubuf len => readRefused host flags len = none →
      Writable host.writable ubuf 0 ((d.reader host).stock (d.reader host).state len.toNat)
  | .readv cnt iov => readRefused host flags 0 = none → ∀ vs, readvRefused host cnt iov = .ok vs →
      AllWritable host.writable
        (landing (d.reader host).source (d.reader host).stock (d.reader host).state vs)
  | .getdents64 ubuf len => 0 ≤ len → host.bounce = true →
      d.RecordsLand host ubuf (min len.toNat BOUNCE)

/-- Nothing comes out of a directory's read operation. -/
theorem doRead_refusing {σ : Type} (e : Errno) (writable : UInt64 → Bool) (refused : Option Errno)
    (s : σ) (ubuf : UInt64) (len : ℕ) :
    (doRead (refusingSource σ e) writable refused s ubuf len).state = s ∧
      (doRead (refusingSource σ e) writable refused s ubuf len).out = [] := by
  have hspec := doRead_spec (refusingSource σ e) writable refused s ubuf len
  have hzero : offered (refusingSource σ e) refused s len = [] := by
    rw [← List.length_eq_zero_iff]
    cases refused with
    | some e' => rfl
    | none => exact handed_refusing σ e s len
  have hstate := hspec.exact_iff.mpr (by
    rw [hzero]
    exact fun k _ hlt => absurd hlt (Nat.not_lt_zero k))
  exact ⟨hstate, (hspec.out_eq hstate).trans hzero⟩

theorem readvLoop_refusing {σ : Type} (e : Errno) (writable : UInt64 → Bool)
    (refused : Option Errno) (s : σ) (vs : List Iovec) :
    (readvLoop (refusingSource σ e) writable refused s [] vs).state = s ∧
      (readvLoop (refusingSource σ e) writable refused s [] vs).out = [] := by
  induction vs with
  | nil => exact ⟨rfl, rfl⟩
  | cons v vs ih =>
      obtain ⟨hstate, hout⟩ := doRead_refusing e writable refused s v.base v.len
      rw [readvLoop]
      generalize doRead (refusingSource σ e) writable refused s v.base v.len = r at hstate hout
      split_ifs
      · exact ih
      · exact ⟨rfl, rfl⟩
      · dsimp only
        cases r.ret with
        | error e' => exact ⟨hstate, rfl⟩
        | ok n =>
            dsimp only
            rw [hstate, hout, List.append_nil]
            split_ifs
            · exact ⟨rfl, rfl⟩
            · exact ih

theorem Drained.self (host : ReadHost) (d : Description) : Drained host d [] d := by
  cases d with
  | hostFile f => simp [Drained]
  | snapshot f => simp [Drained]
  | pipe p => rfl
  | procDir d pos => exact ⟨rfl, [], rfl, rfl, rfl⟩
  | devDir pos => exact ⟨[], rfl, rfl, rfl⟩
  | hostDir d => exact ⟨[], rfl, rfl, rfl⟩

def Description.isDirectory : Description → Bool
  | .hostFile _ | .snapshot _ | .pipe _ => false
  | .procDir _ _ | .devDir _ | .hostDir _ => true

/-- Where the call is a matter of the kind's read operation, the description is drained exactly
when the operation's state has advanced exactly. -/
theorem consumes_iff_exact (host : ReadHost) (d : Description) (r : ReadOut (d.reader host).σ)
    (hdir : d.isDirectory = true → r.state = (d.reader host).state ∧ r.out = []) :
    d.ConsumesWhatItDelivers host (r.map (d.reader host).put) ↔
      Exact (d.reader host).source (d.reader host).state r := by
  have hboth : (Drained host d r.out ((d.reader host).put r.state) ↔
      r.state = (d.reader host).source.advance (d.reader host).state r.out.length) →
      (d.ConsumesWhatItDelivers host (r.map (d.reader host).put) ↔
        Exact (d.reader host).source (d.reader host).state r) := by
    intro h
    exact ⟨fun hc => ⟨h.mp hc.drained, hc.reported⟩, fun he => ⟨h.mpr he.state_eq, he.reported⟩⟩
  apply hboth
  cases d with
  | hostFile f => exact Iff.rfl
  | snapshot f => exact Iff.rfl
  | pipe p => exact Iff.rfl
  | procDir d pos =>
      obtain ⟨hstate, hout⟩ := hdir rfl
      rw [hstate, hout]
      exact ⟨fun _ => rfl, fun _ => Drained.self host (.procDir d pos)⟩
  | devDir pos =>
      obtain ⟨hstate, hout⟩ := hdir rfl
      rw [hstate, hout]
      exact ⟨fun _ => rfl, fun _ => Drained.self host (.devDir pos)⟩
  | hostDir d =>
      obtain ⟨hstate, hout⟩ := hdir rfl
      rw [hstate, hout]
      exact ⟨fun _ => rfl, fun _ => Drained.self host (.hostDir d)⟩

theorem offered_stock (host : ReadHost) (d : Description) (s : (d.reader host).σ) (len : ℕ) :
    (offered (d.reader host).source none s len).length = (d.reader host).stock s len :=
  (d.reader host).stock_eq s len

theorem read_consumes_iff (host : ReadHost) (flags : UInt32) (d : Description) (ubuf : UInt64)
    (len : ℤ) :
    d.ConsumesWhatItDelivers host (d.call host flags (.read ubuf len)) ↔
      d.Lands host flags (.read ubuf len) := by
  rw [Description.call, consumes_iff_exact, doRead_exact_iff, Description.Lands]
  · cases hr : readRefused host flags len with
    | some e => exact ⟨fun _ h => (nomatch h), fun _ k _ hlt => absurd hlt (Nat.not_lt_zero k)⟩
    | none =>
        rw [offered_stock]
        exact ⟨fun h _ => h, fun h => h rfl⟩
  · intro hd
    cases d with
    | hostFile f => cases hd
    | snapshot f => cases hd
    | pipe p => cases hd
    | procDir d pos => exact doRead_refusing _ _ _ _ _ _
    | devDir pos => exact doRead_refusing _ _ _ _ _ _
    | hostDir d => exact doRead_refusing _ _ _ _ _ _

/-- A description that refuses to be read has nothing for any vector. -/
theorem allWritable_refused {σ : Type} (S : Source σ) (writable : UInt64 → Bool) (s : σ)
    (vs : List Iovec) : AllWritable writable (landing S (fun _ _ => 0) s vs) := by
  induction vs generalizing s with
  | nil => exact allWritable_nil writable
  | cons v vs ih =>
      by_cases h0 : v.len = 0
      · rw [landing, if_pos h0]
        exact ih s
      by_cases hmax : 0x7fffffff < v.len
      · rw [landing, if_neg h0, if_pos hmax]
        exact allWritable_nil writable
      · rw [allWritable_landing S writable h0 hmax (Nat.zero_le _)]
        exact ⟨fun k _ hlt => absurd hlt (Nat.not_lt_zero k), fun _ => ih _⟩

theorem readv_consumes_iff (host : ReadHost) (flags : UInt32) (d : Description) (cnt : ℤ)
    (iov : Option (List Iovec)) :
    d.ConsumesWhatItDelivers host (d.call host flags (.readv cnt iov)) ↔
      d.Lands host flags (.readv cnt iov) := by
  rw [Description.call, Description.Lands]
  cases hv : readvRefused host cnt iov with
  | error e =>
      exact ⟨fun _ _ vs h => (nomatch h), fun _ => ⟨Drained.self host d, .inr ⟨⟨e, rfl⟩, rfl⟩⟩⟩
  | ok vs =>
      dsimp only
      rw [consumes_iff_exact]
      · cases hr : readRefused host flags 0 with
        | some e =>
            have hstock : ∀ (s : (d.reader host).σ) (len : ℕ),
                (offered (d.reader host).source (some e) s len).length =
                  (fun _ _ => 0 : (d.reader host).σ → ℕ → ℕ) s len := fun _ _ => rfl
            rw [readvLoop_exact_iff _ _ _ hstock _ _ _ _
              ((d.reader host).source.advance_zero _).symm]
            exact ⟨fun _ h => (nomatch h), fun _ => allWritable_refused _ _ _ _⟩
        | none =>
            rw [readvLoop_exact_iff _ _ _ (offered_stock host d) _ _ _ _
              ((d.reader host).source.advance_zero _).symm]
            refine ⟨fun h _ vs' hvs => ?_, fun h => h rfl vs rfl⟩
            cases hvs
            exact h
      · intro hd
        cases d with
        | hostFile f => cases hd
        | snapshot f => cases hd
        | pipe p => cases hd
        | procDir d pos => exact readvLoop_refusing _ _ _ _ _
        | devDir pos => exact readvLoop_refusing _ _ _ _ _
        | hostDir d => exact readvLoop_refusing _ _ _ _ _

/-- A getdents operation that packs the records of `fit` and moves on by just these entries. -/
theorem copyRecords_consumes_iff (host : ReadHost) (d : Description) (ubuf : UInt64)
    (r : Except Errno Bytes × Description) (pos : ℕ) (fit : List Dirent)
    (hret : r.1 = .ok (records pos fit) ∨ (∃ e, r.1 = .error e) ∧ fit = [])
    (hdrain : ∀ out, Drained host d out r.2 ↔ out = records pos fit) :
    d.ConsumesWhatItDelivers host (copyRecords host.writable ubuf r) ↔
      Writable host.writable ubuf 0 (fit.map reclen).sum := by
  have hnone : fit = [] → Writable host.writable ubuf 0 (fit.map reclen).sum := by
    rintro rfl k _ hlt
    exact absurd hlt (Nat.not_lt_zero k)
  have hcopy := copyOut_iff host.writable ubuf 0 (records pos fit).length
  rw [Nat.zero_add, length_records] at hcopy
  have hbase : ubuf + UInt64.ofNat 0 = ubuf := by simp
  rw [hbase] at hcopy
  rw [copyRecords]
  rcases hret with hret | ⟨⟨e, hret⟩, hfit⟩
  · rw [hret]
    dsimp only
    split_ifs with hnil hfault
    · have hfit := records_eq_nil hnil
      exact ⟨fun _ => hnone hfit, fun _ => ⟨(hdrain []).mpr hnil.symm, .inl rfl⟩⟩
    · rw [length_records, ← Bool.not_eq_true, hcopy] at hfault
      refine ⟨fun h => absurd ((hdrain []).mp h.drained).symm hnil, fun h => absurd h hfault⟩
    · rw [length_records, Bool.not_eq_false, hcopy] at hfault
      exact ⟨fun _ => hfault, fun _ => ⟨(hdrain _).mpr rfl, .inl rfl⟩⟩
  · rw [hret]
    refine ⟨fun _ => hnone hfit, fun _ => ⟨(hdrain []).mpr ?_, .inr ⟨⟨e, rfl⟩, rfl⟩⟩⟩
    rw [hfit]
    rfl

/-- The entries taken are known from how far the position has moved. -/
theorem taken_unique {rest rest' fit : List Dirent} {pos pos' : ℕ} (hrest : rest = fit ++ rest')
    (hpos : pos' = pos + fit.length) (out : Bytes) :
    (∃ taken, rest = taken ++ rest' ∧ pos' = pos + taken.length ∧ out = records pos taken) ↔
      out = records pos fit := by
  constructor
  · rintro ⟨taken, htaken, _, rfl⟩
    rw [htaken, List.append_cancel_right_eq] at hrest
    rw [hrest]
  · exact fun h => ⟨fit, hrest, hpos, h⟩

theorem synthGetdents_spec (ents : List Dirent) (pos cap : ℕ) :
    ((synthGetdents ents pos cap).1 = .ok (records pos (fitting cap (ents.drop pos))) ∨
      (∃ e, (synthGetdents ents pos cap).1 = .error e) ∧ fitting cap (ents.drop pos) = []) ∧
    (synthGetdents ents pos cap).2 = pos + (fitting cap (ents.drop pos)).length ∧
    ents.drop pos = fitting cap (ents.drop pos) ++ ents.drop (synthGetdents ents pos cap).2 := by
  have hsplit := List.prefix_iff_eq_append.mp (fitting_initial cap (ents.drop pos))
  rw [synthGetdents, packAll_eq]
  dsimp only
  rw [List.length_nil, Nat.sub_zero, List.nil_append]
  refine ⟨?_, rfl, ?_⟩
  · split_ifs with h
    · exact .inl rfl
    · obtain ⟨_, hnil⟩ := not_or.mp h
      exact .inr ⟨⟨_, rfl⟩, records_eq_nil (not_not.mp hnil)⟩
  · rw [← List.drop_drop]
    exact hsplit.symm

theorem copyRecords_state (writable : UInt64 → Bool) (ubuf : UInt64)
    (r : Except Errno Bytes × Description) : (copyRecords writable ubuf r).state = r.2 := by
  rw [copyRecords]
  cases r.1 with
  | error e => rfl
  | ok b =>
      dsimp only
      split_ifs <;> rfl

theorem hostdir_consumes_iff (host : ReadHost) (d : { d : HostDir // d.Sound }) (ubuf : UInt64)
    (cap : ℕ) (r : Except Errno Bytes × HostDir) (hsound : r.2.Sound) (lost : List Dirent)
    (hspec : GetdentsSpec host.dir d.1 cap r lost) :
    (Description.hostDir d).ConsumesWhatItDelivers host
        (copyRecords host.writable ubuf (r.1, .hostDir ⟨r.2, hsound⟩)) ↔
      (Description.hostDir d).RecordsLand host ubuf cap := by
  obtain ⟨_, hremaining, hpos, hret, hlost⟩ := hspec
  have hdrained : ∀ {out}, (Description.hostDir d).ConsumesWhatItDelivers host out →
      out.state = .hostDir ⟨r.2, hsound⟩ →
      ∃ taken, d.1.remaining host.dir = taken ++ r.2.remaining host.dir ∧
        r.2.pos = d.1.pos + taken.length ∧ out.out = records d.1.pos taken := by
    intro out h hstate
    have hdr := h.drained
    rw [hstate] at hdr
    exact hdr
  rw [Description.RecordsLand]
  by_cases hloses : d.1.Loses host.dir cap
  · refine ⟨fun h => absurd hloses ?_, fun h => absurd hloses h.2.1⟩
    obtain ⟨taken, htaken, hmoved, _⟩ := hdrained h (copyRecords_state _ _ _)
    have hlen := congrArg List.length hremaining
    rw [htaken] at hlen
    simp only [List.length_append] at hlen
    rw [← hlost, not_not, ← List.length_eq_zero_iff]
    omega
  have hnil : lost = [] := by
    by_contra h
    exact hloses (hlost.mp h)
  rw [hnil, List.append_nil] at hremaining
  by_cases hstr : d.1.Stranded host.dir cap
  · refine ⟨fun h => absurd hstr ?_, fun h => absurd hstr h.1⟩
    rcases hret with ⟨_, hno⟩ | ⟨⟨e, he⟩, ⟨_, hno⟩ | ⟨hne, _⟩⟩
    · exact hno
    · exact hno
    · obtain ⟨taken, _, hmoved, hout⟩ := hdrained h (copyRecords_state _ _ _)
      have hempty : (copyRecords host.writable ubuf (r.1, .hostDir ⟨r.2, hsound⟩)).out = [] := by
        rw [copyRecords, he]
      rw [hempty] at hout
      rw [records_eq_nil hout.symm, hpos] at hmoved
      have := List.length_pos_of_ne_nil hne
      simp only [List.length_nil] at hmoved
      omega
  · rw [copyRecords_consumes_iff host (.hostDir d) ubuf _ d.1.pos (d.1.packs host.dir cap)]
    · exact ⟨fun h => ⟨hstr, hloses, h⟩, fun h => h.2.2⟩
    · rcases hret with ⟨hok, _⟩ | ⟨he, ⟨hnone, _⟩ | ⟨_, h⟩⟩
      · exact .inl hok
      · exact .inr ⟨he, hnone⟩
      · exact absurd h hstr
    · exact taken_unique hremaining hpos

theorem getdents_consumes_iff (host : ReadHost) (flags : UInt32) (d : Description) (ubuf : UInt64)
    (len : ℤ) :
    d.ConsumesWhatItDelivers host (d.call host flags (.getdents64 ubuf len)) ↔
      d.Lands host flags (.getdents64 ubuf len) := by
  have hself : ∀ e : Errno, d.ConsumesWhatItDelivers host ⟨.error e, [], d⟩ :=
    fun e => ⟨Drained.self host d, .inr ⟨⟨e, rfl⟩, rfl⟩⟩
  have hchecks : ∀ r, d.getdents host (min len.toNat BOUNCE) = some r →
      (d.ConsumesWhatItDelivers host (copyRecords host.writable ubuf r) ↔
        d.RecordsLand host ubuf (min len.toNat BOUNCE)) →
      (d.ConsumesWhatItDelivers host (d.call host flags (.getdents64 ubuf len)) ↔
        d.Lands host flags (.getdents64 ubuf len)) := by
    intro r hr hiff
    rw [Description.call, sysGetdents64, hr, Description.Lands]
    dsimp only
    split_ifs with hneg hb
    · exact ⟨fun _ h => absurd h (by omega), fun _ => hself _⟩
    · exact ⟨fun _ _ h => absurd h (by simp [hb]), fun _ => hself _⟩
    · rw [hiff]
      exact ⟨fun h _ _ => h, fun h => h (by omega) (by simpa using hb)⟩
  cases d with
  | hostFile f => exact ⟨fun _ _ _ => trivial, fun _ => hself .ENOTDIR⟩
  | snapshot f => exact ⟨fun _ _ _ => trivial, fun _ => hself .ENOTDIR⟩
  | pipe p => exact ⟨fun _ _ _ => trivial, fun _ => hself .ENOTDIR⟩
  | procDir d pos =>
      obtain ⟨hret, hpos, hrest⟩ := synthGetdents_spec d.entries pos (min len.toNat BOUNCE)
      refine hchecks _ rfl (copyRecords_consumes_iff host _ ubuf _ pos _ hret ?_)
      intro out
      rw [← taken_unique hrest hpos out]
      exact ⟨fun h => h.2, fun h => ⟨rfl, h⟩⟩
  | devDir pos =>
      obtain ⟨hret, hpos, hrest⟩ := synthGetdents_spec devEntries pos (min len.toNat BOUNCE)
      exact hchecks _ rfl (copyRecords_consumes_iff host _ ubuf _ pos _ hret
        (taken_unique hrest hpos))
  | hostDir d =>
      obtain ⟨lost, hspec⟩ := hostdirGetdents_spec host.dir d.2 (min len.toNat BOUNCE)
      exact hchecks _ rfl (hostdir_consumes_iff host d ubuf _ _ _ lost hspec)

/-- A call consumes exactly what it delivers if and only if what the description has for it
lands in writable memory. -/
theorem consumes_iff_lands (host : ReadHost) (flags : UInt32) (d : Description) (c : ReadCall) :
    d.ConsumesWhatItDelivers host (d.call host flags c) ↔ d.Lands host flags c := by
  cases c with
  | read ubuf len => exact read_consumes_iff host flags d ubuf len
  | readv cnt iov => exact readv_consumes_iff host flags d cnt iov
  | getdents64 ubuf len => exact getdents_consumes_iff host flags d ubuf len

def unwritableHost : ReadHost where
  pread _ _ := .ok []
  pread_le _ n b h := by
    cases h
    exact Nat.zero_le n
  dir := ⟨1, [], true, true⟩
  writable _ := false
  bounce := true
  iovOk := true

def bytePipe : Description := .pipe (pipeWrite (Pipe.new 1 0).p (str "x")).2

theorem faulting_read_drains_pipe :
    (bytePipe.call unwritableHost O_RDONLY (.read 0x1000 1)).ret = .error .EFAULT ∧
      ¬ bytePipe.ConsumesWhatItDelivers unwritableHost
        (bytePipe.call unwritableHost O_RDONLY (.read 0x1000 1)) := by
  refine ⟨rfl, ?_⟩
  rw [read_consumes_iff]
  intro h
  have hbyte := h rfl 0 le_rfl (by decide)
  cases hbyte

end SysvNt
