import SysvNt.Enumeration

/-!
# The names of `/proc` and `/dev`

A path below one of the file systems inside the kernel is taken apart as text, and a directory of one
is a table of names rendered when it is opened. The two agree on every name of every directory but
one: below the directory of descriptors a number is read by `strtol`, which takes blanks, a sign and
zeros in front that the table never writes.
-/

namespace SysvNt

open FallibleCalls

inductive SynthFs where
  | proc | dev
  deriving DecidableEq

section Calls

variable {η σ : Type} (H : HostStore η σ) (pv : ProcView)

def SynthFs.stat : SynthFs → Bytes → Call Errno σ KStat
  | .proc, rel => procfsStat H pv rel
  | .dev, rel => devfsStat H rel

def SynthFs.openAt : SynthFs → Bytes → UInt32 → Call Errno σ (SynthFile × Bytes)
  | .proc, rel, flags => procfsOpen H pv rel flags
  | .dev, rel, flags => devfsOpen H rel flags

end Calls

/-- What `getdents64` reads of a description that was just opened, if it is of a directory. -/
def SynthFile.directory : SynthFile → Option DirFile
  | .procDir d => some (.proc d 0)
  | .devDir => some (.dev 0)
  | _ => none

def below (rel n : Bytes) : Bytes := if rel = [] then n else rel ++ slash :: n

/-- Another spelling of the number of an open descriptor than the one that is listed. -/
def Respelled (pv : ProcView) (n : Bytes) : Prop :=
  ∃ i : ℕ, strtolWhole n = some (i : ℤ) ∧ i < NR_OPEN_DEFAULT ∧ (pv.fds i).isSome ∧ n ≠ str (toString i)

section Lookup

variable {pv : ProcView} {n : Bytes} (hn : ValidName n)

theorem strtolWhole_toString : ∀ i < NR_OPEN_DEFAULT, strtolWhole (str (toString i)) = some (i : ℤ) := by
  decide +kernel

include hn

theorem not_prefix_of_slash {p : Bytes} (hp : slash ∈ p) : p.isPrefixOf n = false := by
  rw [Bool.eq_false_iff, Ne, List.isPrefixOf_iff_prefix]
  intro h
  exact hn.slash_not_mem (h.subset hp)

theorem procClassify_root : (procClassify pv n).isSome ↔ n ∈ (procNames pv .root).map Prod.fst := by
  have hself : (str "self/").isPrefixOf n = false := not_prefix_of_slash hn (by decide)
  have hone : (str "1/").isPrefixOf n = false := not_prefix_of_slash hn (by decide)
  have hnames : (procNames pv .root).map Prod.fst = [str "self", str "1"] := rfl
  rw [hnames, procClassify, if_neg hn.ne_nil, hself, hone, List.mem_cons, List.mem_singleton]
  by_cases h : n = str "self"
  · rw [if_pos h]
    simp [h]
  by_cases h' : n = str "1"
  · rw [if_neg h, if_neg Bool.false_ne_true, if_pos h']
    simp [h']
  · rw [if_neg h, if_neg Bool.false_ne_true, if_neg h', if_neg Bool.false_ne_true]
    simp [h, h']

theorem classifySelf_names : (classifySelf pv n).isSome ↔ n ∈ (procNames pv .self).map Prod.fst := by
  have hfd : (str "fd/").isPrefixOf n = false := not_prefix_of_slash hn (by decide)
  have hnames : (procNames pv .self).map Prod.fst = [str "cwd", str "exe", str "fd", str "maps"] := rfl
  rw [hnames, classifySelf, hfd]
  split_ifs with h1 h2 h3 h4 h5
  · rw [h1]; decide
  · rw [h2]; decide
  · rw [h3]; decide
  · rw [h4]; decide
  · cases h5
  · simp [h1, h2, h3, h4]

omit hn in
theorem ne_of_slash {p m : Bytes} (hp : slash ∈ p) (hm : slash ∉ m) : p ++ n ≠ m := by
  rintro rfl
  exact hm (List.mem_append_left n hp)

omit hn in
theorem mem_fdNames : n ∈ (procNames pv .fd).map Prod.fst ↔
    ∃ i < NR_OPEN_DEFAULT, (pv.fds i).isSome ∧ n = str (toString i) := by
  have hnames : procNames pv .fd = ((List.range NR_OPEN_DEFAULT).filter fun i => (pv.fds i).isSome).map
      fun i => (str (toString i), DT_LNK) := rfl
  rw [hnames]
  simp only [List.map_map, List.mem_map, List.mem_filter, List.mem_range, Function.comp_def]
  constructor
  · rintro ⟨i, ⟨hi, ho⟩, rfl⟩
    exact ⟨i, hi, ho, rfl⟩
  · rintro ⟨i, hi, ho, rfl⟩
    exact ⟨i, ⟨hi, ho⟩, rfl⟩

omit hn in
theorem classifySelf_number : (classifySelf pv (str "fd/" ++ n)).isSome ↔
    ∃ i : ℕ, strtolWhole n = some (i : ℤ) ∧ i < NR_OPEN_DEFAULT ∧ (pv.fds i).isSome := by
  have hpre : (str "fd/").isPrefixOf (str "fd/" ++ n) = true :=
    List.isPrefixOf_iff_prefix.mpr (List.prefix_append _ _)
  have hdrop : (str "fd/" ++ n).drop 3 = n := rfl
  rw [classifySelf, if_neg (ne_of_slash (by decide) (by decide)), if_neg (ne_of_slash (by decide) (by decide)),
    if_neg (ne_of_slash (by decide) (by decide)), if_neg (ne_of_slash (by decide) (by decide)), if_pos hpre, hdrop]
  cases hnum : strtolWhole n with
  | none => simp
  | some z =>
      dsimp only
      constructor
      · intro h
        split_ifs at h with hz
        · obtain ⟨h0, hlt, ho⟩ := hz
          exact ⟨z.toNat, by rw [Int.toNat_of_nonneg h0], by omega, ho⟩
        · cases h
      · rintro ⟨i, hi, hlt, ho⟩
        obtain rfl := Option.some.inj hi
        rw [if_pos ⟨by omega, by exact_mod_cast hlt, ho⟩]
        rfl

omit hn in
/-- A number that is listed is read as itself, so only another spelling of it is not listed. -/
theorem classifySelf_fd : ((classifySelf pv (str "fd/" ++ n)).isSome ↔ n ∈ (procNames pv .fd).map Prod.fst) ↔
    ¬ Respelled pv n := by
  rw [classifySelf_number, mem_fdNames]
  constructor
  · rintro h ⟨i, hi, hlt, ho, hne⟩
    obtain ⟨j, hj, _, rfl⟩ := h.mp ⟨i, hi, hlt, ho⟩
    have hij := (strtolWhole_toString j hj).symm.trans hi
    exact hne (congrArg (fun k : ℕ => str (toString k)) (by simpa using hij))
  · intro h
    constructor
    · rintro ⟨i, hi, hlt, ho⟩
      by_contra hnot
      exact h ⟨i, hi, hlt, ho, fun he => hnot ⟨i, hlt, ho, he⟩⟩
    · rintro ⟨i, hlt, ho, rfl⟩
      exact ⟨i, strtolWhole_toString i hlt, hlt, ho⟩

omit hn in
theorem classifySelf_dir {t : Bytes} {cls : ProcClass} (h : classifySelf pv t = some cls)
    (hdir : isDir (procMode cls) = true) : t = str "fd" ∧ cls = .fd := by
  rw [classifySelf] at h
  split_ifs at h with h1 h2 h3 h4 h5
  · cases h
    cases hdir
  · cases h
    cases hdir
  · cases h
    cases hdir
  · exact ⟨h4, (Option.some.inj h).symm⟩
  · have hlink : isDir (S_IFLNK ||| 0o777) = false := by decide
    split at h
    · split_ifs at h
      cases h
      exact absurd (hlink.symm.trans hdir) Bool.false_ne_true
    · cases h

omit hn in
/-- The two ways to the process's own directory. -/
theorem procClassify_process {p t : Bytes} (hp : p = str "self/" ∨ p = str "1/") :
    procClassify pv (p ++ t) = classifySelf pv t := by
  have hself : (str "self/").isPrefixOf (str "self/" ++ t) = true :=
    List.isPrefixOf_iff_prefix.mpr (List.prefix_append _ _)
  have hone : (str "1/").isPrefixOf (str "1/" ++ t) = true :=
    List.isPrefixOf_iff_prefix.mpr (List.prefix_append _ _)
  have hother : (str "self/").isPrefixOf (str "1/" ++ t) = false := rfl
  rcases hp with rfl | rfl
  · rw [procClassify, if_neg (ne_of_slash (by decide) List.not_mem_nil),
      if_neg (ne_of_slash (by decide) (by decide)), if_pos hself]
    rfl
  · rw [procClassify, if_neg (ne_of_slash (by decide) List.not_mem_nil),
      if_neg (ne_of_slash (by decide) (by decide)), hother,
      if_neg Bool.false_ne_true, if_neg (ne_of_slash (by decide) (by decide)), if_pos hone]
    rfl

/-- A name below a directory of `/proc` is classified when it is one of the directory's, or respelled. -/
theorem procClassify_below {rel : Bytes} {cls : ProcClass} (h : procClassify pv rel = some cls)
    (hdir : isDir (procMode cls) = true) :
    ((procClassify pv (below rel n)).isSome ↔ n ∈ (procNames pv cls).map Prod.fst) ↔
      ¬ (cls = .fd ∧ Respelled pv n) := by
  have hfd : ∀ p t, p = str "self/" ∨ p = str "1/" → classifySelf pv t = some cls → rel = p ++ t →
      (((procClassify pv (below rel n)).isSome ↔ n ∈ (procNames pv cls).map Prod.fst) ↔
        ¬ (cls = .fd ∧ Respelled pv n)) := by
    rintro p t hp ht rfl
    obtain ⟨rfl, rfl⟩ := classifySelf_dir ht hdir
    have hbelow : below (p ++ str "fd") n = p ++ (str "fd/" ++ n) := by
      rw [below, if_neg (by simp [str]), List.append_assoc]
      rfl
    rw [hbelow, procClassify_process hp, classifySelf_fd]
    simp
  have hrel := h
  rw [procClassify] at h
  split_ifs at h with h0 h1 h2 h3 h4
  · cases h
    rw [below, if_pos h0]
    exact ⟨fun _ hr => (nomatch hr.1), fun _ => procClassify_root hn⟩
  · cases h
    cases hdir
  · obtain ⟨t, rfl⟩ := List.isPrefixOf_iff_prefix.mp h2
    exact hfd _ t (.inl rfl) h rfl
  · cases h
    subst h3
    have hbelow : below (str "1") n = str "1/" ++ n := rfl
    rw [hbelow, procClassify_process (.inr rfl)]
    exact ⟨fun _ hr => (nomatch hr.1), fun _ => classifySelf_names hn⟩
  · obtain ⟨t, rfl⟩ := List.isPrefixOf_iff_prefix.mp h4
    exact hfd _ t (.inr rfl) h rfl

omit hn in
theorem devFind_names : (devFind n).isSome ↔ n ∈ devnodes.map DevNode.name := by
  rw [devFind, Option.isSome_map, List.find?_isSome]
  simp only [decide_eq_true_eq, List.mem_map]
  constructor
  · rintro ⟨d, hd, rfl⟩
    exact ⟨d.1, (List.mem_zipIdx hd).2.2 ▸ List.getElem_mem _, rfl⟩
  · rintro ⟨d, hd, rfl⟩
    obtain ⟨i, hi, rfl⟩ := List.getElem_of_mem hd
    exact ⟨(devnodes[i], i), by simp [List.mem_zipIdx_iff_getElem?, hi], rfl⟩

end Lookup

section Listing

def DirFile.InKernel : DirFile → Prop
  | .host _ _ _ => False
  | _ => True

theorem InKernel.step {x : Enumeration} {ents : List Dirent} (hx : x.Delivers ents) (hk : x.file.InKernel)
    (c : DirCall) : (x.step c).Delivers ents ∧ (x.step c).file.InKernel := by
  have hmis : ¬ x.file.Mishandles c := by
    cases hf : x.file with
    | proc d p => exact id
    | dev p => exact id
    | host ino listing d =>
        rw [hf] at hk
        exact hk.elim
  have hkind : (x.step c).file.InKernel := by
    obtain ⟨file, seen⟩ := x
    cases file with
    | host ino listing d => exact hk.elim
    | proc d p =>
        cases c with
        | lseek off whence => exact trivial
        | getdents len privOk dirOk =>
            rw [Enumeration.step, DirFile.getdents]
            cases (procGetdents d p len).1 <;> exact trivial
    | dev p =>
        cases c with
        | lseek off whence => exact trivial
        | getdents len privOk dirOk =>
            rw [Enumeration.step, DirFile.getdents]
            cases (devdirGetdents p len).1 <;> exact trivial
  cases c with
  | getdents len privOk dirOk => exact ⟨(hx.getdents hmis).1, hkind⟩
  | lseek off whence => exact ⟨(hx.lseek off whence).1, hkind⟩

theorem InKernel.run {x : Enumeration} {ents : List Dirent} (hx : x.Delivers ents) (hk : x.file.InKernel)
    (calls : List DirCall) :
    (calls.foldl Enumeration.step x).Delivers ents ∧ (calls.foldl Enumeration.step x).file.InKernel := by
  induction calls generalizing x with
  | nil => exact ⟨hx, hk⟩
  | cons c calls ih =>
      obtain ⟨hnext, hkind⟩ := InKernel.step hx hk c
      exact ih hnext hkind

theorem cstr_number : ∀ i < NR_OPEN_DEFAULT, cstr (str (toString i)) = str (toString i) := by
  decide +kernel

theorem names_terminated {f : DirFile} (hf : f.Opened) (hk : f.InKernel) : ∀ m ∈ f.names, cstr m = m := by
  cases f with
  | host ino listing d => exact hk.elim
  | dev p =>
      change ∀ m ∈ devnodes.map DevNode.name, cstr m = m
      decide
  | proc d p =>
      obtain ⟨⟨pv, hnames⟩, _⟩ := hf
      change ∀ m ∈ d.names.map Prod.fst, cstr m = m
      rw [hnames]
      cases d.cls with
      | root =>
          change ∀ m ∈ [str "self", str "1"], cstr m = m
          decide
      | self =>
          change ∀ m ∈ [str "cwd", str "exe", str "fd", str "maps"], cstr m = m
          decide
      | _ =>
          intro m hm
          obtain ⟨i, hi, _, rfl⟩ := mem_fdNames.mp hm
          exact cstr_number i hi

/-- What has been read when a read says that there is no more. -/
theorem ended_names {f : DirFile} (hf : f.Opened) (hk : f.InKernel) {calls : List DirCall} {len : ℕ}
    {privOk dirOk : Bool}
    (hend : ((calls.foldl Enumeration.step ⟨f, []⟩).file.getdents len privOk dirOk).1 = .ok []) :
    ∃ rs, decode (calls.foldl Enumeration.step ⟨f, []⟩).seen = some rs ∧
      rs.map DirRecord.name = str "." :: str ".." :: f.names := by
  have hstart : (Enumeration.mk f []).file.InKernel := hk
  obtain ⟨hx, hkx⟩ := InKernel.run hf.delivers hstart calls
  generalize calls.foldl Enumeration.step ⟨f, []⟩ = x at hend hx hkx
  have hmis : ¬ x.file.Mishandles (.getdents len privOk dirOk) := by
    cases hfile : x.file with
    | proc d p => exact id
    | dev p => exact id
    | host ino listing d =>
        rw [hfile] at hkx
        exact hkx.elim
  cases (hx.getdents hmis).2 with
  | getdents call whole ended tooSmall failed =>
      rw [call] at hend
      refine ⟨_, ended hend, ?_⟩
      have hdots : (str "." :: str ".." :: f.names).map cstr = str "." :: str ".." :: f.names := by
        rw [List.map_cons, List.map_cons, List.map_congr_left (names_terminated hf hk), List.map_id']
        rfl
      rw [names_recordsOf, hx.entries, DirFile.entries_names, hdots]

end Listing

section Agreement

variable {η σ : Type} {H : HostStore η σ} {pv : ProcView} {v : SynthFs} {rel : Bytes} {flags : UInt32}

theorem directory_opened {file : SynthFile} {path : Bytes} {x x' : σ} {f : DirFile}
    (hopen : (v.openAt H pv rel flags).run x = (.ok (file, path), x')) (hdir : file.directory = some f) :
    f.Opened ∧ f.InKernel ∧ ((v = .proc ∧ ∃ cls, procClassify pv rel = some cls ∧
      isDir (procMode cls) = true ∧ f.names = (procNames pv cls).map Prod.fst) ∨
      (v = .dev ∧ rel = [] ∧ f.names = devnodes.map DevNode.name)) := by
  cases v with
  | proc =>
      rw [SynthFs.openAt, procfsOpen] at hopen
      cases hcls : procClassify pv rel with
      | none =>
          rw [hcls] at hopen
          cases hopen
      | some cls =>
          rw [hcls] at hopen
          dsimp only at hopen
          by_cases hl : isLnk (procMode cls) = true
          · rw [if_pos hl] at hopen
            split_ifs at hopen
            · obtain ⟨_, y, -, h⟩ := of_run_bind hopen
              cases h
              cases hdir
            · cases hopen
          rw [if_neg hl] at hopen
          by_cases hd : isDir (procMode cls) = true
          · rw [if_pos hd] at hopen
            by_cases hacc : flags &&& O_ACCMODE ≠ O_RDONLY
            · rw [if_pos hacc] at hopen
              cases hopen
            · rw [if_neg hacc] at hopen
              obtain ⟨_, y, -, h⟩ := of_run_bind hopen
              obtain ⟨_, z, -, h⟩ := of_run_bind h
              cases h
              cases hdir
              exact ⟨⟨⟨pv, rfl⟩, rfl⟩, trivial, .inl ⟨rfl, cls, rfl, hd, rfl⟩⟩
          · rw [if_neg hd] at hopen
            obtain ⟨_, y, -, h⟩ := of_run_bind hopen
            obtain ⟨_, z, -, h⟩ := of_run_bind h
            cases h
            cases hdir
  | dev =>
      rw [SynthFs.openAt, devfsOpen] at hopen
      by_cases hrel : rel = []
      · rw [if_pos hrel] at hopen
        split_ifs at hopen
        · cases hopen
        · obtain ⟨_, y, -, h⟩ := of_run_bind hopen
          cases h
          cases hdir
          exact ⟨rfl, trivial, .inr ⟨rfl, hrel, rfl⟩⟩
      · rw [if_neg hrel] at hopen
        cases hd : devFind rel with
        | none =>
            rw [hd] at hopen
            cases hopen
        | some d =>
            rw [hd] at hopen
            dsimp only at hopen
            split_ifs at hopen
            · cases hopen
            · cases hopen
            · cases hopen
            · obtain ⟨_, y, -, h⟩ := of_run_bind hopen
              cases h
              cases hdir

theorem stat_resolves (y : σ) : (∃ st y', (v.stat H pv rel).run y = (.ok st, y')) ↔
    match v with
    | .proc => (procClassify pv rel).isSome = true
    | .dev => rel = [] ∨ (devFind rel).isSome = true := by
  cases v with
  | proc =>
      rw [SynthFs.stat, procfsStat]
      cases procClassify pv rel with
      | none => exact ⟨fun ⟨_, _, h⟩ => (nomatch h), fun h => (nomatch h)⟩
      | some cls =>
          refine ⟨fun _ => rfl, fun _ => ?_⟩
          dsimp only
          split_ifs
          · exact ⟨_, _, rfl⟩
          · exact ⟨_, _, rfl⟩
  | dev =>
      rw [SynthFs.stat, devfsStat]
      by_cases hrel : rel = []
      · rw [if_pos hrel]
        exact ⟨fun _ => .inl hrel, fun _ => ⟨_, _, rfl⟩⟩
      · rw [if_neg hrel]
        cases devFind rel with
        | none => exact ⟨fun ⟨_, _, h⟩ => (nomatch h), fun h => (nomatch h.resolve_left hrel)⟩
        | some d => exact ⟨fun _ => .inr rfl, fun _ => ⟨_, _, rfl⟩⟩

/-- In every directory of `/proc` and `/dev` the names that resolve are those that are listed, but for
other spellings of a descriptor's number. -/
theorem names_resolve_as_listed {file : SynthFile} {path : Bytes} {x x' : σ} {f : DirFile}
    (hopen : (v.openAt H pv rel flags).run x = (.ok (file, path), x')) (hdir : file.directory = some f)
    {calls : List DirCall} {len : ℕ} {privOk dirOk : Bool}
    (hend : ((calls.foldl Enumeration.step ⟨f, []⟩).file.getdents len privOk dirOk).1 = .ok [])
    {n : Bytes} (hn : ValidName n) (y : σ) :
    ((∃ st y', (v.stat H pv (below rel n)).run y = (.ok st, y')) ↔
      ∃ rs, decode (calls.foldl Enumeration.step ⟨f, []⟩).seen = some rs ∧ n ∈ rs.map DirRecord.name) ↔
      ¬ (v = .proc ∧ procClassify pv rel = some .fd ∧ Respelled pv n) := by
  obtain ⟨hf, hk, hnames⟩ := directory_opened hopen hdir
  obtain ⟨rs, hdecode, hrs⟩ := ended_names hf hk hend
  have hlisted : (∃ rs, decode (calls.foldl Enumeration.step ⟨f, []⟩).seen = some rs ∧
      n ∈ rs.map DirRecord.name) ↔ n ∈ f.names := by
    have hmem : n ∈ rs.map DirRecord.name ↔ n ∈ f.names := by
      rw [hrs, List.mem_cons, List.mem_cons]
      exact ⟨fun h => (h.resolve_left hn.ne_dot).resolve_left hn.ne_dotdot, fun h => .inr (.inr h)⟩
    rw [← hmem, hdecode]
    simp
  rw [hlisted, stat_resolves]
  rcases hnames with ⟨rfl, cls, hcls, hmode, hnames⟩ | ⟨rfl, rfl, hnames⟩
  · rw [hnames, hcls]
    simpa using procClassify_below hn hcls hmode
  · rw [hnames, below, if_pos rfl]
    simp only [hn.ne_nil, false_or, devFind_names]
    simp

end Agreement

/-- A process with the descriptor 1 open, on the console. -/
def consoleView : ProcView := ⟨fun i => if i = 1 then some .console else none, [], []⟩

def consoleDir : DirFile := .proc ⟨.fd, procNames consoleView .fd⟩ 0

theorem consoleDir_opened : (SynthFs.proc.openAt (HostStore.idle : HostStore Unit Unit) consoleView
    (str "1/fd") O_RDONLY).run () =
      (.ok (.procDir ⟨.fd, procNames consoleView .fd⟩, str "/proc/1/fd"), ()) := rfl

/-- One read of it, and the listing that the next finds ended. -/
theorem consoleDir_listed :
    (([DirCall.getdents 4096 true true].foldl Enumeration.step ⟨consoleDir, []⟩).file.getdents 4096 true true).1 =
        .ok [] ∧
      (decode ([DirCall.getdents 4096 true true].foldl Enumeration.step ⟨consoleDir, []⟩).seen).map
        (List.map DirRecord.name) = some [str ".", str "..", str "1"] := by
  decide +kernel

theorem console_number_resolves :
    ((∃ st y', (SynthFs.proc.stat (HostStore.idle : HostStore Unit Unit) consoleView
        (below (str "1/fd") (str "1"))).run () = (.ok st, y')) ↔
      ∃ rs, decode ([DirCall.getdents 4096 true true].foldl Enumeration.step ⟨consoleDir, []⟩).seen = some rs ∧
        str "1" ∈ rs.map DirRecord.name) ↔
      ¬ (SynthFs.proc = .proc ∧ procClassify consoleView (str "1/fd") = some .fd ∧ Respelled consoleView (str "1")) :=
  names_resolve_as_listed consoleDir_opened rfl consoleDir_listed.1 ⟨by decide, by decide, by decide, by decide⟩ ()

/-- With a zero in front the number resolves, and it is not listed. -/
theorem respelled_number_not_listed :
    (SynthFs.proc.openAt (HostStore.idle : HostStore Unit Unit) consoleView (str "1/fd") O_RDONLY).run () =
      (.ok (.procDir ⟨.fd, procNames consoleView .fd⟩, str "/proc/1/fd"), ()) ∧
    (([DirCall.getdents 4096 true true].foldl Enumeration.step ⟨consoleDir, []⟩).file.getdents 4096 true true).1 =
      .ok [] ∧
    ¬ ((∃ st y', (SynthFs.proc.stat (HostStore.idle : HostStore Unit Unit) consoleView
        (below (str "1/fd") (str "01"))).run () = (.ok st, y')) ↔
      ∃ rs, decode ([DirCall.getdents 4096 true true].foldl Enumeration.step ⟨consoleDir, []⟩).seen = some rs ∧
        str "01" ∈ rs.map DirRecord.name) := by
  refine ⟨consoleDir_opened, consoleDir_listed.1, fun h => ?_⟩
  obtain ⟨rs, hrs, hmem⟩ := h.mp ⟨_, _, rfl⟩
  have hnames := consoleDir_listed.2
  rw [hrs] at hnames
  rw [Option.some.inj hnames] at hmem
  exact absurd hmem (by decide)

end SysvNt
