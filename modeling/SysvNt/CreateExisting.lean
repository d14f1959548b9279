import SysvNt.HostOpen
import SysvNt.LastNames
import SysvNt.MountPaths
import SysvNt.Operations
import SysvNt.WalkReference

/-!
# `O_CREAT` on an object that exists

On a host that does not change, an open with `O_CREAT` and without `O_EXCL` comes to an existing
object by a way of its own: from the parent of the last name, through the links found in that
place one after the other. Where these are LX links on the host and the object is an ordinary
file there, and where the permissions would let the plain open through, the two opens answer
alike.
-/

namespace SysvNt

open FallibleCalls Resolver

variable {η : Type}

/-- The tree that the walk sees on a host that does not change. -/
def hostTree (K : Kernel η Unit) (fs : FsCtx η) : Tree :=
  treeOf fs (fun abs => answer (statAbs K fs abs)) (fun abs => answer (readlinkAbs K fs abs))

def startOf (dir : List Bytes) (text : Bytes) : List Bytes :=
  if text.head? = some slash then [] else dir

def LinksAreText (K : Kernel η Unit) (fs : FsCtx η) : Prop :=
  ∀ abs t, answer (readlinkAbs K fs abs) = .ok t → 0 ∉ t

section Parents

variable {K : Kernel η Unit} {fs : FsCtx η}

theorem walkPath_answer (hnul : LinksAreText K fs) {base : Option Bytes}
    (hbase : Canonical (base.getD fs.cwd)) (p : Bytes) (wflags : UInt32) :
    answer (walkPath K fs base p wflags) =
      (resolvePath (hostTree K fs) bufferLimits (requestOf wflags (hasTrailing (cstr p)))
        (namesOf (base.getD fs.cwd)) (cstr p)).map (toLoc fs) := by
  obtain ⟨ns, hv, hns, hlen⟩ := hbase
  rw [hns, namesOf_render hv, resolvePath]
  change (walk (AbsStore.fixed (fun abs => answer (statAbs K fs abs)) fun abs => answer (readlinkAbs K fs abs))
    fs base p wflags ()).1 = _
  by_cases h0 : cstr p = []
  · rw [if_pos h0, walk, if_pos (List.length_eq_zero_iff.mpr h0)]
    rfl
  rw [if_neg h0]
  by_cases hmax : PATH_MAX ≤ (cstr p).length
  · have hgiven : bufferLimits.given (cstr p).length = true := by simpa [bufferLimits] using hmax
    rw [if_pos hgiven, walk, if_neg fun h => h0 (List.length_eq_zero_iff.mp h), if_pos hmax]
    rfl
  · have hgiven : ¬ bufferLimits.given (cstr p).length = true := by simpa [bufferLimits] using hmax
    rw [if_neg hgiven, walk_run_fixed _ _ _ _ hnul hv hns (by rw [← hns]; exact hlen) h0 hmax]
    rfl

theorem resolvePath_ok {T : Tree} {L : Limits} {r r' : Resolver.Request} {dir : List Bytes}
    {text : Bytes} {f : Found} (h : resolvePath T L r dir text = .ok f) :
    resolvePath T L r' dir text = resolve T L r' 40 (startOf dir text) (comps text) := by
  rw [resolvePath] at h ⊢
  by_cases h1 : text = []
  · rw [if_pos h1] at h
    cases h
  by_cases h2 : L.given text.length = true
  · rw [if_neg h1, if_pos h2] at h
    cases h
  rw [if_neg h1, if_neg h2]
  rfl

/-- What a walk to the parent leaves of a path. -/
theorem walkPath_parent (hnul : LinksAreText K fs) {base : Option Bytes}
    (hbase : Canonical (base.getD fs.cwd)) {p : Bytes} {loc : VfsLoc η}
    (h : answer (walkPath K fs base p W_PARENT) = .ok loc) :
    ∃ D c used a, loc = toLoc fs ⟨D, c⟩ ∧ ValidNames D ∧ ValidName c ∧
      LeavesName (hostTree K fs) bufferLimits (startOf (namesOf (base.getD fs.cwd)) (cstr p))
        (comps (cstr p)) used D ⟨c, a⟩ := by
  have hparent : (requestOf W_PARENT (hasTrailing (cstr p))).parent = true :=
    (by decide : has W_PARENT W_PARENT = true)
  rw [walkPath_answer hnul hbase] at h
  cases hres : resolvePath (hostTree K fs) bufferLimits (requestOf W_PARENT (hasTrailing (cstr p)))
      (namesOf (base.getD fs.cwd)) (cstr p) with
  | error e => rw [hres] at h; cases h
  | ok f =>
      rw [hres] at h
      obtain ⟨D, c⟩ := f
      cases h
      rw [resolvePath_ok hres] at hres
      have hstart : ValidNames (startOf (namesOf (base.getD fs.cwd)) (cstr p)) := by
        rw [startOf]
        split_ifs
        · exact ValidNames.nil
        · exact hbase.names.1
      obtain ⟨hD, hc⟩ := resolve_valid _ _ _ _ hstart (proper_comps _) hres
      obtain ⟨used, a, hleft⟩ := resolve_of_parent hparent _ _ _ hres
      exact ⟨D, c, used, a, rfl, hD, hc hparent, hleft⟩

end Parents

/-- From a path through the links found in the place of its last name to the name `fin` that is
no link; `ls` are the names of the links. -/
inductive Leads (K : Kernel η Unit) (fs : FsCtx η) :
    Option Bytes → Bytes → List (VfsLoc η) → VfsLoc η → Prop
  | name {base : Option Bytes} {p cand : Bytes} {loc : VfsLoc η} {st : KStat}
      (hloc : answer (walkPath K fs base p W_PARENT) = .ok loc)
      (hcand : pathJoin PATH_MAX loc.abs loc.last = .ok cand)
      (hst : answer (statAbs K fs cand) = .ok st) (hlnk : isLnk st.mode = false) :
      Leads K fs base p [] loc
  | link {base : Option Bytes} {p cand t : Bytes} {loc fin : VfsLoc η} {st : KStat}
      {ls : List (VfsLoc η)} (hloc : answer (walkPath K fs base p W_PARENT) = .ok loc)
      (hcand : pathJoin PATH_MAX loc.abs loc.last = .ok cand)
      (hst : answer (statAbs K fs cand) = .ok st) (hlnk : isLnk st.mode = true)
      (ht : answer (readlinkAbs K fs cand) = .ok t) (hne : t ≠ []) (hlen : t.length < PATH_MAX)
      (hrest : Leads K fs (some loc.abs) t ls fin) : Leads K fs base p (loc :: ls) fin

section Objects

variable {K : Kernel η Unit} {fs : FsCtx η}

/-- A mount point is a directory, if it can be statted. -/
theorem isDir_of_mounted (hD : RootsAreDirs K.store fs.table) {ns : List Bytes} (hv : ValidNames ns)
    (hm : (hostTree K fs).mounted ns = true) {st : KStat} (hst : (hostTree K fs).stat ns = .ok st) :
    isDir st.mode = true := by
  refine statAbs_root hD (x := ()) ?_ hst
  obtain ⟨m, hmem, hpoint⟩ := List.find?_isSome.mp hm
  have hpoint : m.point = render ns := by simpa using hpoint
  have hat := mountOf_mounted fs.table hv
  have hpre := hat.longest m hmem ns hpoint List.prefix_rfl
  have heq := List.IsPrefix.eq_of_length_le hat.below hpre.length_le
  have hrel : pathRel _ (render (ns ++ [])) = relText [] := pathRel_render (hat.point.trans (by rw [heq])) hv
  rwa [List.append_nil] at hrel

theorem uncrossed_of_not_mounted {D : List Bytes} {c : Bytes}
    (h : (hostTree K fs).mounted (D ++ [c]) = false) : Uncrossed fs.table D c := by
  intro m hm he
  have hsome : (mountAt fs.table.mounts (render (D ++ [c]))).isSome = true :=
    List.find?_isSome.mpr ⟨m, hm, by simpa using he⟩
  change (mountAt fs.table.mounts (render (D ++ [c]))).isSome = false at h
  rw [hsome] at h
  cases h

theorem finish_found {T : Tree} {r : Resolver.Request} (hp : r.parent = false) {dir : List Bytes}
    {f : Found} (h : finish T r dir = .ok f) : f = ⟨dir, []⟩ := by
  rw [finish, hp, if_neg Bool.false_ne_true] at h
  split_ifs at h
  · exact (demandDirectory_ok h).1
  · cases h
    rfl

variable {r : Resolver.Request} (hp : r.parent = false) {k : ℕ} {D : List Bytes} {c : Comp}
  (hstop : StopsAt (hostTree K fs) bufferLimits D c) {st : KStat}
  (hst : (hostTree K fs).stat (D ++ [c.name]) = .ok st) {f : Found}
  (h : resolve (hostTree K fs) bufferLimits r k D [c] = .ok f)

include hp hstop hst h

/-- The object a request comes to with one name left that is no link; asking for the link itself
makes no difference. -/
theorem resolve_name (hlnk : isLnk st.mode = false) :
    f = ⟨D ++ [c.name], []⟩ ∧ (render (D ++ [c.name])).length < PATH_MAX ∧
      ∀ r' : Resolver.Request, r'.parent = false → r'.demand = r.demand →
        resolve (hostTree K fs) bufferLimits r' k D [c] = .ok f := by
  have hfinish : ∀ r' : Resolver.Request, r'.parent = false →
      (render (D ++ [c.name])).length < PATH_MAX →
      resolve (hostTree K fs) bufferLimits r' k D [c] = finish (hostTree K fs) r' (D ++ [c.name]) := by
    intro r' hp' hlen
    have hpath : bufferLimits.path (render (D ++ [c.name])).length = false := by
      simpa [bufferLimits] using hlen
    rw [resolve_last hp' k hstop, hpath, if_neg Bool.false_ne_true, hst]
    simp only [hlnk, Bool.false_eq_true, false_and, if_false, ite_self]
  have hlen : (render (D ++ [c.name])).length < PATH_MAX := by
    by_contra hlong
    have hpath : bufferLimits.path (render (D ++ [c.name])).length = true := by
      simpa [bufferLimits] using hlong
    rw [resolve_last hp k hstop, if_pos hpath] at h
    cases h
  rw [hfinish r hp hlen] at h
  refine ⟨finish_found hp h, hlen, fun r' hp' hdem => ?_⟩
  rw [hfinish r' hp' hlen, ← h, finish, finish, hp, hp', hdem]

/-- With one name left that is a link to be followed, a link is spent on it. -/
theorem resolve_link (hD : RootsAreDirs K.store fs.table) (hv : ValidNames (D ++ [c.name]))
    (hnf : r.nofollow = false) (hlnk : isLnk st.mode = true) {t : Bytes}
    (ht : (hostTree K fs).readlink (D ++ [c.name]) = .ok t) :
    ∃ j, k = j + 1 ∧ resolve (hostTree K fs) bufferLimits r j (startOf D t) (comps t) = .ok f := by
  rw [resolve_last hp k hstop, hst] at h
  split_ifs at h with hpath hm
  · have hdir := isDir_of_mounted hD hv hm hst
    rw [isLnk_eq_false_of_isDir hdir] at hlnk
    cases hlnk
  · dsimp only at h
    rw [if_pos ⟨hlnk, .inl hnf⟩] at h
    cases k with
    | zero => cases h
    | succ k =>
        obtain ⟨target, htarget, _, _, h⟩ := followLink_ok h
        rw [ht] at htarget
        cases htarget
        rw [List.append_nil] at h
        have htext : ∀ i j, i ≤ j → bufferLimits.text j = false → bufferLimits.text i = false := by
          intro i j hij hj
          simp only [bufferLimits, decide_eq_false_iff_not] at hj ⊢
          omega
        exact ⟨k, rfl, resolve_shorter htext r k _ (shorter_shift c.after (comps t)) h⟩

omit hp hstop hst h in
theorem answer_walkPath_good {base : Option Bytes} (hbase : Canonical (base.getD fs.cwd)) {p : Bytes}
    {wflags : UInt32} {loc : VfsLoc η} (h : answer (walkPath K fs base p wflags) = .ok loc) :
    GoodLoc fs wflags loc :=
  walk_good hbase (Prod.ext h rfl)

omit hstop hst h in
/-- The object that a path resolves to is the name it leads to, and it takes as many links as
there are on the way. -/
theorem leads_object (hnul : LinksAreText K fs) (hD : RootsAreDirs K.store fs.table)
    {base : Option Bytes} {p : Bytes} {ls : List (VfsLoc η)} {fin : VfsLoc η}
    (hlead : Leads K fs base p ls fin) (hbase : Canonical (base.getD fs.cwd))
    (hnf : r.nofollow = false) {j : ℕ}
    (h : resolve (hostTree K fs) bufferLimits r j (startOf (namesOf (base.getD fs.cwd)) (cstr p))
      (comps (cstr p)) = .ok f)
    (hf : ∃ st, (hostTree K fs).stat f.dir = .ok st ∧ isDir st.mode = false) :
    ls.length ≤ j ∧ ∃ D c, fin = toLoc fs ⟨D, c⟩ ∧ ValidNames D ∧ ValidName c ∧
      Uncrossed fs.table D c ∧ f = ⟨D ++ [c], []⟩ ∧
      pathJoin PATH_MAX (render D) c = .ok (render (D ++ [c])) ∧
      ∃ st, (hostTree K fs).stat (D ++ [c]) = .ok st ∧ isLnk st.mode = false := by
  induction hlead generalizing j with
  | @name base p cand loc st hloc hcand hst hlnk =>
      obtain ⟨D, c, used, a, rfl, hDv, hc, hleft⟩ := walkPath_parent hnul hbase hloc
      obtain ⟨rfl, _⟩ := pathJoin_ok hDv hcand
      have hj : used ≤ j := by
        by_contra hj
        rw [hleft.tooFew r hp j (by omega)] at h
        cases h
      rw [hleft.enough r hp j hj] at h
      obtain ⟨rfl, _, _⟩ := resolve_name hp hleft.stops hst h hlnk
      refine ⟨Nat.zero_le _, D, c, rfl, hDv, hc, uncrossed_of_not_mounted (K := K) ?_, rfl, hcand, st,
        hst, hlnk⟩
      obtain ⟨st', hst', hndir⟩ := hf
      by_contra hm
      have hdir := isDir_of_mounted hD (hDv.snoc hc) (by simpa using hm) hst'
      rw [hndir] at hdir
      cases hdir
  | @link base p cand t loc fin st ls hloc hcand hst hlnk ht hne hlen hrest ih =>
      have hgood := answer_walkPath_good hbase hloc
      obtain ⟨D, c, used, a, rfl, hDv, hc, hleft⟩ := walkPath_parent hnul hbase hloc
      obtain ⟨rfl, _⟩ := pathJoin_ok hDv hcand
      have hj : used ≤ j := by
        by_contra hj
        rw [hleft.tooFew r hp j (by omega)] at h
        cases h
      rw [hleft.enough r hp j hj] at h
      obtain ⟨i, hi, hnext⟩ := resolve_link hp hleft.stops hst h hD (hDv.snoc hc) hnf hlnk ht
      have hstart : startOf (namesOf ((some (toLoc fs ⟨D, c⟩).abs).getD fs.cwd)) (cstr t) =
          startOf D t := by
        rw [cstr_of_not_mem (hnul _ _ ht)]
        exact congrArg (startOf · t) (namesOf_render hDv)
      rw [← hstart] at hnext
      nth_rewrite 2 [← cstr_of_not_mem (hnul _ _ ht)] at hnext
      obtain ⟨hls, hfin⟩ := ih hgood.canonical hnext
      exact ⟨by rw [List.length_cons]; omega, hfin⟩

end Objects

section Host

/-- The ways an object is opened: as itself, as no directory, as whatever it is. -/
def selfOptions : OpenOptions := ⟨false, false, true⟩
def fileOptions : OpenOptions := ⟨false, true, false⟩
def plainOptions : OpenOptions := ⟨false, false, false⟩

/-- A name on the host: its directory open, the name as the host spells it, the object open as
itself, and what NT tells of it. -/
structure HostObject (nt : Nt η Unit) (K : Kernel η Unit) (loc : VfsLoc η) (root d : η)
    (w : List UInt16) (h : η) (i : NtInfo) : Prop where
  host : loc.m.type = .host root
  dir : answer (openHostDir K.store root loc.m loc.abs) = .ok d
  name : nameToWide loc.last 255 = some w
  ne : w.length ≠ 0
  self : answer (nt.createFile d w (FILE_READ_ATTRIBUTES ||| FILE_READ_EA) .open selfOptions) = .ok h
  info : answer (nt.queryStat h) = .ok i

def NtInfo.directory (i : NtInfo) : Bool := has i.fileAttributes 0x10

/-- What NT documents of a name that exists: creating what is there opens it, the extended
attributes unused; an LX link is a reparse point that nobody handles; a handle to an object that
is no link tells what the object is; a link reads alike through every handle. Of a Windows link,
which NT follows inside the call, nothing is said but that. -/
structure Nt.Existing (nt : Nt η Unit) (rest : HostStore η Unit) : Prop where
  file : ∀ d w h i, answer (nt.createFile d w (FILE_READ_ATTRIBUTES ||| FILE_READ_EA) .open
      selfOptions) = .ok h → answer (nt.queryStat h) = .ok i → i.directory = false →
      i.kind ≠ .winlink → ∀ a ea,
    answer (nt.createFile d w a (.openIf ea) fileOptions) =
        answer (nt.createFile d w a .open plainOptions) ∧
      answer (nt.createFile d w a (.overwriteIf ea) fileOptions) =
        answer (nt.createFile d w a .overwrite plainOptions)
  link : ∀ d w h i, answer (nt.createFile d w (FILE_READ_ATTRIBUTES ||| FILE_READ_EA) .open
      selfOptions) = .ok h → answer (nt.queryStat h) = .ok i → i.kind = .lxlink → ∀ a ea,
    answer (nt.createFile d w a (.openIf ea) fileOptions) = .error .ioReparseTagNotHandled ∧
      answer (nt.createFile d w a (.overwriteIf ea) fileOptions) = .error .ioReparseTagNotHandled
  kind : ∀ d w h i, answer (nt.createFile d w (FILE_READ_ATTRIBUTES ||| FILE_READ_EA) .open
      selfOptions) = .ok h → answer (nt.queryStat h) = .ok i → i.kind ≠ .lxlink → i.kind ≠ .winlink →
    ∀ a disp k i', answer (nt.createFile d w a disp plainOptions) = .ok k →
      answer (nt.queryStat k) = .ok i' → i'.kind = i.kind
  readlink : ∀ d w a a' h h', answer (nt.createFile d w a .open selfOptions) = .ok h →
    answer (nt.createFile d w a' .open selfOptions) = .ok h' →
      answer (rest.readlink h) = answer (rest.readlink h')

theorem answer_hfsOpenat {nt : Nt η Unit} {name : Bytes} {w : List UInt16}
    (hw : nameToWide name 255 = some w) (hne : w.length ≠ 0) (d : η) (fl mode uid gid : UInt32)
    (st : Bool) :
    answer (hfsOpenat nt d name fl mode uid gid st) =
      match answer (nt.createFile d w (accessOf fl) (dispositionOf fl mode uid gid) (optionsOf fl)) with
      | .ok h => answer (openFresh nt h st)
      | .error s =>
        if s = .ioReparseTagNotHandled ∧ has fl HFS_O_REPARSE = false then
          answer (openReparse nt d w fl)
        else .error (errnoOf s) := by
  rw [answer, run_hfsOpenat nt hw hne, run_unit]
  cases answer (nt.createFile d w (accessOf fl) (dispositionOf fl mode uid gid) (optionsOf fl)) with
  | ok h => rfl
  | error s =>
      dsimp only
      split_ifs <;> rfl

/-- A call of NT that answers, with its status as an errno. -/
theorem answer_withErrno {nt : Call NtStatus Unit η} {h : η} (hnt : answer nt = .ok h) :
    answer (withErrno nt) = .ok h := by
  change (answer nt).mapError errnoOf = .ok h
  rw [hnt]
  rfl

theorem answer_withStat (nt : Nt η Unit) (h : η) (reparse : Bool) :
    answer (withStat nt h reparse) = match answer (nt.queryStat h) with
      | .ok i => .ok ⟨h, statOf i, reparse⟩
      | .error s => .error (errnoOf s) := by
  have hquery : answer (withErrno (nt.queryStat h)) = (answer (nt.queryStat h)).mapError errnoOf := rfl
  rw [withStat, answer_bind, answer_attempt, statHandle, answer_bind, hquery]
  cases answer (nt.queryStat h) <;> rfl

def hostBits (path read write dir trunc : Bool) : UInt32 :=
  (if path then HFS_O_ATTR
    else (if read then HFS_O_READ else 0) ||| (if write then HFS_O_WRITE else 0)) |||
    (if dir then HFS_O_DIR else 0) ||| (if trunc then HFS_O_TRUNC else 0)

theorem hostFlags_eq (flags : UInt32) :
    ∃ read write, hostFlags flags =
      hostBits (has flags O_PATH) read write (has flags O_DIRECTORY) (has flags O_TRUNC) := by
  refine ⟨decide (flags &&& O_ACCMODE = O_RDONLY ∨ flags &&& O_ACCMODE = O_RDWR),
    decide (flags &&& O_ACCMODE = O_WRONLY ∨ flags &&& O_ACCMODE = O_RDWR), ?_⟩
  simp only [hostFlags, hostBits, decide_eq_true_eq]

/-- What the plain and the creating open ask of NT, apart from how to treat what is there. -/
theorem hostBits_asks (path read write trunc : Bool) :
    optionsOf (hostBits path read write false trunc) = plainOptions ∧
      optionsOf (hostBits path read write false trunc ||| HFS_O_CREATE ||| HFS_O_NODIR ||| 0) =
        fileOptions ∧
      accessOf (hostBits path read write false trunc ||| HFS_O_CREATE ||| HFS_O_NODIR ||| 0) =
        accessOf (hostBits path read write false trunc) ∧
      accessOf (hostBits path read write false trunc ||| HFS_O_CREATE ||| HFS_O_NODIR ||| 0) &&&
        DELETE = 0 := by
  revert path read write trunc
  decide

theorem hostBits_disposition (path read write trunc : Bool) (mode uid gid : UInt32) :
    dispositionOf (hostBits path read write false trunc) mode uid gid =
        (if trunc then .overwrite else .open) ∧
      dispositionOf (hostBits path read write false trunc ||| HFS_O_CREATE ||| HFS_O_NODIR ||| 0)
          mode uid gid =
        (if trunc then .overwriteIf ⟨uid, gid, 0o100000 ||| mode &&& 0o7777⟩
          else .openIf ⟨uid, gid, 0o100000 ||| mode &&& 0o7777⟩) := by
  have hbits : ∀ path read write trunc : Bool,
      has (hostBits path read write false trunc) HFS_O_CREATE = false ∧
      has (hostBits path read write false trunc) HFS_O_TRUNC = trunc ∧
      has (hostBits path read write false trunc ||| HFS_O_CREATE ||| HFS_O_NODIR ||| 0)
        HFS_O_CREATE = true ∧
      has (hostBits path read write false trunc ||| HFS_O_CREATE ||| HFS_O_NODIR ||| 0)
        HFS_O_EXCL = false ∧
      has (hostBits path read write false trunc ||| HFS_O_CREATE ||| HFS_O_NODIR ||| 0)
        HFS_O_TRUNC = trunc := by decide
  obtain ⟨h1, h2, h3, h4, h5⟩ := hbits path read write trunc
  rw [dispositionOf, dispositionOf, h1, h2, h3, h4, h5]
  cases trunc <;> exact ⟨rfl, rfl⟩

section Creating

variable {K : Kernel η Unit} {fs : FsCtx η} {nt : Nt η Unit} {rest : HostStore η Unit}
  (hnt : nt.Existing rest) (hK : K.store = nt.store rest) {flags : UInt32}
  (hexcl : has flags O_EXCL = false) (hdir : has flags O_DIRECTORY = false)

include hdir hexcl in
/-- The flags of the creating open. -/
theorem createFlags_eq : ∃ read write, hostFlags flags =
      hostBits (has flags O_PATH) read write false (has flags O_TRUNC) ∧
    createFlags flags = hostBits (has flags O_PATH) read write false (has flags O_TRUNC) |||
      HFS_O_CREATE ||| HFS_O_NODIR ||| 0 := by
  obtain ⟨read, write, hbits⟩ := hostFlags_eq flags
  rw [hdir] at hbits
  refine ⟨read, write, hbits, ?_⟩
  rw [createFlags, hbits, hexcl]
  rfl

include hnt hK hexcl hdir

/-- The creating branch on an LX link goes on with its target. -/
theorem openCreate_link {loc : VfsLoc η} {root d h : η} {w : List UInt16} {i : NtInfo}
    (ho : HostObject nt K loc root d w h i) (hkind : i.kind = .lxlink) {t : Bytes}
    (ht : answer (rest.readlink h) = .ok t) (hne : t ≠ []) (hlen : t.length < PATH_MAX)
    (mode : UInt32) : answer (openCreate K fs root loc flags mode) = .ok (.inr t) := by
  have hopenat : K.store.openat = hfsOpenat nt := by rw [hK]; rfl
  have hreadlink : K.store.readlink = rest.readlink := by rw [hK]; rfl
  obtain ⟨read, write, _, hflags⟩ := createFlags_eq hexcl hdir
  obtain ⟨_, hoptions, _, hdelete⟩ := hostBits_asks (has flags O_PATH) read write (has flags O_TRUNC)
  have hself : answer (openReparse nt d w (createFlags flags)) = .ok ⟨h, statOf i, true⟩ := by
    have hopen := answer_withErrno ho.self
    rw [selfOptions] at hopen
    rw [openReparse, answer_bind, hflags, hdelete, UInt32.or_zero, hopen]
    change answer (withStat nt h true) = _
    rw [answer_withStat, ho.info]
  have hfirst : answer (nt.createFile d w (accessOf (createFlags flags)) (dispositionOf
      (createFlags flags) (mode &&& 0o7777 &&& ~~~fs.umask) fs.euid fs.egid)
      (optionsOf (createFlags flags))) = .error .ioReparseTagNotHandled := by
    obtain ⟨hopenIf, hoverwriteIf⟩ := hnt.link d w h i ho.self ho.info hkind
      (accessOf (createFlags flags)) ⟨fs.euid, fs.egid,
        0o100000 ||| mode &&& 0o7777 &&& ~~~fs.umask &&& 0o7777⟩
    rw [hflags] at hopenIf hoverwriteIf ⊢
    rw [hoptions, (hostBits_disposition _ _ _ _ _ _ _).2]
    split_ifs
    · exact hoverwriteIf
    · exact hopenIf
  have hreparse : has (createFlags flags) HFS_O_REPARSE = false := by
    have hopt := congrArg OpenOptions.openReparsePoint hoptions
    rw [← hflags] at hopt
    exact hopt
  have hopened : answer (hfsOpenat nt d loc.last (createFlags flags)
      (mode &&& 0o7777 &&& ~~~fs.umask) fs.euid fs.egid true) = .ok ⟨h, statOf i, true⟩ := by
    rw [answer_hfsOpenat ho.name ho.ne, hfirst]
    dsimp only
    rw [if_pos ⟨rfl, hreparse⟩, hself]
  have hlx : ¬ (statOf i).kind ≠ .lxlink := not_not_intro hkind
  have hlong : ¬ (t.length = 0 ∨ PATH_MAX ≤ t.length) := by
    rw [List.length_eq_zero_iff, not_or]
    exact ⟨hne, by omega⟩
  rw [openCreate, answer_bind, ho.dir]
  change answer _ = _
  rw [answer_bind, answer_closing, hopenat, hopened]
  change answer (createdOrLink K loc flags ⟨h, statOf i, true⟩) = _
  rw [createdOrLink, if_pos rfl, hexcl, if_neg Bool.false_ne_true, if_neg hlx, answer_bind,
    answer_closing, answer_attempt, hreadlink, ht]
  change answer _ = _
  rw [answer_bind, answer_liftExcept, createTarget, if_neg hlong]
  rfl

omit hexcl hdir in
/-- The target that the walk reads is the one that the object itself has. -/
theorem readlink_self {D : List Bytes} {c : Bytes} (hD : ValidNames D) (hc : ValidName c)
    (hfree : Uncrossed fs.table D c) {root d h : η} {w : List UInt16} {i : NtInfo}
    (ho : HostObject nt K (toLoc fs ⟨D, c⟩) root d w h i) {t : Bytes}
    (ht : answer (readlinkAbs K fs (render (D ++ [c]))) = .ok t) :
    answer (rest.readlink h) = .ok t := by
  have hopenat : K.store.openat = hfsOpenat nt := by rw [hK]; rfl
  have hreadlink : K.store.readlink = rest.readlink := by rw [hK]; rfl
  have hmount := mountOf_snoc hD hc hfree
  have htype : (fs.table.mountOf (render D)).type = .host root := ho.host
  have hopened : answer (openHostDir K.store root (fs.table.mountOf (render D)) (render D)) = .ok d :=
    ho.dir
  have hname : nameToWide c 255 = some w := ho.name
  rw [readlinkAbs, hmount, htype, pathParent_render_snoc _ hc.slash_not_mem,
    lastName_render_snoc _ hc.slash_not_mem] at ht
  dsimp only at ht
  split_ifs at ht
  · cases ht
  · rw [answer_bind, hopened] at ht
    change answer _ = _ at ht
    rw [answer_bind, answer_closing, hopenat, answer_hfsOpenat hname ho.ne] at ht
    have hdisp : dispositionOf (HFS_O_READ ||| HFS_O_REPARSE) 0 0 0 = .open := rfl
    have hoptions : optionsOf (HFS_O_READ ||| HFS_O_REPARSE) = selfOptions := rfl
    rw [hdisp, hoptions] at ht
    cases hself : answer (nt.createFile d w (accessOf (HFS_O_READ ||| HFS_O_REPARSE)) .open
        selfOptions) with
    | error s =>
        rw [hself] at ht
        dsimp only at ht
        rw [if_neg (fun h => absurd h.2 (by decide))] at ht
        cases ht
    | ok h' =>
        rw [hself] at ht
        change answer (closing (K.store.close h') (K.store.readlink h')) = .ok t at ht
        rw [answer_closing, hreadlink] at ht
        rw [hnt.readlink d w _ _ h h' ho.self hself]
        exact ht

/-- A creating open follows the links that a path leads through, to the name at their end. -/
theorem openCreating_leads (hnul : LinksAreText K fs) (hD : RootsAreDirs K.store fs.table)
    {base : Option Bytes} {p : Bytes} {ls : List (VfsLoc η)} {fin : VfsLoc η}
    (hlead : Leads K fs base p ls fin) (hbase : Canonical (base.getD fs.cwd))
    (hlx : ∀ l ∈ ls, ∃ root d w h i, HostObject nt K l root d w h i ∧ i.kind = .lxlink)
    {root : η} (hroot : fin.m.type = .host root) (mode : UInt32) (n : ℕ) (hn : ls.length ≤ n) :
    answer (openCreating K fs flags mode (n + 1) base p) =
      (answer (openCreate K fs root fin flags mode)).bind fun r => match r with
        | .inl f => .ok f
        | .inr t => answer (openCreating K fs flags mode (n - ls.length) (some fin.abs) t) := by
  induction hlead generalizing n with
  | @name base p cand loc st hloc hcand hst hlnk =>
      rw [openCreating, answer_bind, answer_attempt, hloc]
      simp only [Except.bind, hroot]
      rw [answer_bind]
      congr 1
      funext r
      cases r <;> rfl
  | @link base p cand t loc fin st ls hloc hcand hst hlnk ht hne hlen hrest ih =>
      have hgood := answer_walkPath_good hbase hloc
      obtain ⟨D, c, used, a, rfl, hDv, hc, hleft⟩ := walkPath_parent hnul hbase hloc
      obtain ⟨rfl, _⟩ := pathJoin_ok hDv hcand
      obtain ⟨lroot, d, w, h, i, ho, hkind⟩ := hlx _ List.mem_cons_self
      have hfree : Uncrossed fs.table D c := by
        refine uncrossed_of_not_mounted (K := K) ?_
        by_contra hm
        have hdir := isDir_of_mounted hD (hDv.snoc hc) (by simpa using hm) hst
        rw [isLnk_eq_false_of_isDir hdir] at hlnk
        cases hlnk
      have hself := readlink_self hnt hK hDv hc hfree ho ht
      have hcreate : answer (openCreate K fs lroot (toLoc fs ⟨D, c⟩) flags mode) = .ok (.inr t) :=
        openCreate_link hnt hK hexcl hdir ho hkind hself hne hlen mode
      rw [List.length_cons] at hn ⊢
      obtain ⟨m, rfl⟩ : ∃ m, n = m + 1 := ⟨n - 1, by omega⟩
      rw [openCreating, answer_bind, answer_attempt, hloc]
      simp only [Except.bind, ho.host]
      rw [answer_bind, hcreate]
      change answer (openCreating K fs flags mode (m + 1) (some (toLoc fs ⟨D, c⟩).abs) t) = _
      rw [ih hgood.canonical (fun l hl => hlx l (List.mem_cons_of_mem _ hl)) hroot m (by omega),
        Nat.add_sub_add_right]
      rfl

omit hdir hexcl hnt hK in
theorem isLnk_kstatOf (m : Mount η) {hs : HfsStat} (name : Option Bytes)
    (h : typeOf hs.kind = S_IFLNK) : isLnk (kstatOf m hs name).mode = true := by
  change isLnk (modeOf hs name) = true
  rw [modeOf, h, if_pos rfl]
  decide

omit hnt hexcl hdir in
/-- `stat_abs` of a name on the host tells what the object itself is. -/
theorem statAbs_self {D : List Bytes} {c : Bytes} (hD : ValidNames D) (hc : ValidName c)
    (hfree : Uncrossed fs.table D c) (hroots : RootsAreDirs K.store fs.table) {root d h : η}
    {w : List UInt16} {i : NtInfo} (ho : HostObject nt K (toLoc fs ⟨D, c⟩) root d w h i)
    {st : KStat} (hst : answer (statAbs K fs (render (D ++ [c]))) = .ok st)
    (hndir : isDir st.mode = false) :
    pathRel (fs.table.mountOf (render D)) (render (D ++ [c])) ≠ [] ∧
      st = kstatOf (fs.table.mountOf (render D)) (statOf i) (some c) := by
  have hopenat : K.store.openat = hfsOpenat nt := by rw [hK]; rfl
  have hmount := mountOf_snoc hD hc hfree
  have htype : (fs.table.mountOf (render D)).type = .host root := ho.host
  have hopened : answer (openHostDir K.store root (fs.table.mountOf (render D)) (render D)) = .ok d :=
    ho.dir
  have hname : nameToWide c 255 = some w := ho.name
  have hrel : pathRel (fs.table.mountOf (render D)) (render (D ++ [c])) ≠ [] := by
    intro hrel
    rw [← hmount] at hrel
    have hdir := statAbs_root hroots hrel (x := ()) hst
    rw [hndir] at hdir
    cases hdir
  have hself : answer (hfsOpenat nt d c HFS_O_REPARSE 0 0 0 true) = .ok ⟨h, statOf i, false⟩ := by
    have haccess : accessOf HFS_O_REPARSE = FILE_READ_ATTRIBUTES ||| FILE_READ_EA := by decide
    have hdisp : dispositionOf HFS_O_REPARSE 0 0 0 = .open := rfl
    have hoptions : optionsOf HFS_O_REPARSE = selfOptions := rfl
    rw [answer_hfsOpenat hname ho.ne, haccess, hdisp, hoptions, ho.self]
    change answer (withStat nt h false) = _
    rw [answer_withStat, ho.info]
  rw [statAbs, hmount, htype, pathParent_render_snoc _ hc.slash_not_mem,
    lastName_render_snoc _ hc.slash_not_mem] at hst
  dsimp only at hst
  rw [if_neg hrel, answer_bind, hopened] at hst
  change answer _ = _ at hst
  rw [answer_bind, answer_closing, HostStore.statat, answer_bind, hopenat, hself] at hst
  cases hst
  exact ⟨hrel, rfl⟩

omit hK in
/-- On an object that exists the two opens ask the host for the same thing. -/
theorem hfsOpenat_same {loc : VfsLoc η} {root d h : η} {w : List UInt16} {i : NtInfo}
    (ho : HostObject nt K loc root d w h i) (hfile : i.directory = false) (hwin : i.kind ≠ .winlink)
    (mode uid gid : UInt32)
    (hopens : answer (nt.createFile d w (accessOf (hostFlags flags))
      (if has flags O_TRUNC then .overwrite else .open) plainOptions) ≠
        .error .ioReparseTagNotHandled) :
    answer (hfsOpenat nt d loc.last (createFlags flags) mode uid gid true) =
      answer (hfsOpenat nt d loc.last (hostFlags flags) 0 0 0 true) := by
  obtain ⟨read, write, hhost, hcreate⟩ := createFlags_eq hexcl hdir
  obtain ⟨hplain, hnodir, haccess, _⟩ :=
    hostBits_asks (has flags O_PATH) read write (has flags O_TRUNC)
  obtain ⟨hopenIf, hoverwriteIf⟩ := hnt.file d w h i ho.self ho.info hfile hwin
    (accessOf (hostFlags flags)) ⟨uid, gid, 0o100000 ||| mode &&& 0o7777⟩
  have hsame : answer (nt.createFile d w (accessOf (createFlags flags))
      (dispositionOf (createFlags flags) mode uid gid) (optionsOf (createFlags flags))) =
      answer (nt.createFile d w (accessOf (hostFlags flags))
        (if has flags O_TRUNC then .overwrite else .open) plainOptions) := by
    rw [hcreate, hnodir, haccess, (hostBits_disposition _ _ _ _ _ _ _).2, ← hhost]
    split_ifs
    · exact hoverwriteIf
    · exact hopenIf
  have hfirst : dispositionOf (hostFlags flags) 0 0 0 =
      (if has flags O_TRUNC then .overwrite else .open) ∧ optionsOf (hostFlags flags) = plainOptions := by
    rw [hhost]
    exact ⟨(hostBits_disposition _ _ _ _ _ _ _).1, hplain⟩
  rw [answer_hfsOpenat ho.name ho.ne, answer_hfsOpenat ho.name ho.ne, hsame, hfirst.1, hfirst.2]
  cases hr : answer (nt.createFile d w (accessOf (hostFlags flags))
      (if has flags O_TRUNC then .overwrite else .open) plainOptions) with
  | ok k => rfl
  | error s =>
      have hs : s ≠ .ioReparseTagNotHandled := by
        rintro rfl
        exact hopens hr
      dsimp only
      rw [if_neg (fun h => hs h.1), if_neg (fun h => hs h.1)]

omit hdir hexcl hnt hK in
/-- The bits of the flags other than `O_CREAT`. -/
theorem and_dropCreat {bits : UInt32} (h : ~~~O_CREAT &&& bits = bits) (flags : UInt32) :
    (flags &&& ~~~O_CREAT) &&& bits = flags &&& bits := by
  rw [UInt32.and_assoc, h]

omit hdir hexcl hnt hK in
theorem has_dropCreat {bit : UInt32} (h : ~~~O_CREAT &&& bit = bit) (flags : UInt32) :
    has (flags &&& ~~~O_CREAT) bit = has flags bit := by
  rw [has, has, and_dropCreat h]

omit hdir hexcl hnt hK in
theorem hostFlags_dropCreat (flags : UInt32) :
    hostFlags (flags &&& ~~~O_CREAT) = hostFlags flags := by
  rw [hostFlags, hostFlags, and_dropCreat (by decide), has_dropCreat (by decide),
    has_dropCreat (by decide), has_dropCreat (by decide)]

omit hdir hexcl hnt hK in
theorem keptFlags_dropCreat (flags : UInt32) :
    keptFlags (flags &&& ~~~O_CREAT) = keptFlags flags := by
  rw [keptFlags, keptFlags]
  exact and_dropCreat (by decide) flags

omit hdir hexcl hnt hK in
theorem checkExisting_dropCreat (st : KStat) (flags : UInt32) :
    checkExisting fs st (flags &&& ~~~O_CREAT) = checkExisting fs st flags := by
  rw [checkExisting, checkExisting, openMask, openMask, and_dropCreat (by decide),
    has_dropCreat (by decide), has_dropCreat (by decide), has_dropCreat (by decide)]

omit hnt hK hexcl in
/-- The checks on an object that is neither link nor directory are the permissions alone. -/
theorem checkExisting_file {st : KStat} (hlnk : isLnk st.mode = false) (hndir : isDir st.mode = false) :
    checkExisting fs st flags =
      if has flags O_PATH then .ok () else may fs st (openMask flags) true := by
  rw [checkExisting, hlnk, hndir, hdir]
  simp

omit hK in
/-- A plain open that is answered is of the object itself. -/
theorem hfsOpenat_opened {loc : VfsLoc η} {root d h : η} {w : List UInt16} {i : NtInfo}
    (ho : HostObject nt K loc root d w h i) (hlx : i.kind ≠ .lxlink) (hwin : i.kind ≠ .winlink)
    (hopens : answer (nt.createFile d w (accessOf (hostFlags flags))
      (if has flags O_TRUNC then .overwrite else .open) plainOptions) ≠
        .error .ioReparseTagNotHandled) {o : Opened η}
    (h : answer (hfsOpenat nt d loc.last (hostFlags flags) 0 0 0 true) = .ok o) :
    o.reparse = false ∧ o.st.kind = i.kind := by
  obtain ⟨read, write, hhost, _⟩ := createFlags_eq hexcl hdir
  have hplain := (hostBits_asks (has flags O_PATH) read write (has flags O_TRUNC)).1
  have hdisp := (hostBits_disposition (has flags O_PATH) read write (has flags O_TRUNC) 0 0 0).1
  rw [← hhost] at hplain hdisp
  rw [answer_hfsOpenat ho.name ho.ne, hdisp, hplain] at h
  cases hr : answer (nt.createFile d w (accessOf (hostFlags flags))
      (if has flags O_TRUNC then .overwrite else .open) plainOptions) with
  | error s =>
      have hs : s ≠ .ioReparseTagNotHandled := by
        rintro rfl
        exact hopens hr
      rw [hr] at h
      dsimp only at h
      rw [if_neg (fun h => hs h.1)] at h
      cases h
  | ok k =>
      rw [hr] at h
      change answer (withStat nt k false) = .ok o at h
      rw [answer_withStat] at h
      cases hi : answer (nt.queryStat k) with
      | error s => rw [hi] at h; cases h
      | ok i' =>
          rw [hi] at h
          cases h
          exact ⟨rfl, hnt.kind d w _ i ho.self ho.info hlx hwin _ _ k i' hr hi⟩

omit hnt hexcl in
/-- What the plain open does with a name on the host that is neither link nor directory. -/
theorem openExistingHost_answer {D : List Bytes} {c : Bytes} (hc : ValidName c)
    (hmount : fs.table.mountOf (render (D ++ [c])) = fs.table.mountOf (render D)) {root d : η}
    (hopened : answer (openHostDir K.store root (fs.table.mountOf (render D)) (render D)) = .ok d)
    (hrel : pathRel (fs.table.mountOf (render D)) (render (D ++ [c])) ≠ []) {st : KStat}
    (hst : answer (statAbs K fs (render (D ++ [c]))) = .ok st) (hlnk : isLnk st.mode = false)
    (hndir : isDir st.mode = false) :
    answer (openExistingHost K fs root (toLoc fs ⟨D ++ [c], []⟩) (flags &&& ~~~O_CREAT)) =
      (if has flags O_PATH then .ok () else may fs st (openMask flags) true).bind fun _ =>
        (answer (hfsOpenat nt d c (hostFlags flags) 0 0 0 true)).bind fun o =>
          if o.reparse then .error .ELOOP
          else if isSpecial o.st.kind = true ∧ has flags O_PATH = false then .error Errno.ENXIO
          else answer (newHostFile K o flags (fs.table.mountOf (render D)) (render (D ++ [c]))) := by
  have hopenat : K.store.openat = hfsOpenat nt := by rw [hK]; rfl
  have habs : (toLoc fs ⟨D ++ [c], []⟩).abs = render (D ++ [c]) := rfl
  have hm : (toLoc fs ⟨D ++ [c], []⟩).m = fs.table.mountOf (render D) := hmount
  have hrel' : (toLoc fs ⟨D ++ [c], []⟩).rel ≠ [] := by
    change pathRel (fs.table.mountOf (render (D ++ [c]))) (render (D ++ [c])) ≠ []
    rw [hmount]
    exact hrel
  have hflags : existingFlags st (flags &&& ~~~O_CREAT) = hostFlags flags := by
    rw [existingFlags, hostFlags_dropCreat, hlnk, hndir]
    rfl
  have hnew : ∀ o, newHostFile K o (flags &&& ~~~O_CREAT) (fs.table.mountOf (render D))
      (render (D ++ [c])) = newHostFile K o flags (fs.table.mountOf (render D)) (render (D ++ [c])) := by
    intro o
    rw [newHostFile, newHostFile, keptFlags_dropCreat]
  rw [openExistingHost, answer_bind, habs, hst]
  change answer _ = _
  rw [answer_bind, answer_liftExcept, checkExisting_dropCreat, checkExisting_file hdir hlnk hndir]
  congr 1
  funext _
  rw [answer_bind, openResolved, if_neg hrel', habs, hm, pathParent_render_snoc _ hc.slash_not_mem,
    lastName_render_snoc _ hc.slash_not_mem, answer_bind, hopened]
  change (answer (closing (K.store.close d) (K.store.openat d c (existingFlags st (flags &&& ~~~O_CREAT))
    0 0 0 true))).bind _ = _
  rw [answer_closing, hopenat, hflags]
  congr 1
  funext o
  rw [hnew, has_dropCreat (by decide)]
  split_ifs <;> rfl

omit hnt hexcl hdir in
theorem openCreate_answer {loc : VfsLoc η} {root d : η}
    (hopened : answer (openHostDir K.store root loc.m loc.abs) = .ok d) (mode : UInt32) :
    answer (openCreate K fs root loc flags mode) =
      (answer (hfsOpenat nt d loc.last (createFlags flags) (mode &&& 0o7777 &&& ~~~fs.umask) fs.euid
        fs.egid true)).bind fun o => answer (createdOrLink K loc flags o) := by
  have hopenat : K.store.openat = hfsOpenat nt := by rw [hK]; rfl
  rw [openCreate, answer_bind, hopened]
  change answer _ = _
  rw [answer_bind, answer_closing, hopenat]

omit hnt hK hexcl hdir in
theorem may_answers (fs : FsCtx η) (st : KStat) (mask : UInt32) (effective : Bool) :
    may fs st mask effective = .ok () ∨ may fs st mask effective = .error .EACCES := by
  unfold may
  dsimp only
  split_ifs <;> simp

/-- At the end of the links: an ordinary file that the permissions would let a plain open have is
opened as by one. -/
theorem openCreate_eq_existing {D : List Bytes} {c : Bytes} (hD : ValidNames D) (hc : ValidName c)
    (hjoin : pathJoin PATH_MAX (render D) c = .ok (render (D ++ [c])))
    (hfree : Uncrossed fs.table D c) (hroots : RootsAreDirs K.store fs.table) {root d h : η}
    {w : List UInt16} {i : NtInfo} (ho : HostObject nt K (toLoc fs ⟨D, c⟩) root d w h i)
    (hfile : i.directory = false) (hspecial : isSpecial i.kind = false)
    (hopens : answer (nt.createFile d w (accessOf (hostFlags flags))
      (if has flags O_TRUNC then .overwrite else .open) plainOptions) ≠
        .error .ioReparseTagNotHandled)
    {st : KStat} (hst : answer (statAbs K fs (render (D ++ [c]))) = .ok st)
    (hlnk : isLnk st.mode = false) (hndir : isDir st.mode = false)
    (hmay : has flags O_PATH = true ∨ may fs st (openMask flags) true = .ok () ∨
      answer (K.store.openat d c (hostFlags flags) 0 0 0 true) = .error .EACCES)
    (mode : UInt32) (go : Bytes → Except Errno (OpenFile η)) :
    ((answer (openCreate K fs root (toLoc fs ⟨D, c⟩) flags mode)).bind fun r => match r with
      | .inl f => .ok f
      | .inr t => go t) =
      answer (openExistingHost K fs root (toLoc fs ⟨D ++ [c], []⟩) (flags &&& ~~~O_CREAT)) := by
  have hopenat : K.store.openat = hfsOpenat nt := by rw [hK]; rfl
  obtain ⟨hrel, rfl⟩ := statAbs_self hK hD hc hfree hroots ho hst hndir
  have hmount := mountOf_snoc hD hc hfree
  have hlx : i.kind ≠ .lxlink ∧ i.kind ≠ .winlink := by
    constructor <;> intro hk <;>
      rw [isLnk_kstatOf _ _ (by rw [show (statOf i).kind = i.kind from rfl, hk]; rfl)] at hlnk <;> cases hlnk
  have hnd : i.kind ≠ .dir := by
    intro hk
    rw [isDir_kstatOf _ _ hk] at hndir
    cases hndir
  rw [openCreate_answer hK ho.dir, openExistingHost_answer hK hdir hc hmount ho.dir hrel hst hlnk hndir,
    hfsOpenat_same hnt hexcl hdir ho hfile hlx.2 _ _ _ hopens]
  change ((answer (hfsOpenat nt d c (hostFlags flags) 0 0 0 true)).bind _).bind _ = _
  rw [hopenat] at hmay
  cases hopen : answer (hfsOpenat nt d c (hostFlags flags) 0 0 0 true) with
  | error e =>
      rw [hopen] at hmay
      change Except.error e = _
      rcases hmay with hpath | hgrant | hdenied
      · rw [hpath]
        rfl
      · rw [hgrant, ite_self]
        rfl
      · cases hdenied
        rcases may_answers fs (kstatOf (fs.table.mountOf (render D)) (statOf i) (some c))
          (openMask flags) true with hgrant | hdeny
        · rw [hgrant, ite_self]
          rfl
        · rw [hdeny]
          split_ifs <;> rfl
  | ok o =>
      rw [hopen] at hmay
      have hgrant : (if has flags O_PATH then Except.ok () else
          may fs (kstatOf (fs.table.mountOf (render D)) (statOf i) (some c)) (openMask flags) true) =
            .ok () := by
        rcases hmay with hpath | hgrant | hdenied
        · rw [hpath]
          rfl
        · rw [hgrant, ite_self]
        · cases hdenied
      obtain ⟨hreparse, hkind⟩ := hfsOpenat_opened hnt hexcl hdir ho hlx.1 hlx.2 hopens hopen
      have hfresh : createdOrLink K (toLoc fs ⟨D, c⟩) flags o =
          newHostFile K o flags (fs.table.mountOf (render D)) (render (D ++ [c])) >>=
            fun f => pure (.inl f) := by
        have hpath : ((pathJoin PATH_MAX (toLoc fs ⟨D, c⟩).abs (toLoc fs ⟨D, c⟩).last).toOption.getD
            []) = render (D ++ [c]) := by
          change ((pathJoin PATH_MAX (render D) c).toOption.getD []) = _
          rw [hjoin]
          rfl
        rw [createdOrLink, hreparse, if_neg Bool.false_ne_true, hkind, if_neg hnd, hpath]
        rfl
      rw [hgrant]
      change (answer (createdOrLink K (toLoc fs ⟨D, c⟩) flags o)).bind _ = _
      rw [hfresh, answer_bind]
      change _ = if o.reparse then _ else _
      rw [hreparse, hkind, hspecial]
      change _ = answer (newHostFile K o flags (fs.table.mountOf (render D)) (render (D ++ [c])))
      cases answer (newHostFile K o flags (fs.table.mountOf (render D)) (render (D ++ [c]))) <;> rfl

omit hnt hK hexcl hdir in
/-- Where the last name is no link, asking for a link itself comes to the same object. -/
theorem walkPath_nofollow (hnul : LinksAreText K fs) {base : Option Bytes}
    (hbase : Canonical (base.getD fs.cwd)) {p : Bytes} {fin obj : VfsLoc η}
    (hlead : Leads K fs base p [] fin) (h : answer (walkPath K fs base p 0) = .ok obj) :
    answer (walkPath K fs base p W_NOFOLLOW) = .ok obj := by
  cases hlead with
  | name hloc hcand hst hlnk =>
      obtain ⟨D, c, used, a, rfl, hDv, hc, hleft⟩ := walkPath_parent hnul hbase hloc
      obtain ⟨rfl, _⟩ := pathJoin_ok hDv hcand
      rw [walkPath_answer hnul hbase] at h ⊢
      cases hres : resolvePath (hostTree K fs) bufferLimits (requestOf 0 (hasTrailing (cstr p)))
          (namesOf (base.getD fs.cwd)) (cstr p) with
      | error e => rw [hres] at h; cases h
      | ok f =>
          rw [hres] at h
          have hfound := hres
          rw [resolvePath_ok hres] at hfound
          rw [resolvePath_ok hres]
          have hused : used ≤ 40 := by
            by_contra hused
            rw [hleft.tooFew _ rfl 40 (by omega)] at hfound
            cases hfound
          rw [hleft.enough _ rfl 40 hused] at hfound ⊢
          obtain ⟨_, _, hsame⟩ := resolve_name rfl hleft.stops hst hfound hlnk
          rw [hsame (requestOf W_NOFOLLOW (hasTrailing (cstr p))) rfl rfl]
          exact h

end Creating

/-- When a creating open of a path to an object with this stat passes the checks that the plain
open makes: no directory is demanded; the links in the last place are LX links on the host, and
there are none if the object itself is asked for; at their end is an ordinary file on the host,
which is opened by no filter; and the permissions grant the access, or the host denies it. -/
def OpensAlike (nt : Nt η Unit) (K : Kernel η Unit) (fs : FsCtx η) (base : Option Bytes) (p : Bytes)
    (flags : UInt32) (st : KStat) : Prop :=
  has flags O_DIRECTORY = false ∧ ∃ ls fin, Leads K fs base p ls fin ∧
    (has flags O_NOFOLLOW = true → ls = []) ∧
    (∀ l ∈ ls, ∃ root d w h i, HostObject nt K l root d w h i ∧ i.kind = .lxlink) ∧
    ∃ root d w h i, HostObject nt K fin root d w h i ∧ i.directory = false ∧
      isSpecial i.kind = false ∧
      answer (nt.createFile d w (accessOf (hostFlags flags))
        (if has flags O_TRUNC then .overwrite else .open) plainOptions) ≠
          .error .ioReparseTagNotHandled ∧
      (has flags O_PATH = true ∨ may fs st (openMask flags) true = .ok () ∨
        answer (K.store.openat d fin.last (hostFlags flags) 0 0 0 true) = .error .EACCES)

end Host

/-- A host that holds one regular file `f` and never changes; the handle of the file is `true`. -/
def oneFileNt : Nt Bool Unit where
  createFile d w _ disp o :=
    if w = [] then
      if d = false ∧ o.nonDirectoryFile = true then throw .fileIsADirectory else pure d
    else if d = false ∧ w = [0x66] then
      match disp with
      | .create _ => throw .objectNameCollision
      | _ => pure true
    else throw .objectNameNotFound
  queryStat h := pure { fileAttributes := if h then 0x80 else 0x10 }
  close _ := pure ()

def oneFileKernel : Kernel Bool Unit where
  store := oneFileNt.store HostStore.idle
  proc := { fds := fun _ => none, exe := [], maps := [] }
  stack := []

def oneFileCtx : FsCtx Bool := FsCtx.initial false 1 true

theorem oneFile_existing : oneFileNt.Existing HostStore.idle where
  file d w h i hopen hinfo hfile _ a ea := by
    have hd : ¬ (d = false ∧ w = []) := by
      rintro ⟨rfl, rfl⟩
      cases hopen
      cases hinfo
      cases hfile
    unfold oneFileNt
    dsimp only
    split_ifs <;> simp_all
  link d w h i hopen hinfo hkind a ea := by
    cases hinfo
    cases h <;> cases hkind
  kind d w h i hopen hinfo hlx hwin a disp k i' hk hi' := by
    have hsame : k = h := by
      unfold oneFileNt at hopen hk
      dsimp only at hopen hk
      split_ifs at hopen hk with hw
      all_goals first
        | (cases hopen; cases hk; rfl)
        | (cases hopen; cases disp <;> cases hk <;> rfl)
        | cases hopen
    subst hsame
    cases hinfo
    cases hi'
    rfl
  readlink _ _ _ _ _ _ _ _ := rfl

theorem oneFile_roots : RootsAreDirs oneFileKernel.store oneFileCtx.table := by
  intro m hm root htype x hs h
  rcases List.mem_cons.mp hm with rfl | hm
  · cases htype
    cases h
    rfl
  rcases List.mem_cons.mp hm with rfl | hm
  · cases htype
  rcases List.mem_cons.mp hm with rfl | hm
  · cases htype
  cases hm

theorem devfsReadlink_text {rel t : Bytes} (h : answer (devfsReadlink rel) = .ok t) : 0 ∉ t := by
  have htable : ∀ d ∈ devnodes, ∀ t ∈ d.link, 0 ∉ t := by decide
  rw [devfsReadlink, devFind] at h
  cases hfind : devnodes.zipIdx.find? fun d => d.1.name = rel with
  | none => rw [hfind] at h; cases h
  | some d =>
      rw [hfind] at h
      have hmem : d.1 ∈ devnodes := (List.mem_zipIdx' (List.mem_of_find?_eq_some hfind)).2 ▸
        List.getElem_mem _
      dsimp only [Option.map_some] at h
      cases hlink : d.1.link with
      | none => rw [hlink] at h; cases h
      | some target =>
          rw [hlink] at h
          cases h
          exact htable d.1 hmem _ hlink

theorem oneFile_links : LinksAreText oneFileKernel oneFileCtx := by
  intro abs t h
  rw [readlinkAbs] at h
  split at h
  · rw [procfsReadlink] at h
    split at h
    · cases h
    · cases h
      decide
    · cases h
      decide
    · cases h
      decide
    · cases h
    · cases h
  · exact devfsReadlink_text h
  · split_ifs at h
    · cases h
    · rw [answer_bind] at h
      cases hd : answer (openHostDir oneFileKernel.store _ (oneFileCtx.table.mountOf abs)
          (pathParent abs)) with
      | error e => rw [hd] at h; cases h
      | ok d =>
          rw [hd] at h
          change answer _ = _ at h
          rw [answer_bind, answer_closing] at h
          cases ho : answer (oneFileKernel.store.openat d (lastName abs)
              (HFS_O_READ ||| HFS_O_REPARSE) 0 0 0 false) with
          | error e => rw [ho] at h; cases h
          | ok o => rw [ho] at h; cases h

end SysvNt
