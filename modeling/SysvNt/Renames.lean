import SysvNt.CreateExclusive
import SysvNt.MountCrossing
import SysvNt.TreeHosts

/-!
# Renaming

`rename(2)` over the tree of a host mount. Two resolved paths are entries of the tree, and
`vfs_rename` compares the paths where the promises are about the entries. In a tree that is the same
for directories. It is not for the files, which may have several names, and the comparison comes
before the test for a target that must not be replaced.
-/

namespace SysvNt

open FallibleCalls NameTrees StateCalls

variable {η σ ι : Type}

/-- What `rename(2)` promises of a call on the entries `(d, on)` and `(e, nn)`. -/
structure Lawful (kind : ι → HfsKind) (T T' : Names ι Bytes) (flags : UInt32) (d : ι) (on : Bytes) (e : ι)
    (nn : Bytes) (r : Except Errno Unit) : Prop where
  noreplace : has flags RENAME_NOREPLACE = true → ∀ j, T e nn = some j → r ≠ .ok ()
  links : flags = 0 → ∀ i, T d on = some i → T e nn = some i → r = .ok () ∧ T' = T
  acyclic : Acyclic T'
  kinds : r = .ok () → ∀ i j, T d on = some i → T e nn = some j → (kind i = .dir ↔ kind j = .dir)
  moved : r = .ok () → ∃ i, T d on = some i ∧ (T e nn ≠ some i → T' e nn = some i ∧ T' d on = none ∧
    ∀ c k, (c, k) ≠ (d, on) → (c, k) ≠ (e, nn) → T' c k = T c k)

/-- The calls that `vfs_rename` answers as promised: not of a name that must not be replaced by
itself, and not of one name of a file over another. -/
def Distinct (T : Names ι Bytes) (flags : UInt32) (d : ι) (on : Bytes) (e : ι) (nn : Bytes) : Prop :=
  ¬ (flags = RENAME_NOREPLACE ∧ (d, on) = (e, nn) ∧ ∃ i, T d on = some i) ∧
    ¬ (flags = 0 ∧ (d, on) ≠ (e, nn) ∧ ∃ i, T d on = some i ∧ T e nn = some i)

/-- `hfs_rename` moves the name or leaves every name as it was. -/
structure TreeView.Renames [DecidableEq ι] (V : TreeView η σ ι) (H : HostStore η σ) : Prop where
  moves : ∀ x od on nd nn nr x', (H.rename od on nd nn nr).run x = (.ok (), x') →
    ∃ i, V.names x (V.obj od) on = some i ∧ V.names x' = move (V.names x) (V.obj od) on (V.obj nd) nn i
  refuses : ∀ x od on nd nn nr e x', (H.rename od on nd nn nr).run x = (.error e, x') → V.names x' = V.names x

/-- A resolved parent leads to a directory of the tree, and its last name is no mount point. -/
structure EntryIn (fs : FsCtx η) (V : TreeView η σ ι) (T : Names ι Bytes) (loc : VfsLoc η) (root : η) (d : ι) :
    Prop where
  host : loc.m.type = .host root
  free : ∀ cand, pathJoin PATH_MAX loc.abs loc.last = .ok cand → (mountAt fs.table.mounts cand).isSome = false
  short : ShortNames (relComponents (pathRel loc.m loc.abs))
  leads : follow T (V.obj root) (relComponents (pathRel loc.m loc.abs)) = some d
  dir : V.kind d = .dir

/-- The old path of a call resolves to `oloc` and the new one, after it, to `nloc`; both are entries
on one host mount. -/
structure Resolves (K : Kernel η σ) (fs : FsCtx η) (V : TreeView η σ ι) (x : σ) (ob : Option Bytes) (op : Bytes)
    (nb : Option Bytes) (np : Bytes) (oloc nloc : VfsLoc η) (root : η) (d e : ι) : Prop where
  walks : ∃ y z, (busyParent K fs ob op).run x = (.ok oloc, y) ∧ (busyParent K fs nb np).run y = (.ok nloc, z)
  one_mount : nloc.m = oloc.m
  old : EntryIn fs V (V.names x) oloc root d
  new : EntryIn fs V (V.names x) nloc root e

/-- Where an entry is: the names of its mount's point, and those from there to its directory. -/
structure PlacedAt (fs : FsCtx η) (loc : VfsLoc η) (cand : Bytes) (ps ds : List Bytes) : Prop where
  point : loc.m.point = render ps
  abs : loc.abs = render (ps ++ ds)
  cand : cand = render (ps ++ ds ++ [loc.last])
  valid : ValidNames (ps ++ ds ++ [loc.last])
  comps : relComponents (pathRel loc.m loc.abs) = ds
  mount : fs.table.mountOf (render (ps ++ ds ++ [loc.last])) = loc.m

theorem placedAt_of_join {fs : FsCtx η} {loc : VfsLoc η} (hl : GoodLoc fs W_PARENT loc) {cand : Bytes}
    (hj : pathJoin PATH_MAX loc.abs loc.last = .ok cand) (hat : (mountAt fs.table.mounts cand).isSome = false) :
    ∃ ds, PlacedAt fs loc cand (namesOf loc.m.point) ds := by
  obtain ⟨_, hfree⟩ := uncrossed_of_join hl hj hat
  obtain ⟨hv, hrender⟩ := hl.canonical.names
  have hlast := (hl.last_valid (by decide)).1
  have hm := mountOf_mounted fs.table hv
  have hmount := mountOf_snoc hv hlast hfree
  rw [hrender, ← hl.m_eq] at hm hmount
  obtain ⟨ds, hds⟩ := hm.below
  rw [← hrender] at hj
  obtain ⟨hcand, _⟩ := pathJoin_ok hv hj
  rw [← hds] at hv hrender hcand hmount
  refine ⟨ds, hm.point, hrender.symm, hcand, hv.snoc hlast, ?_, hmount⟩
  rw [← hrender, pathRel_render hm.point fun n hn => hv n (List.mem_append_left _ hn),
    relComponents_relText fun n hn => hv n (List.mem_append_right _ hn)]

section Placed

variable {fs : FsCtx η} {V : TreeView η σ ι} {T : Names ι Bytes} {oloc nloc : VfsLoc η} {root : η} {d e : ι}
  {ocand ncand : Bytes} {ps ds es : List Bytes}

/-- Two paths are the same text exactly when they are the same entry. -/
theorem cand_eq_iff (hT : V.Tree root T) (ho : PlacedAt fs oloc ocand ps ds) (hn : PlacedAt fs nloc ncand ps es)
    (hd : V.kind d = .dir) (hds : follow T (V.obj root) ds = some d) (hes : follow T (V.obj root) es = some e) :
    ocand = ncand ↔ (d, oloc.last) = (e, nloc.last) := by
  rw [ho.cand, hn.cand]
  constructor
  · intro h
    have hnames := render_injective ho.valid hn.valid h
    obtain ⟨hdirs, hlasts⟩ := List.append_inj' hnames rfl
    obtain rfl : ds = es := List.append_cancel_left hdirs
    rw [hds] at hes
    rw [Option.some.inj hes, (List.cons.inj hlasts).1]
  · intro h
    obtain ⟨rfl, hlast⟩ := Prod.mk.inj h
    rw [hT.path_unique hd hds hes, hlast]

/-- A path below another has it and a slash for a prefix. -/
theorem slash_prefix_of_below {as rest : List Bytes} (has : as ≠ []) (hrest : rest ≠ []) :
    (render as ++ [slash]).isPrefixOf (render (as ++ rest)) = true := by
  rw [List.isPrefixOf_iff_prefix, render_append has, List.prefix_append_right_inj]
  obtain ⟨n, ns, rfl⟩ := List.exists_cons_of_ne_nil hrest
  exact ⟨n ++ ns.flatMap (slash :: ·), rfl⟩

/-- What passes the check of the two paths does not lead to where it is moved. -/
theorem not_below (hT : V.Tree root T) (ho : PlacedAt fs oloc ocand ps ds) (hn : PlacedAt fs nloc ncand ps es)
    (he : V.kind e = .dir) (hds : follow T (V.obj root) ds = some d) (hes : follow T (V.obj root) es = some e)
    {i : ι} (hi : T d oloc.last = some i)
    (hcheck : V.kind i = .dir → (ocand ++ [slash]).isPrefixOf ncand = false) (qs : List Bytes) :
    follow T i qs ≠ some e := by
  intro hqs
  have hbelow : follow T (V.obj root) (ds ++ oloc.last :: qs) = some e := by
    rw [follow_append, hds]
    change (T d oloc.last).bind _ = some e
    rw [hi]
    exact hqs
  have hnames := hT.path_unique he hes hbelow
  have hdir : V.kind i = .dir := by
    by_contra hdir
    obtain rfl := hT.dir_of_follow hdir hqs
    exact hdir (Option.some.inj hqs ▸ he)
  have hpre := hcheck hdir
  rw [ho.cand, hn.cand, hnames] at hpre
  have hsplit : ps ++ (ds ++ oloc.last :: qs) ++ [nloc.last] = ps ++ ds ++ [oloc.last] ++ (qs ++ [nloc.last]) := by
    simp
  rw [hsplit, slash_prefix_of_below (by simp) (by simp)] at hpre
  cases hpre

end Placed

/-- All that a renaming of two entries comes to. -/
inductive RenameEnd [DecidableEq ι] (kind : ι → HfsKind) (T T' : Names ι Bytes) (flags : UInt32) (d : ι) (on : Bytes)
    (e : ι) (nn : Bytes) : Except Errno Unit → Prop
  | refused (err : Errno) (hT : T' = T)
      (hsame : (d, on) = (e, nn) → flags &&& ~~~RENAME_NOREPLACE = 0 → T d on = none) :
      RenameEnd kind T T' flags d on e nn (.error err)
  | itself (i : ι) (hi : T d on = some i) (hsame : (d, on) = (e, nn)) (hT : T' = T)
      (hflags : flags &&& ~~~RENAME_NOREPLACE = 0) : RenameEnd kind T T' flags d on e nn (.ok ())
  | moved (i : ι) (hi : T d on = some i) (hne : (d, on) ≠ (e, nn)) (hT : T' = move T d on e nn i)
      (hfree : ∀ qs, follow T i qs ≠ some e)
      (hover : ∀ j, T e nn = some j → has flags RENAME_NOREPLACE = false ∧ (kind i = .dir ↔ kind j = .dir)) :
      RenameEnd kind T T' flags d on e nn (.ok ())

theorem noreplace_alone {flags : UInt32} (h : flags &&& ~~~RENAME_NOREPLACE = 0)
    (hnr : has flags RENAME_NOREPLACE = true) : flags = RENAME_NOREPLACE := by
  have hsplit : flags = flags &&& RENAME_NOREPLACE := by
    have hall : (~~~RENAME_NOREPLACE ||| RENAME_NOREPLACE : UInt32) = -1 := by decide
    have hboth : (~~~RENAME_NOREPLACE ||| RENAME_NOREPLACE) &&& flags = flags := by
      rw [hall, UInt32.and_comm, UInt32.and_neg_one]
    rw [or_and, UInt32.and_comm, h, UInt32.zero_or, UInt32.and_comm] at hboth
    exact hboth.symm
  rw [has, decide_eq_true_eq, ← hsplit] at hnr
  have hbit : flags.toNat = flags.toNat % 2 := by
    have hnat := congrArg UInt32.toNat hsplit
    rwa [UInt32.toNat_and, show RENAME_NOREPLACE.toNat = 1 from rfl, Nat.and_one_is_mod] at hnat
  have hpos : flags.toNat ≠ 0 := fun hz => hnr (UInt32.toNat_inj.mp hz)
  refine UInt32.toNat_inj.mp ?_
  change flags.toNat = 1
  omega

theorem RenameEnd.lawful_iff [DecidableEq ι] {kind : ι → HfsKind} {T T' : Names ι Bytes} {flags : UInt32} {d e : ι}
    {on nn : Bytes} {r : Except Errno Unit} (h : RenameEnd kind T T' flags d on e nn r) (hT : Acyclic T) :
    Lawful kind T T' flags d on e nn r ↔ Distinct T flags d on e nn := by
  have hplain : (0 : UInt32) &&& ~~~RENAME_NOREPLACE = 0 := by decide
  have hnr : RENAME_NOREPLACE &&& ~~~RENAME_NOREPLACE = 0 := by decide
  have hset : has RENAME_NOREPLACE RENAME_NOREPLACE = true := by decide
  have hclear : has 0 RENAME_NOREPLACE = false := by decide
  constructor
  · intro hlaw
    refine ⟨?_, ?_⟩
    · rintro ⟨rfl, hsame, i, hi⟩
      obtain ⟨rfl, rfl⟩ := Prod.mk.inj hsame
      cases h with
      | refused err _ hnone => rw [hnone rfl hnr] at hi; cases hi
      | itself => exact hlaw.noreplace hset i hi rfl
      | moved _ _ hne => exact hne rfl
    · rintro ⟨rfl, hne, i, hi, hj⟩
      obtain ⟨rfl, heq⟩ := hlaw.links rfl i hi hj
      cases h with
      | itself _ _ hsame => exact hne hsame
      | moved j _ _ hmove =>
          have hgone := move_old T j hne
          rw [← hmove, heq, hi] at hgone
          cases hgone
  · intro hdistinct
    cases h with
    | refused err hkeep hnone =>
        subst hkeep
        refine ⟨fun _ _ _ h => (by cases h), ?_, hT, fun h => (by cases h), fun h => by cases h⟩
        rintro rfl i hi hj
        by_cases hsame : (d, on) = (e, nn)
        · rw [hnone hsame hplain] at hi
          cases hi
        · exact absurd ⟨rfl, hsame, i, hi, hj⟩ hdistinct.2
    | itself i hi hsame hkeep hflags =>
        subst hkeep
        obtain ⟨rfl, rfl⟩ := Prod.mk.inj hsame
        refine ⟨?_, fun _ _ _ _ => ⟨rfl, rfl⟩, hT, ?_, fun _ => ⟨i, hi, fun h => absurd hi h⟩⟩
        · intro hbit j hj
          exact absurd ⟨noreplace_alone hflags hbit, rfl, j, hj⟩ hdistinct.1
        · intro _ j k hj hk
          rw [Option.some.inj (hj.symm.trans hk)]
    | moved i hi hne hmove hfree hover =>
        subst hmove
        refine ⟨?_, ?_, hT.move hfree, ?_, fun _ => ⟨i, hi, fun _ => ⟨move_new T d on e nn i, move_old T i hne, ?_⟩⟩⟩
        · intro hbit j hj
          rw [(hover j hj).1] at hbit
          cases hbit
        · rintro rfl j hj hk
          exact absurd ⟨rfl, hne, j, hj, hk⟩ hdistinct.2
        · intro _ j k hj hk
          rw [← Option.some.inj (hi.symm.trans hj)]
          exact (hover k hk).2
        · intro c k hold hnew
          exact move_other T i hold hnew

theorem renameCheck_ok {ocand ncand : Bytes} {ost : KStat} {nst : Except Errno KStat} {noreplace : Bool} {u : Unit}
    (h : renameCheck ocand ncand ost nst noreplace = .ok u) :
    (isDir ost.mode = true → (ocand ++ [slash]).isPrefixOf ncand = false) ∧
      ∀ st, nst = .ok st → noreplace = false ∧ isDir ost.mode = isDir st.mode := by
  unfold renameCheck at h
  by_cases hself : isDir ost.mode = true ∧ (ocand ++ [slash]).isPrefixOf ncand = true
  · rw [if_pos hself] at h
    cases h
  rw [if_neg hself] at h
  refine ⟨fun hdir => (Bool.not_eq_true _).mp fun hpre => hself ⟨hdir, hpre⟩, ?_⟩
  rintro st rfl
  dsimp only at h
  split_ifs at h with hbit hdir hfile
  refine ⟨by simpa using hbit, ?_⟩
  cases ho : isDir ost.mode <;> cases hn : isDir st.mode
  · rfl
  · exact absurd ⟨ho, hn⟩ hfile
  · exact absurd ⟨ho, hn⟩ hdir
  · rfl

section Calls

variable {V : TreeView η σ ι} {K : Kernel η σ} (hC : V.Contract K.store) {fs : FsCtx η} {oloc nloc : VfsLoc η}
  {root : η} {d e : ι} {ocand ncand : Bytes} {ps ds es : List Bytes}

include hC

theorem close_names (h : η) (x : σ) : V.names (K.store.close h x).2 = V.names x :=
  (hC.reads (V.names x)).close h x rfl

/-- The parent of an entry opens. -/
theorem EntryIn.enters {T : Names ι Bytes} (hT : V.Tree root T) {loc : VfsLoc η} {cand : Bytes}
    (hl : PlacedAt fs loc cand ps ds) (h : EntryIn fs V T loc root d) {x : σ} (hx : V.names x = T) :
    ∃ k x', (openHostDir K.store root loc.m loc.abs).run x = (.ok k, x') ∧ V.obj k = d ∧ V.names x' = T := by
  have hps : ValidNames ps := fun n hn => hl.valid n (by simp [hn])
  have hds : ValidNames ds := fun n hn => hl.valid n (by simp [hn])
  have hleads := h.leads
  have hshort := h.short
  rw [hl.comps] at hleads hshort
  rw [hl.abs]
  exact openHostDir_enters hC hT hl.point hps hds hshort h.dir hleads hx

theorem EntryIn.says {T : Names ι Bytes} (hT : V.Tree root T) {loc : VfsLoc η} {cand : Bytes}
    (hl : PlacedAt fs loc cand ps ds) (h : EntryIn fs V T loc root d) {x : σ} (hx : V.names x = T) :
    ∃ r x', (statAbs K fs cand).run x = (r, x') ∧ StatSays V T (T d loc.last) r x' := by
  have hleads := h.leads
  have hshort := h.short
  rw [hl.comps] at hleads hshort
  rw [hl.cand]
  exact statAbs_says hC hT rfl hl.mount h.host hl.point hl.valid hshort h.dir hleads hx

/-- A parent walk of `vfs_rename` changes no names, and what it resolves to fits its buffer. -/
theorem busyParent_names {base : Option Bytes} (hbase : Canonical (base.getD fs.cwd)) {p : Bytes} {x x' : σ}
    (hfits : JoinFits K fs base p x) {loc : VfsLoc η} (h : (busyParent K fs base p).run x = (.ok loc, x')) :
    V.names x' = V.names x ∧ GoodLoc fs W_PARENT loc ∧ ∃ cand, pathJoin PATH_MAX loc.abs loc.last = .ok cand := by
  have hkeep := busyParent_keeps (hC.reads (V.names x)) (seated_anywhere fs.table) hbase rfl hfits
  rw [KeepsAt, h] at hkeep
  exact ⟨hkeep.1, hkeep.2 loc rfl⟩

/-- An opened parent is an entry's. -/
theorem entry_of_opened {T : Names ι Bytes} (hlinks : ∀ d n i, T d n = some i → V.kind i ≠ .winlink)
    {loc : VfsLoc η} (hroot : loc.m.type = .host root) {cand : Bytes}
    (hj : pathJoin PATH_MAX loc.abs loc.last = .ok cand) (hat : (mountAt fs.table.mounts cand).isSome = false)
    {x x' : σ} (hx : V.names x = T) {k : η} (h : (openHostDir K.store root loc.m loc.abs).run x = (.ok k, x')) :
    EntryIn fs V T loc root (V.obj k) := by
  obtain ⟨hleads, hshort, hdir⟩ := openHostDir_entered hC hlinks hx h
  refine ⟨hroot, ?_, hshort, hleads, hdir⟩
  rintro cand' hj'
  obtain rfl := Except.ok.inj (hj.symm.trans hj')
  exact hat

omit hC in
/-- Where `stat_abs` answers of a name, its parent has been opened. -/
theorem opened_of_stat {loc : VfsLoc η} (hl : PlacedAt fs loc ocand ps ds) (hroot : loc.m.type = .host root)
    {x x' : σ} {st : KStat} (h : (statAbs K fs ocand).run x = (.ok st, x')) :
    ∃ k y, (openHostDir K.store root loc.m loc.abs).run x = (.ok k, y) := by
  have hlast : ValidName loc.last := hl.valid loc.last (by simp)
  rw [hl.cand, statAbs, hl.mount, hroot] at h
  dsimp only at h
  rw [if_neg (pathRel_below_ne hl.point hl.valid), pathParent_render_snoc _ hlast.slash_not_mem] at h
  obtain ⟨k, y, hopen, _⟩ := of_run_bind h
  rw [← hl.abs] at hopen
  exact ⟨k, y, hopen⟩

variable [DecidableEq ι] (hR : V.Renames K.store)

include hR

theorem renameOnHost_end {T : Names ι Bytes} (hT : V.Tree root T) (ho : PlacedAt fs oloc ocand ps ds)
    (hn : PlacedAt fs nloc ncand ps es) (hod : EntryIn fs V T oloc root d) (hnd : EntryIn fs V T nloc root e)
    {noreplace : Bool} {nst : Except Errno KStat} {x x' : σ} (hx : V.names x = T) {r : Except Errno Unit}
    (h : (renameOnHost K root root oloc nloc noreplace nst).run x = (r, x')) :
    (r = .ok () ∧ ∃ i, T d oloc.last = some i ∧ V.names x' = move T d oloc.last e nloc.last i) ∨
      ∃ err, r = .error err ∧ V.names x' = T := by
  obtain ⟨od, y, hopen, rfl, hy⟩ := hod.enters hC hT ho hx
  obtain ⟨nd, z, hopen', rfl, hz⟩ := hnd.enters hC hT hn hy
  rw [renameOnHost, run_bind, hopen] at h
  dsimp only at h
  rw [run_bind, run_attempt, hopen'] at h
  dsimp only at h
  rw [run_bind, run_closing, run_closing, run_attempt] at h
  cases hrun : (K.store.rename od oloc.last nd nloc.last noreplace).run z with
  | mk r w =>
      rw [hrun] at h
      cases r with
      | ok u =>
          cases h
          obtain ⟨i, hi, hmove⟩ := hR.moves z od oloc.last nd nloc.last noreplace w hrun
          rw [hz] at hi hmove
          exact .inl ⟨rfl, i, hi, by rw [close_names hC, close_names hC, hmove]⟩
      | error err =>
          cases h
          have hkeep := hR.refuses z od oloc.last nd nloc.last noreplace err w hrun
          exact .inr ⟨_, rfl, by rw [close_names hC, close_names hC, hkeep, hz]⟩

variable {ob nb : Option Bytes} (hob : Canonical (ob.getD fs.cwd)) (hnb : Canonical (nb.getD fs.cwd))
  {op np : Bytes} {x : σ} (hofits : JoinFits K fs ob op x)
  (hnfits : ∀ oloc y, (busyParent K fs ob op).run x = (.ok oloc, y) → JoinFits K fs nb np y)

include hob hnb hofits hnfits

/-- What a renaming of two entries comes to. -/
theorem vfsRename_end (hT : V.Tree root (V.names x)) (h : Resolves K fs V x ob op nb np oloc nloc root d e)
    {flags : UInt32} {x' : σ} {r : Except Errno Unit}
    (hrun : (vfsRename K fs ob op nb np flags).run x = (r, x')) :
    RenameEnd V.kind (V.names x) (V.names x') flags d oloc.last e nloc.last r := by
  rw [vfsRename] at hrun
  by_cases hflags : flags &&& ~~~RENAME_NOREPLACE = 0
  swap
  · rw [if_pos hflags] at hrun
    cases hrun
    exact .refused _ rfl fun _ hzero => absurd hzero hflags
  rw [if_neg (not_not_intro hflags)] at hrun
  obtain ⟨y, z, howalk, hnwalk⟩ := h.walks
  obtain ⟨hy, ho, ocand, hoj⟩ := busyParent_names hC hob hofits howalk
  obtain ⟨hz, hn, ncand, hnj⟩ := busyParent_names hC hnb (hnfits oloc y howalk) hnwalk
  obtain ⟨ds, hop⟩ := placedAt_of_join ho hoj (h.old.free ocand hoj)
  obtain ⟨es, hnp⟩ := placedAt_of_join hn hnj (h.new.free ncand hnj)
  have hncomps := hnp.comps
  rw [h.one_mount] at hnp
  have holast := (ho.last_valid (by decide)).1
  have hnlast := (hn.last_valid (by decide)).1
  have hdots : ¬ (oloc.last = dot ∨ oloc.last = dotdot ∨ nloc.last = dot ∨ nloc.last = dotdot) := by
    rintro (hl | hl | hl | hl)
    · exact holast.ne_dot hl
    · exact holast.ne_dotdot hl
    · exact hnlast.ne_dot hl
    · exact hnlast.ne_dotdot hl
  have hat : ¬ ((mountAt fs.table.mounts ocand).isSome = true ∨ (mountAt fs.table.mounts ncand).isSome = true) := by
    rw [h.old.free ocand hoj, h.new.free ncand hnj]
    simp
  have hpoint : oloc.m.point = nloc.m.point := by rw [h.one_mount]
  rw [run_bind, howalk] at hrun
  dsimp only at hrun
  rw [run_bind, hnwalk] at hrun
  dsimp only at hrun
  rw [h.old.host, h.new.host] at hrun
  dsimp only at hrun
  rw [if_neg (not_not_intro hpoint), if_neg hdots, joinUnchecked, hoj, joinUnchecked, hnj] at hrun
  dsimp only at hrun
  rw [if_neg hat] at hrun
  obtain ⟨ost, u, hostat, hosays⟩ := h.old.says hC hT hop (hz.trans hy)
  obtain ⟨nst, v, hnstat, hnsays⟩ := h.new.says hC hT hnp hosays.names
  rw [run_bind, hostat] at hrun
  cases hi : V.names x d oloc.last with
  | none =>
      obtain ⟨err, rfl⟩ := hosays.error hi
      cases hrun
      exact .refused err hosays.names fun _ _ => hi
  | some i =>
      obtain ⟨st, rfl, hidir⟩ := hosays.ok i hi
      dsimp only at hrun
      rw [run_bind, run_attempt, hnstat] at hrun
      dsimp only at hrun
      have hleads := h.old.leads
      have hleads' := h.new.leads
      rw [hop.comps] at hleads
      rw [hncomps] at hleads'
      have hsame := cand_eq_iff hT hop hnp h.old.dir hleads hleads'
      by_cases hcand : ocand = ncand
      · rw [if_pos hcand] at hrun
        cases hrun
        exact .itself i hi (hsame.mp hcand) hnsays.names hflags
      have hne : (d, oloc.last) ≠ (e, nloc.last) := fun he => hcand (hsame.mpr he)
      rw [if_neg hcand, run_bind] at hrun
      cases hcheck : renameCheck ocand ncand st nst (has flags RENAME_NOREPLACE) with
      | error err =>
          rw [hcheck] at hrun
          cases hrun
          exact .refused err hnsays.names fun he => absurd he hne
      | ok _ =>
          rw [hcheck] at hrun
          obtain ⟨hself, hover⟩ := renameCheck_ok hcheck
          rcases renameOnHost_end hC hR hT hop hnp h.old h.new hnsays.names hrun with ⟨rfl, k, hk, hmove⟩ | ⟨err, rfl, hkeep⟩
          · obtain rfl : i = k := Option.some.inj (hi.symm.trans hk)
            refine .moved i hi hne hmove ?_ fun j hj => ?_
            · exact not_below hT hop hnp h.new.dir hleads hleads' hi fun hdir => hself (hidir.mpr hdir)
            · obtain ⟨nst, rfl, hjdir⟩ := hnsays.ok j hj
              obtain ⟨hbit, hkinds⟩ := hover nst rfl
              exact ⟨hbit, by rw [← hidir, ← hjdir, hkinds]⟩
          · exact .refused err hkeep fun he => absurd he hne

omit hob hnb hofits hnfits in
theorem renameOnHost_ends (T : Names ι Bytes) (oroot nroot : η) (oloc nloc : VfsLoc η) (noreplace : Bool)
    (nst : Except Errno KStat) : Ends (fun y => V.names y = T)
      (renameOnHost K oroot nroot oloc nloc noreplace nst) (fun _ _ => True) (fun y => V.names y = T) := by
  have hG := hC.reads T
  rw [renameOnHost]
  refine (openHostDir_reads hG oroot oloc.m oloc.abs).bind_ends fun od _ => ?_
  refine (openHostDir_reads hG nroot nloc.m nloc.abs).attempt.bind_ends fun r _ => ?_
  cases r with
  | error e =>
      exact Ends.closing (Q := fun _ _ => True) (Ends.throw fun y hy => hy) (fun _ _ h => h) (hG.close od)
  | ok nd =>
      have hmove : Ends (fun y => V.names y = T) (K.store.rename od oloc.last nd nloc.last noreplace)
          (fun _ _ => True) (fun y => V.names y = T) := fun y hy =>
        ⟨fun _ _ _ => trivial, fun e z hz => (hR.refuses y od oloc.last nd nloc.last noreplace e z hz).trans hy⟩
      have hmoved : Ends (fun y => V.names y = T) (attempt (K.store.rename od oloc.last nd nloc.last noreplace))
          (fun r y => r = .ok () ∨ V.names y = T) (fun y => V.names y = T) := by
        refine hmove.attempt.mono (fun _ hy => hy) ?_ fun _ hy => hy
        rintro r y (⟨a, hok, _⟩ | ⟨_, hy⟩)
        · exact .inl hok
        · exact .inr hy
      have hclosed : ∀ (h : η) (m : Call Errno σ (Except Errno Unit)),
          Ends (fun y => V.names y = T) m (fun r y => r = .ok () ∨ V.names y = T) (fun y => V.names y = T) →
          Ends (fun y => V.names y = T) (closing (K.store.close h) m) (fun r y => r = .ok () ∨ V.names y = T)
            (fun y => V.names y = T) :=
        fun h m hm => hm.closing (fun r y => Or.imp_right (hG.close h y)) (hG.close h)
      refine (hclosed nd _ (hclosed od _ hmoved)).bind fun r => ?_
      cases r with
      | ok u => exact Ends.pure fun _ _ => trivial
      | error e => exact Ends.throw fun y hy => hy.resolve_left fun h => by cases h

/-- A failing call leaves every name. -/
theorem vfsRename_ends (flags : UInt32) : Ends (· = x) (vfsRename K fs ob op nb np flags) (fun _ _ => True)
    (fun y => V.names y = V.names x) := by
  have hG := hC.reads (V.names x)
  have hS := seated_anywhere fs.table
  rw [vfsRename]
  by_cases hflags : flags &&& ~~~RENAME_NOREPLACE = 0
  swap
  · rw [if_pos hflags]
    exact Ends.throw fun y hy => by rw [hy]
  rw [if_neg (not_not_intro hflags)]
  refine (KeepsAt.ends_at (busyParent_keeps hG hS hob rfl hofits)).bind fun oloc => ?_
  rintro y ⟨howalk, ⟨ho, ocand, hoj⟩, hy⟩
  refine ((KeepsAt.ends_at (busyParent_keeps hG hS hnb hy (hnfits oloc y howalk))).bind fun nloc => ?_) y rfl
  rintro z ⟨_, ⟨hn, ncand, hnj⟩, hz⟩
  refine (?_ : Ends (fun y => V.names y = V.names x) _ _ _) z hz
  have hfail : ∀ {α : Type} {Q : α → σ → Prop} (err : Errno), Ends (fun y => V.names y = V.names x)
      (throw err : Call Errno σ α) Q (fun y => V.names y = V.names x) := fun err => Ends.throw fun y hy => hy
  cases hotype : oloc.m.type with
  | proc => exact hfail _
  | dev => exact hfail _
  | host oroot =>
      cases hntype : nloc.m.type with
      | proc => exact hfail _
      | dev => exact hfail _
      | host nroot =>
          dsimp only
          rw [joinUnchecked, hoj, joinUnchecked, hnj]
          dsimp only
          have hoc := ho.canonical.pathJoin (ho.last_valid (by decide)).1 hoj
          have hnc := hn.canonical.pathJoin (hn.last_valid (by decide)).1 hnj
          split_ifs
          · exact hfail _
          · exact hfail _
          · exact hfail _
          · refine (statAbs_keeps hG hS hoc).bind_ends fun ost _ => ?_
            exact (statAbs_keeps hG hS hnc).attempt.bind_ends fun nst _ => Ends.pure fun _ _ => trivial
          · refine (statAbs_keeps hG hS hoc).bind_ends fun ost _ => ?_
            refine (statAbs_keeps hG hS hnc).attempt.bind_ends fun nst _ => ?_
            exact (Keeps.liftExcept _).bind_ends fun _ _ => renameOnHost_ends hC hR _ oroot nroot oloc nloc _ nst

omit hR [DecidableEq ι] in
/-- Without Windows links on its way a renaming that succeeds is of two entries. -/
theorem vfsRename_resolves {flags : UInt32} {x' : σ} (hlinks : ∀ d n i, V.names x d n = some i → V.kind i ≠ .winlink)
    (hrun : (vfsRename K fs ob op nb np flags).run x = (.ok (), x')) :
    ∃ oloc nloc root d e, Resolves K fs V x ob op nb np oloc nloc root d e := by
  have hG := hC.reads (V.names x)
  have hS := seated_anywhere fs.table
  rw [vfsRename] at hrun
  by_cases hflags : flags &&& ~~~RENAME_NOREPLACE = 0
  swap
  · rw [if_pos hflags] at hrun
    cases hrun
  rw [if_neg (not_not_intro hflags)] at hrun
  obtain ⟨oloc, y, howalk, hrun⟩ := of_run_bind hrun
  obtain ⟨nloc, z, hnwalk, hrun⟩ := of_run_bind hrun
  obtain ⟨hy, ho, ocand, hoj⟩ := busyParent_names hC hob hofits howalk
  obtain ⟨hz, hn, ncand, hnj⟩ := busyParent_names hC hnb (hnfits oloc y howalk) hnwalk
  cases hotype : oloc.m.type with
  | proc => rw [hotype] at hrun; cases hrun
  | dev => rw [hotype] at hrun; cases hrun
  | host oroot =>
      cases hntype : nloc.m.type with
      | proc => rw [hotype, hntype] at hrun; cases hrun
      | dev => rw [hotype, hntype] at hrun; cases hrun
      | host nroot =>
          rw [hotype, hntype] at hrun
          dsimp only at hrun
          rw [joinUnchecked, hoj, joinUnchecked, hnj] at hrun
          dsimp only at hrun
          by_cases hpoint : oloc.m.point = nloc.m.point
          swap
          · rw [if_pos hpoint] at hrun
            cases hrun
          have hmount : nloc.m = oloc.m := by
            obtain ⟨hov, horender⟩ := ho.canonical.names
            obtain ⟨hnv, hnrender⟩ := hn.canonical.names
            rw [ho.m_eq, hn.m_eq, ← horender, ← hnrender] at hpoint ⊢
            exact mountOf_point_inj hnv hov hpoint.symm
          obtain rfl : oroot = nroot := by
            rw [hmount, hotype] at hntype
            exact MountType.host.inj hntype
          rw [if_neg (not_not_intro hpoint)] at hrun
          split_ifs at hrun with hdots hat hcand
          · cases hrun
          · cases hrun
          · rw [not_or, Bool.not_eq_true, Bool.not_eq_true] at hat
            obtain ⟨ds, hop⟩ := placedAt_of_join ho hoj hat.1
            obtain ⟨es, hnp⟩ := placedAt_of_join hn hnj hat.2
            obtain ⟨ost, u, hstat, _⟩ := of_run_bind hrun
            obtain ⟨od, _, hopen⟩ := opened_of_stat hop hotype hstat
            rw [hcand] at hstat
            obtain ⟨nd, _, hopen'⟩ := opened_of_stat hnp hntype hstat
            exact ⟨oloc, nloc, oroot, V.obj od, V.obj nd, ⟨y, z, howalk, hnwalk⟩, hmount,
              entry_of_opened hC hlinks hotype hoj hat.1 (hz.trans hy) hopen,
              entry_of_opened hC hlinks hntype hnj hat.2 (hz.trans hy) hopen'⟩
          · rw [not_or, Bool.not_eq_true, Bool.not_eq_true] at hat
            have hoc := ho.canonical.pathJoin (ho.last_valid (by decide)).1 hoj
            have hnc := hn.canonical.pathJoin (hn.last_valid (by decide)).1 hnj
            obtain ⟨ost, u, hostat, hrun⟩ := of_run_bind hrun
            have hu := (statAbs_keeps hG hS hoc).of_run (hz.trans hy) hostat
            obtain ⟨nst, v, hnstat, hrun⟩ := of_run_bind hrun
            have hv := (statAbs_keeps hG hS hnc).attempt.of_run hu.1 hnstat
            obtain ⟨_, v', hcheck, hrun⟩ := of_run_bind hrun
            have hv' := (Keeps.liftExcept (I := fun w => V.names w = V.names x) _).of_run hv.1 hcheck
            rw [renameOnHost] at hrun
            obtain ⟨od, w, hopen, hrun⟩ := of_run_bind hrun
            have hw := (openHostDir_reads hG oroot oloc.m oloc.abs).of_run hv'.1 hopen
            obtain ⟨r, w', hopen', hrun⟩ := of_run_bind hrun
            cases r with
            | error e => cases hrun
            | ok nd =>
                exact ⟨oloc, nloc, oroot, V.obj od, V.obj nd, ⟨y, z, howalk, hnwalk⟩, hmount,
                  entry_of_opened hC hlinks hotype hoj hat.1 hv'.1 hopen,
                  entry_of_opened hC hlinks hntype hnj hat.2 hw.1 (of_run_attempt hopen')⟩

end Calls

def treeOpen (kind : ℕ → HfsKind) (T : Names ℕ Bytes) (d : ℕ) (n : Bytes) (fl : UInt32) :
    Except Errno (Opened ℕ) :=
  match T d n with
  | none => .error .ENOENT
  | some i =>
    if has fl HFS_O_DIR = true ∧ kind i ≠ .dir then .error .ENOTDIR
    else .ok ⟨i, { kind := kind i }, false⟩

def treeRename (T : Names ℕ Bytes) (od : ℕ) (on : Bytes) (nd : ℕ) (nn : Bytes) (nr : Bool) :
    Except Errno Unit × Names ℕ Bytes :=
  match T od on with
  | none => (.error .ENOENT, T)
  | some i => if nr = true ∧ (T nd nn).isSome then (.error .EEXIST, T) else (.ok (), move T od on nd nn i)

def treeStore (kind : ℕ → HfsKind) : HostStore ℕ (Names ℕ Bytes) where
  __ := HostStore.idle
  openat d n fl _ _ _ _ := ExceptT.mk fun T => (treeOpen kind T d n fl, T)
  reopen h fl _ := if has fl HFS_O_DIR = true ∧ kind h ≠ .dir then throw .ENOTDIR
    else pure ⟨h, { kind := kind h }, false⟩
  stat h := pure { kind := kind h }
  rename od on nd nn nr := ExceptT.mk fun T => treeRename T od on nd nn nr

def treeView (kind : ℕ → HfsKind) : TreeView ℕ (Names ℕ Bytes) ℕ := ⟨id, id, kind⟩

theorem treeOpen_some {kind : ℕ → HfsKind} {T : Names ℕ Bytes} {d i : ℕ} {n : Bytes} {fl : UInt32}
    (h : T d n = some i) (hdir : has fl HFS_O_DIR = true → kind i = .dir) :
    treeOpen kind T d n fl = .ok ⟨i, { kind := kind i }, false⟩ := by
  rw [treeOpen, h]
  exact if_neg fun hd => hd.2 (hdir hd.1)

theorem treeOpen_ok {kind : ℕ → HfsKind} {T : Names ℕ Bytes} {d : ℕ} {n : Bytes} {fl : UInt32} {o : Opened ℕ}
    (h : treeOpen kind T d n fl = .ok o) :
    T d n = some o.h ∧ o.st.kind = kind o.h ∧ (has fl HFS_O_DIR = true → kind o.h = .dir) := by
  rw [treeOpen] at h
  cases hi : T d n with
  | none => rw [hi] at h; cases h
  | some i =>
      rw [hi] at h
      dsimp only at h
      split_ifs at h with hd
      cases h
      exact ⟨rfl, rfl, fun hdir => not_not.mp fun hk => hd ⟨hdir, hk⟩⟩

theorem treeStore_contract (kind : ℕ → HfsKind) : (treeView kind).Contract (treeStore kind) := by
  have hreopen : ∀ (T : Names ℕ Bytes) h fl st, (((treeStore kind).reopen h fl st).run T).2 = T := by
    intro T h fl st
    unfold treeStore
    dsimp only
    split_ifs <;> rfl
  have hdir : has (HFS_O_READ ||| HFS_O_DIR) HFS_O_DIR = true := by decide
  refine ⟨fun T => ⟨?_, ?_, ?_, ?_, fun _ _ hU => hU, fun _ hU => hU, fun _ hU => hU⟩, ?_, ?_, ?_, ?_, ?_, ?_⟩
  · exact fun d _ n fl mode uid gid st _ _ U hU => ⟨hU, fun _ _ => trivial⟩
  · exact fun h _ fl st _ U hU => ⟨(hreopen U h fl st).trans hU, fun _ _ => trivial⟩
  · exact fun h U hU => ⟨hU, fun _ _ => trivial⟩
  · exact fun h U hU => ⟨hU, fun _ _ => trivial⟩
  · intro T d n i hi
    exact ⟨_, T, Prod.ext (treeOpen_some hi fun h => absurd h (by decide)) rfl⟩
  · intro T d n o T' h
    obtain ⟨hi, hkind, _⟩ := treeOpen_ok (congrArg Prod.fst h)
    exact ⟨o.h, hi, hkind⟩
  · intro T d n i hi hd
    exact ⟨_, T, Prod.ext (treeOpen_some hi fun _ => hd) rfl, rfl⟩
  · intro T d n o T' h _
    obtain ⟨hi, _, hd⟩ := treeOpen_ok (congrArg Prod.fst h)
    exact ⟨o.h, hi, fun _ => ⟨hd hdir, rfl⟩⟩
  · intro T h hd
    refine ⟨⟨h, { kind := kind h }, false⟩, T, ?_⟩
    unfold treeStore
    dsimp only
    rw [if_neg fun hd' => hd'.2 hd]
    rfl
  · intro T h o T' hrun
    unfold treeStore at hrun
    dsimp only at hrun
    split_ifs at hrun with hd
    · cases hrun
    · cases hrun
      exact ⟨not_not.mp fun hk => hd ⟨hdir, hk⟩, rfl⟩

theorem treeStore_renames (kind : ℕ → HfsKind) : (treeView kind).Renames (treeStore kind) := by
  refine ⟨fun T od on nd nn nr T' h => ?_, fun T od on nd nn nr e T' h => ?_⟩
  · change treeRename T od on nd nn nr = (Except.ok (), T') at h
    rw [treeRename] at h
    cases hi : T od on with
    | none => rw [hi] at h; cases h
    | some i =>
        rw [hi] at h
        dsimp only at h
        split_ifs at h
        · cases h
        · cases h
          exact ⟨i, hi, rfl⟩
  · change treeRename T od on nd nn nr = (Except.error e, T') at h
    rw [treeRename] at h
    cases hi : T od on with
    | none =>
        rw [hi] at h
        cases h
        rfl
    | some i =>
        rw [hi] at h
        dsimp only at h
        split_ifs at h
        · cases h
          rfl
        · cases h

/-- A directory of two files; the second has two names. -/
def smallTree : Names ℕ Bytes := fun d n =>
  if d = 0 ∧ n = str "a" then some 1
  else if d = 0 ∧ (n = str "b" ∨ n = str "c") then some 2
  else none

def smallKind (i : ℕ) : HfsKind := if i = 0 then .dir else .file

def smallKernel : Kernel ℕ (Names ℕ Bytes) where
  store := treeStore smallKind
  proc := { fds := fun _ => none, exe := [], maps := [] }
  stack := []

def smallCtx : FsCtx ℕ := FsCtx.initial 0 1 false

theorem smallTree_some {d i : ℕ} {n : Bytes} (h : smallTree d n = some i) :
    d = 0 ∧ ((n = str "a" ∧ i = 1) ∨ ((n = str "b" ∨ n = str "c") ∧ i = 2)) := by
  rw [smallTree] at h
  split_ifs at h with ha hbc
  · exact ⟨ha.1, .inl ⟨ha.2, (Option.some.inj h).symm⟩⟩
  · exact ⟨hbc.1, .inr ⟨hbc.2, (Option.some.inj h).symm⟩⟩

theorem small_tree : (treeView smallKind).Tree 0 smallTree := by
  have hleaf : ∀ {d i : ℕ} {n : Bytes}, smallTree d n = some i → i ≠ 0 ∧ smallKind i ≠ .dir := by
    intro d i n h
    obtain ⟨_, ⟨_, rfl⟩ | ⟨_, rfl⟩⟩ := smallTree_some h <;> decide
  refine ⟨rfl, ?_, ?_, fun d n h => (hleaf h).1 rfl, ?_⟩
  · intro d n i h
    rw [(smallTree_some h).1]
    rfl
  · intro d e n m i hi h _
    exact absurd hi (hleaf h).2
  · intro i ps hps h
    cases ps with
    | nil => exact hps rfl
    | cons n ps =>
        obtain ⟨j, hj, hrest⟩ := Option.bind_eq_some_iff.mp h
        obtain ⟨rfl, _⟩ := smallTree_some hj
        cases ps with
        | nil => exact (hleaf hj).1 (Option.some.inj hrest)
        | cons m ps =>
            obtain ⟨k, hk, _⟩ := Option.bind_eq_some_iff.mp hrest
            exact (hleaf hj).1 (smallTree_some hk).1

end SysvNt
