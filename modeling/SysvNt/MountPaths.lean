import SysvNt.HostPaths
import SysvNt.WalkCanonical

/-!
# Mount points as prefixes

Over lists of names a mount is a hit exactly when its point is a prefix of the path, what
`path_rel` leaves is the rest, and `mount_of` takes the longest prefix that is a mount point.
So no path between a mount's point and a path on it is a mount point.
-/

namespace SysvNt

open FallibleCalls

variable {η : Type}

def relText : List Bytes → Bytes
  | [] => []
  | n :: ns => n ++ ns.flatMap (slash :: ·)

theorem render_drop_one (ns : List Bytes) : (render ns).drop 1 = relText ns := by
  cases ns with
  | nil => rfl
  | cons n ns => simp [render, relText]

theorem flatMap_drop_one (ns : List Bytes) : (ns.flatMap (slash :: ·)).drop 1 = relText ns := by
  cases ns with
  | nil => rfl
  | cons n ns => simp [relText]

theorem atEnd_flatMap (ns : List Bytes) :
    ns.flatMap (slash :: ·) = [] ∨ ∃ t, ns.flatMap (slash :: ·) = slash :: t := by
  cases ns with
  | nil => exact .inl rfl
  | cons n ns => exact .inr ⟨_, rfl⟩

theorem component_append {n t : Bytes} (hn : slash ∉ n) (ht : t = [] ∨ ∃ s, t = slash :: s) :
    component (n ++ t) = n ∧ afterComponent (n ++ t) = t := by
  have hall : ∀ c ∈ n, (decide (c ≠ slash)) = true := by
    intro c hc
    rw [decide_eq_true_eq]
    rintro rfl
    exact hn hc
  rw [component, afterComponent, List.takeWhile_append_of_pos hall, List.dropWhile_append_of_pos hall]
  rcases ht with rfl | ⟨s, rfl⟩ <;> simp

theorem relComponentsWithin_relText (k : ℕ) {ns : List Bytes} (hv : ValidNames ns)
    (hk : (relText ns).length ≤ k) : relComponentsWithin k (relText ns) = ns := by
  induction ns generalizing k with
  | nil => cases k <;> rfl
  | cons n ns ih =>
      have hn := hv n List.mem_cons_self
      have hpos := List.length_pos_of_ne_nil hn.ne_nil
      obtain ⟨hcomp, hafter⟩ := component_append hn.slash_not_mem (atEnd_flatMap ns)
      have hlen : (relText ns).length ≤ (ns.flatMap (slash :: ·)).length := by
        rw [← flatMap_drop_one, List.length_drop]
        omega
      have htext : relText (n :: ns) = n ++ ns.flatMap (slash :: ·) := rfl
      rw [htext, List.length_append] at hk
      cases k with
      | zero => omega
      | succ k =>
          rw [htext, relComponentsWithin, hcomp, hafter, flatMap_drop_one, if_neg,
            ih k (fun m hm => hv m (List.mem_cons_of_mem _ hm)) (by omega)]
          intro h
          exact hn.ne_nil (List.append_eq_nil_iff.mp h).1

theorem relComponents_relText {ns : List Bytes} (hv : ValidNames ns) :
    relComponents (relText ns) = ns :=
  relComponentsWithin_relText _ hv le_rfl

theorem render_append {ps : List Bytes} (hps : ps ≠ []) (ns : List Bytes) :
    render (ps ++ ns) = render ps ++ ns.flatMap (slash :: ·) := by
  rw [render_eq_flatMap hps, render_eq_flatMap (by simp [hps]), List.flatMap_append]

def namesOf (abs : Bytes) : List Bytes := relComponents (abs.drop 1)

theorem namesOf_render {ns : List Bytes} (hv : ValidNames ns) : namesOf (render ns) = ns := by
  rw [namesOf, render_drop_one, relComponents_relText hv]

theorem render_injective {ns ms : List Bytes} (hn : ValidNames ns) (hm : ValidNames ms)
    (h : render ns = render ms) : ns = ms := by
  rw [← namesOf_render hn, h, namesOf_render hm]

theorem Canonical.names {abs : Bytes} (h : Canonical abs) :
    ValidNames (namesOf abs) ∧ render (namesOf abs) = abs := by
  obtain ⟨ns, hv, rfl, _⟩ := h
  rw [namesOf_render hv]
  exact ⟨hv, rfl⟩

theorem mountHit_of_below {m : Mount η} {ps ns : List Bytes} (hpoint : m.point = render ps)
    (h : ps <+: ns) : mountHit m (render ns) = true := by
  obtain ⟨rest, rfl⟩ := h
  by_cases hps : ps = []
  · subst hps
    simp [mountHit, hpoint]
  · rw [render_append hps, mountHit, hpoint]
    split_ifs with h1
    · rfl
    · have hdrop : (render ps ++ rest.flatMap (slash :: ·)).drop (render ps).length =
          rest.flatMap (slash :: ·) := List.drop_left
      rw [hdrop]
      rcases atEnd_flatMap rest with h | ⟨t, h⟩ <;> simp [h]

theorem prefix_of_text {ps ns : List Bytes} (hps : ValidNames ps) (hns : ValidNames ns) {t : Bytes}
    (ht : t = [] ∨ ∃ s, t = slash :: s)
    (h : ps.flatMap (slash :: ·) ++ t = ns.flatMap (slash :: ·)) : ps <+: ns := by
  induction ps generalizing ns with
  | nil => exact List.nil_prefix
  | cons p ps ih =>
      cases ns with
      | nil => simp at h
      | cons n ns =>
          have hp := hps p List.mem_cons_self
          have hn := hns n List.mem_cons_self
          simp only [List.flatMap_cons, List.cons_append, List.append_assoc, List.cons.injEq,
            true_and] at h
          have hend : ps.flatMap (slash :: ·) ++ t = [] ∨
              ∃ s, ps.flatMap (slash :: ·) ++ t = slash :: s := by
            rcases atEnd_flatMap ps with he | ⟨s, he⟩
            · rw [he]
              exact ht
            · exact .inr ⟨s ++ t, by rw [he]; rfl⟩
          obtain ⟨hcp, hap⟩ := component_append hp.slash_not_mem hend
          obtain ⟨hcn, han⟩ := component_append hn.slash_not_mem (atEnd_flatMap ns)
          rw [h, hcn] at hcp
          rw [h, han] at hap
          rw [hcp, List.prefix_cons_inj]
          exact ih (fun m hm => hps m (List.mem_cons_of_mem _ hm))
            (fun m hm => hns m (List.mem_cons_of_mem _ hm)) hap.symm

theorem prefix_of_mountHit {m : Mount η} {ps ns : List Bytes} (hpoint : m.point = render ps)
    (hps : ValidNames ps) (hns : ValidNames ns) (h : mountHit m (render ns) = true) : ps <+: ns := by
  by_cases hnil : ps = []
  · rw [hnil]
    exact List.nil_prefix
  have hlen := length_render_of_ne hps hnil
  rw [mountHit, hpoint, if_neg (by omega), Bool.and_eq_true, List.isPrefixOf_iff_prefix] at h
  obtain ⟨⟨t, ht⟩, hend⟩ := h
  have hne : ns ≠ [] := by
    rintro rfl
    have := congrArg List.length ht
    rw [List.length_append, render_nil, List.length_singleton] at this
    omega
  rw [← ht, List.drop_left] at hend
  rw [render_eq_flatMap hnil, render_eq_flatMap hne] at ht
  refine prefix_of_text hps hns ?_ ht
  cases t with
  | nil => exact .inl rfl
  | cons c t =>
      have hc : c = slash := by simpa using hend
      exact .inr ⟨t, by rw [hc]⟩

theorem length_render_lt_of_prefix {ps qs : List Bytes} (hq : ValidNames qs) (h : ps <+: qs)
    (hne : ps ≠ qs) : (render ps).length < (render qs).length := by
  obtain ⟨rest, rfl⟩ := h
  have hrest : rest ≠ [] := by
    rintro rfl
    exact hne (List.append_nil ps).symm
  by_cases hps : ps = []
  · subst hps
    have := length_render_of_ne hq (by simpa using hrest)
    rw [render_nil, List.length_singleton]
    omega
  · rw [render_append hps, List.length_append]
    cases rest with
    | nil => exact absurd rfl hrest
    | cons n rest =>
        simp only [List.flatMap_cons, List.cons_append, List.length_cons]
        omega

theorem pathRel_render {m : Mount η} {ps rest : List Bytes} (hpoint : m.point = render ps)
    (hps : ValidNames ps) : pathRel m (render (ps ++ rest)) = relText rest := by
  by_cases hnil : ps = []
  · subst hnil
    rw [pathRel, hpoint, render_nil, List.length_singleton, if_pos rfl, List.nil_append,
      render_drop_one]
  · have hlen := length_render_of_ne hps hnil
    rw [pathRel, hpoint, if_neg (by omega), render_append hnil]
    split_ifs with h
    · have hzero : (rest.flatMap (slash :: ·)).length = 0 := by
        rw [List.length_append] at h
        omega
      rw [← flatMap_drop_one, List.length_eq_zero_iff.mp hzero]
      rfl
    · rw [← List.drop_drop, List.drop_left, flatMap_drop_one]

/-- The mount of a canonical path, by its names: its point is a prefix, and the longest one. -/
structure MountedAt (T : MountTable η) (m : Mount η) (ps ns : List Bytes) : Prop where
  mem : m ∈ T.mounts
  valid : ValidNames ns
  point : m.point = render ps
  below : ps <+: ns
  longest : ∀ m' ∈ T.mounts, ∀ qs, m'.point = render qs → qs <+: ns → qs <+: ps

theorem mountOf_mounted (T : MountTable η) {ns : List Bytes} (hns : ValidNames ns) :
    MountedAt T (T.mountOf (render ns)) (namesOf (T.mountOf (render ns)).point) ns := by
  have hbest := T.mountOf_best (render ns)
  obtain ⟨hps, hpoint⟩ := (T.canonical _ hbest.mem).names
  generalize T.mountOf (render ns) = m at hbest hps hpoint
  have hbelow := prefix_of_mountHit hpoint.symm hps hns hbest.hit
  refine ⟨hbest.mem, hns, hpoint.symm, hbelow, ?_⟩
  intro m' hm' qs hq hqn
  have hlen := hbest.longest m' hm' (mountHit_of_below hq hqn)
  rw [← hpoint, hq] at hlen
  rcases List.prefix_or_prefix_of_prefix hqn hbelow with h | h
  · exact h
  · by_cases he : namesOf m.point = qs
    · rw [he]
    · have hqv : ValidNames qs := fun n hn => hns n (hqn.subset hn)
      have := length_render_lt_of_prefix hqv h he
      omega

def Uncrossed (T : MountTable η) (dir : List Bytes) (name : Bytes) : Prop :=
  ∀ m ∈ T.mounts, m.point ≠ render (dir ++ [name])

/-- Going down from a mount's point towards a path on it meets no other mount point. -/
theorem MountedAt.uncrossed {T : MountTable η} {m : Mount η} {ps ns : List Bytes}
    (h : MountedAt T m ps ns) {pre : List Bytes} {n : Bytes} (suf : List Bytes)
    (hns : ns = ps ++ pre ++ n :: suf) : Uncrossed T (ps ++ pre) n := by
  intro m' hm' he
  have hle := h.longest m' hm' (ps ++ pre ++ [n]) he ⟨suf, by rw [hns]; simp⟩
  have hlen := hle.length_le
  simp only [List.length_append, List.length_singleton] at hlen
  omega

theorem mountScan_congr {a b : Bytes} (ms : List (Mount η)) (best : Option (Mount η)) (bl : ℕ)
    (h : ∀ m ∈ ms, mountHit m a = mountHit m b) : mountScan a best bl ms = mountScan b best bl ms := by
  induction ms generalizing best bl with
  | nil => rfl
  | cons m ms ih =>
      have hms := fun m' hm' => h m' (List.mem_cons_of_mem _ hm')
      rw [mountScan, mountScan, h m List.mem_cons_self]
      split_ifs
      · exact ih _ _ hms
      · exact ih _ _ hms

/-- A name that is no mount point is on its directory's mount. -/
theorem mountOf_snoc {T : MountTable η} {ns : List Bytes} {n : Bytes} (hv : ValidNames ns)
    (hn : ValidName n) (h : Uncrossed T ns n) :
    T.mountOf (render (ns ++ [n])) = T.mountOf (render ns) := by
  have hhit : ∀ m ∈ T.mounts, mountHit m (render (ns ++ [n])) = mountHit m (render ns) := by
    intro m hm
    obtain ⟨hps, hpoint⟩ := (T.canonical m hm).names
    rw [Bool.eq_iff_iff]
    constructor
    · intro hit
      rcases List.prefix_concat_iff.mp (prefix_of_mountHit hpoint.symm hps (hv.snoc hn) hit) with
        he | hpre
      · exact absurd (by rw [← hpoint, he]) (h m hm)
      · exact mountHit_of_below hpoint.symm hpre
    · intro hit
      have hpre := prefix_of_mountHit hpoint.symm hps hv hit
      exact mountHit_of_below hpoint.symm (hpre.trans (List.prefix_append _ _))
  have hscan := mountScan_congr T.mounts none 0 hhit
  rw [MountTable.mountOf, MountTable.mountOf]
  congr 1

/-- After the mount that the scan comes to it passes no hit of the same length. -/
theorem mountScan_last {abs : Bytes} (ms : List (Mount η)) (best : Option (Mount η)) (bl : ℕ) {m : Mount η}
    (hbl : ∀ b, best = some b → bl = b.point.length) (h : mountScan abs best bl ms = some m) :
    (best = some m ∧ ∀ m' ∈ ms, mountHit m' abs = true → m'.point.length < m.point.length) ∨
      ∃ pre post, ms = pre ++ m :: post ∧
        ∀ m' ∈ post, mountHit m' abs = true → m'.point.length < m.point.length := by
  induction ms generalizing best bl with
  | nil => exact .inl ⟨h, fun m' hm' => by cases hm'⟩
  | cons b ms ih =>
      rw [mountScan] at h
      split_ifs at h with hit
      · rcases ih _ _ (fun b' hb' => by rw [Option.some.inj hb']) h with ⟨hb, hafter⟩ | ⟨pre, post, rfl, hafter⟩
        · obtain rfl : b = m := Option.some.inj hb
          exact .inr ⟨[], ms, rfl, hafter⟩
        · exact .inr ⟨b :: pre, post, rfl, hafter⟩
      · rcases ih _ _ hbl h with ⟨hb, hafter⟩ | ⟨pre, post, rfl, hafter⟩
        · refine .inl ⟨hb, fun m' hm' hhit => ?_⟩
          rcases List.mem_cons.mp hm' with rfl | hm'
          · rw [hbl m hb] at hit
            exact not_le.mp fun hle => hit ⟨hhit, hle⟩
          · exact hafter m' hm' hhit
        · exact .inr ⟨b :: pre, post, rfl, hafter⟩

/-- Of mounts at one point the last one answers. -/
theorem mountOf_last (T : MountTable η) {ns : List Bytes} (hns : ValidNames ns) :
    T.mounts.reverse.find? (fun m' => m'.point = (T.mountOf (render ns)).point) = some (T.mountOf (render ns)) := by
  obtain ⟨m, hm, _⟩ := T.mountScan_best (render ns)
  have hof : T.mountOf (render ns) = m := Option.get_of_eq_some _ hm
  have hat := mountOf_mounted T hns
  rw [hof] at hat ⊢
  rcases mountScan_last T.mounts none 0 (fun b hb => by cases hb) hm with ⟨hnone, _⟩ | ⟨pre, post, hsplit, hafter⟩
  · cases hnone
  · rw [hsplit, List.reverse_append, List.reverse_cons, List.append_assoc, List.find?_append,
      List.find?_eq_none.mpr, Option.none_or, List.singleton_append, List.find?_cons_of_pos (by simp)]
    intro m' hm' hpoint
    have hp : m'.point = m.point := by simpa using hpoint
    have hhit : mountHit m' (render ns) = true := mountHit_of_below (hp.trans hat.point) hat.below
    have := hafter m' (List.mem_reverse.mp hm') hhit
    rw [hp] at this
    omega

theorem mountOf_point_inj {T : MountTable η} {ns ms : List Bytes} (hns : ValidNames ns) (hms : ValidNames ms)
    (h : (T.mountOf (render ns)).point = (T.mountOf (render ms)).point) :
    T.mountOf (render ns) = T.mountOf (render ms) := by
  have hn := mountOf_last T hns
  rw [h, mountOf_last T hms] at hn
  exact (Option.some.inj hn).symm

theorem or_and (a b c : UInt32) : (a ||| b) &&& c = a &&& c ||| b &&& c :=
  UInt32.toBitVec_inj.1 BitVec.and_or_distrib_right

theorem typeOf_bits (k : HfsKind) : typeOf k &&& S_IFMT = typeOf k ∧ typeOf k &&& 0o7777 = 0 := by
  cases k <;> decide

/-- The permission bits and the type of a mode do not overlap. -/
theorem type_perm (k : HfsKind) (mode : UInt32) :
    (typeOf k ||| mode &&& 0o7777) &&& S_IFMT = typeOf k ∧
      (typeOf k ||| mode &&& 0o7777) &&& 0o7777 = mode &&& 0o7777 := by
  have htype : (0o7777 : UInt32) &&& S_IFMT = 0 := by decide
  obtain ⟨hfmt, hperm⟩ := typeOf_bits k
  rw [or_and, or_and, UInt32.and_assoc, UInt32.and_assoc, htype, hfmt, hperm, UInt32.and_zero,
    UInt32.or_zero, UInt32.zero_or, UInt32.and_self]
  exact ⟨rfl, rfl⟩

/-- The type that `mode_of` reports is the kind's. -/
theorem modeOf_type (hs : HfsStat) (name : Option Bytes) : modeOf hs name &&& S_IFMT = typeOf hs.kind := by
  rw [modeOf]
  split_ifs with hlnk hmode hdir
  · rw [hlnk]
    decide
  · exact (type_perm hs.kind hs.mode).1
  · exact (type_perm hs.kind 0o755).1
  · exact (type_perm hs.kind 0o755).1
  · exact (type_perm hs.kind 0o644).1

theorem isDir_kstatOf_iff (m : Mount η) (hs : HfsStat) (name : Option Bytes) :
    isDir (kstatOf m hs name).mode = true ↔ hs.kind = .dir := by
  have htype : (kstatOf m hs name).mode &&& S_IFMT = typeOf hs.kind := modeOf_type hs name
  rw [isDir, decide_eq_true_eq, htype]
  cases hs.kind <;> decide

theorem isDir_kstatOf (m : Mount η) {hs : HfsStat} (name : Option Bytes) (h : hs.kind = .dir) :
    isDir (kstatOf m hs name).mode = true := (isDir_kstatOf_iff m hs name).mpr h

section Roots

variable {σ : Type}

def RootsAreDirs (H : HostStore η σ) (T : MountTable η) : Prop :=
  ∀ m ∈ T.mounts, ∀ root, m.type = .host root →
    ∀ x hs, ((H.stat root).run x).1 = .ok hs → hs.kind = .dir

/-- Whatever is mounted, the mount point stats as a directory. -/
theorem statAbs_root {K : Kernel η σ} {fs : FsCtx η} (hD : RootsAreDirs K.store fs.table)
    {abs : Bytes} (hrel : pathRel (fs.table.mountOf abs) abs = []) {x : σ} {st : KStat}
    (h : ((statAbs K fs abs).run x).1 = .ok st) : isDir st.mode = true := by
  have hmem := (fs.table.mountOf_best abs).mem
  rw [statAbs, hrel] at h
  cases htype : (fs.table.mountOf abs).type with
  | proc =>
      rw [htype] at h
      cases h
      exact (by decide : isDir (procMode .root) = true)
  | dev =>
      rw [htype] at h
      cases h
      exact (by decide : isDir (S_IFDIR ||| 0o755) = true)
  | host root =>
      rw [htype] at h
      dsimp only at h
      rw [if_pos rfl, run_bind] at h
      cases hr : (K.store.stat root).run x with
      | mk r x' =>
          rw [hr] at h
          cases r with
          | error e => cases h
          | ok hs =>
              cases h
              exact isDir_kstatOf _ none (hD _ hmem root htype x hs (congrArg Prod.fst hr))

end Roots

end SysvNt
