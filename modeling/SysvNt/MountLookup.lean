import SysvNt.MountPaths

/-!
# What the lookup of a mount gives

`mount_of` answers with the mount whose point has the most of the path's first components, what
`path_rel` leaves is the rest of them, and the parent of a path below the point is on the same
mount, one component shorter. So the directory that `open_host_dir` opens for the parent is the one
that the last name is in.
-/

namespace SysvNt

variable {η : Type}

/-- The rest of a path as `path_rel` spells it: after the point there is a slash, but after the
root. -/
def joinRel (point rel : Bytes) : Bytes :=
  if point = [slash] then point ++ rel else point ++ slash :: rel

def snocRel (rel name : Bytes) : Bytes := if rel = [] then name else rel ++ slash :: name

/-- What the lookups of `abs` have to agree on for the accesses below its mount. -/
structure FoundMount (T : MountTable η) (abs : Bytes) (m : Mount η) : Prop where
  mem : m ∈ T.mounts
  below : namesOf m.point <+: namesOf abs
  longest : ∀ m' ∈ T.mounts, namesOf m'.point <+: namesOf abs →
    m' = m ∨ (namesOf m'.point).length < (namesOf m.point).length
  at_point : pathRel m abs = [] ↔ abs = m.point
  again : abs ≠ m.point → joinRel m.point (pathRel m abs) = abs
  parent_mount : abs ≠ m.point → T.mountOf (pathParent abs) = m
  parent_rel : abs ≠ m.point → snocRel (pathRel m (pathParent abs)) (lastName abs) = pathRel m abs
  opened : abs ≠ m.point →
    relComponents (pathRel m (pathParent abs)) ++ [lastName abs] = relComponents (pathRel m abs)

theorem relText_eq_nil {ns : List Bytes} (hv : ValidNames ns) : relText ns = [] ↔ ns = [] := by
  constructor
  · intro h
    rw [← relComponents_relText hv, h]
    rfl
  · rintro rfl
    rfl

theorem joinRel_render {ps rest : List Bytes} (hv : ValidNames (ps ++ rest)) (hrest : rest ≠ []) :
    joinRel (render ps) (relText rest) = render (ps ++ rest) := by
  obtain ⟨n, ns, rfl⟩ := List.exists_cons_of_ne_nil hrest
  by_cases hps : ps = []
  · subst hps
    rw [joinRel, if_pos render_nil]
    rfl
  · have hpoint : render ps ≠ [slash] := by
      intro h
      have hlen := length_render_of_ne (fun m hm => hv m (List.mem_append_left _ hm)) hps
      rw [h, List.length_singleton] at hlen
      omega
    rw [joinRel, if_neg hpoint, render_append hps]
    rfl

theorem snocRel_relText {ds : List Bytes} (hds : ValidNames ds) (n : Bytes) :
    snocRel (relText ds) n = relText (ds ++ [n]) := by
  cases ds with
  | nil => simp [snocRel, relText]
  | cons d ds =>
      rw [snocRel, if_neg fun h => List.cons_ne_nil d ds ((relText_eq_nil hds).mp h)]
      simp [relText]

/-- For points that are all different, and any canonical path. -/
theorem mount_lookup (T : MountTable η) (hT : (T.mounts.map Mount.point).Nodup) {ns : List Bytes}
    (hv : ValidNames ns) : FoundMount T (render ns) (T.mountOf (render ns)) := by
  have hm := mountOf_mounted T hv
  obtain ⟨rest, hrest⟩ := hm.below
  generalize hfound : T.mountOf (render ns) = m at hm hrest
  generalize namesOf m.point = ps at hm hrest
  subst hrest
  have hps : ValidNames ps := fun n hn => hv n (List.mem_append_left _ hn)
  have hds : ValidNames rest := fun n hn => hv n (List.mem_append_right _ hn)
  have hrel : pathRel m (render (ps ++ rest)) = relText rest := pathRel_render hm.point hps
  have hat : render (ps ++ rest) = m.point ↔ rest = [] := by
    rw [hm.point]
    constructor
    · intro h
      have hnames := render_injective hv hps h
      exact List.append_right_eq_self.mp hnames
    · rintro rfl
      rw [List.append_nil]
  have hlast : render (ps ++ rest) ≠ m.point → ∃ ds n, rest = ds ++ [n] ∧
      pathParent (render (ps ++ rest)) = render (ps ++ ds) ∧ lastName (render (ps ++ rest)) = n ∧
      pathRel m (render (ps ++ ds)) = relText ds := by
    intro hne
    obtain ⟨ds, n, hsplit⟩ := (List.eq_nil_or_concat rest).resolve_left fun h => hne (hat.mpr h)
    rw [List.concat_eq_append] at hsplit
    subst hsplit
    have hn : slash ∉ n := (hds n (by simp)).slash_not_mem
    refine ⟨ds, n, rfl, ?_, ?_, pathRel_render hm.point hps⟩
    · rw [← List.append_assoc, pathParent_render_snoc _ hn]
    · rw [← List.append_assoc, lastName_render_snoc _ hn]
  refine ⟨hm.mem, ?_, ?_, ?_, ?_, fun hne => ?_, fun hne => ?_, fun hne => ?_⟩
  · rw [namesOf_render hv, hm.point, namesOf_render hps]
    exact hm.below
  · intro m' hm' hbelow
    obtain ⟨hqs, hpoint⟩ := (T.canonical m' hm').names
    rw [namesOf_render hv] at hbelow
    rw [hm.point, namesOf_render hps]
    have hpre := hm.longest m' hm' _ hpoint.symm hbelow
    by_cases heq : namesOf m'.point = ps
    · left
      rw [heq, ← hm.point] at hpoint
      exact List.inj_on_of_nodup_map hT hm' hm.mem hpoint.symm
    · right
      exact lt_of_le_of_ne hpre.length_le fun hlen => heq (hpre.eq_of_length hlen)
  · rw [hrel, relText_eq_nil hds, hat]
  · intro hne
    rw [hrel, hm.point]
    exact joinRel_render hv fun h => hne (hat.mpr h)
  · obtain ⟨ds, n, rfl, hparent, _, _⟩ := hlast hne
    rw [hparent, ← hfound, ← List.append_assoc]
    rw [← List.append_assoc] at hv hm
    exact (mountOf_snoc (fun k hk => hv k (List.mem_append_left _ hk)) (hv n (by simp))
      (hm.uncrossed [] rfl)).symm
  · obtain ⟨ds, n, rfl, hparent, hname, hrel'⟩ := hlast hne
    rw [hparent, hname, hrel', hrel]
    exact snocRel_relText (fun k hk => hds k (List.mem_append_left _ hk)) n
  · obtain ⟨ds, n, rfl, hparent, hname, hrel'⟩ := hlast hne
    rw [hparent, hname, hrel', hrel, relComponents_relText hds,
      relComponents_relText fun k hk => hds k (List.mem_append_left _ hk)]

/-- The process directory is on its own mount. -/
theorem proc_self_found : FoundMount (MountTable.initial 0 1 false) (render [str "proc", str "self"])
    ((MountTable.initial 0 1 false).mountOf (render [str "proc", str "self"])) := by
  refine mount_lookup _ (by decide) fun n hn => ?_
  rcases List.mem_cons.mp hn with rfl | hn
  · exact ⟨by decide, by decide, by decide, by decide⟩
  · rw [List.mem_singleton] at hn
    subst hn
    exact ⟨by decide, by decide, by decide, by decide⟩

end SysvNt
