import SysvNt.HostObjects
import SysvNt.NameRoundTrip

/-!
# The names in a Windows link

`hfs_readlink` spells the units of a Windows link one at a time, where `name_from_wide` joins
surrogate pairs and undoes the escapes. The two spell a component alike exactly if it has neither.
-/

namespace SysvNt

open CodeUnits FallibleCalls

variable {η σ : Type}

theorem flatMap_utf8_injective {cps cps' : List ℕ} (h : ∀ cp ∈ cps, cp < 0x110000)
    (h' : ∀ cp ∈ cps', cp < 0x110000) (heq : cps.flatMap utf8 = cps'.flatMap utf8) : cps = cps' := by
  induction cps generalizing cps' with
  | nil =>
      cases cps' with
      | nil => rfl
      | cons c cps' =>
          rw [List.flatMap_nil, List.flatMap_cons] at heq
          exact absurd (List.append_eq_nil_iff.mp heq.symm).1 (utf8_ne_nil c)
  | cons c cps ih =>
      cases cps' with
      | nil =>
          rw [List.flatMap_nil, List.flatMap_cons] at heq
          exact absurd (List.append_eq_nil_iff.mp heq).1 (utf8_ne_nil c)
      | cons c' cps' =>
          rw [List.flatMap_cons, List.flatMap_cons] at heq
          have hnext := utf8Next_utf8 (h c List.mem_cons_self) (cps.flatMap utf8)
          rw [heq, utf8Next_utf8 (h' c' List.mem_cons_self)] at hnext
          obtain ⟨hc, htail⟩ := Prod.mk.inj (Option.some.inj hnext)
          rw [hc, ih (fun cp hcp => h cp (List.mem_cons_of_mem _ hcp))
            (fun cp hcp => h' cp (List.mem_cons_of_mem _ hcp)) htail.symm]

/-- Units that stand for themselves: no surrogate pair among them, and none of the escape's range. -/
structure Plain (w : List UInt16) : Prop where
  unpaired : w.IsChain fun u v => ¬(isHigh u.toNat = true ∧ isLow v.toNat = true)
  unescaped : ∀ u ∈ w, ¬(0xf000 ≤ u.toNat ∧ u.toNat ≤ 0xf0ff)

theorem codePoints_eq_map_iff (w : List UInt16) : codePoints w = w.map UInt16.toNat ↔
    w.IsChain fun u v => ¬(isHigh u.toNat = true ∧ isLow v.toNat = true) := by
  induction w with
  | nil => exact iff_of_true rfl List.IsChain.nil
  | cons u w ih =>
      cases w with
      | nil => exact iff_of_true rfl (List.IsChain.singleton u)
      | cons v w =>
          rw [codePoints, List.isChain_cons_cons, ← ih, List.map_cons, ← Bool.and_eq_true]
          by_cases hpair : (isHigh u.toNat && isLow v.toNat) = true
          · rw [if_pos hpair]
            refine iff_of_false (fun h => ?_) fun h => h.1 hpair
            have hlt := u.toNat_lt
            have hhead := (List.cons.inj h).1
            omega
          · rw [if_neg hpair]
            exact ⟨fun h => ⟨hpair, (List.cons.inj h).2⟩, fun h => congrArg _ h.2⟩

theorem length_codePoints_le (w : List UInt16) : (codePoints w).length ≤ w.length := by
  induction w using codePoints.induct with
  | case1 => exact le_refl _
  | case2 u => exact le_refl _
  | case3 u v w hpair ih =>
      rw [codePoints, if_pos hpair, List.length_cons, List.length_cons, List.length_cons]
      omega
  | case4 u v w hpair ih =>
      rw [codePoints, if_neg hpair, List.length_cons, List.length_cons]
      omega

/-- Joining a pair makes a list shorter, so one that keeps its length is read unit by unit. -/
theorem codePoints_eq_of_length {w : List UInt16} (h : (codePoints w).length = w.length) :
    codePoints w = w.map UInt16.toNat := by
  induction w using codePoints.induct with
  | case1 => rfl
  | case2 u => rfl
  | case3 u v w hpair ih =>
      have hle := length_codePoints_le w
      rw [codePoints, if_pos hpair, List.length_cons, List.length_cons, List.length_cons] at h
      omega
  | case4 u v w hpair ih =>
      rw [codePoints, if_neg hpair, List.length_cons, List.length_cons] at h
      rw [codePoints, if_neg hpair, List.map_cons, ih (by omega)]

theorem unescape_eq_iff {cp : ℕ} : unescape cp = cp ↔ ¬(0xf000 ≤ cp ∧ cp ≤ 0xf0ff) := by
  rw [unescape]
  split_ifs with h
  · refine iff_of_false ?_ (not_not.mpr h)
    omega
  · exact iff_of_true rfl h

/-- Joined and unescaped, the units are what they were exactly if they are plain. -/
theorem map_unescape_codePoints_iff (w : List UInt16) :
    (codePoints w).map unescape = w.map UInt16.toNat ↔ Plain w := by
  constructor
  · intro h
    have hlen := congrArg List.length h
    rw [List.length_map, List.length_map] at hlen
    have hcps := codePoints_eq_of_length hlen
    refine ⟨(codePoints_eq_map_iff w).mp hcps, fun u hu => ?_⟩
    rw [hcps, List.map_map, List.map_inj_left] at h
    exact unescape_eq_iff.mp (h u hu)
  · intro h
    rw [(codePoints_eq_map_iff w).mpr h.unpaired, List.map_map]
    refine List.map_congr_left fun u hu => ?_
    exact unescape_eq_iff.mpr (h.unescaped u hu)

/-- A unit as the link decoder spells it, a separator apart. -/
theorem linkUnit_of_ne {u : UInt16} (h : u ≠ 0x5c) : linkUnit u = utf8 u.toNat := by
  rw [linkUnit, if_neg h]

theorem flatMap_linkUnit {w : List UInt16} (h : ∀ u ∈ w, u ≠ 0x5c) :
    w.flatMap linkUnit = (w.map UInt16.toNat).flatMap utf8 := by
  rw [List.flatMap_map]
  exact List.flatMap_congr fun u hu => linkUnit_of_ne (h u hu)

/-- The two spellings of a component agree exactly if its units are plain. -/
theorem flatMap_linkUnit_eq_spelled_iff {w : List UInt16} (h : ∀ u ∈ w, u ≠ 0x5c) :
    w.flatMap linkUnit = spelled w ↔ Plain w := by
  rw [flatMap_linkUnit h, spelled, ← map_unescape_codePoints_iff, eq_comm]
  constructor
  · intro heq
    refine flatMap_utf8_injective (map_unescape_lt w) (fun cp hcp => ?_) heq
    obtain ⟨u, _, rfl⟩ := List.mem_map.mp hcp
    have hlt := u.toNat_lt
    omega
  · intro heq
    rw [heq]

/-- What the loop leaves is a beginning of the whole text, and all of it unless `tmp` is full. -/
theorem linkLoop_cases (w : List UInt16) (out : Bytes) :
    linkLoop w out <+: out ++ w.flatMap linkUnit ∧
      (linkLoop w out = out ++ w.flatMap linkUnit ∨ TMP_SIZE ≤ (linkLoop w out).length + 4) := by
  induction w generalizing out with
  | nil =>
      rw [List.flatMap_nil, List.append_nil]
      exact ⟨List.prefix_refl _, .inl rfl⟩
  | cons u w ih =>
      rw [linkLoop, List.flatMap_cons, ← List.append_assoc]
      split_ifs with hroom
      · exact ih (out ++ linkUnit u)
      · refine ⟨?_, .inr (not_lt.mp hroom)⟩
        rw [List.append_assoc]
        exact List.prefix_append _ _

def SymbolicLink.target (s : SymbolicLink) : Bytes :=
  (linkStart s.flags s.shownName).1 ++ (linkStart s.flags s.shownName).2.flatMap linkUnit

theorem linkText_starts (s : SymbolicLink) : linkText s <+: s.target :=
  (linkLoop_cases _ _).1

theorem linkText_eq_or_full (s : SymbolicLink) :
    linkText s = s.target ∨ TMP_SIZE ≤ (linkText s).length + 4 := (linkLoop_cases _ _).2

/-- A text that leaves four bytes of `tmp` free is all there. -/
theorem linkText_eq_target {s : SymbolicLink} (h : s.target.length + 4 ≤ TMP_SIZE) :
    linkText s = s.target := by
  rcases linkText_eq_or_full s with heq | hfull
  · exact heq
  · exact (linkText_starts s).eq_of_length_le (by omega)

/-- A link whose print name is a sequence of component names, and whose text fits. -/
structure NamesComponents (s : SymbolicLink) (cs : List (List UInt16)) : Prop where
  print : s.printName = [0x5c].intercalate cs
  nonempty : cs ≠ []
  component : ∀ c ∈ cs, c ≠ [] ∧ ∀ u ∈ c, LegalUnit u
  fits : s.target.length + 4 ≤ TMP_SIZE

theorem LegalUnit.ne {u : UInt16} (h : LegalUnit u) : u ≠ 0x5c ∧ u ≠ 0x3a := by
  constructor
  · rintro rfl
    exact absurd h.1 (by decide)
  · rintro rfl
    exact absurd h.1 (by decide)

theorem mem_intercalate {α : Type} {sep : α} {ls : List (List α)} {a : α}
    (h : a ∈ [sep].intercalate ls) : a = sep ∨ ∃ l ∈ ls, a ∈ l := by
  induction ls with
  | nil => cases h
  | cons l ls ih =>
      cases ls with
      | nil =>
          rw [List.intercalate_singleton] at h
          exact .inr ⟨l, List.mem_cons_self, h⟩
      | cons l' ls =>
          rw [List.intercalate_cons_cons, List.mem_append, List.mem_append] at h
          rcases h with (h | h) | h
          · exact .inr ⟨l, List.mem_cons_self, h⟩
          · exact .inl (List.mem_singleton.mp h)
          · rcases ih h with h | ⟨m, hm, ha⟩
            · exact .inl h
            · exact .inr ⟨m, List.mem_cons_of_mem _ hm, ha⟩

theorem flatMap_intercalate {α β : Type} (f : α → List β) {sep : α} {sep' : β} (hsep : f sep = [sep'])
    (ls : List (List α)) :
    ([sep].intercalate ls).flatMap f = [sep'].intercalate (ls.map fun l => l.flatMap f) := by
  induction ls with
  | nil => rfl
  | cons l ls ih =>
      cases ls with
      | nil => rw [List.intercalate_singleton, List.map_cons, List.map_nil, List.intercalate_singleton]
      | cons l' ls =>
          rw [List.intercalate_cons_cons, List.map_cons, List.map_cons, List.intercalate_cons_cons,
            List.flatMap_append, List.flatMap_append, ih, List.flatMap_singleton, hsep, List.map_cons]

/-- Without a colon there is no drive. -/
theorem linkStart_of_no_colon {flags : UInt32} {w : List UInt16} (h : (0x3a : UInt16) ∉ w) :
    linkStart flags w = ([], w) := by
  unfold linkStart
  split
  · simp at h
  · rfl

section Components

variable {s : SymbolicLink} {cs : List (List UInt16)} (h : NamesComponents s cs)

include h

theorem NamesComponents.shownName_eq : s.shownName = [0x5c].intercalate cs := by
  have hne : s.printName ≠ [] := by
    rw [h.print]
    cases cs with
    | nil => exact absurd rfl h.nonempty
    | cons c cs =>
        have hc := (h.component c List.mem_cons_self).1
        cases cs with
        | nil =>
            rw [List.intercalate_singleton]
            exact hc
        | cons c' cs =>
            rw [List.intercalate_cons_cons]
            simp [hc]
  rw [SymbolicLink.shownName, if_neg hne, h.print]

theorem NamesComponents.target_eq :
    s.target = [slash].intercalate (cs.map fun c => c.flatMap linkUnit) := by
  have hcolon : (0x3a : UInt16) ∉ [0x5c].intercalate cs := by
    intro hmem
    rcases mem_intercalate hmem with hsep | ⟨c, hc, hu⟩
    · exact absurd hsep (by decide)
    · exact ((h.component c hc).2 _ hu).ne.2 rfl
  rw [SymbolicLink.target, h.shownName_eq, linkStart_of_no_colon hcolon, List.nil_append]
  exact flatMap_intercalate linkUnit (by decide) cs

/-- Between the slashes stand the components as the link decoder spells them. -/
theorem NamesComponents.split_eq :
    s.target.splitOn slash = cs.map fun c => c.flatMap linkUnit := by
  rw [h.target_eq]
  refine List.splitOn_intercalate slash (fun l hl hslash => ?_) (by simpa using h.nonempty)
  obtain ⟨c, hc, rfl⟩ := List.mem_map.mp hl
  have hlegal := (h.component c hc).2
  rw [flatMap_linkUnit fun u hu => (hlegal u hu).ne.1,
    mem_flatMap_utf8_ascii (fun cp hcp => ?_) (by decide)] at hslash
  · obtain ⟨u, hu, heq⟩ := List.mem_map.mp hslash
    exact (hlegal u hu).2 (UInt16.toNat_inj.mp heq)
  · obtain ⟨u, _, rfl⟩ := List.mem_map.mp hcp
    have hlt := u.toNat_lt
    omega

end Components

/-- The names that a directory listing shows are the spellings. -/
theorem names_eq_spelled {cs : List (List UInt16)} {names : List Bytes}
    (h : List.Forall₂ (fun c n => nameFromWide c 256 = some n) cs names) : names = cs.map spelled := by
  induction h with
  | nil => rfl
  | cons hname _ ih =>
      rw [nameFromWide_eq _ (by decide)] at hname
      split_ifs at hname
      rw [List.map_cons, ← ih, Option.some.inj hname]

/-- A Windows link names component by component what a listing shows, exactly if each component is
plain. -/
theorem link_names_components_iff {nt : NtObjects η σ} {l : η} {x y : σ} {s : SymbolicLink}
    {cs : List (List UInt16)} {names : List Bytes} (h : NamesComponents s cs)
    (hnames : List.Forall₂ (fun c n => nameFromWide c 256 = some n) cs names)
    (hget : (nt.getReparse l).run x = (.ok (.symlink s), y)) :
    (∃ t, (hfsReadlink nt l).run x = (.ok t, y) ∧ t.splitOn slash = names) ↔ ∀ c ∈ cs, Plain c := by
  have hread : (hfsReadlink nt l).run x = (.ok (linkText s), y) := by
    rw [hfsReadlink, run_bind, run_withErrno, hget]
    rfl
  have hcomp : (∀ c ∈ cs, Plain c) ↔ ∀ c ∈ cs, c.flatMap linkUnit = spelled c := by
    refine forall₂_congr fun c hc => ?_
    exact (flatMap_linkUnit_eq_spelled_iff fun u hu => ((h.component c hc).2 u hu).ne.1).symm
  rw [names_eq_spelled hnames, hread, hcomp, ← List.map_inj_left, ← h.split_eq, ← linkText_eq_target h.fits]
  constructor
  · rintro ⟨t, ht, hsplit⟩
    cases ht
    exact hsplit
  · intro hsplit
    exact ⟨_, rfl, hsplit⟩

def relativeLink (w : List UInt16) : SymbolicLink :=
  ⟨0, 0, 0, UInt16.ofNat (2 * w.length), 1, w⟩

def oneLinkNt (rp : Reparse) : NtObjects Unit Unit where
  create _ _ _ _ _ := throw .accessDenied
  setReparse _ _ := throw .accessDenied
  getReparse _ := pure rp
  setDisposition _ := throw .accessDenied
  setCaseSensitive _ := throw .accessDenied
  setEa _ _ := throw .accessDenied
  close _ := pure ()

def plainLink : SymbolicLink := relativeLink [0x64, 0x5c, 0xe9]

theorem plainLink_names :
    ∃ t, (hfsReadlink (oneLinkNt (.symlink plainLink)) ()).run () = (.ok t, ()) ∧
      t.splitOn slash = [[0x64], [0xc3, 0xa9]] := by
  have hlink : NamesComponents plainLink [[0x64], [0xe9]] :=
    ⟨by decide, by decide, by simp [LegalUnit, refused], by decide⟩
  refine (link_names_components_iff hlink (.cons (by decide +kernel) (.cons (by decide +kernel) .nil)) rfl).mpr ?_
  intro c hc
  rcases List.mem_cons.mp hc with rfl | hc
  · exact ⟨List.IsChain.singleton _, by simp⟩
  · rw [List.mem_singleton.mp hc]
    exact ⟨List.IsChain.singleton _, by simp⟩

def pairLink : SymbolicLink := relativeLink [0xd83d, 0xde00]

/-- The listing shows four bytes, the link names six. -/
theorem pairLink_names_another :
    NamesComponents pairLink [[0xd83d, 0xde00]] ∧
      nameFromWide [0xd83d, 0xde00] 256 = some [0xf0, 0x9f, 0x98, 0x80] ∧
      ∃ t, (hfsReadlink (oneLinkNt (.symlink pairLink)) ()).run () = (.ok t, ()) ∧
        t.splitOn slash = [[0xed, 0xa0, 0xbd, 0xed, 0xb8, 0x80]] ∧
        t.splitOn slash ≠ [[0xf0, 0x9f, 0x98, 0x80]] := by
  refine ⟨⟨by decide, by decide, by simp [LegalUnit, refused], by decide⟩, by decide +kernel, _, rfl, ?_⟩
  decide

end SysvNt
