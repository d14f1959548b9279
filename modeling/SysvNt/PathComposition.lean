import SysvNt.CreateExisting
import SysvNt.WorkingDirectory

/-!
# Paths in parts

In a tree that does not change, a path through a directory leads where the rest of the path leads from
that directory, unless it meets one of the walk's bounds: the links of both parts count together, and so do
the lengths. Where a walk has led leads to itself.
-/

namespace SysvNt

namespace Resolver

/-- An answer, or a refusal that comes of its bounds. -/
def UpToBounds {α : Type} (e r : Except Errno α) : Prop := e = r ∨ e = .error .ELOOP ∨ e = .error .ENAMETOOLONG

theorem UpToBounds.refl {α : Type} (e : Except Errno α) : UpToBounds e e := .inl rfl

theorem UpToBounds.trans {α : Type} {e r r' : Except Errno α} (h : UpToBounds e r) (h' : UpToBounds r r') :
    UpToBounds e r' := by
  rcases h with rfl | h
  · exact h'
  · exact .inr h

theorem UpToBounds.map {α β : Type} {e r : Except Errno α} (f : α → β) (h : UpToBounds e r) :
    UpToBounds (e.map f) (r.map f) := by
  rcases h with rfl | rfl | rfl
  · exact .refl _
  · exact .inr (.inl rfl)
  · exact .inr (.inr rfl)

section Parts

variable {T : Tree} {L : Limits} {r : Request}

theorem resolveWith_upTo {follow follow' : List Bytes → Comp → List Comp → Except Errno Found}
    (hfollow : ∀ dir c cs, UpToBounds (follow dir c cs) (follow' dir c cs)) (dir : List Bytes) (cs : List Comp) :
    UpToBounds (resolveWith T L r follow dir cs) (resolveWith T L r follow' dir cs) := by
  induction cs generalizing dir with
  | nil => exact .refl _
  | cons c cs ih =>
      rw [resolveWith, resolveWith]
      split_ifs
      · exact .refl _
      · exact ih dir
      · exact ih dir.dropLast
      · exact .refl _
      · exact .refl _
      · exact ih (dir ++ [c.name])
      · cases T.stat (dir ++ [c.name]) with
        | error e => exact .refl _
        | ok st =>
            dsimp only
            split_ifs
            · exact hfollow dir c cs
            · exact .refl _
            · exact ih (dir ++ [c.name])

/-- Fewer links give the same answer or run out. -/
theorem resolve_fewer {n m : ℕ} (hle : n ≤ m) (dir : List Bytes) (cs : List Comp) :
    UpToBounds (resolve T L r n dir cs) (resolve T L r m dir cs) := by
  induction n generalizing m dir cs with
  | zero =>
      cases m with
      | zero => exact .refl _
      | succ m => exact resolveWith_upTo (fun _ _ _ => .inr (.inl rfl)) dir cs
  | succ n ih =>
      cases m with
      | zero => omega
      | succ m =>
          refine resolveWith_upTo (fun dir c cs => ?_) dir cs
          rw [followLink, followLink]
          cases T.readlink (dir ++ [c.name]) with
          | error e => exact .refl _
          | ok target =>
              dsimp only
              split_ifs
              · exact .refl _
              · exact .refl _
              · exact ih (Nat.le_of_succ_le_succ hle) _ _
              · exact ih (Nat.le_of_succ_le_succ hle) _ _

theorem names_shift (k : ℕ) (cs : List Comp) : (cs.map (Comp.shift k)).map Comp.name = cs.map Comp.name := by
  rw [List.map_map]
  rfl

/-- Components that lead to the directory `d`, in front of others: what holds of the others from there, and of
each link on the way, holds of them all. -/
theorem resolveWith_through {r' : Request} (hpar : r'.parent = false) (hlinks : r'.nofollow = false) {d : List Bytes}
    (hd : ∃ st, T.stat d = .ok st ∧ isDir st.mode = true) {ds : List Comp} (hds : ds ≠ [])
    {follow follow' : List Bytes → Comp → List Comp → Except Errno Found} {P : Except Errno Found → Prop}
    (hrest : P (resolveWith T L r follow' d ds))
    (hfollow : ∀ dir c c' cs cs', c'.name = c.name → cs'.map Comp.name = cs.map Comp.name →
      follow dir c cs = .ok ⟨d, []⟩ → P (follow' dir c' (cs' ++ ds))) {dir : List Bytes} {cs cs' : List Comp}
    (hnames : cs'.map Comp.name = cs.map Comp.name) (h : resolveWith T L r' follow dir cs = .ok ⟨d, []⟩) :
    P (resolveWith T L r follow' dir (cs' ++ ds)) := by
  induction cs generalizing dir cs' with
  | nil =>
      obtain rfl : cs' = [] := by simpa using hnames
      have hdir : d = dir := congrArg Found.dir (finish_found hpar h)
      rw [← hdir]
      exact hrest
  | cons c cs ih =>
      obtain ⟨c', cs', rfl, hc, hnames⟩ : ∃ c₁ cs₁, cs' = c₁ :: cs₁ ∧ c₁.name = c.name ∧
          cs₁.map Comp.name = cs.map Comp.name := by
        cases cs' with
        | nil => cases hnames
        | cons c₁ cs₁ => exact ⟨c₁, cs₁, rfl, (List.cons.inj hnames).1, (List.cons.inj hnames).2⟩
      have hmore : cs' ++ ds ≠ [] := by simp [hds]
      rw [resolveWith] at h
      rw [List.cons_append, resolveWith, hc, if_neg (c := cs' ++ ds = [] ∧ _) fun hn => hmore hn.1]
      rw [if_neg (c := cs = [] ∧ _) fun hp => by rw [hpar] at hp; cases hp.2] at h
      split_ifs at h ⊢
      · exact ih hnames h
      · exact ih hnames h
      · exact ih hnames h
      · cases hst : T.stat (dir ++ [c.name]) with
        | error e =>
            rw [hst] at h
            cases h
        | ok st =>
            rw [hst] at h
            dsimp only at h ⊢
            by_cases hlnk : isLnk st.mode = true
            · rw [if_pos ⟨hlnk, .inr (.inl hlinks)⟩] at h
              rw [if_pos ⟨hlnk, .inl hmore⟩]
              exact hfollow dir c c' cs cs' hc hnames h
            · rw [if_neg fun hl => hlnk hl.1] at h ⊢
              by_cases hdir : isDir st.mode = true
              · rw [if_neg fun hn => by rw [hdir] at hn; cases hn.2] at h ⊢
                exact ih hnames h
              · rw [Bool.not_eq_true] at hdir
                by_cases hcs : cs = []
                · rw [if_neg fun hn => hn.1 hcs, hcs] at h
                  obtain rfl : d = dir ++ [c.name] := congrArg Found.dir (finish_found hpar h)
                  obtain ⟨st', hst', hdir'⟩ := hd
                  obtain rfl : st = st' := Except.ok.inj (hst.symm.trans hst')
                  rw [hdir] at hdir'
                  cases hdir'
                · rw [if_pos ⟨hcs, hdir⟩] at h
                  cases h

/-- The rest is resolved from the directory `d`, with `n` links at most. -/
def Passes (T : Tree) (L : Limits) (r : Request) (d : List Bytes) (ds : List Comp) (n : ℕ)
    (e : Except Errno Found) : Prop :=
  ∃ k ≤ n, UpToBounds e (resolve T L r k d ds)

/-- The components that lead to a directory, in front of others: these are resolved from there, with the links
that are left. -/
theorem resolve_through {r' : Request} (hpar : r'.parent = false) (hlinks : r'.nofollow = false) {d : List Bytes}
    (hd : ∃ st, T.stat d = .ok st ∧ isDir st.mode = true) {ds : List Comp} (hds : ds ≠ []) {m n : ℕ} (hle : n ≤ m)
    {dir : List Bytes} {cs cs' : List Comp} (hnames : cs'.map Comp.name = cs.map Comp.name)
    (h : resolve T L r' m dir cs = .ok ⟨d, []⟩) : Passes T L r d ds n (resolve T L r n dir (cs' ++ ds)) := by
  induction m generalizing n dir cs cs' with
  | zero =>
      obtain rfl : n = 0 := Nat.le_zero.mp hle
      refine resolveWith_through (P := Passes T L r d ds 0) hpar hlinks hd hds ⟨0, le_rfl, .refl _⟩
        (fun dir c c' cs cs' hc hcs hl => ?_) hnames h
      cases hl
  | succ m ih =>
      cases n with
      | zero =>
          refine resolveWith_through (P := Passes T L r d ds 0) hpar hlinks hd hds ⟨0, le_rfl, .refl _⟩
            (fun dir c c' cs cs' hc hcs hl => ?_) hnames h
          exact ⟨0, le_rfl, .inr (.inl rfl)⟩
      | succ n =>
          refine resolveWith_through (P := Passes T L r d ds (n + 1)) hpar hlinks hd hds ⟨n + 1, le_rfl, .refl _⟩
            (fun dir c c' cs cs' hc hcs hl => ?_) hnames h
          obtain ⟨target, htarget, hgood, -, hl⟩ := followLink_ok hl
          rw [followLink, hc, htarget]
          dsimp only
          rw [if_neg hgood]
          by_cases htext : L.text (target.length + c'.after) = true
          · rw [if_pos htext]
            exact ⟨0, Nat.zero_le _, .inr (.inr rfl)⟩
          · rw [if_neg htext, ← List.append_assoc]
            have hnames : ((comps target).map (Comp.shift c'.after) ++ cs').map Comp.name =
                ((comps target).map (Comp.shift c.after) ++ cs).map Comp.name := by
              rw [List.map_append, List.map_append, names_shift, names_shift, hcs]
            obtain ⟨k, hk, hrest⟩ := ih (Nat.le_of_succ_le_succ hle) hnames hl
            exact ⟨k, by omega, hrest⟩

/-- A text that leads to a directory, a slash and a text from there: the whole leads where the second leads from
the directory, up to the bounds. -/
theorem resolvePath_join {r' : Request} (hpar : r'.parent = false) (hlinks : r'.nofollow = false)
    {start d : List Bytes} (hd : ∃ st, T.stat d = .ok st ∧ isDir st.mode = true) {p q : Bytes}
    (h : resolvePath T L r' start p = .ok ⟨d, []⟩) (hq : q ≠ []) (hrel : q.head? ≠ some slash)
    (hgiven : L.given q.length = true → L.given (p ++ slash :: q).length = true) :
    UpToBounds (resolvePath T L r start (p ++ slash :: q)) (resolvePath T L r d q) := by
  have hp : p ≠ [] := by
    rintro rfl
    cases h
  have hds : comps q ≠ [] := by
    obtain ⟨c, t, rfl⟩ := List.exists_cons_of_ne_nil hq
    exact comps_cons_ne_nil t fun hc => hrel (by rw [hc]; rfl)
  have hhead : (p ++ slash :: q).head? = p.head? := by
    obtain ⟨c, t, rfl⟩ := List.exists_cons_of_ne_nil hp
    rfl
  rw [resolvePath, if_neg (by simp), hhead]
  by_cases hlong : L.given (p ++ slash :: q).length = true
  · rw [if_pos hlong]
    exact .inr (.inr rfl)
  have hshort : ¬ L.given q.length = true := fun hl => hlong (hgiven hl)
  rw [if_neg hlong, comps_append p (slash :: q) (.inr rfl), comps_slash]
  by_cases hp' : L.given p.length = true
  · rw [resolvePath, if_neg hp, if_pos hp'] at h
    cases h
  rw [resolvePath, if_neg hp, if_neg hp'] at h
  obtain ⟨k, hk, hrest⟩ := resolve_through (r := r) hpar hlinks hd hds le_rfl (names_shift _ _) h
  rw [resolvePath, if_neg hq, if_neg hshort, if_neg hrel]
  exact hrest.trans (resolve_fewer hk d (comps q))

end Parts

def Clean (cs : List Comp) : Prop := ∀ c ∈ cs, 0 ∉ c.name

theorem clean_comps {s : Bytes} (hs : 0 ∉ s) : Clean (comps s) := by
  induction s with
  | nil => exact fun c hc => absurd hc List.not_mem_nil
  | cons b s ih =>
      have hb : 0 ∉ [b] := fun h => hs (List.mem_singleton.mp h ▸ List.mem_cons_self)
      have hrest := ih fun h => hs (List.mem_cons_of_mem b h)
      intro c hc
      rw [comps] at hc
      split_ifs at hc
      · exact hrest c hc
      · cases hcs : comps s with
        | nil =>
            rw [hcs, joinByte, List.mem_singleton] at hc
            rw [hc]
            exact hb
        | cons n ns =>
            rw [hcs] at hrest
            rw [hcs, joinByte] at hc
            split_ifs at hc
            · rcases List.mem_cons.mp hc with rfl | hc
              · exact hb
              · exact hrest c hc
            · rcases List.mem_cons.mp hc with rfl | hc
              · exact fun h => (List.mem_cons.mp h).elim (fun h => hb (h ▸ List.mem_cons_self))
                  (hrest n List.mem_cons_self)
              · exact hrest c (List.mem_cons_of_mem n hc)

theorem Clean.shift_append {cs ds : List Comp} (hcs : Clean cs) (hds : Clean ds) (k : ℕ) :
    Clean (cs.map (Comp.shift k) ++ ds) := by
  intro c hc
  rcases List.mem_append.mp hc with hc | hc
  · obtain ⟨d, hd, rfl⟩ := List.mem_map.mp hc
    exact hcs d hd
  · exact hds c hc

/-- A name that resolution goes into, of a mount point or of an object. -/
structure Passed (T : Tree) (L : Limits) (ns : List Bytes) (n : Bytes) : Prop where
  text : 0 ∉ n
  named : L.name n.length = false
  ne_dot : n ≠ dot
  ne_dotdot : n ≠ dotdot
  fits : L.path (render (ns ++ [n])).length = false
  there : T.mounted (ns ++ [n]) = true ∨ ∃ st, T.stat (ns ++ [n]) = .ok st

structure Entered (T : Tree) (L : Limits) (ns : List Bytes) (n : Bytes) : Prop extends Passed T L ns n where
  isDir : T.mounted (ns ++ [n]) = true ∨ ∃ st, T.stat (ns ++ [n]) = .ok st ∧ isDir st.mode = true

def Stands (T : Tree) (L : Limits) (dir : List Bytes) : Prop := ∀ ns n, ns ++ [n] <+: dir → Entered T L ns n

/-- Each name of the path is entered but the last, which is passed. -/
def Reached (T : Tree) (L : Limits) (dir : List Bytes) : Prop :=
  Stands T L dir ∨ ∃ ns n, dir = ns ++ [n] ∧ Stands T L ns ∧ Passed T L ns n

section Standing

variable {T : Tree} {L : Limits} {r : Request} {dir : List Bytes}

theorem Stands.nil : Stands T L [] := by
  intro ns n h
  simpa using List.prefix_nil.mp h

theorem Stands.snoc (h : Stands T L dir) {n : Bytes} (hn : Entered T L dir n) : Stands T L (dir ++ [n]) := by
  intro ns m hpre
  rcases List.prefix_concat_iff.mp hpre with he | hpre
  · obtain ⟨rfl, rfl⟩ : ns = dir ∧ m = n := by simpa using he
    exact hn
  · exact h ns m hpre

theorem Stands.of_prefix (h : Stands T L dir) {ns : List Bytes} (hpre : ns <+: dir) : Stands T L ns :=
  fun ms n hn => h ms n (hn.trans hpre)

theorem resolveWith_reached {follow : List Bytes → Comp → List Comp → Except Errno Found}
    (hfollow : ∀ dir c cs f, Stands T L dir → Clean cs → follow dir c cs = .ok f → Reached T L f.dir) {cs : List Comp}
    {f : Found} (hs : Stands T L dir) (hclean : Clean cs) (h : resolveWith T L r follow dir cs = .ok f) :
    Reached T L f.dir := by
  induction cs generalizing dir with
  | nil =>
      rw [resolveWith] at h
      by_cases hpar : r.parent = true
      · rw [finish, if_pos hpar] at h
        cases h
      · obtain rfl := finish_found (by simpa using hpar) h
        exact .inl hs
  | cons c cs ih =>
      have htext := hclean c List.mem_cons_self
      have hrest : Clean cs := fun d hd => hclean d (List.mem_cons_of_mem c hd)
      rw [resolveWith] at h
      split_ifs at h with hname hdot hdotdot hparent hfits hmount
      · exact ih hs hrest h
      · exact ih (hs.of_prefix (List.dropLast_prefix dir)) hrest h
      · obtain ⟨rfl, -⟩ := demandDirectory_ok h
        exact .inl hs
      · have hpass : Passed T L dir c.name :=
          ⟨htext, by simpa using hname, hdot, hdotdot, by simpa using hfits, .inl hmount⟩
        exact ih (hs.snoc ⟨hpass, .inl hmount⟩) hrest h
      · cases hst : T.stat (dir ++ [c.name]) with
        | error e =>
            rw [hst] at h
            cases h
        | ok st =>
            rw [hst] at h
            dsimp only at h
            have hpass : Passed T L dir c.name :=
              ⟨htext, by simpa using hname, hdot, hdotdot, by simpa using hfits, .inr ⟨st, hst⟩⟩
            split_ifs at h with hlnk hdir
            · exact hfollow dir c cs f hs hrest h
            · by_cases hcs : cs = []
              · rw [hcs, resolveWith] at h
                obtain rfl := finish_found (by simpa using fun hp => hparent ⟨hcs, hp⟩) h
                exact .inr ⟨dir, c.name, rfl, hs, hpass⟩
              · refine ih (hs.snoc ⟨hpass, .inr ⟨st, hst, ?_⟩⟩) hrest h
                simpa using fun hd => hdir ⟨hcs, hd⟩

theorem resolve_reached (hnul : ∀ ns t, T.readlink ns = .ok t → 0 ∉ t) {n : ℕ} {cs : List Comp} {f : Found}
    (hs : Stands T L dir) (hclean : Clean cs) (h : resolve T L r n dir cs = .ok f) : Reached T L f.dir := by
  induction n generalizing dir cs f with
  | zero => exact resolveWith_reached (fun _ _ _ _ _ _ hl => by cases hl) hs hclean h
  | succ n ih =>
      refine resolveWith_reached (fun dir c cs f hs hclean hl => ?_) hs hclean h
      obtain ⟨target, htarget, -, -, hl⟩ := followLink_ok hl
      have hclean' := (clean_comps (hnul _ _ htarget)).shift_append hclean c.after
      split_ifs at hl
      · exact ih .nil hclean' hl
      · exact ih hs hclean' hl

theorem Reached.text (h : Reached T L dir) : ∀ n ∈ dir, 0 ∉ n := by
  have hstands : ∀ dir, Stands T L dir → ∀ n ∈ dir, 0 ∉ n := by
    intro dir hs n hn
    obtain ⟨ns, ms, rfl⟩ := List.append_of_mem hn
    exact (hs ns n (by simp)).text
  rcases h with hs | ⟨ns, x, rfl, hs, hpass⟩
  · exact hstands dir hs
  · intro n hn
    rcases List.mem_append.mp hn with hn | hn
    · exact hstands ns hs n hn
    · rw [List.mem_singleton.mp hn]
      exact hpass.text

/-- Names that are entered one after the other lead to where they stand. -/
theorem resolve_entered (hpar : r.parent = false) (n : ℕ) {cs : List Comp} (ds : List Comp)
    (hs : Stands T L (dir ++ cs.map Comp.name)) :
    resolve T L r n dir (cs ++ ds) = resolve T L r n (dir ++ cs.map Comp.name) ds := by
  induction cs generalizing dir with
  | nil => simp
  | cons c cs ih =>
      have hcat : dir ++ (c :: cs).map Comp.name = (dir ++ [c.name]) ++ cs.map Comp.name := by simp
      rw [hcat] at hs ⊢
      have hin := hs dir c.name (List.prefix_append _ _)
      rw [← ih hs, List.cons_append, resolve_cons, hin.named, hin.fits, hpar, if_neg Bool.false_ne_true,
        if_neg hin.ne_dot, if_neg hin.ne_dotdot, if_neg fun hp => Bool.false_ne_true hp.2, if_neg Bool.false_ne_true]
      by_cases hmount : T.mounted (dir ++ [c.name]) = true
      · rw [if_pos hmount]
      · obtain ⟨st, hst, hdir⟩ := hin.isDir.resolve_left hmount
        rw [if_neg hmount, hst]
        dsimp only
        rw [isLnk_eq_false_of_isDir hdir, if_neg fun hl => Bool.false_ne_true hl.1, hdir,
          if_neg fun hd => Bool.false_ne_true hd.2.symm]

/-- The last name too, if it is no link or links are left alone. -/
theorem resolve_passed (hpar : r.parent = false) (hslash : r.slashed = false) (n : ℕ) {c : Comp}
    (hpass : Passed T L dir c.name)
    (hlink : r.nofollow = true ∨ ∀ st, T.stat (dir ++ [c.name]) = .ok st → isLnk st.mode = false) :
    resolve T L r n dir [c] = finish T r (dir ++ [c.name]) := by
  rw [resolve_cons, hpass.named, hpass.fits, hpar, if_neg Bool.false_ne_true, if_neg hpass.ne_dot,
    if_neg hpass.ne_dotdot, if_neg fun hp => Bool.false_ne_true hp.2, if_neg Bool.false_ne_true, resolve_nil]
  by_cases hmount : T.mounted (dir ++ [c.name]) = true
  · rw [if_pos hmount]
  · obtain ⟨st, hst⟩ := hpass.there.resolve_left hmount
    rw [if_neg hmount, hst]
    dsimp only
    rw [hslash, if_neg, if_neg fun hd => hd.1 rfl]
    rintro ⟨hlnk, hcs | hfollow | hf⟩
    · exact hcs rfl
    · rw [(hlink.resolve_left (by rw [hfollow]; exact Bool.false_ne_true)) st hst] at hlnk
      cases hlnk
    · cases hf

/-- Where a walk has led leads to itself. -/
theorem resolve_again (hpar : r.parent = false) (hslash : r.slashed = false) (hdemand : r.demand = false) (n : ℕ)
    (hreached : Reached T L dir)
    (hlink : r.nofollow = true ∨ ∀ st, T.stat dir = .ok st → isLnk st.mode = false) {cs : List Comp}
    (hnames : cs.map Comp.name = dir) : resolve T L r n [] cs = .ok ⟨dir, []⟩ := by
  have hend : finish T r dir = .ok ⟨dir, []⟩ := by
    rw [finish, hpar, hdemand]
    rfl
  rcases hreached with hs | ⟨ns, x, rfl, hs, hpass⟩
  · have hin : Stands T L ([] ++ cs.map Comp.name) := by rwa [List.nil_append, hnames]
    have hall := resolve_entered hpar n [] hin
    rw [List.append_nil] at hall
    rw [hall, List.nil_append, hnames, resolve_nil, hend]
  · obtain ⟨cs, c, rfl, hcs, rfl⟩ : ∃ cs₁ c₁, cs = cs₁ ++ [c₁] ∧ cs₁.map Comp.name = ns ∧ c₁.name = x := by
      obtain ⟨cs₁, cs₂, rfl, h₁, h₂⟩ := List.map_eq_append_iff.mp hnames
      obtain ⟨c₁, rfl, hc⟩ := List.map_eq_singleton_iff.mp h₂
      exact ⟨cs₁, c₁, rfl, h₁, hc⟩
    have hin : Stands T L ([] ++ cs.map Comp.name) := by rwa [List.nil_append, hcs]
    rw [resolve_entered hpar n [c] hin, List.nil_append, hcs, resolve_passed hpar hslash n hpass hlink, hend]

end Standing

theorem names_render {ns : List Bytes} (hv : ValidNames ns) : (comps (render ns)).map Comp.name = ns := by
  have hflat : (comps (ns.flatMap (slash :: ·))).map Comp.name = ns := by
    induction ns with
    | nil => rfl
    | cons n ns ih =>
        have hn := hv n List.mem_cons_self
        have hend : AtEnd (ns.flatMap (slash :: ·)) := by
          cases ns with
          | nil => exact .inl rfl
          | cons m ms => exact .inr rfl
        rw [List.flatMap_cons, List.cons_append, comps_slash, comps_component n _ hn.ne_nil hn.slash_not_mem hend,
          List.map_cons, ih fun m hm => hv m (List.mem_cons_of_mem n hm)]
  cases ns with
  | nil => rfl
  | cons n ns => exact hflat

end Resolver

open FallibleCalls Resolver

variable {η : Type}

/-- Paths one after the other, each a directory and taken from the one before. -/
inductive Descends (K : Kernel η Unit) (fs : FsCtx η) : Bytes → List Bytes → Bytes → Prop
  | here (d : Bytes) : Descends K fs d [] d
  | down {d c p : Bytes} {ps : List Bytes} {loc : VfsLoc η}
      (step : answer (walkPath K fs (some d) p W_MUSTDIR) = .ok loc) (rest : Descends K fs loc.abs ps c) :
      Descends K fs d (p :: ps) c

def joined (ps : List Bytes) (q : Bytes) : Bytes := ps.foldr (fun p t => p ++ slash :: t) q

section Text

variable {p q : Bytes}

theorem cstr_join (hp : 0 ∉ p) (q : Bytes) : cstr (p ++ slash :: q) = p ++ slash :: cstr q := by
  have htext : ∀ c ∈ p, decide (c ≠ 0) = true := by
    intro c hc
    rw [decide_eq_true_eq]
    rintro rfl
    exact hp hc
  rw [cstr, List.takeWhile_append_of_pos htext]
  rfl

theorem head_cstr (hrel : q.head? ≠ some slash) : (cstr q).head? ≠ some slash := by
  cases q with
  | nil => exact hrel
  | cons c t =>
      rw [cstr, List.takeWhile_cons]
      split_ifs
      · exact hrel
      · exact fun h => by cases h

theorem hasTrailing_join (hq : q ≠ []) (hrel : q.head? ≠ some slash) :
    hasTrailing (p ++ slash :: q) = hasTrailing q := by
  obtain ⟨c, t, rfl⟩ := List.exists_cons_of_ne_nil hq
  have hlast : (p ++ slash :: c :: t).getLast? = (c :: t).getLast? := by
    rw [List.getLast?_append_of_ne_nil _ (List.cons_ne_nil _ _), List.getLast?_cons_cons]
  have hlong : 1 < (p ++ slash :: c :: t).length := by
    rw [List.length_append, List.length_cons, List.length_cons]
    omega
  rw [hasTrailing, hasTrailing, hlast, decide_eq_true hlong]
  cases t with
  | nil =>
      have hc : c ≠ slash := fun hc => hrel (by rw [hc]; rfl)
      simp [hc]
  | cons c' t => simp

theorem zero_not_mem_render {ns : List Bytes} (h : ∀ n ∈ ns, 0 ∉ n) : 0 ∉ render ns := by
  cases ns with
  | nil => decide
  | cons n ns =>
      intro h0
      obtain ⟨m, hm, h0⟩ := List.mem_flatMap.mp h0
      rcases List.mem_cons.mp h0 with h0 | h0
      · cases h0
      · exact h m hm h0

theorem hasTrailing_render {ns : List Bytes} (hv : ValidNames ns) : hasTrailing (render ns) = false := by
  rcases List.eq_nil_or_concat ns with rfl | ⟨ms, n, rfl⟩
  · rfl
  · rw [List.concat_eq_append] at hv ⊢
    have hn := hv n (by simp)
    rw [render_snoc, hasTrailing_join hn.ne_nil]
    · have hlast : n.getLast? ≠ some slash := fun hl => hn.slash_not_mem (List.mem_of_getLast? hl)
      simp [hasTrailing, hlast]
    · exact fun hh => hn.slash_not_mem (List.mem_of_mem_head? hh)

end Text

section Walks

variable {K : Kernel η Unit} {fs : FsCtx η}

/-- The tree of a host that does not change, and its stat. -/
theorem hostTree_stat {d : Bytes} (hd : Canonical d) :
    (hostTree K fs).stat (namesOf d) = answer (statAbs K fs d) :=
  congrArg (fun abs => answer (statAbs K fs abs)) hd.names.2

variable (hnul : LinksAreText K fs)

include hnul

theorem walkPath_found {d p : Bytes} (hd : Canonical d) {wflags : UInt32} {loc : VfsLoc η}
    (h : answer (walkPath K fs (some d) p wflags) = .ok loc) :
    ∃ f, resolvePath (hostTree K fs) bufferLimits (requestOf wflags (hasTrailing (cstr p))) (namesOf d) (cstr p) =
      .ok f ∧ loc = toLoc fs f ∧ f.dir = namesOf loc.abs := by
  have hbase : Canonical ((some d).getD fs.cwd) := hd
  rw [walkPath_answer hnul hbase] at h
  cases hres : resolvePath (hostTree K fs) bufferLimits (requestOf wflags (hasTrailing (cstr p))) (namesOf d)
      (cstr p) with
  | error e =>
      rw [Option.getD_some, hres] at h
      cases h
  | ok f =>
      rw [Option.getD_some, hres] at h
      cases h
      have hstart : ValidNames (startOf (namesOf d) (cstr p)) := by
        rw [startOf]
        split_ifs
        · exact ValidNames.nil
        · exact hd.names.1
      have hwhole := hres
      rw [resolvePath_ok hres] at hres
      have hv := (resolve_valid _ _ _ _ hstart (proper_comps _) hres).1
      exact ⟨f, rfl, rfl, (namesOf_render hv).symm⟩

/-- A directory that a walk has led to. -/
theorem walkPath_directory {d p : Bytes} (hd : Canonical d) {loc : VfsLoc η}
    (h : answer (walkPath K fs (some d) p W_MUSTDIR) = .ok loc) :
    Canonical loc.abs ∧ resolvePath (hostTree K fs) bufferLimits (requestOf W_MUSTDIR (hasTrailing (cstr p)))
        (namesOf d) (cstr p) = .ok ⟨namesOf loc.abs, []⟩ ∧
      ∃ st, (hostTree K fs).stat (namesOf loc.abs) = .ok st ∧ isDir st.mode = true := by
  have hbase : Canonical ((some d).getD fs.cwd) := hd
  have hwalk : walk (absStore K fs) fs (some d) p W_MUSTDIR () = (.ok loc, ()) := Prod.ext h rfl
  have hgood := walk_good hbase hwalk
  obtain ⟨f, hres, rfl, hdir⟩ := walkPath_found hnul hd h
  have hlast : f.last = [] := hgood.last_nil (by decide)
  refine ⟨hgood.canonical, ?_, ?_⟩
  · rw [hres, ← hdir, ← hlast]
  · rw [hostTree_stat hgood.canonical]
    exact walk_mustdir (by decide) (by decide) hwalk

/-- A path in two parts. -/
theorem walkPath_join {d p q : Bytes} (hd : Canonical d) (hp : 0 ∉ p) (hq : cstr q ≠ [])
    (hrel : q.head? ≠ some slash) {loc : VfsLoc η} (h : answer (walkPath K fs (some d) p W_MUSTDIR) = .ok loc)
    (wflags : UInt32) :
    UpToBounds (answer (walkPath K fs (some d) (p ++ slash :: q) wflags))
      (answer (walkPath K fs (some loc.abs) q wflags)) := by
  obtain ⟨habs, hres, hst⟩ := walkPath_directory hnul hd h
  have hhead := head_cstr hrel
  have hbase : Canonical ((some d).getD fs.cwd) := hd
  have hbase' : Canonical ((some loc.abs).getD fs.cwd) := habs
  rw [walkPath_answer hnul hbase, walkPath_answer hnul hbase', cstr_join hp,
    hasTrailing_join hq hhead]
  rw [cstr_of_not_mem hp] at hres
  refine (resolvePath_join rfl rfl hst hres hq hhead fun hlong => ?_).map (toLoc fs)
  simp only [bufferLimits, decide_eq_true_eq] at hlong ⊢
  rw [List.length_append, List.length_cons]
  omega

omit hnul in
theorem joined_text {ps : List Bytes} {q : Bytes} (hps : ∀ p ∈ ps, p ≠ [] ∧ p.head? ≠ some slash ∧ 0 ∉ p)
    (hq : cstr q ≠ [] ∧ q.head? ≠ some slash) :
    cstr (joined ps q) ≠ [] ∧ (joined ps q).head? ≠ some slash := by
  cases ps with
  | nil => exact hq
  | cons p ps =>
      obtain ⟨hne, hrel, hp⟩ := hps p List.mem_cons_self
      rw [joined, List.foldr_cons, cstr_join hp]
      obtain ⟨c, t, rfl⟩ := List.exists_cons_of_ne_nil hne
      exact ⟨List.cons_ne_nil _ _, hrel⟩

/-- A path through directories leads where its last part leads from the directory that the others have led to,
unless it meets a bound of the walk. -/
theorem walkPath_joined {d c p : Bytes} {ps : List Bytes} (hd : Canonical d) (h : Descends K fs d (p :: ps) c)
    (hp : 0 ∉ p) (hps : ∀ p ∈ ps, p ≠ [] ∧ p.head? ≠ some slash ∧ 0 ∉ p) {q : Bytes} (hq : cstr q ≠ [])
    (hrel : q.head? ≠ some slash) (wflags : UInt32) :
    UpToBounds (answer (walkPath K fs (some d) (joined (p :: ps) q) wflags))
      (answer (walkPath K fs (some c) q wflags)) := by
  induction ps generalizing d p with
  | nil =>
      cases h with
      | down step rest =>
          cases rest
          exact walkPath_join hnul hd hp hq hrel step wflags
  | cons p' ps ih =>
      cases h with
      | down step rest =>
          obtain ⟨htext, hhead⟩ := joined_text hps ⟨hq, hrel⟩
          have hrest := ih (walkPath_directory hnul hd step).1 rest (hps p' List.mem_cons_self).2.2
            fun p hp => hps p (List.mem_cons_of_mem p' hp)
          exact (walkPath_join hnul hd hp htext hhead step wflags).trans hrest

theorem walkPath_reached {d p : Bytes} (hd : Canonical d) (hs : Stands (hostTree K fs) bufferLimits (namesOf d))
    {wflags : UInt32} {loc : VfsLoc η} (h : answer (walkPath K fs (some d) p wflags) = .ok loc) :
    Reached (hostTree K fs) bufferLimits (namesOf loc.abs) := by
  obtain ⟨f, hres, -, hdir⟩ := walkPath_found hnul hd h
  rw [resolvePath_ok hres] at hres
  rw [← hdir]
  refine resolve_reached (fun ns t ht => hnul _ t ht) ?_ (clean_comps (zero_not_mem_cstr p)) hres
  rw [startOf]
  split_ifs
  · exact .nil
  · exact hs

/-- Directories that are reached from one that stands where it is stand where they are. -/
theorem Descends.stands {ps : List Bytes} {d c : Bytes} (h : Descends K fs d ps c) (hd : Canonical d)
    (hs : Stands (hostTree K fs) bufferLimits (namesOf d)) :
    Canonical c ∧ Stands (hostTree K fs) bufferLimits (namesOf c) := by
  induction h with
  | here d => exact ⟨hd, hs⟩
  | down step rest ih =>
      obtain ⟨habs, -, st, hst, hdir⟩ := walkPath_directory hnul hd step
      refine ih habs ?_
      rcases walkPath_reached hnul hd hs step with hs | ⟨ns, n, he, hs, hpass⟩
      · exact hs
      · rw [he] at hst ⊢
        exact hs.snoc ⟨hpass, .inr ⟨st, hst, hdir⟩⟩

/-- In a tree that does not change, where a walk from a directory has led leads to itself. -/
theorem walkPath_again {ps : List Bytes} {c : Bytes} (hc : Descends K fs [slash] ps c) {q : Bytes} {wflags : UInt32}
    {loc : VfsLoc η} (h : answer (walkPath K fs (some c) q wflags) = .ok loc) {base : Option Bytes}
    (hbase : Canonical (base.getD fs.cwd)) {wflags' : UInt32} (hpar : has wflags' W_PARENT = false)
    (hmust : has wflags' W_MUSTDIR = false) (hlink : has wflags' W_NOFOLLOW = true ∨
      ∀ st, answer (statAbs K fs loc.abs) = .ok st → isLnk st.mode = false) :
    answer (walkPath K fs base loc.abs wflags') = .ok { loc with last := [] } := by
  obtain ⟨hcanon, hs⟩ := hc.stands hnul .root .nil
  have hstart : Canonical ((some c).getD fs.cwd) := hcanon
  have hwalk : walk (absStore K fs) fs (some c) q wflags () = (.ok loc, ()) := Prod.ext h rfl
  have hgood := walk_good hstart hwalk
  have hreached := walkPath_reached hnul hcanon hs h
  obtain ⟨hv, hrender⟩ := hgood.canonical.names
  have hzero : 0 ∉ loc.abs := by
    rw [← hrender]
    exact zero_not_mem_render hreached.text
  have hloc : { loc with last := [] } = toLoc fs ⟨namesOf loc.abs, []⟩ := by
    rw [toLoc, locAt, hrender, ← hgood.m_eq, ← hgood.rel_eq]
  have hlink' : (requestOf wflags' false).nofollow = true ∨
      ∀ st, (hostTree K fs).stat (namesOf loc.abs) = .ok st → isLnk st.mode = false := by
    rw [hostTree_stat hgood.canonical]
    exact hlink
  have hagain := resolve_again (r := requestOf wflags' false) hpar rfl (by rw [requestOf, hmust]; rfl) 40 hreached
    hlink' (names_render hv)
  have habs : loc.abs ≠ [] ∧ loc.abs.head? = some slash := by
    rw [← hrender]
    exact ⟨fun hnil => by simpa [hnil] using render_head (namesOf loc.abs), render_head _⟩
  have hshort : ¬ bufferLimits.given loc.abs.length = true := by
    obtain ⟨-, -, -, hlen⟩ := hgood.canonical
    simpa [bufferLimits] using hlen
  have htrail : hasTrailing loc.abs = false := by
    rw [← hrender]
    exact hasTrailing_render hv
  rw [walkPath_answer hnul hbase, cstr_of_not_mem hzero, htrail, hloc, resolvePath, if_neg habs.1, if_neg hshort,
    if_pos habs.2]
  rw [hrender] at hagain
  rw [hagain]
  rfl

end Walks

/-- `/proc/self`, in two steps. -/
theorem proc_self_descends : Descends oneFileKernel oneFileCtx [slash] [str "proc", str "self"] (str "/proc/1") := by
  have hproc : answer (walkPath oneFileKernel oneFileCtx (some [slash]) (str "proc") W_MUSTDIR) =
      .ok (locAt oneFileCtx (str "/proc") []) := rfl
  have hself : answer (walkPath oneFileKernel oneFileCtx (some (str "/proc")) (str "self") W_MUSTDIR) =
      .ok (locAt oneFileCtx (str "/proc/1") []) := rfl
  exact .down hproc (.down hself (.here _))

theorem f_below_proc_self :
    UpToBounds (answer (walkPath oneFileKernel oneFileCtx (some [slash]) (str "proc/self/../../f") 0))
      (answer (walkPath oneFileKernel oneFileCtx (some (str "/proc/1")) (str "../../f") 0)) := by
  refine walkPath_joined oneFile_links .root proc_self_descends (by decide) (fun p hp => ?_) (q := str "../../f")
    (by decide) (by decide) 0
  rw [List.mem_singleton.mp hp]
  decide

theorem f_found_again :
    answer (walkPath oneFileKernel oneFileCtx none (str "/f") 0) = .ok (locAt oneFileCtx (str "/f") []) := by
  have hfound : answer (walkPath oneFileKernel oneFileCtx (some (str "/proc/1")) (str "../../f") 0) =
      .ok (locAt oneFileCtx (str "/f") []) := rfl
  have hcwd : Canonical ((none : Option Bytes).getD oneFileCtx.cwd) := .root
  refine walkPath_again oneFile_links proc_self_descends hfound hcwd (by decide) (by decide) (.inr fun st hst => ?_)
  cases hst
  decide

end SysvNt
