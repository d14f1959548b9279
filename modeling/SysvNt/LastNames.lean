import SysvNt.Resolver

/-!
# The last name of a path

Resolving a path to the parent of its last name and resolving it all the way take the same steps
up to that name: from there the second goes on with the one component that is left, and with
what is left of its links. A shorter text behind a component never turns an answer into an
error.
-/

namespace SysvNt.Resolver

variable {T : Tree} {L : Limits}

/-- The name that a walk to the parent stops at, and the directory it stops in. -/
structure StopsAt (T : Tree) (L : Limits) (dir : List Bytes) (c : Comp) : Prop where
  name : L.name c.name.length = false
  ne_dot : c.name ≠ dot
  ne_dotdot : c.name ≠ dotdot
  isDir : ∃ st, T.stat dir = .ok st ∧ isDir st.mode = true

theorem demandDirectory_ok {f g : Found} (h : demandDirectory T f = .ok g) :
    g = f ∧ ∃ st, T.stat f.dir = .ok st ∧ isDir st.mode = true := by
  rw [demandDirectory] at h
  cases hst : T.stat f.dir with
  | error e => rw [hst] at h; cases h
  | ok st =>
      rw [hst] at h
      dsimp only at h
      split_ifs at h with hdir
      cases h
      exact ⟨rfl, st, rfl, hdir⟩

theorem followLink_ok {next : List Bytes → List Comp → Except Errno Found} {dir : List Bytes}
    {c : Comp} {cs : List Comp} {f : Found} (h : followLink T L next dir c cs = .ok f) :
    ∃ target, T.readlink (dir ++ [c.name]) = .ok target ∧
      ¬ (target = [] ∨ L.target target.length = true) ∧ L.text (target.length + c.after) = false ∧
      next (if target.head? = some slash then [] else dir)
        ((comps target).map (Comp.shift c.after) ++ cs) = .ok f := by
  rw [followLink] at h
  cases hr : T.readlink (dir ++ [c.name]) with
  | error e => rw [hr] at h; cases h
  | ok target =>
      rw [hr] at h
      dsimp only at h
      by_cases hlen : target = [] ∨ L.target target.length = true
      · rw [if_pos hlen] at h
        cases h
      rw [if_neg hlen] at h
      cases htext : L.text (target.length + c.after) with
      | true => rw [htext, if_pos rfl] at h; cases h
      | false =>
          rw [htext, if_neg Bool.false_ne_true] at h
          exact ⟨target, rfl, hlen, htext, h⟩

theorem followLink_eq {next : List Bytes → List Comp → Except Errno Found} {dir : List Bytes}
    {c : Comp} {cs : List Comp} {target : Bytes} (hr : T.readlink (dir ++ [c.name]) = .ok target)
    (hlen : ¬ (target = [] ∨ L.target target.length = true))
    (htext : L.text (target.length + c.after) = false) :
    followLink T L next dir c cs = next (if target.head? = some slash then [] else dir)
      ((comps target).map (Comp.shift c.after) ++ cs) := by
  rw [followLink, hr]
  dsimp only
  rw [if_neg hlen, htext, if_neg Bool.false_ne_true]

/-- A component that a walk can pass, whatever is asked of it. -/
structure Passable (L : Limits) (dir : List Bytes) (c : Comp) : Prop where
  name : L.name c.name.length = false
  ne_dot : c.name ≠ dot
  ne_dotdot : c.name ≠ dotdot
  path : L.path (render (dir ++ [c.name])).length = false

/-- A name that is not the last is passed in the same way whatever is asked. -/
theorem resolve_passing (r : Request) (n : ℕ) {dir : List Bytes} {b : Comp} {cs : List Comp}
    (h : Passable L dir b) (hcs : cs ≠ []) :
    resolve T L r n dir (b :: cs) =
      if T.mounted (dir ++ [b.name]) then resolve T L r n (dir ++ [b.name]) cs
      else match T.stat (dir ++ [b.name]) with
        | .error e => .error e
        | .ok st =>
          if isLnk st.mode then followWithin T L r n dir b cs
          else if isDir st.mode then resolve T L r n (dir ++ [b.name]) cs
          else .error .ENOTDIR := by
  have hlast : ¬ (cs = [] ∧ r.parent = true) := fun hr => hcs hr.1
  rw [resolve_cons, h.name, h.path, if_neg Bool.false_ne_true, if_neg h.ne_dot, if_neg h.ne_dotdot,
    if_neg hlast, if_neg Bool.false_ne_true]
  cases T.mounted (dir ++ [b.name]) with
  | true => rfl
  | false =>
      rw [if_neg Bool.false_ne_true, if_neg Bool.false_ne_true]
      cases T.stat (dir ++ [b.name]) with
      | error e => rfl
      | ok st => cases hl : isLnk st.mode <;> cases hd : isDir st.mode <;> simp [hl, hd, hcs]

/-- What a request of the object does with one name left. -/
theorem resolve_last {r : Request} (hp : r.parent = false) (n : ℕ) {dir : List Bytes} {c : Comp}
    (h : StopsAt T L dir c) :
    resolve T L r n dir [c] =
      if L.path (render (dir ++ [c.name])).length then .error .ENAMETOOLONG
      else if T.mounted (dir ++ [c.name]) then finish T r (dir ++ [c.name])
      else match T.stat (dir ++ [c.name]) with
        | .error e => .error e
        | .ok st =>
          if isLnk st.mode = true ∧ (r.nofollow = false ∨ r.slashed = true) then
            followWithin T L r n dir c []
          else finish T r (dir ++ [c.name]) := by
  have hlast : ¬ (([] : List Comp) = [] ∧ r.parent = true) := by
    rw [hp]
    exact fun h => Bool.false_ne_true h.2
  rw [resolve_cons, h.name, if_neg Bool.false_ne_true, if_neg h.ne_dot, if_neg h.ne_dotdot,
    if_neg hlast, resolve_nil]
  cases T.stat (dir ++ [c.name]) with
  | error e => rfl
  | ok st => simp only [ne_eq, not_true_eq_false, false_or, false_and, if_false]

/-- The rest of a path after some links: the name `c` in `D` is left once `used` links have been
followed, whatever is asked of the object; with fewer links there is no answer. -/
structure LeavesName (T : Tree) (L : Limits) (dir : List Bytes) (cs : List Comp) (used : ℕ)
    (D : List Bytes) (c : Comp) : Prop where
  stops : StopsAt T L D c
  enough : ∀ r : Request, r.parent = false → ∀ j, used ≤ j →
    resolve T L r j dir cs = resolve T L r (j - used) D [c]
  tooFew : ∀ r : Request, r.parent = false → ∀ j, j < used →
    resolve T L r j dir cs = .error .ELOOP

/-- What is left after a step that costs no link. -/
theorem LeavesName.step {dir dir' : List Bytes} {b : Comp} {cs : List Comp} {used : ℕ}
    {D : List Bytes} {c : Comp} (h : LeavesName T L dir' cs used D c)
    (hstep : ∀ (r : Request) (j : ℕ), resolve T L r j dir (b :: cs) = resolve T L r j dir' cs) :
    LeavesName T L dir (b :: cs) used D c :=
  ⟨h.stops, fun r hr j hj => (hstep r j).trans (h.enough r hr j hj),
    fun r hr j hj => (hstep r j).trans (h.tooFew r hr j hj)⟩

/-- What is left after a link. -/
theorem LeavesName.link {dir dir' : List Bytes} {b : Comp} {cs cs' : List Comp} {used : ℕ}
    {D : List Bytes} {c : Comp} (h : LeavesName T L dir' cs' used D c)
    (hzero : ∀ r : Request, resolve T L r 0 dir (b :: cs) = .error .ELOOP)
    (hstep : ∀ (r : Request) (j : ℕ), resolve T L r (j + 1) dir (b :: cs) = resolve T L r j dir' cs') :
    LeavesName T L dir (b :: cs) (used + 1) D c := by
  refine ⟨h.stops, fun r hr j hj => ?_, fun r hr j hj => ?_⟩
  · cases j with
    | zero => omega
    | succ j => rw [hstep, h.enough r hr j (by omega), Nat.add_sub_add_right]
  · cases j with
    | zero => exact hzero r
    | succ j => rw [hstep, h.tooFew r hr j (by omega)]

/-- A walk to the parent that comes to the name `c` in `D` leaves just that name to any request of
the object itself. -/
theorem resolve_of_parent {rp : Request} (hp : rp.parent = true) (n : ℕ) (dir : List Bytes)
    (cs : List Comp) {D : List Bytes} {c : Bytes} (h : resolve T L rp n dir cs = .ok ⟨D, c⟩) :
    ∃ used a, LeavesName T L dir cs used D ⟨c, a⟩ := by
  induction n using Nat.strong_induction_on generalizing dir cs with
  | _ n ihn =>
      induction cs generalizing dir with
      | nil =>
          rw [resolve_nil, finish, if_pos hp] at h
          cases h
      | cons b cs ih =>
          have hcons := h
          rw [resolve_cons] at h
          by_cases hname : L.name b.name.length = true
          · rw [if_pos hname] at h
            cases h
          rw [if_neg hname] at h
          by_cases hdot : b.name = dot
          · rw [if_pos hdot] at h
            obtain ⟨used, a, hleft⟩ := ih dir h
            refine ⟨used, a, hleft.step fun r j => ?_⟩
            rw [resolve_cons, if_neg hname, if_pos hdot]
          rw [if_neg hdot] at h
          by_cases hdotdot : b.name = dotdot
          · rw [if_pos hdotdot] at h
            obtain ⟨used, a, hleft⟩ := ih dir.dropLast h
            refine ⟨used, a, hleft.step fun r j => ?_⟩
            rw [resolve_cons, if_neg hname, if_neg hdot, if_pos hdotdot]
          rw [if_neg hdotdot] at h
          by_cases hlast : cs = []
          · rw [if_pos ⟨hlast, hp⟩] at h
            obtain ⟨he, hdir⟩ := demandDirectory_ok h
            cases he
            subst hlast
            exact ⟨0, b.after, ⟨by simpa using hname, hdot, hdotdot, hdir⟩, fun r _ j _ => rfl,
              fun r _ j hj => absurd hj (Nat.not_lt_zero j)⟩
          have hnot : ¬ (cs = [] ∧ rp.parent = true) := fun hr => hlast hr.1
          rw [if_neg hnot] at h
          by_cases hpath : L.path (render (dir ++ [b.name])).length = true
          · rw [if_pos hpath] at h
            cases h
          have hpass : Passable L dir b :=
            ⟨by simpa using hname, hdot, hdotdot, by simpa using hpath⟩
          have hsame := fun r j => resolve_passing (T := T) r j hpass hlast
          rw [hsame] at hcons
          cases hmount : T.mounted (dir ++ [b.name]) with
          | true =>
              simp only [hmount, if_true] at hcons hsame
              obtain ⟨used, a, hleft⟩ := ih (dir ++ [b.name]) hcons
              exact ⟨used, a, hleft.step hsame⟩
          | false =>
              simp only [hmount, Bool.false_eq_true, if_false] at hcons hsame
              cases hst : T.stat (dir ++ [b.name]) with
              | error e => rw [hst] at hcons; cases hcons
              | ok st =>
                  simp only [hst] at hcons hsame
                  cases hlnk : isLnk st.mode with
                  | true =>
                      simp only [hlnk, if_true] at hcons hsame
                      cases n with
                      | zero => cases hcons
                      | succ n =>
                          obtain ⟨target, hr, hlen, htext, hnext⟩ := followLink_ok hcons
                          obtain ⟨used, a, hleft⟩ := ihn n (Nat.lt_succ_self n) _ _ hnext
                          refine ⟨used + 1, a, hleft.link (fun r => hsame r 0) fun r j => ?_⟩
                          rw [hsame, followWithin, followLink_eq hr hlen htext]
                  | false =>
                      simp only [hlnk, Bool.false_eq_true, if_false] at hcons hsame
                      cases hdir : isDir st.mode with
                      | false => rw [hdir] at hcons; cases hcons
                      | true =>
                          simp only [hdir, if_true] at hcons hsame
                          obtain ⟨used, a, hleft⟩ := ih (dir ++ [b.name]) hcons
                          exact ⟨used, a, hleft.step hsame⟩

def Shorter (c c' : Comp) : Prop := c.name = c'.name ∧ c.after ≤ c'.after

theorem shorter_shift (k : ℕ) (cs : List Comp) :
    List.Forall₂ Shorter cs (cs.map (Comp.shift k)) := by
  induction cs with
  | nil => exact .nil
  | cons c cs ih => exact .cons ⟨rfl, Nat.le_add_right _ _⟩ ih

theorem shorter_shift_shift {j k : ℕ} (h : j ≤ k) (cs : List Comp) :
    List.Forall₂ Shorter (cs.map (Comp.shift j)) (cs.map (Comp.shift k)) := by
  induction cs with
  | nil => exact .nil
  | cons c cs ih => exact .cons ⟨rfl, Nat.add_le_add_left h _⟩ ih

theorem shorter_append {cs cs' ds ds' : List Comp} (h : List.Forall₂ Shorter cs cs')
    (h' : List.Forall₂ Shorter ds ds') : List.Forall₂ Shorter (cs ++ ds) (cs' ++ ds') := by
  induction h with
  | nil => exact h'
  | cons hc _ ih => exact .cons hc ih

/-- What is resolved with more text behind the names is resolved with less. -/
theorem resolve_shorter (htext : ∀ i j, i ≤ j → L.text j = false → L.text i = false) (r : Request)
    (n : ℕ) (dir : List Bytes) {cs cs' : List Comp} (hcs : List.Forall₂ Shorter cs cs') {f : Found}
    (h : resolve T L r n dir cs' = .ok f) : resolve T L r n dir cs = .ok f := by
  induction n using Nat.strong_induction_on generalizing dir cs cs' with
  | _ n ihn =>
      induction hcs generalizing dir with
      | nil => exact h
      | @cons c c' cs cs' hc hcs ih =>
          obtain ⟨name, after⟩ := c
          obtain ⟨name', after'⟩ := c'
          obtain ⟨rfl, hafter⟩ := hc
          dsimp only at hafter
          have hnil : cs = [] ↔ cs' = [] := by
            cases hcs <;> simp
          rw [resolve_cons] at h ⊢
          dsimp only at h ⊢
          simp only [ne_eq, hnil]
          split_ifs at h ⊢ with h1 h2 h3 h4 h5 h6
          · exact ih dir h
          · exact ih _ h
          · exact h
          · exact ih _ h
          · cases hst : T.stat (dir ++ [name]) with
            | error e => rw [hst] at h; cases h
            | ok st =>
                rw [hst] at h
                dsimp only at h ⊢
                split_ifs at h ⊢ with h7 h8
                · cases n with
                  | zero => exact h
                  | succ n =>
                      obtain ⟨target, hr, hlen, ht, h⟩ := followLink_ok h
                      have ht' := htext (target.length + after) (target.length + after') (by omega) ht
                      rw [followWithin, followLink_eq (c := ⟨name, after⟩) hr hlen ht']
                      exact ihn n (Nat.lt_succ_self n) _
                        (shorter_append (shorter_shift_shift hafter _) hcs) h
                · exact ih _ h

def Proper (cs : List Comp) : Prop := ∀ c ∈ cs, c.name ≠ [] ∧ slash ∉ c.name

theorem proper_joinByte {c : UInt8} (hc : c ≠ slash) (s : Bytes) {cs : List Comp} (h : Proper cs) :
    Proper (joinByte c s cs) := by
  have hone : [c] ≠ [] ∧ slash ∉ [c] := ⟨List.cons_ne_nil _ _, by simpa using Ne.symm hc⟩
  intro d hd
  cases cs with
  | nil =>
      rw [joinByte, List.mem_singleton] at hd
      rw [hd]
      exact hone
  | cons n ns =>
      rw [joinByte] at hd
      split_ifs at hd
      · rcases List.mem_cons.mp hd with rfl | hd
        · exact hone
        · exact h d hd
      · rcases List.mem_cons.mp hd with rfl | hd
        · have hn := (h n List.mem_cons_self).2
          exact ⟨List.cons_ne_nil _ _, by simpa [Ne.symm hc] using hn⟩
        · exact h d (List.mem_cons_of_mem _ hd)

theorem proper_comps (s : Bytes) : Proper (comps s) := by
  induction s with
  | nil => exact fun c hc => absurd hc List.not_mem_nil
  | cons c s ih =>
      rw [comps]
      split_ifs with hc
      · exact ih
      · exact proper_joinByte hc s ih

theorem Proper.shift_append {cs ds : List Comp} (hcs : Proper cs) (hds : Proper ds) (k : ℕ) :
    Proper (cs.map (Comp.shift k) ++ ds) := by
  intro c hc
  rcases List.mem_append.mp hc with hc | hc
  · obtain ⟨d, hd, rfl⟩ := List.mem_map.mp hc
    exact hcs d hd
  · exact hds c hc

/-- Resolving from a directory of ordinary names ends at one. -/
theorem resolve_valid (r : Request) (n : ℕ) (dir : List Bytes) (cs : List Comp)
    (hdir : ValidNames dir) (hcs : Proper cs) {f : Found} (h : resolve T L r n dir cs = .ok f) :
    ValidNames f.dir ∧ (r.parent = true → ValidName f.last) := by
  induction n using Nat.strong_induction_on generalizing dir cs with
  | _ n ihn =>
      induction cs generalizing dir with
      | nil =>
          rw [resolve_nil, finish] at h
          split_ifs at h with hp hd
          · obtain ⟨rfl, _⟩ := demandDirectory_ok h
            exact ⟨hdir, fun hp' => absurd hp' hp⟩
          · cases h
            exact ⟨hdir, fun hp' => absurd hp' hp⟩
      | cons c cs ih =>
          have hc := hcs c List.mem_cons_self
          have hcs' : Proper cs := fun d hd => hcs d (List.mem_cons_of_mem _ hd)
          rw [resolve_cons] at h
          split_ifs at h with h1 h2 h3 h4 h5 h6
          · exact ih dir hdir hcs' h
          · exact ih dir.dropLast hdir.dropLast hcs' h
          · obtain ⟨rfl, _⟩ := demandDirectory_ok h
            exact ⟨hdir, fun _ => ⟨hc.1, hc.2, h2, h3⟩⟩
          · exact ih _ (hdir.snoc ⟨hc.1, hc.2, h2, h3⟩) hcs' h
          · cases hst : T.stat (dir ++ [c.name]) with
            | error e => rw [hst] at h; cases h
            | ok st =>
                rw [hst] at h
                dsimp only at h
                split_ifs at h with h7 h8
                · cases n with
                  | zero => cases h
                  | succ n =>
                      obtain ⟨target, _, _, _, h⟩ := followLink_ok h
                      refine ihn n (Nat.lt_succ_self n) _ _ ?_ ((proper_comps target).shift_append hcs' _) h
                      split_ifs
                      · exact ValidNames.nil
                      · exact hdir
                · exact ih _ (hdir.snoc ⟨hc.1, hc.2, h2, h3⟩) hcs' h

end SysvNt.Resolver
