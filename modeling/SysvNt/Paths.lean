import Mathlib.Data.List.Basic
import Mathlib.Data.List.TakeWhile
import Mathlib.Tactic
import SysvNt.Abi

/-!
# Path arithmetic over canonical absolute paths

`path_parent`, `path_join` and `strrchr` as the C computes them on strings, and the
canonical paths they are meant for: `render ns` spells a list of names as an absolute
path, and every operation is a list operation under that spelling.
-/

namespace SysvNt

def slash : UInt8 := 0x2f
def dot : Bytes := [0x2e]
def dotdot : Bytes := [0x2e, 0x2e]

def strrchr : Bytes → UInt8 → Option ℕ
  | [], _ => none
  | x :: xs, c => match strrchr xs c with
    | some i => some (i + 1)
    | none => if x = c then some 0 else none

/-- `path_parent`: cut at the last slash, keeping the root's own. -/
def pathParent (abs : Bytes) : Bytes :=
  match strrchr abs slash with
  | none => abs.take 1
  | some 0 => abs.take 1
  | some (i + 1) => abs.take (i + 1)

def pathJoin (cap : ℕ) (dir name : Bytes) : Except Errno Bytes :=
  if dir.length + 1 + name.length + 1 > cap then .error .ENAMETOOLONG
  else if dir.length = 1 ∧ dir.head? = some slash then .ok (slash :: name)
  else .ok (dir ++ slash :: name)

def lastName (abs : Bytes) : Bytes :=
  match strrchr abs slash with
  | none => []
  | some i => abs.drop (i + 1)

/-- The absolute spelling of a list of names; the root is the empty list. -/
def render : List Bytes → Bytes
  | [] => [slash]
  | n :: ns => (n :: ns).flatMap (slash :: ·)

structure ValidName (n : Bytes) : Prop where
  ne_nil : n ≠ []
  slash_not_mem : slash ∉ n
  ne_dot : n ≠ dot
  ne_dotdot : n ≠ dotdot

def ValidNames (ns : List Bytes) : Prop := ∀ n ∈ ns, ValidName n

/-- An absolute path of ordinary components that fits its buffer. -/
def Canonical (abs : Bytes) : Prop :=
  ∃ ns, ValidNames ns ∧ abs = render ns ∧ abs.length < PATH_MAX

theorem ValidNames.nil : ValidNames [] := by
  intro n hn
  cases hn

theorem ValidNames.snoc {ns : List Bytes} {n : Bytes} (hns : ValidNames ns) (hn : ValidName n) :
    ValidNames (ns ++ [n]) := by
  intro m hm
  rcases List.mem_append.mp hm with h | h
  · exact hns m h
  · rw [List.mem_singleton] at h
    exact h ▸ hn

theorem ValidNames.dropLast {ns : List Bytes} (hns : ValidNames ns) : ValidNames ns.dropLast :=
  fun n hn => hns n (List.mem_of_mem_dropLast hn)

@[simp] theorem render_nil : render [] = [slash] := rfl

@[simp] theorem render_singleton (n : Bytes) : render [n] = slash :: n := by simp [render]

theorem render_eq_flatMap {ns : List Bytes} (h : ns ≠ []) :
    render ns = ns.flatMap (slash :: ·) := by
  cases ns with
  | nil => exact absurd rfl h
  | cons n ns => rfl

theorem render_snoc (ns : List Bytes) (n : Bytes) :
    render (ns ++ [n]) = ns.flatMap (slash :: ·) ++ slash :: n := by
  rw [render_eq_flatMap (by simp)]
  simp

theorem render_snoc_of_ne {ns : List Bytes} (h : ns ≠ []) (n : Bytes) :
    render (ns ++ [n]) = render ns ++ slash :: n := by
  rw [render_snoc, render_eq_flatMap h]

theorem render_head (ns : List Bytes) : (render ns).head? = some slash := by
  cases ns <;> rfl

theorem strrchr_of_not_mem {c : UInt8} {xs : Bytes} (h : c ∉ xs) : strrchr xs c = none := by
  induction xs with
  | nil => rfl
  | cons x xs ih =>
      have hx : x ≠ c := fun he => h (he ▸ List.mem_cons_self)
      have hxs : c ∉ xs := fun he => h (List.mem_cons_of_mem _ he)
      simp only [strrchr, ih hxs, if_neg hx]

theorem strrchr_append_cons {c : UInt8} (a : Bytes) {n : Bytes} (h : c ∉ n) :
    strrchr (a ++ c :: n) c = some a.length := by
  induction a with
  | nil => simp [strrchr, strrchr_of_not_mem h]
  | cons x a ih => simp [strrchr, ih]

theorem pathParent_render_nil : pathParent (render []) = render [] := by decide

theorem pathParent_render_snoc (ns : List Bytes) {n : Bytes} (h : slash ∉ n) :
    pathParent (render (ns ++ [n])) = render ns := by
  rw [render_snoc, pathParent, strrchr_append_cons _ h]
  cases ns with
  | nil => rfl
  | cons m ms =>
      rw [render_eq_flatMap (List.cons_ne_nil m ms)]
      simp only [List.flatMap_cons, List.cons_append, List.length_cons, List.take_succ_cons]
      rw [List.take_append_of_le_length le_rfl, List.take_length]

theorem pathParent_render {ns : List Bytes} (h : ValidNames ns) :
    pathParent (render ns) = render ns.dropLast := by
  rcases List.eq_nil_or_concat ns with rfl | ⟨ms, m, rfl⟩
  · exact pathParent_render_nil
  · rw [List.concat_eq_append] at h ⊢
    rw [List.dropLast_concat]
    exact pathParent_render_snoc ms (h m (by simp)).slash_not_mem

theorem lastName_render_snoc (ns : List Bytes) {n : Bytes} (h : slash ∉ n) :
    lastName (render (ns ++ [n])) = n := by
  rw [render_snoc, lastName, strrchr_append_cons _ h]
  simp [List.drop_append]

theorem length_render_snoc_of_ne {ns : List Bytes} (h : ns ≠ []) (n : Bytes) :
    (render (ns ++ [n])).length = (render ns).length + 1 + n.length := by
  rw [render_snoc_of_ne h]
  simp
  omega

theorem length_render_of_ne {ns : List Bytes} (hv : ValidNames ns) (h : ns ≠ []) :
    2 ≤ (render ns).length := by
  cases ns with
  | nil => exact absurd rfl h
  | cons n ns =>
      have hn := List.length_pos_of_ne_nil (hv n (by simp)).ne_nil
      simp only [render, List.flatMap_cons, List.cons_append, List.length_cons, List.length_append]
      omega

theorem pathJoin_ok {cap : ℕ} {ns : List Bytes} {n abs : Bytes} (hv : ValidNames ns)
    (h : pathJoin cap (render ns) n = .ok abs) :
    abs = render (ns ++ [n]) ∧ abs.length < cap := by
  unfold pathJoin at h
  split_ifs at h with hcap hroot
  · have hns : ns = [] := by
      by_contra hne
      have := length_render_of_ne hv hne
      omega
    subst hns
    have he : slash :: n = abs := Except.ok.inj h
    subst abs
    refine ⟨(render_singleton n).symm, ?_⟩
    simp only [render_nil, List.length_cons, List.length_nil] at hcap ⊢
    omega
  · have hns : ns ≠ [] := by
      rintro rfl
      exact hroot ⟨rfl, rfl⟩
    have he : render ns ++ slash :: n = abs := Except.ok.inj h
    subst abs
    refine ⟨(render_snoc_of_ne hns n).symm, ?_⟩
    simp only [List.length_append, List.length_cons]
    omega

/-- A name of at most `NAME_MAX` bytes joins exactly when the spelled result fits. -/
theorem pathJoin_render {ns : List Bytes} {n : Bytes} (hv : ValidNames ns)
    (hn : n.length ≤ NAME_MAX) :
    pathJoin PATH_MAX (render ns) n =
      if PATH_MAX ≤ (render (ns ++ [n])).length then .error .ENAMETOOLONG
      else .ok (render (ns ++ [n])) := by
  simp only [NAME_MAX] at hn
  by_cases hns : ns = []
  · subst hns
    have h1 : ¬ (render []).length + 1 + n.length + 1 > PATH_MAX := by
      simp only [render_nil, List.length_cons, List.length_nil, PATH_MAX]
      omega
    have h2 : ¬ PATH_MAX ≤ (render ([] ++ [n])).length := by
      simp only [List.nil_append, render_singleton, List.length_cons, PATH_MAX]
      omega
    rw [pathJoin, if_neg h1, if_neg h2, if_pos ⟨rfl, rfl⟩, List.nil_append, render_singleton]
  · have hlen := length_render_snoc_of_ne hns n
    have hroot : ¬ ((render ns).length = 1 ∧ (render ns).head? = some slash) := by
      have := length_render_of_ne hv hns
      rintro ⟨h, _⟩
      omega
    rw [pathJoin, if_neg hroot, render_snoc_of_ne hns]
    rw [render_snoc_of_ne hns] at hlen
    by_cases hc : PATH_MAX ≤ (render ns ++ slash :: n).length
    · rw [if_pos hc, if_pos (by omega)]
    · rw [if_neg hc, if_neg (by omega)]

theorem Canonical.root : Canonical [slash] :=
  ⟨[], ValidNames.nil, rfl, by decide⟩

/-- A path of one ordinary component. -/
theorem Canonical.single {n : Bytes} (hn : n ≠ [] ∧ slash ∉ n ∧ n ≠ dot ∧ n ≠ dotdot)
    (hlen : n.length + 1 < PATH_MAX) : Canonical (slash :: n) := by
  refine ⟨[n], ?_, (render_singleton n).symm, by simpa using hlen⟩
  intro m hm
  rw [List.mem_singleton] at hm
  exact hm ▸ ⟨hn.1, hn.2.1, hn.2.2.1, hn.2.2.2⟩

theorem Canonical.pathParent {abs : Bytes} (h : Canonical abs) : Canonical (pathParent abs) := by
  obtain ⟨ns, hv, rfl, hlen⟩ := h
  refine ⟨ns.dropLast, hv.dropLast, pathParent_render hv, ?_⟩
  rw [SysvNt.pathParent]
  split <;> simp only [List.length_take] <;> omega

theorem Canonical.pathJoin {dir name abs : Bytes} (hd : Canonical dir) (hn : ValidName name)
    (h : pathJoin PATH_MAX dir name = .ok abs) : Canonical abs := by
  obtain ⟨ns, hv, rfl, _⟩ := hd
  obtain ⟨rfl, hlen⟩ := pathJoin_ok hv h
  exact ⟨ns ++ [name], hv.snoc hn, rfl, hlen⟩

end SysvNt
