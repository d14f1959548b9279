import Mathlib.Data.List.Induction
import Mathlib.Data.Option.Basic
import Mathlib.Tactic.Common

/-!
# Trees of names

Directories hold names of objects, other directories among them. `follow` goes from an object along
a list of names. In a rooted tree each directory has one name and no directory is its own ancestor,
so that only one list of names leads from the root to it. Moving a name keeps a tree without cycles
as long as nothing is moved below itself.
-/

namespace SysvNt.NameTrees

variable {ι κ : Type*}

abbrev Names (ι κ : Type*) := ι → κ → Option ι

def follow (T : Names ι κ) : ι → List κ → Option ι
  | i, [] => some i
  | i, n :: ns => (T i n).bind fun j => follow T j ns

theorem follow_append (T : Names ι κ) (i : ι) (ps qs : List κ) :
    follow T i (ps ++ qs) = (follow T i ps).bind fun j => follow T j qs := by
  induction ps generalizing i with
  | nil => rfl
  | cons n ps ih =>
      rw [List.cons_append, follow, follow]
      cases T i n with
      | none => rfl
      | some j => exact ih j

theorem follow_snoc (T : Names ι κ) (i : ι) (ps : List κ) (n : κ) :
    follow T i (ps ++ [n]) = (follow T i ps).bind fun j => T j n := by
  rw [follow_append]
  cases follow T i ps with
  | none => rfl
  | some j =>
      change (T j n).bind some = T j n
      cases T j n <;> rfl

theorem follow_snoc_eq_some {T : Names ι κ} {i k : ι} {ps : List κ} {n : κ}
    (h : follow T i (ps ++ [n]) = some k) : ∃ j, follow T i ps = some j ∧ T j n = some k := by
  rw [follow_snoc] at h
  exact Option.bind_eq_some_iff.mp h

def Acyclic (T : Names ι κ) : Prop := ∀ i ps, ps ≠ [] → follow T i ps ≠ some i

/-- A tree below a root: names are in directories, and each directory but the root has one name. -/
structure Rooted (T : Names ι κ) (dir : ι → Prop) (root : ι) : Prop where
  root_dir : dir root
  parent_dir : ∀ {d n i}, T d n = some i → dir d
  one_name : ∀ {d e n m i}, dir i → T d n = some i → T e m = some i → d = e ∧ n = m
  root_unnamed : ∀ d n, T d n ≠ some root
  acyclic : Acyclic T

section Rooted

variable {T : Names ι κ} {dir : ι → Prop} {root : ι} (hT : Rooted T dir root)

include hT

/-- Only one list of names leads to a directory. -/
theorem Rooted.path_unique {i : ι} (hi : dir i) {ps qs : List κ} (hps : follow T root ps = some i)
    (hqs : follow T root qs = some i) : ps = qs := by
  induction ps using List.reverseRecOn generalizing i qs with
  | nil =>
      obtain rfl : root = i := Option.some.inj hps
      rcases List.eq_nil_or_concat qs with rfl | ⟨qs, m, rfl⟩
      · rfl
      · rw [List.concat_eq_append] at hqs
        obtain ⟨e, _, hroot⟩ := follow_snoc_eq_some hqs
        exact absurd hroot (hT.root_unnamed e m)
  | append_singleton ps n ih =>
      obtain ⟨d, hd, hn⟩ := follow_snoc_eq_some hps
      rcases List.eq_nil_or_concat qs with rfl | ⟨qs, m, rfl⟩
      · obtain rfl : root = i := Option.some.inj hqs
        exact absurd hn (hT.root_unnamed d n)
      · rw [List.concat_eq_append] at hqs ⊢
        obtain ⟨e, he, hm⟩ := follow_snoc_eq_some hqs
        obtain ⟨rfl, rfl⟩ := hT.one_name hi hn hm
        rw [ih (hT.parent_dir hn) hd he]

/-- What leads further than an object goes through a directory. -/
theorem Rooted.dir_of_follow {i j : ι} {ps : List κ} (hi : ¬ dir i) (h : follow T i ps = some j) : ps = [] := by
  cases ps with
  | nil => rfl
  | cons n ps =>
      obtain ⟨k, hk, _⟩ := Option.bind_eq_some_iff.mp h
      exact absurd (hT.parent_dir hk) hi

end Rooted

section Move

variable [DecidableEq ι] [DecidableEq κ]

/-- Take a name away from one place and give the object another, replacing what was there. -/
def move (T : Names ι κ) (d : ι) (n : κ) (e : ι) (m : κ) (i : ι) : Names ι κ := fun c k =>
  if c = e ∧ k = m then some i else if c = d ∧ k = n then none else T c k

variable (T : Names ι κ) (d : ι) (n : κ) (e : ι) (m : κ) (i : ι)

theorem move_new : move T d n e m i e m = some i := if_pos ⟨rfl, rfl⟩

variable {d n e m}

theorem move_old (h : (d, n) ≠ (e, m)) : move T d n e m i d n = none := by
  have hnew : ¬ (d = e ∧ n = m) := fun ⟨hd, hn⟩ => h (by rw [hd, hn])
  rw [move, if_neg hnew, if_pos ⟨rfl, rfl⟩]

theorem move_other {c : ι} {k : κ} (hold : (c, k) ≠ (d, n)) (hnew : (c, k) ≠ (e, m)) :
    move T d n e m i c k = T c k := by
  have hnew' : ¬ (c = e ∧ k = m) := fun ⟨hc, hk⟩ => hnew (by rw [hc, hk])
  have hold' : ¬ (c = d ∧ k = n) := fun ⟨hc, hk⟩ => hold (by rw [hc, hk])
  rw [move, if_neg hnew', if_neg hold']

variable {T i}

theorem move_eq_some {c j : ι} {k : κ} (h : move T d n e m i c k = some j) :
    (c = e ∧ k = m ∧ j = i) ∨ T c k = some j := by
  rw [move] at h
  split_ifs at h with hnew
  · exact .inl ⟨hnew.1, hnew.2, (Option.some.inj h).symm⟩
  · exact .inr h

/-- What leads somewhere after a move led there before, or leads there from the object moved. -/
theorem follow_move_end {a b : ι} {ps : List κ} (h : follow (move T d n e m i) a ps = some b) :
    follow T a ps = some b ∨ ∃ qs, follow T i qs = some b := by
  induction ps using List.reverseRecOn generalizing b with
  | nil => exact .inl h
  | append_singleton ps k ih =>
      obtain ⟨c, hc, hk⟩ := follow_snoc_eq_some h
      rcases move_eq_some hk with ⟨_, _, rfl⟩ | hk
      · exact .inr ⟨[], rfl⟩
      · rcases ih hc with hfrom | ⟨qs, hqs⟩
        · left
          rw [follow_snoc, hfrom]
          exact hk
        · right
          refine ⟨qs ++ [k], ?_⟩
          rw [follow_snoc, hqs]
          exact hk

/-- What leads somewhere after a move led there before, or went to where the object was moved to. -/
theorem follow_move_start {a b : ι} {ps : List κ} (h : follow (move T d n e m i) a ps = some b) :
    follow T a ps = some b ∨ ∃ qs, follow T a qs = some e := by
  induction ps generalizing a with
  | nil => exact .inl h
  | cons k ps ih =>
      obtain ⟨c, hk, hc⟩ := Option.bind_eq_some_iff.mp h
      rcases move_eq_some hk with ⟨rfl, _, _⟩ | hk
      · exact .inr ⟨[], rfl⟩
      · rcases ih hc with hto | ⟨qs, hqs⟩
        · left
          rw [follow, hk]
          exact hto
        · right
          refine ⟨k :: qs, ?_⟩
          rw [follow, hk]
          exact hqs

/-- Moving an object to where it does not lead makes no cycle. -/
theorem Acyclic.move (hT : Acyclic T) (h : ∀ ps, follow T i ps ≠ some e) : Acyclic (move T d n e m i) := by
  intro j ps hps hj
  rcases follow_move_end hj with hold | ⟨qs, hqs⟩
  · exact hT j ps hps hold
  rcases follow_move_start hj with hold | ⟨rs, hrs⟩
  · exact hT j ps hps hold
  · refine h (qs ++ rs) ?_
    rw [follow_append, hqs]
    exact hrs

end Move

end SysvNt.NameTrees
