import Mathlib.Tactic.Common

/-!
# Runs of a system that answers actions

A system takes an action to an answer and a next state, or does not accept it. A run is a
list of accepted actions; its history pairs each action with its answer. What one action
preserves, of the state alone or of the history and the state, a run preserves.
-/

namespace SysvNt.ActionRuns

variable {σ τ α ρ : Type*}

def run (step : σ → α → Option (ρ × σ)) : σ → List α → Option (List (α × ρ) × σ)
  | s, [] => some ([], s)
  | s, a :: as => match step s a with
    | none => none
    | some (r, s') => (run step s' as).map fun t => ((a, r) :: t.1, t.2)

theorem run_cons {step : σ → α → Option (ρ × σ)} {s s' : σ} {a : α} {as : List α}
    {h : List (α × ρ)} (hr : run step s (a :: as) = some (h, s')) :
    ∃ r m t, step s a = some (r, m) ∧ run step m as = some (t, s') ∧ h = (a, r) :: t := by
  rw [run] at hr
  cases hs : step s a with
  | none => rw [hs] at hr; cases hr
  | some p =>
      obtain ⟨r, m⟩ := p
      rw [hs] at hr
      obtain ⟨⟨t, s''⟩, ht, he⟩ := Option.map_eq_some_iff.mp hr
      cases he
      exact ⟨r, m, t, rfl, ht, rfl⟩

theorem run_of_step {step : σ → α → Option (ρ × σ)} {s m s' : σ} {a : α} {r : ρ} {as : List α}
    {h : List (α × ρ)} (hs : step s a = some (r, m)) (hr : run step m as = some (h, s')) :
    run step s (a :: as) = some ((a, r) :: h, s') := by
  rw [run, hs]
  dsimp only
  rw [hr, Option.map_some]

def Reaches (step : σ → α → Option (ρ × σ)) (s s' : σ) : Prop :=
  ∃ as h, run step s as = some (h, s')

theorem Reaches.refl (step : σ → α → Option (ρ × σ)) (s : σ) : Reaches step s s := ⟨[], [], rfl⟩

theorem Reaches.head {step : σ → α → Option (ρ × σ)} {s m s' : σ} {a : α} {r : ρ}
    (hs : step s a = some (r, m)) (hr : Reaches step m s') : Reaches step s s' := by
  obtain ⟨as, h, hrun⟩ := hr
  exact ⟨a :: as, (a, r) :: h, run_of_step hs hrun⟩

theorem Reaches.trans {step : σ → α → Option (ρ × σ)} {s m s' : σ} (h₁ : Reaches step s m)
    (h₂ : Reaches step m s') : Reaches step s s' := by
  obtain ⟨as, h, hrun⟩ := h₁
  induction as generalizing h s with
  | nil =>
      cases hrun
      exact h₂
  | cons a as ih =>
      obtain ⟨r, m', t, hs, ht, rfl⟩ := run_cons hrun
      exact Reaches.head hs (ih t ht)

/-- Every action of a run meets the condition in the state that it is taken in. -/
def EachMeets (step : σ → α → Option (ρ × σ)) (C : σ → α → Prop) : σ → List α → Prop
  | _, [] => True
  | s, a :: as => C s a ∧ ∀ r s', step s a = some (r, s') → EachMeets step C s' as

theorem eachMeets_of_forall {step : σ → α → Option (ρ × σ)} {C : σ → α → Prop} (h : ∀ s a, C s a)
    (as : List α) (s : σ) : EachMeets step C s as := by
  induction as generalizing s with
  | nil => trivial
  | cons a as ih => exact ⟨h s a, fun _ s' _ => ih s'⟩

/-- A careful run goes on from the state that its first action leads to. -/
theorem EachMeets.cons {step : σ → α → Option (ρ × σ)} {C : σ → α → Prop} {s m : σ} {a : α} {r : ρ} {as : List α}
    (hc : C s a) (hs : step s a = some (r, m)) (h : EachMeets step C m as) : EachMeets step C s (a :: as) := by
  refine ⟨hc, fun r' s' hs' => ?_⟩
  rw [hs] at hs'
  cases hs'
  exact h

/-- What an invariant and the condition give of each action, they give along the run. -/
theorem EachMeets.imp {step : σ → α → Option (ρ × σ)} {C D : σ → α → Prop} {I : σ → Prop}
    (hstep : ∀ s a, I s → C s a → D s a ∧ ∀ r s', step s a = some (r, s') → I s') {as : List α} {s : σ}
    (hs : I s) (h : EachMeets step C s as) : EachMeets step D s as := by
  induction as generalizing s with
  | nil => trivial
  | cons a as ih =>
      obtain ⟨hd, hnext⟩ := hstep s a hs h.1
      exact ⟨hd, fun r s' hs' => ih (hnext r s' hs') (h.2 r s' hs')⟩

/-- The history rule: a property of the answers so far and the state, kept by an action that meets
the condition. -/
theorem run_history_of {step : σ → α → Option (ρ × σ)} {C : σ → α → Prop}
    {P : List (α × ρ) → σ → Prop}
    (hstep : ∀ h s a r s', P h s → C s a → step s a = some (r, s') → P (h ++ [(a, r)]) s')
    (as : List α) (h₀ : List (α × ρ)) {h : List (α × ρ)} {s s' : σ} (h0 : P h₀ s)
    (hc : EachMeets step C s as) (hr : run step s as = some (h, s')) : P (h₀ ++ h) s' := by
  induction as generalizing h₀ h s with
  | nil =>
      cases hr
      rwa [List.append_nil]
  | cons a as ih =>
      obtain ⟨r, m, t, hs, ht, rfl⟩ := run_cons hr
      have hp := ih _ (hstep h₀ s a r m h0 hc.1 hs) (hc.2 r m hs) ht
      rwa [List.append_assoc, List.singleton_append] at hp

theorem run_history {step : σ → α → Option (ρ × σ)} {P : List (α × ρ) → σ → Prop}
    (hstep : ∀ h s a r s', P h s → step s a = some (r, s') → P (h ++ [(a, r)]) s')
    (as : List α) (h₀ : List (α × ρ)) {h : List (α × ρ)} {s s' : σ} (h0 : P h₀ s)
    (hr : run step s as = some (h, s')) : P (h₀ ++ h) s' :=
  run_history_of (C := fun _ _ => True) (fun h s a r s' hP _ => hstep h s a r s' hP) as h₀ h0
    (eachMeets_of_forall (fun _ _ => trivial) as s) hr

/-- The invariant rule. -/
theorem run_invariant {step : σ → α → Option (ρ × σ)} {P : σ → Prop}
    (hstep : ∀ s a r s', P s → step s a = some (r, s') → P s')
    {as : List α} {h : List (α × ρ)} {s s' : σ} (h0 : P s)
    (hr : run step s as = some (h, s')) : P s' :=
  run_history (P := fun _ s => P s) (fun _ s a r s' hs => hstep s a r s' hs) as [] h0 hr

/-- Forward simulation: related states answer alike and stay related. -/
theorem run_simulation (step : σ → α → Option (ρ × σ)) (step' : τ → α → Option (ρ × τ))
    (R : σ → τ → Prop)
    (hstep : ∀ s t a r s', R s t → step s a = some (r, s') →
      ∃ t', step' t a = some (r, t') ∧ R s' t')
    {as : List α} {h : List (α × ρ)} {s s' : σ} {t : τ} (h0 : R s t)
    (hr : run step s as = some (h, s')) : ∃ t', run step' t as = some (h, t') ∧ R s' t' := by
  induction as generalizing h s t with
  | nil =>
      cases hr
      exact ⟨t, rfl, h0⟩
  | cons a as ih =>
      obtain ⟨r, m, tr, hs, ht, rfl⟩ := run_cons hr
      obtain ⟨t', hs', hrel⟩ := hstep s t a r m h0 hs
      obtain ⟨t'', ht', hrel'⟩ := ih hrel ht
      refine ⟨t'', ?_, hrel'⟩
      simp only [run, hs', ht', Option.map_some]

section Along

variable (step : σ → α → σ)

/-- Every action of a run satisfies the property in the state it is taken in. -/
def Along (P : σ → α → Prop) : σ → List α → Prop
  | _, [] => True
  | s, a :: as => P s a ∧ Along P (step s a) as

theorem along_append {step} {P : σ → α → Prop} {as bs : List α} {s : σ} :
    Along step P s (as ++ bs) ↔ Along step P s as ∧ Along step P (as.foldl step s) bs := by
  induction as generalizing s with
  | nil => exact (iff_of_eq (true_and _)).symm
  | cons a as ih =>
      rw [List.cons_append, Along, Along, ih, List.foldl_cons, and_assoc]

/-- The rule for runs whose actions all meet a condition: an invariant that such an action keeps
holds at the end, and what it gives of the action it gives along the run. -/
theorem along_invariant {step} {P Q : σ → α → Prop} {I : σ → Prop}
    (hstep : ∀ s a, I s → P s a → I (step s a) ∧ Q s a) (as : List α) {s : σ} (hs : I s)
    (h : Along step P s as) : I (as.foldl step s) ∧ Along step Q s as := by
  induction as generalizing s with
  | nil => exact ⟨hs, trivial⟩
  | cons a as ih =>
      obtain ⟨hnext, ha⟩ := hstep s a hs h.1
      obtain ⟨hend, hrest⟩ := ih hnext h.2
      exact ⟨hend, ha, hrest⟩

end Along

end SysvNt.ActionRuns
