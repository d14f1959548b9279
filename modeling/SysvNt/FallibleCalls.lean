import SysvNt.StateCalls

/-!
# Calls that may fail

A call over a state either answers or fails, and leaves a state in both cases. `Keeps I m Q`
says that `m` keeps the invariant `I` whatever the outcome and that its answers satisfy `Q`;
`KeepsAt` says so of one state. There is one rule for each way of building a call from others.
-/

namespace SysvNt.FallibleCalls

abbrev Call (ε σ α : Type) := ExceptT ε (StateM σ) α

variable {ε σ α β : Type}

def closing (close : StateM σ Unit) (m : Call ε σ α) : Call ε σ α :=
  ExceptT.mk fun x => ((m.run x).1, (close (m.run x).2).2)

def attempt (m : Call ε σ α) : Call ε σ (Except ε α) :=
  ExceptT.mk fun x => (.ok (m.run x).1, (m.run x).2)

theorem run_pure (a : α) (x : σ) : (pure a : Call ε σ α).run x = (.ok a, x) := rfl

theorem run_throw (e : ε) (x : σ) : (throw e : Call ε σ α).run x = (.error e, x) := rfl

theorem run_bind (m : Call ε σ α) (f : α → Call ε σ β) (x : σ) :
    (m >>= f).run x = match m.run x with
      | (.ok a, x') => (f a).run x'
      | (.error e, x') => (.error e, x') := by
  change (do
    match ← m.run with
    | .ok a => (f a).run
    | .error e => pure (.error e)) x = _
  rw [StateCalls.bind_apply]
  cases h : m.run x with
  | mk r x' => cases r <;> rfl

theorem run_bind_congr {m m' : Call ε σ α} {f : α → Call ε σ β} {x x' : σ} (h : m.run x = m'.run x') :
    (m >>= f).run x = (m' >>= f).run x' := by
  rw [run_bind, run_bind, h]

theorem run_of_isOk {m : Call ε σ Unit} {x : σ} (h : (m.run x).1.isOk = true) :
    m.run x = (.ok (), (m.run x).2) := by
  cases hm : m.run x with
  | mk r y =>
      rw [hm] at h
      cases r with
      | ok u => rfl
      | error e => cases h

theorem run_closing (close : StateM σ Unit) (m : Call ε σ α) (x : σ) :
    (closing close m).run x = ((m.run x).1, (close (m.run x).2).2) := rfl

theorem run_attempt (m : Call ε σ α) (x : σ) :
    (attempt m).run x = (.ok (m.run x).1, (m.run x).2) := rfl

theorem of_run_attempt {m : Call ε σ α} {x x' : σ} {r : Except ε α}
    (h : (attempt m).run x = (.ok r, x')) : m.run x = (r, x') := by
  rw [run_attempt] at h
  cases h
  rfl

/-- A call whose answer is known in part has an answer. -/
theorem of_answered {m : Call ε σ α} {x : σ} {f : α → β} {b : β}
    (h : (m.run x).1.toOption.map f = some b) : ∃ a y, m.run x = (.ok a, y) ∧ f a = b := by
  cases hm : m.run x with
  | mk r y =>
      rw [hm] at h
      cases r with
      | error e => cases h
      | ok a => exact ⟨a, y, rfl, Option.some.inj h⟩

/-- An answer of a sequence comes from an answer of its first call. -/
theorem of_run_bind {m : Call ε σ α} {f : α → Call ε σ β} {x x' : σ} {b : β}
    (h : (m >>= f).run x = (.ok b, x')) :
    ∃ a y, m.run x = (.ok a, y) ∧ (f a).run y = (.ok b, x') := by
  rw [run_bind] at h
  cases hm : m.run x with
  | mk r y =>
      rw [hm] at h
      cases r with
      | error e => cases h
      | ok a => exact ⟨a, y, rfl, h⟩

theorem of_run_closing {close : StateM σ Unit} {m : Call ε σ α} {x x' : σ} {r : Except ε α}
    (h : (closing close m).run x = (r, x')) : ∃ y, m.run x = (r, y) ∧ x' = (close y).2 := by
  rw [run_closing] at h
  cases h
  exact ⟨_, rfl, rfl⟩

theorem run_lift (m : StateM σ α) (x : σ) :
    (liftM m : Call ε σ α).run x = (.ok (m x).1, (m x).2) := rfl

/-- From the state `x` the call ends where `I` holds, and an answer of it satisfies `Q`. -/
def KeepsAt (I : σ → Prop) (x : σ) (m : Call ε σ α) (Q : α → Prop) : Prop :=
  I (m.run x).2 ∧ ∀ a, (m.run x).1 = .ok a → Q a

def Keeps (I : σ → Prop) (m : Call ε σ α) (Q : α → Prop) : Prop := ∀ x, I x → KeepsAt I x m Q

variable {I : σ → Prop}

/-- What a call that answers has kept, and what holds of its answer. -/
theorem Keeps.of_run {m : Call ε σ α} {Q : α → Prop} (h : Keeps I m Q) {x y : σ} {a : α} (hx : I x)
    (hrun : m.run x = (.ok a, y)) : I y ∧ Q a := by
  have hkeep := h x hx
  rw [KeepsAt, hrun] at hkeep
  exact ⟨hkeep.1, hkeep.2 a rfl⟩

theorem Keeps.pure {a : α} {Q : α → Prop} (h : Q a) : Keeps I (pure a : Call ε σ α) Q := by
  intro x hx
  refine ⟨hx, fun b hb => ?_⟩
  cases hb
  exact h

theorem Keeps.throw {e : ε} {Q : α → Prop} : Keeps I (throw e : Call ε σ α) Q :=
  fun _ hx => ⟨hx, fun _ hb => nomatch hb⟩

theorem Keeps.mono {m : Call ε σ α} {Q R : α → Prop} (h : Keeps I m Q) (hQR : ∀ a, Q a → R a) :
    Keeps I m R :=
  fun x hx => ⟨(h x hx).1, fun a ha => hQR a ((h x hx).2 a ha)⟩

/-- Sequencing: what follows need only be kept from where the first call ends. -/
theorem KeepsAt.bind {m : Call ε σ α} {f : α → Call ε σ β} {x : σ} {Q : α → Prop} {R : β → Prop}
    (hm : KeepsAt I x m Q)
    (hf : ∀ a x', m.run x = (.ok a, x') → I x' → Q a → KeepsAt I x' (f a) R) :
    KeepsAt I x (m >>= f) R := by
  obtain ⟨hI, hQ⟩ := hm
  rw [KeepsAt, run_bind]
  cases h : m.run x with
  | mk r x' =>
      rw [h] at hI hQ
      cases r with
      | error e => exact ⟨hI, fun _ hb => nomatch hb⟩
      | ok a => exact hf a x' h hI (hQ a rfl)

theorem Keeps.bind {m : Call ε σ α} {f : α → Call ε σ β} {Q : α → Prop} {R : β → Prop}
    (hm : Keeps I m Q) (hf : ∀ a, Q a → Keeps I (f a) R) : Keeps I (m >>= f) R :=
  fun x hx => (hm x hx).bind fun a x' _ hx' ha => hf a ha x' hx'

theorem Keeps.closing {close : StateM σ Unit} {m : Call ε σ α} {Q : α → Prop} (hm : Keeps I m Q)
    (hclose : ∀ x, I x → I (close x).2) : Keeps I (closing close m) Q := by
  intro x hx
  rw [KeepsAt, run_closing]
  exact ⟨hclose _ (hm x hx).1, (hm x hx).2⟩

theorem KeepsAt.attempt {m : Call ε σ α} {x : σ} {Q : α → Prop} (hm : KeepsAt I x m Q) :
    KeepsAt I x (attempt m) (fun r => ∀ a, r = .ok a → Q a) := by
  rw [KeepsAt, run_attempt]
  refine ⟨hm.1, fun r hr => ?_⟩
  cases hr
  exact hm.2

theorem Keeps.attempt {m : Call ε σ α} {Q : α → Prop} (hm : Keeps I m Q) :
    Keeps I (attempt m) (fun r => ∀ a, r = .ok a → Q a) :=
  fun x hx => (hm x hx).attempt

theorem Keeps.lift {m : StateM σ α} (hm : ∀ x, I x → I (m x).2) :
    Keeps I (liftM m : Call ε σ α) (fun _ => True) := by
  intro x hx
  rw [KeepsAt, run_lift]
  exact ⟨hm x hx, fun _ _ => trivial⟩

theorem Keeps.liftExcept (r : Except ε α) :
    Keeps I (liftM r : Call ε σ α) (fun a => r = .ok a) := by
  intro x hx
  cases r with
  | error e => exact ⟨hx, fun _ h => nomatch h⟩
  | ok a =>
      refine ⟨hx, fun b hb => ?_⟩
      cases hb
      rfl

/-- From where `P` holds the call ends where `Q` holds of its answer, or where `E` holds if it
fails. -/
def Ends (P : σ → Prop) (m : Call ε σ α) (Q : α → σ → Prop) (E : σ → Prop) : Prop :=
  ∀ x, P x → (∀ a y, m.run x = (.ok a, y) → Q a y) ∧ ∀ e y, m.run x = (.error e, y) → E y

section Ends

variable {P P' E E' : σ → Prop} {Q Q' : α → σ → Prop}

theorem Ends.pure {a : α} (h : ∀ x, P x → Q a x) : Ends P (pure a : Call ε σ α) Q E := by
  intro x hx
  refine ⟨fun b y hb => ?_, fun e y he => by cases he⟩
  cases hb
  exact h x hx

theorem Ends.throw {e : ε} (h : ∀ x, P x → E x) : Ends P (throw e : Call ε σ α) Q E := by
  intro x hx
  refine ⟨fun b y hb => (by cases hb), fun e y he => ?_⟩
  cases he
  exact h x hx

theorem Ends.mono {m : Call ε σ α} (h : Ends P m Q E) (hP : ∀ x, P' x → P x)
    (hQ : ∀ a x, Q a x → Q' a x) (hE : ∀ x, E x → E' x) : Ends P' m Q' E' := fun x hx =>
  ⟨fun a y hy => hQ a y ((h x (hP x hx)).1 a y hy), fun e y hy => hE y ((h x (hP x hx)).2 e y hy)⟩

theorem Ends.bind {m : Call ε σ α} {f : α → Call ε σ β} {R : β → σ → Prop} (hm : Ends P m Q E)
    (hf : ∀ a, Ends (Q a) (f a) R E) : Ends P (m >>= f) R E := by
  intro x hx
  rw [run_bind]
  cases h : m.run x with
  | mk r y =>
      cases r with
      | ok a => exact hf a y ((hm x hx).1 a y h)
      | error e =>
          refine ⟨fun b z hb => (by cases hb), fun e' z he => ?_⟩
          cases he
          exact (hm x hx).2 e y h

theorem Ends.closing {close : StateM σ Unit} {m : Call ε σ α} (hm : Ends P m Q E)
    (hQ : ∀ a x, Q a x → Q' a (close x).2) (hE : ∀ x, E x → E' (close x).2) :
    Ends P (closing close m) Q' E' := by
  intro x hx
  refine ⟨fun a y hy => ?_, fun e y hy => ?_⟩
  · obtain ⟨z, hz, rfl⟩ := of_run_closing hy
    exact hQ a z ((hm x hx).1 a z hz)
  · obtain ⟨z, hz, rfl⟩ := of_run_closing hy
    exact hE z ((hm x hx).2 e z hz)

/-- Where a failure is looked at, what follows starts from either outcome. -/
theorem Ends.attempt {m : Call ε σ α} (hm : Ends P m Q E) :
    Ends P (attempt m) (fun r x => (∃ a, r = .ok a ∧ Q a x) ∨ (∃ e, r = .error e) ∧ E x) E' := by
  intro x hx
  refine ⟨fun r y hy => ?_, fun e y hy => by cases hy⟩
  have hrun := of_run_attempt hy
  cases r with
  | ok a => exact .inl ⟨a, rfl, (hm x hx).1 a y hrun⟩
  | error e => exact .inr ⟨⟨e, rfl⟩, (hm x hx).2 e y hrun⟩

theorem Ends.lift {m : StateM σ α} (h : ∀ x, P x → Q (m x).1 (m x).2) :
    Ends P (liftM m : Call ε σ α) Q E := by
  intro x hx
  refine ⟨fun a y hy => ?_, fun e y hy => by cases hy⟩
  rw [run_lift] at hy
  cases hy
  exact h x hx

theorem Ends.liftExcept {r : Except ε α} (h : ∀ x a, P x → r = .ok a → Q a x)
    (hE : ∀ x, P x → E x) : Ends P (liftM r : Call ε σ α) Q E := by
  cases r with
  | ok a => exact Ends.pure fun x hx => h x a hx rfl
  | error e => exact Ends.throw hE

theorem Keeps.ends {m : Call ε σ α} {R : α → Prop} (h : Keeps I m R) :
    Ends I m (fun a x => R a ∧ I x) I := by
  intro x hx
  obtain ⟨hI, hR⟩ := h x hx
  refine ⟨fun a y hy => ?_, fun e y hy => ?_⟩
  · rw [hy] at hI hR
    exact ⟨hR a rfl, hI⟩
  · rw [hy] at hI
    exact hI

theorem Ends.keeps {m : Call ε σ α} {R : α → Prop} (h : Ends I m (fun a x => R a ∧ I x) I) :
    Keeps I m R := by
  intro x hx
  obtain ⟨hok, herr⟩ := h x hx
  rw [KeepsAt]
  cases hm : m.run x with
  | mk r y =>
      cases r with
      | ok a =>
          refine ⟨(hok a y hm).2, fun b hb => ?_⟩
          cases hb
          exact (hok a y hm).1
      | error e => exact ⟨herr e y hm, fun b hb => by cases hb⟩

/-- A fact that does not depend on the state. -/
theorem Ends.of_fact {φ : Prop} {m : Call ε σ α} (h : φ → Ends P m Q E) :
    Ends (fun x => φ ∧ P x) m Q E := fun x hx => h hx.1 x hx.2

/-- What keeps what a failure is to leave, before what ends so. -/
theorem Keeps.bind_ends {m : Call ε σ α} {f : α → Call ε σ β} {A : α → Prop} {R : β → σ → Prop} (hm : Keeps I m A)
    (hf : ∀ a, A a → Ends I (f a) R I) : Ends I (m >>= f) R I :=
  hm.ends.bind fun a => Ends.of_fact fun ha => hf a ha

/-- What a call keeps from one state, with that it was run from there. -/
theorem KeepsAt.ends_at {m : Call ε σ α} {x : σ} {A : α → Prop} (h : KeepsAt I x m A) :
    Ends (· = x) m (fun a y => m.run x = (.ok a, y) ∧ A a ∧ I y) I := by
  rintro y rfl
  obtain ⟨hI, hA⟩ := h
  refine ⟨fun a z hz => ?_, fun e z hz => ?_⟩
  · rw [hz] at hI hA
    exact ⟨hz, hA a rfl, hI⟩
  · rw [hz] at hI
    exact hI

end Ends

section View

variable {ν : Type} {view : σ → ν} {ok : Prop}

/-- From `x` the call answers, and that is of use, or it changes nothing that the view shows. -/
def Clean (view : σ → ν) (ok : Prop) (m : Call ε σ α) (x : σ) : Prop :=
  (ok ∧ ∃ a y, m.run x = (.ok a, y)) ∨ view (m.run x).2 = view x

theorem Keeps.view_eq {m : Call ε σ α} {Q : α → Prop} (h : ∀ v, Keeps (fun y => view y = v) m Q)
    (x : σ) : view (m.run x).2 = view x := (h (view x) x rfl).1

/-- After a call that changes nothing, all depends on what follows its answer. -/
theorem clean_bind_iff {m : Call ε σ α} {f : α → Call ε σ β} {x : σ}
    (hm : view (m.run x).2 = view x) :
    Clean view ok (m >>= f) x ↔ ∀ a y, m.run x = (.ok a, y) → Clean view ok (f a) y := by
  rw [Clean, run_bind]
  cases h : m.run x with
  | mk r y =>
      rw [h] at hm
      cases r with
      | error e => exact ⟨fun _ a z hz => (by cases hz), fun _ => .inr hm⟩
      | ok a =>
          dsimp only at hm ⊢
          rw [← hm]
          refine ⟨fun hc b z hz => ?_, fun hc => hc a y rfl⟩
          cases hz
          exact hc

theorem clean_lift_iff {r : Except ε α} {f : α → Call ε σ β} {x : σ} :
    Clean view ok (liftM r >>= f) x ↔ ∀ a, r = .ok a → Clean view ok (f a) x := by
  cases r with
  | error e => exact ⟨fun _ a h => (by cases h), fun _ => .inr rfl⟩
  | ok a =>
      refine ⟨fun h b hb => ?_, fun h => h a rfl⟩
      cases hb
      exact h

/-- Before calls that change nothing, all depends on the first call and on the answers after it. -/
theorem clean_quiet_iff {m : Call ε σ α} {f : α → Call ε σ β} {x : σ}
    (hf : ∀ a y, view ((f a).run y).2 = view y) :
    Clean view ok (m >>= f) x ↔ view (m.run x).2 = view x ∨
      ok ∧ ∃ a y b z, m.run x = (.ok a, y) ∧ (f a).run y = (.ok b, z) := by
  rw [Clean, run_bind]
  cases h : m.run x with
  | mk r y =>
      cases r with
      | error e =>
          refine ⟨fun hc => ?_, fun hc => ?_⟩
          · rcases hc with ⟨_, b, z, hb⟩ | hc
            · cases hb
            · exact .inl hc
          · rcases hc with hc | ⟨_, a, z, b, w, ha, _⟩
            · exact .inr hc
            · cases ha
      | ok a =>
          dsimp only
          rw [hf a y]
          refine ⟨fun hc => ?_, fun hc => ?_⟩
          · rcases hc with ⟨hok, b, z, hb⟩ | hc
            · exact .inr ⟨hok, a, y, b, z, rfl, hb⟩
            · exact .inl hc
          · rcases hc with hc | ⟨hok, a', y', b, z, ha, hb⟩
            · exact .inr hc
            · cases ha
              exact .inl ⟨hok, b, z, hb⟩

end View

def Answers (m : Call ε σ α) : Prop := ∀ x, ∃ a y, m.run x = (.ok a, y)

theorem Answers.pure (a : α) : Answers (pure a : Call ε σ α) := fun x => ⟨a, x, rfl⟩

theorem Answers.bind {m : Call ε σ α} {f : α → Call ε σ β} (hm : Answers m)
    (hf : ∀ a, Answers (f a)) : Answers (m >>= f) := by
  intro x
  obtain ⟨a, y, hy⟩ := hm x
  rw [run_bind, hy]
  exact hf a y

section Avoids

def Avoids (e : ε) (m : Call ε σ α) : Prop := ∀ x, (m.run x).1 ≠ .error e

variable {e : ε}

theorem Avoids.pure (a : α) : Avoids e (pure a : Call ε σ α) := fun _ h => nomatch h

theorem Avoids.throw {e' : ε} (h : e' ≠ e) : Avoids e (throw e' : Call ε σ α) :=
  fun _ heq => h (Except.error.inj heq)

theorem Avoids.attempt (m : Call ε σ α) : Avoids e (attempt m) := fun _ h => nomatch h

theorem Avoids.lift (m : StateM σ α) : Avoids e (liftM m : Call ε σ α) := fun _ h => nomatch h

theorem Avoids.liftExcept {r : Except ε α} (h : r ≠ .error e) : Avoids e (liftM r : Call ε σ α) := by
  cases r with
  | ok a => exact Avoids.pure a
  | error e' => exact Avoids.throw fun heq => h (heq ▸ rfl)

theorem Avoids.closing {close : StateM σ Unit} {m : Call ε σ α} (h : Avoids e m) :
    Avoids e (closing close m) := fun x => h x

theorem Avoids.bind {m : Call ε σ α} {f : α → Call ε σ β} (hm : Avoids e m) (hf : ∀ a, Avoids e (f a)) :
    Avoids e (m >>= f) := by
  intro x
  rw [run_bind]
  have hx := hm x
  cases h : m.run x with
  | mk r y =>
      rw [h] at hx
      cases r with
      | error e' =>
          intro heq
          cases heq
          exact hx rfl
      | ok a => exact hf a y

end Avoids

section Still

def answer (m : Call ε Unit α) : Except ε α := (m.run ()).1

theorem answer_bind (m : Call ε Unit α) (f : α → Call ε Unit β) :
    answer (m >>= f) = (answer m).bind fun a => answer (f a) := by
  rw [answer, run_bind, answer]
  cases m.run () with
  | mk r u => cases r <;> rfl

theorem answer_closing (close : StateM Unit Unit) (m : Call ε Unit α) :
    answer (closing close m) = answer m := rfl

theorem answer_attempt (m : Call ε Unit α) : answer (attempt m) = .ok (answer m) := rfl

theorem answer_liftExcept (r : Except ε α) : answer (liftM r : Call ε Unit α) = r := by
  cases r <;> rfl

theorem run_unit (m : Call ε Unit α) : m.run () = (answer m, ()) := rfl

end Still

end SysvNt.FallibleCalls
