import Mathlib.Tactic.Common

/-!
# Sequencing state-passing calls

A call that may change a state is a function from the state to an answer and a new state.
These are the equations that run a sequence of such calls one call at a time.
-/

namespace SysvNt.StateCalls

variable {σ α β : Type}

theorem pure_apply (a : α) (s : σ) : (pure a : StateM σ α) s = (a, s) := rfl

theorem bind_apply (x : StateM σ α) (f : α → StateM σ β) (s : σ) :
    (x >>= f) s = f (x s).1 (x s).2 := rfl

end SysvNt.StateCalls
