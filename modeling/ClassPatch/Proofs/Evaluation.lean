import Mathlib

/-!
# Evaluation

What a run on a given input gives is found by evaluation. Often only its value matters, and the
state behind it is not worth writing out: it may hold a whole pool of constants.

Evaluation unfolds functions of the core by their equations. Those are stated in files all over the
library, so this module imports all of it, for the modules that evaluate runs.
-/

namespace EStateM.Result

variable {ε σ α : Type}

/-- The value of an outcome, whatever the state behind it. -/
def value? : Result ε σ α → Option α
  | ok x _ => some x
  | error .. => none

theorem value?_eq_some {r : Result ε σ α} {x : α} : r.value? = some x ↔ ∃ s, r = .ok x s := by
  cases r <;> simp [value?]

end EStateM.Result
