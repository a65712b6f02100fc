import ClassPatch.Error
import ClassPatch.Proofs.Outcome

/-!
# Computations that can halt

A computation that reads a table without a test whether the row exists, or that adds machine words
without a test whether the sum is one, ends early where there is no such row or no such word. `Halt`
names these ends beside the errors that a computation reports.

`report x` is a computation that halts only with what `x` reports. To show that look-ups stay in
their tables is to show that the computation with them is `report x`; the rules below do so along
the structure of the computation. For computations that also change a state, `raise` stands for
`report`, and `Mirrors` relates two outcomes whose results need not be of the same type.
-/

namespace ClassPatch

/-- How a computation ends without a result. -/
inductive Halt
  /-- A row was read that its table does not have. -/
  | outside
  /-- A result of arithmetic is not a machine word. -/
  | overflow
  /-- The steps that were granted are used up. -/
  | unfinished
  /-- An error was reported. -/
  | failed (e : Error)

/-- A row that is read without a test whether it is there. -/
def demand {α : Type} : Option α → Except Halt α
  | some x => .ok x
  | none => .error .outside

/-- A row that is written without a test whether it is there. -/
def put {α : Type} (table : Array α) (index : Nat) (x : α) : Except Halt (Array α) :=
  if index < table.size then .ok (table.setIfInBounds index x) else .error .outside

/-- A computation whose failures are reported. -/
def report {α : Type} (x : Except Error α) : Except Halt α := x.mapError .failed

section Rules

variable {α β : Type} {x : Except Error α} {y : Except Halt α}

@[simp] theorem report_ok (a : α) : report (.ok a) = .ok a := rfl

theorem demand_of_eq_some {o : Option α} {a : α} (h : o = some a) : demand o = .ok a := by
  rw [h, demand]

/-- What is done with a row that is there. -/
theorem demand_bind {o : Option α} {a : α} (h : o = some a) (f : α → Except Halt β) :
    demand o >>= f = f a := by
  rw [h]
  rfl

theorem put_of_lt {table : Array α} {index : Nat} (h : index < table.size) (a : α) :
    put table index a = .ok (table.setIfInBounds index a) :=
  if_pos h

/-- What follows may rely on what has been found. -/
theorem bind_eq_report {f : α → Except Error β} {g : α → Except Halt β} (h : y = report x)
    (hg : ∀ a, x = .ok a → g a = report (f a)) : y >>= g = report (x >>= f) := by
  rw [h]
  cases x with
  | ok a => exact hg a rfl
  | error e => rfl

theorem mapM_eq_report {f : α → Except Error β} {g : α → Except Halt β} {xs : List α}
    (h : ∀ a ∈ xs, g a = report (f a)) : xs.mapM g = report (xs.mapM f) := by
  induction xs with
  | nil => rfl
  | cons a xs ih =>
    rw [List.forall_mem_cons] at h
    rw [List.mapM_cons, List.mapM_cons]
    exact bind_eq_report h.1 fun b _ => bind_eq_report (ih h.2) fun bs _ => rfl

theorem foldlM_eq_report {f : β → α → Except Error β} {g : β → α → Except Halt β} {xs : List α}
    (h : ∀ b, ∀ a ∈ xs, g b a = report (f b a)) (b : β) :
    xs.foldlM g b = report (xs.foldlM f b) := by
  induction xs generalizing b with
  | nil => rfl
  | cons a xs ih =>
    rw [List.foldlM_cons, List.foldlM_cons]
    exact bind_eq_report (h b a (List.mem_cons_self ..)) fun b' _ =>
      ih (fun b'' a' ha' => h b'' a' (List.mem_cons_of_mem _ ha')) b'

end Rules

/-! ### Computations that change a state -/

/-- A computation over a state whose failures are reported. -/
def raise {σ α : Type} (m : EStateM Error σ α) : EStateM Halt σ α := EStateM.adaptExcept .failed m

/-- A computation that may halt, and does not change the state. -/
def halting {σ α : Type} : Except Halt α → EStateM Halt σ α
  | .ok x => return x
  | .error h => throw h

/-- The first outcome halts with what the second one reports, or both are results and related. -/
inductive Mirrors {σ α β : Type} (R : β → α → Prop) :
    EStateM.Result Halt σ β → EStateM.Result Error σ α → Prop
  | ok {b : β} {a : α} (h : R b a) (s : σ) : Mirrors R (.ok b s) (.ok a s)
  | error (e : Error) (s : σ) : Mirrors R (.error (.failed e) s) (.error e s)

namespace Mirrors

variable {σ α β γ δ : Type} {R : β → α → Prop} {S : δ → γ → Prop} {s : σ}
  {m : EStateM Halt σ β} {x : EStateM Error σ α}

protected theorem pure {b : β} {a : α} (h : R b a) (s : σ) :
    Mirrors R ((pure b : EStateM Halt σ β) s) ((pure a : EStateM Error σ α) s) :=
  .ok h s

protected theorem throw (e : Error) (s : σ) :
    Mirrors R ((throw (.failed e) : EStateM Halt σ β) s) ((throw e : EStateM Error σ α) s) :=
  .error e s

protected theorem raise (x : EStateM Error σ α) (s : σ) : Mirrors Eq (raise x s) (x s) := by
  simp only [ClassPatch.raise, EStateM.adaptExcept]
  cases x s with
  | ok a s' => exact .ok rfl s'
  | error e s' => exact .error e s'

theorem eq_raise {x : EStateM Error σ α} {m : EStateM Halt σ α} (h : Mirrors Eq (m s) (x s)) :
    m s = raise x s := by
  simp only [ClassPatch.raise, EStateM.adaptExcept]
  revert h
  generalize m s = r, x s = t
  rintro (⟨rfl⟩ | _) <;> rfl

/-- What follows may rely on what has been found, and how. -/
theorem bind {g : β → EStateM Halt σ δ} {f : α → EStateM Error σ γ} (h : Mirrors R (m s) (x s))
    (hf : ∀ {b : β} {a : α} {s' : σ}, x s = .ok a s' → R b a → Mirrors S (g b s') (f a s')) :
    Mirrors S ((m >>= g) s) ((x >>= f) s) := by
  simp only [Bind.bind, EStateM.bind]
  revert hf h
  generalize m s = r, x s = t
  rintro (⟨h⟩ | _) hf
  · exact hf rfl h
  · exact .error _ _

/-- A step that is only done on the left. -/
theorem bind_left {g : β → EStateM Halt σ δ} {y : EStateM Error σ γ} {b : β} (h : m s = .ok b s)
    (hg : Mirrors S (g b s) (y s)) : Mirrors S ((m >>= g) s) (y s) := by
  simpa only [Bind.bind, EStateM.bind, h] using hg

/-- A step that is only done on the right. -/
theorem bind_right {y : EStateM Error σ γ} {f : γ → EStateM Error σ α} {c : γ} (h : y s = .ok c s)
    (hf : Mirrors R (m s) (f c s)) : Mirrors R (m s) ((y >>= f) s) := by
  simpa only [Bind.bind, EStateM.bind, h] using hf

/-- What the right computes of its result. -/
theorem map_right {f : α → γ} {T : β → γ → Prop} (h : Mirrors R (m s) (x s))
    (hf : ∀ b a, R b a → T b (f a)) : Mirrors T (m s) ((do return f (← x)) s) := by
  have := h.bind (S := T) (g := pure) (f := fun a => pure (f a)) fun _ hR => .pure (hf _ _ hR) _
  rwa [bind_pure] at this

/-- What the left computes of its result. -/
theorem map_left {g : β → δ} {T : δ → α → Prop} (h : Mirrors R (m s) (x s))
    (hg : ∀ b a, R b a → T (g b) a) : Mirrors T ((do return g (← m)) s) (x s) := by
  have := h.bind (S := T) (g := fun b => pure (g b)) (f := pure) fun _ hR => .pure (hg _ _ hR) _
  rwa [bind_pure] at this

theorem ite {c : Prop} [Decidable c] {m' : EStateM Halt σ β} {x' : EStateM Error σ α}
    (h : c → Mirrors R (m s) (x s)) (h' : ¬c → Mirrors R (m' s) (x' s)) :
    Mirrors R ((if c then m else m') s) ((if c then x else x') s) := by
  split
  · exact h ‹_›
  · exact h' ‹_›

theorem mapM {ι : Type} {g : ι → EStateM Halt σ β} {f : ι → EStateM Error σ α} {xs : List ι}
    (h : ∀ i ∈ xs, ∀ s, Mirrors R (g i s) (f i s)) (s : σ) :
    Mirrors (List.Forall₂ R) (xs.mapM g s) (xs.mapM f s) := by
  induction xs generalizing s with
  | nil => exact .pure .nil s
  | cons i xs ih =>
    rw [List.forall_mem_cons] at h
    rw [List.mapM_cons, List.mapM_cons]
    exact (h.1 s).bind fun _ hhead => (ih h.2 _).bind fun _ htail => .pure (.cons hhead htail) _

end Mirrors

end ClassPatch
