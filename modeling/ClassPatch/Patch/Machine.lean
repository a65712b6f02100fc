import ClassPatch.Code.Body
import ClassPatch.Notice

/-!
# Machines over events

A method is changed by a machine that reads its events in order. For each event the machine
gives the events that take its place and its next state, and behind the last one it may add more.
Along the way it may take labels that are new to the method, give notices, and reject the method.
-/

namespace ClassPatch

/-- The labels that are left and the notices so far. -/
structure PatchState where
  labels : LabelSupply
  log : Log

/-- A computation that replaces events. What it took and noted is kept if it rejects them. -/
abbrev PatchM (α : Type) := EStateM Mismatch PatchState α

namespace PatchM

variable {α β : Type}

/-- Takes a label that was never used. -/
def fresh : PatchM Label := modifyGet fun r =>
  (r.labels.fresh, { r with labels := r.labels.advance })

def note (notice : Notice) : PatchM Unit := modify fun r => { r with log := r.log.push notice }

/-! ### Notices do not matter -/

/-- What an outcome is but for its notices. -/
def silent : EStateM.Result Mismatch PatchState α → Except Mismatch (α × LabelSupply)
  | .ok x r => .ok (x, r.labels)
  | .error cause _ => .error cause

/-- Whatever has been noted before, the outcome is the same but for its notices. -/
def Blind (m : PatchM α) : Prop :=
  ∀ labels log log', silent (m ⟨labels, log⟩) = silent (m ⟨labels, log'⟩)

namespace Blind

variable {m m' : PatchM α} {f : α → PatchM β}

theorem pure (x : α) : Blind (pure x) := fun _ _ _ => rfl

theorem throw (cause : Mismatch) : Blind (throw cause : PatchM α) := fun _ _ _ => rfl

theorem note (notice : Notice) : Blind (PatchM.note notice) := fun _ _ _ => rfl

theorem fresh : Blind PatchM.fresh := fun _ _ _ => rfl

theorem bind (hm : Blind m) (hf : ∀ x, Blind (f x)) : Blind (m >>= f) := by
  intro labels log log'
  have h := hm labels log log'
  simp only [Bind.bind, EStateM.bind]
  cases hl : m ⟨labels, log⟩ with
  | error cause r =>
    rw [hl] at h
    cases hr : m ⟨labels, log'⟩ with
    | error cause' r' =>
      rw [hr] at h
      exact congrArg Except.error (Except.error.inj h)
    | ok y r' =>
      rw [hr] at h
      cases h
  | ok x r =>
    rw [hl] at h
    cases hr : m ⟨labels, log'⟩ with
    | error cause' r' =>
      rw [hr] at h
      cases h
    | ok y r' =>
      rw [hr] at h
      obtain ⟨rfl, hlabels⟩ := Prod.mk.inj (Except.ok.inj h)
      obtain ⟨labels', log₁⟩ := r
      obtain ⟨labels'', log₂⟩ := r'
      obtain rfl : labels' = labels'' := hlabels
      exact hf x labels' log₁ log₂

theorem ite {c : Prop} [Decidable c] (hm : Blind m) (hm' : Blind m') :
    Blind (if c then m else m') := by
  split <;> assumption

theorem forM {f : α → PatchM Unit} (hf : ∀ x, Blind (f x)) (xs : List α) : Blind (xs.forM f) := by
  induction xs with
  | nil => exact pure ()
  | cons x xs ih => exact (hf x).bind fun _ => ih

theorem foldlM {f : β → α → PatchM β} (hf : ∀ b x, Blind (f b x)) (b : β) (xs : List α) :
    Blind (xs.foldlM f b) := by
  induction xs generalizing b with
  | nil => exact pure b
  | cons x xs ih =>
    rw [List.foldlM_cons]
    exact (hf b x).bind ih

end Blind
end PatchM

/-- A state machine that replaces events. -/
structure Machine (σ : Type) where
  /-- The state before the first event. -/
  initial : σ
  /-- The next state and the events in place of one event. -/
  step : σ → Event → PatchM (σ × List Event)
  /-- The events behind the last one, for the state that it has led to. -/
  finish : σ → PatchM (List Event) := fun _ => return []

namespace Machine

variable {σ : Type}

/-- Replaces one more event behind those already replaced. -/
def feed (m : Machine σ) (reached : σ × Array Event) (event : Event) :
    PatchM (σ × Array Event) := do
  let (state, events) ← m.step reached.1 event
  return (state, reached.2 ++ events)

/-- Replaces all events of a method. -/
def run (m : Machine σ) (events : List Event) : PatchM (List Event) := do
  let (state, output) ← events.foldlM m.feed (m.initial, #[])
  return (output ++ (← m.finish state)).toList

/-- What the machine does does not depend on the notices before. -/
structure Blind (m : Machine σ) : Prop where
  step : ∀ s e, PatchM.Blind (m.step s e)
  finish : ∀ s, PatchM.Blind (m.finish s) := by exact fun _ => .pure _

theorem Blind.run {m : Machine σ} (h : m.Blind) (events : List Event) :
    PatchM.Blind (m.run events) := by
  have hfeed (reached : σ × Array Event) (e : Event) : PatchM.Blind (m.feed reached e) :=
    (h.step reached.1 e).bind fun _ => .pure _
  exact (PatchM.Blind.foldlM hfeed _ events).bind fun reached =>
    (h.finish reached.1).bind fun _ => .pure _

end Machine
end ClassPatch
