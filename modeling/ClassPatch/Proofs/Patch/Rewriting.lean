import ClassPatch.Patch.Pipeline
import ClassPatch.Proofs.Code.Decodable

/-!
# Strategies keep bodies proper

A machine that replaces every event by events that can stand over a pool makes such events of such
events. All strategies are like this, as long as no constant refers to the pool by an index.
-/

namespace ClassPatch

/-- The constant refers to an entry of a pool by its index. -/
def Value.IsIndexed : Value → Prop
  | methodHandle _ | dynamic _ _ => True
  | _ => False

/-- The strategy pushes no constants that refer to a pool by an index. -/
def Strategy.PushesNoIndex : Strategy → Prop
  | constantResult r => ¬r.value.IsIndexed
  | forcedJump _ | propertyGuard _ => True

/-- A body is made from another one by strategies, one after the other. -/
inductive Body.Rewritten (body : Body) : Body → Prop
  | refl : Rewritten body body
  | step {changed : Body} {strategy : Strategy} {context : MethodContext} {log : Log}
      {events : List Event} {r : PatchState} (h : Rewritten body changed)
      (hpushes : strategy.PushesNoIndex)
      (hrun : strategy.run context changed.events ⟨changed.labels, log⟩ = .ok events r) :
      Rewritten body { changed with events, labels := r.labels }

/-! ### Machines -/

namespace Machine

variable {σ : Type}

/-- What a machine makes of events from a state on. -/
def output (m : Machine σ) : σ → List Event → PatchM (List Event)
  | s, [] => m.finish s
  | s, e :: events => do
    let (s, out) ← m.step s e
    return out ++ (← output m s events)

theorem foldlM_feed (m : Machine σ) (s : σ) (before : Array Event) (events : List Event) :
    (do let (s, out) ← events.foldlM m.feed (s, before)
        return (out ++ (← m.finish s)).toList : PatchM (List Event)) =
      (do return before.toList ++ (← m.output s events)) := by
  induction events generalizing s before with
  | nil => simp [output]
  | cons e events ih =>
    simp only [List.foldlM_cons, feed, output, bind_assoc, pure_bind, ih]
    refine bind_congr fun ⟨s, out⟩ => ?_
    simp

theorem run_eq (m : Machine σ) (events : List Event) :
    m.run events = m.output m.initial events := by
  unfold run
  rw [foldlM_feed]
  simp

/-- The machine adds nothing behind the last event. -/
def AddsNothing (m : Machine σ) : Prop := ∀ s, m.finish s = return []

/-- What holds of the events in place of each event holds of all. -/
theorem forall_of_run {m : Machine σ} {P : Event → Prop} (hfinish : m.AddsNothing)
    (hstep : ∀ {s s' : σ} {e : Event} {out : List Event} {r r' : PatchState},
      P e → m.step s e r = .ok (s', out) r' → ∀ e' ∈ out, P e')
    {events out : List Event} {r r' : PatchState} (h : m.run events r = .ok out r')
    (hevents : ∀ e ∈ events, P e) : ∀ e ∈ out, P e := by
  rw [run_eq] at h
  generalize m.initial = s at h
  induction events generalizing s out r with
  | nil =>
    rw [output, hfinish s] at h
    obtain ⟨rfl, -⟩ := EStateM.pure_eq_ok.mp h
    simp
  | cons e events ih =>
    obtain ⟨⟨s', front⟩, r₁, hs, h⟩ := EStateM.bind_eq_ok.mp h
    obtain ⟨back, r₂, hback, h⟩ := EStateM.bind_eq_ok.mp h
    obtain ⟨rfl, rfl⟩ := EStateM.pure_eq_ok.mp h
    simp only [List.mem_cons, forall_eq_or_imp] at hevents
    intro e' he'
    exact (List.mem_append.mp he').elim (hstep hevents.1 hs e')
      (ih hevents.2 _ hback e')

end Machine

/-! ### Computations that replace events -/

/-- What a computation gives if it succeeds, with the labels that are left. -/
def PatchM.Gives {α : Type} (labels : LabelSupply) (m : PatchM α) (P : α → LabelSupply → Prop) :
    Prop :=
  ∀ (log : Log) (x : α) (r : PatchState), m ⟨labels, log⟩ = .ok x r → P x r.labels

namespace PatchM.Gives

variable {α β : Type} {labels : LabelSupply} {P : α → LabelSupply → Prop}
  {Q : β → LabelSupply → Prop} {m m' : PatchM α} {f : α → PatchM β}

theorem pure {x : α} (h : P x labels) : Gives labels (pure x) P := by
  intro log y r hx
  obtain ⟨rfl, rfl⟩ := EStateM.pure_eq_ok.mp hx
  exact h

theorem bind (hm : Gives labels m P) (hf : ∀ x labels', P x labels' → Gives labels' (f x) Q) :
    Gives labels (m >>= f) Q := by
  intro log y r hy
  obtain ⟨x, ⟨labels', log'⟩, hx, hy⟩ := EStateM.bind_eq_ok.mp hy
  exact hf x labels' (hm log x _ hx) log' y r hy

theorem ite {c : Prop} [Decidable c] (hm : c → Gives labels m P) (hm' : ¬c → Gives labels m' P) :
    Gives labels (if c then m else m') P := by
  split
  · exact hm ‹_›
  · exact hm' ‹_›

theorem throw (cause : Mismatch) : Gives labels (throw cause : PatchM α) P :=
  fun _ _ _ h => absurd h EStateM.throw_ne_ok

theorem fresh {f : Label → PatchM β} (h : Gives labels.advance (f labels.fresh) Q) :
    Gives labels (PatchM.fresh >>= f) Q :=
  fun log y r hy => h log y r hy

/-- A notice takes no label. -/
theorem note {notice : Notice} {f : Unit → PatchM β} (h : Gives labels (f ()) Q) :
    Gives labels (PatchM.note notice >>= f) Q :=
  fun _ y r hy => h _ y r hy

theorem notes {notice : α → Notice} (xs : List α) {f : Unit → PatchM β}
    (h : Gives labels (f ()) Q) :
    Gives labels (xs.forM (fun x => PatchM.note (notice x)) >>= f) Q := by
  refine bind (P := fun _ labels' => labels' = labels) ?_ fun _ _ heq => heq ▸ h
  induction xs with
  | nil => exact pure rfl
  | cons x xs ih => exact note ih

end PatchM.Gives

open PatchM (Gives)

/-! ### Strategies -/

variable {pool : ConstantPool} {context : MethodContext} {labels : LabelSupply}

/-- The events in place of one can stand over a pool. -/
private def AllProper {σ : Type} (pool : ConstantPool) (x : σ × List Event) (_ : LabelSupply) :
    Prop :=
  ∀ e ∈ x.2, e.ProperIn pool

private theorem PatchM.Gives.keep {σ : Type} (s : σ) {e : Event} (he : e.ProperIn pool) :
    Gives labels (Pure.pure (s, [e])) (AllProper pool) :=
  .pure (by simpa [AllProper] using he)

theorem Value.properIn_of_not_isIndexed {v : Value} (h : ¬v.IsIndexed) : v.ProperIn pool := by
  cases v with
  | methodHandle index => exact absurd trivial h
  | dynamic index descriptor => exact absurd trivial h
  | _ => trivial

private theorem ConstantResult.gives_step {r : ConstantResult} (hr : ¬r.value.IsIndexed)
    (placed : Bool) {e : Event} (he : e.ProperIn pool) :
    Gives labels (r.step context placed e) (AllProper pool) := by
  refine .ite (fun _ => .keep placed he) fun _ =>
    .ite (fun _ => .pure (by simp [AllProper])) fun _ => .note (.pure ?_)
  simpa [AllProper, code] using ⟨Value.properIn_of_not_isIndexed hr, trivial⟩

private theorem ForcedJump.gives_step (j : ForcedJump) (marked : Bool) {e : Event}
    (he : e.ProperIn pool) : Gives labels (j.step context marked e) (AllProper pool) := by
  unfold step
  split
  · exact .ite (fun _ => .note (.keep true he)) fun _ => .keep false he
  · exact .keep false he
  · refine .ite (fun _ => .note (.pure ?_)) fun _ => .keep false he
    simp only [AllProper, code, List.mem_cons, List.not_mem_nil, or_false, forall_eq_or_imp,
      forall_eq, Event.properIn_instr]
    exact ⟨rfl, trivial⟩
  · exact .keep _ he

namespace PropertyGuard

private theorem properIn_typeChecks (subject : UInt16) (exit done : Label) (names : List String) :
    ∀ e ∈ typeChecks subject exit done names, e.ProperIn pool := by
  have htest (name : String) : ∀ e ∈ typeTest subject name, e.ProperIn pool := by
    simp [typeTest, pushClass, loadReference, getPropertyType, call, Instruction.ProperIn,
      Value.ProperIn]
  induction names with
  | nil => simp [typeChecks]
  | cons name names ih =>
    intro e he
    cases names with
    | nil =>
      rcases List.mem_append.mp he with he | he
      · exact htest name e he
      · simp only [List.mem_cons, List.not_mem_nil, or_false] at he
        rcases he with rfl | rfl <;> simp [jump, Instruction.ProperIn]
    | cons name' names =>
      rcases List.mem_append.mp he with he | he
      · exact htest name e he
      · rcases List.mem_cons.mp he with rfl | he
        · simp [jump, Instruction.ProperIn]
        · exact ih e he

private theorem properIn_code (g : PropertyGuard) (subject : UInt16) (exit checks done : Label) :
    ∀ e ∈ g.code subject exit checks done, e.ProperIn pool := by
  intro e he
  simp only [code, List.mem_append] at he
  rcases he with ((he | he) | he) | he
  · revert e
    simp [nameCheck, pushClass, loadReference, jump, getName, call, Instruction.ProperIn,
      Value.ProperIn]
  · revert e
    simp [loadReference, getPropertyType, jump, call, Instruction.ProperIn]
  · exact properIn_typeChecks _ _ _ _ e he
  · revert e
    simp

private theorem gives_place (g : PropertyGuard) (s : GuardSearch) {e : Event}
    (he : e.ProperIn pool) :
    Gives labels (g.place context s e) fun out _ => ∀ e ∈ out, e.ProperIn pool := by
  refine .ite (fun _ => .note (.pure (by simpa using he))) fun _ => .notes _ ?_
  split
  · refine .note (.fresh (.fresh (.pure fun e' he' => ?_)))
    rcases List.mem_append.mp he' with he' | he'
    · exact properIn_code _ _ _ _ _ e' he'
    · obtain rfl := List.mem_singleton.mp he'
      exact he
  · exact .throw _

private theorem gives_step (g : PropertyGuard) (s : GuardSearch) {e : Event}
    (he : e.ProperIn pool) : Gives labels (g.step context s e) (AllProper pool) := by
  unfold step
  split
  · exact .keep _ he
  · exact .ite (fun _ => .note (.keep _ he)) fun _ => .keep _ he
  · exact .ite (fun _ => .note (.keep _ he)) fun _ => .keep _ he
  · exact .keep _ he
  · exact .ite (fun _ => (gives_place g s he).bind fun out _ hout => .pure hout) fun _ => .keep _ he
  · exact .keep _ he

end PropertyGuard

/-- A strategy that pushes no indices makes events that can stand over a pool of such events. -/
theorem Strategy.properIn_of_run {strategy : Strategy} (hpushes : strategy.PushesNoIndex)
    {events out : List Event} {r r' : PatchState} (h : strategy.run context events r = .ok out r')
    (hevents : ∀ e ∈ events, e.ProperIn pool) : ∀ e ∈ out, e.ProperIn pool := by
  cases strategy with
  | constantResult c =>
    exact Machine.forall_of_run (fun _ => rfl) (fun {s s' e out r r'} he hs =>
      ConstantResult.gives_step hpushes s he r.log (s', out) r' hs) h hevents
  | forcedJump j =>
    exact Machine.forall_of_run (fun _ => rfl) (fun {s s' e out r r'} he hs =>
      ForcedJump.gives_step j s he r.log (s', out) r' hs) h hevents
  | propertyGuard g =>
    exact Machine.forall_of_run (fun _ => rfl) (fun {s s' e out r r'} he hs =>
      PropertyGuard.gives_step g s he r.log (s', out) r' hs) h hevents

/-- Rewriting keeps a body proper. -/
theorem Body.Rewritten.properIn {body changed : Body} (h : body.Rewritten changed)
    (hbody : body.ProperIn pool) : changed.ProperIn pool := by
  induction h with
  | refl => exact hbody
  | step h hpushes hrun ih =>
    exact ⟨Strategy.properIn_of_run hpushes hrun ih.events, ih.attributes⟩

end ClassPatch
