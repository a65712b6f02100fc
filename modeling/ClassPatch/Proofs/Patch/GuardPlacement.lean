import ClassPatch.Proofs.Code.LabelSupply
import ClassPatch.Proofs.Patch.PropertyGuard

/-!
# Where a guard is placed

The window of a comparison begins at the first push of the guarded type and ends at the first
trigger behind it. `PropertyGuard.Places` says without a machine what becomes of events: everything
depends on the window, on the last reference stored in front of it and on the first jump that leaves
it. The search knows just this at every position, so the machine does as the relation says and
nothing else.
-/

namespace ClassPatch

/-! ### What a computation comes to -/

/-- What a computation comes to and the labels it leaves, whatever it notes. -/
def PatchM.Yields {α : Type} (m : PatchM α) (r : PatchState) (result : Except Mismatch α)
    (labels : LabelSupply) : Prop :=
  ∃ log, m r = match result with
    | .ok x => .ok x ⟨labels, log⟩
    | .error cause => .error cause ⟨labels, log⟩

namespace PatchM.Yields

variable {α β : Type} {m : PatchM α} {f : α → PatchM β} {r : PatchState} {x : α}
  {labels labels' : LabelSupply} {result result' : Except Mismatch α}

theorem ok_iff : m.Yields r (.ok x) labels ↔ ∃ log, m r = .ok x ⟨labels, log⟩ := Iff.rfl

theorem pure (x : α) (r : PatchState) : (Pure.pure x : PatchM α).Yields r (.ok x) r.labels :=
  ⟨r.log, rfl⟩

theorem throw (cause : Mismatch) (r : PatchState) :
    (MonadExcept.throw cause : PatchM α).Yields r (.error cause) r.labels :=
  ⟨r.log, rfl⟩

theorem note (notice : Notice) (r : PatchState) : (PatchM.note notice).Yields r (.ok ()) r.labels :=
  ⟨r.log.push notice, rfl⟩

theorem fresh (r : PatchState) :
    PatchM.fresh.Yields r (.ok r.labels.fresh) r.labels.advance :=
  ⟨r.log, rfl⟩

theorem bind {result : Except Mismatch β} (h : m.Yields r (.ok x) labels)
    (hf : ∀ log, (f x).Yields ⟨labels, log⟩ result labels') :
    (m >>= f).Yields r result labels' := by
  obtain ⟨log, hm⟩ := h
  obtain ⟨log', hx⟩ := hf log
  exact ⟨log', (EStateM.bind_of_ok hm).trans hx⟩

theorem bind_error {cause : Mismatch} (h : m.Yields r (.error cause) labels) :
    (m >>= f).Yields r (.error cause) labels := by
  obtain ⟨log, hm⟩ := h
  exact ⟨log, EStateM.bind_of_error hm⟩

/-- Success is changed, failure is passed on. -/
theorem map (h : m.Yields r result labels) (f : α → β) :
    (m >>= fun x => Pure.pure (f x)).Yields r (result.map f) labels := by
  cases result with
  | ok x => exact bind h fun log => pure (f x) ⟨labels, log⟩
  | error cause => exact bind_error h

theorem notes {notice : α → Notice} (xs : List α) (r : PatchState) :
    (xs.forM fun x => PatchM.note (notice x)).Yields r (.ok ()) r.labels := by
  induction xs generalizing r with
  | nil => exact pure () r
  | cons x xs ih => exact bind (note (notice x) r) fun log => ih ⟨r.labels, log⟩

/-- A computation comes to one thing. -/
theorem unique (h : m.Yields r result labels) (h' : m.Yields r result' labels') :
    result = result' ∧ labels = labels' := by
  obtain ⟨log, h⟩ := h
  obtain ⟨log', h'⟩ := h'
  rw [h] at h'
  cases result <;> cases result' <;> simp_all

end PatchM.Yields

open PatchM (Yields)

namespace Machine

variable {σ : Type} {m : Machine σ} {s s' s'' : σ} {e : Event} {events events' : List Event}

/-- The machine lets events through unchanged, takes no label and comes from one state to
another. -/
inductive Passes (m : Machine σ) : σ → List Event → σ → Prop
  | nil (s : σ) : Passes m s [] s
  | cons {s s' s'' : σ} {e : Event} {events : List Event}
      (head : ∀ r, (m.step s e).Yields r (.ok (s', [e])) r.labels) (rest : Passes m s' events s'') :
      Passes m s (e :: events) s''

namespace Passes

/-- A state that tells what has been read follows the events. -/
theorem of_prefix (state : List Event → σ) {P : Event → Prop}
    (h : ∀ before e, P e →
      ∀ r, (m.step (state before) e).Yields r (.ok (state (before ++ [e]), [e])) r.labels)
    (before : List Event) (hevents : ∀ e ∈ events, P e) :
    m.Passes (state before) events (state (before ++ events)) := by
  induction events generalizing before with
  | nil =>
    rw [List.append_nil]
    exact .nil _
  | cons e events ih =>
    rw [List.forall_mem_cons] at hevents
    refine .cons (h before e hevents.1) ?_
    rw [List.append_cons before e events]
    exact ih (before ++ [e]) hevents.2

theorem append (h : m.Passes s events s') (h' : m.Passes s' events' s'') :
    m.Passes s (events ++ events') s'' := by
  induction h with
  | nil => exact h'
  | cons head _ ih => exact .cons head (ih h')

/-- What is made of the events behind those that pass. -/
theorem output (hpasses : m.Passes s events s') {r : PatchState}
    {result : Except Mismatch (List Event)} {labels : LabelSupply}
    (h : ∀ log, (m.output s' events').Yields ⟨r.labels, log⟩ result labels) :
    (m.output s (events ++ events')).Yields r (result.map (events ++ ·)) labels := by
  induction hpasses generalizing r with
  | nil s =>
    cases result <;> exact h r.log
  | @cons s s₁ s' e events head _ ih =>
    refine (head r).bind fun log => ?_
    have htail := (ih (r := ⟨r.labels, log⟩) h).map ([e] ++ ·)
    cases result <;> exact htail

/-- Events that pass are all that is made of them. -/
theorem output_eq (hpasses : m.Passes s events s') (hfinish : m.AddsNothing) (r : PatchState) :
    (m.output s events).Yields r (.ok events) r.labels := by
  have hnil : ∀ log, (m.output s' []).Yields ⟨r.labels, log⟩ (.ok []) r.labels := by
    intro log
    rw [Machine.output, hfinish s']
    exact .pure [] ⟨r.labels, log⟩
  simpa only [List.append_nil, Except.map] using hpasses.output hnil

end Passes
end Machine

/-! ### Where the guard belongs -/

/-- The slot that a reference is stored in. -/
def Event.storedSlot? : Event → Option UInt16
  | .instr (.store .reference slot) => some slot
  | _ => none

/-- Where a jump leads that is always taken. -/
def Event.gotoTarget? : Event → Option Label
  | .instr (.jump .goto target) => some target
  | _ => none

namespace PropertyGuard

/-- The slot of the last reference that is stored. -/
def lastStored? (events : List Event) : Option UInt16 :=
    (events.filterMap Event.storedSlot?).getLast?

/-- The first jump that leaves the events. -/
def firstExit? (events : List Event) : Option Label :=
  (events.filterMap Event.gotoTarget?).find? (· ∉ placedLabels events)

variable (g : PropertyGuard)

/-- The events are the window of the comparison: they begin behind the first push of the guarded
type and end at the first trigger behind it. -/
structure Window (events before inside : List Event) (trigger : Instruction Label)
    (after : List Event) : Prop where
  events_eq : events = before ++ pushClass g.guardedType :: (inside ++ .instr trigger :: after)
  first : pushClass g.guardedType ∉ before
  trigger : g.IsTrigger trigger
  nearest : ∀ i, .instr i ∈ inside → ¬g.IsTrigger i

/-- The events push a forbidden type. -/
def PushesForbidden (events : List Event) : Prop :=
    ∃ name ∈ g.forbiddenTypes, pushClass name ∈ events

/-- What becomes of events, and of the labels that are left. -/
inductive Places (events : List Event) (labels : LabelSupply) :
    Except Mismatch (List Event) → LabelSupply → Prop
  | absent (h : ∀ before inside trigger after, ¬g.Window events before inside trigger after) :
      Places events labels (.ok events) labels
  | guarded {before inside after : List Event} {trigger : Instruction Label}
      (window : g.Window events before inside trigger after) (h : g.PushesForbidden inside) :
      Places events labels (.ok events) labels
  | unanchored {before inside after : List Event} {trigger : Instruction Label}
      (window : g.Window events before inside trigger after) (h : ¬g.PushesForbidden inside)
      (hanchor : lastStored? before = none ∨ firstExit? inside = none) :
      Places events labels (.error (.noAnchor g.triggerField)) labels
  | placed {before inside after : List Event} {trigger : Instruction Label} {subject : UInt16}
      {exit : Label} (window : g.Window events before inside trigger after)
      (h : ¬g.PushesForbidden inside) (hsubject : lastStored? before = some subject)
      (hexit : firstExit? inside = some exit) :
      Places events labels
        (.ok (before ++ pushClass g.guardedType :: (inside ++
          (g.code subject exit labels.fresh labels.advance.fresh ++ .instr trigger :: after))))
        labels.advance.advance

variable {g} {events before inside after : List Event} {trigger : Instruction Label}

/-- The guarded type is not pushed, or it is and there is no trigger behind it, or there is a
window. -/
theorem exists_window (g : PropertyGuard) (events : List Event) :
    (pushClass g.guardedType ∉ events) ∨
    (∃ before behind, events = before ++ pushClass g.guardedType :: behind ∧
      pushClass g.guardedType ∉ before ∧ ∀ i, .instr i ∈ behind → ¬g.IsTrigger i) ∨
    ∃ before inside trigger after, g.Window events before inside trigger after := by
  classical
  by_cases hmem : pushClass g.guardedType ∈ events
  · obtain ⟨before, behind, rfl, hfirst⟩ := List.eq_append_cons_of_mem hmem
    refine .inr ?_
    cases hfind : behind.find? fun e => decide (∃ i, e = .instr i ∧ g.IsTrigger i) with
    | none =>
      rw [List.find?_eq_none] at hfind
      refine .inl ⟨before, behind, rfl, hfirst, fun i hi htrigger => ?_⟩
      exact hfind _ hi (decide_eq_true ⟨i, rfl, htrigger⟩)
    | some e =>
      obtain ⟨he, inside, after, rfl, hnearest⟩ := List.find?_eq_some_iff_append.mp hfind
      obtain ⟨trigger, rfl, htrigger⟩ := of_decide_eq_true he
      refine .inr ⟨before, inside, trigger, after, rfl, hfirst, htrigger, fun i hi hi' => ?_⟩
      simpa using (hnearest _ hi).symm.trans (congrArg not (decide_eq_true ⟨i, rfl, hi'⟩))
  · exact .inl hmem

/-- Something becomes of all events. -/
theorem exists_places (g : PropertyGuard) (events : List Event) (labels : LabelSupply) :
    ∃ result labels', g.Places events labels result labels' := by
  by_cases hwindow : ∃ before inside trigger after, g.Window events before inside trigger after
  · obtain ⟨before, inside, trigger, after, window⟩ := hwindow
    by_cases hguarded : g.PushesForbidden inside
    · exact ⟨_, _, .guarded window hguarded⟩
    · cases hsubject : lastStored? before with
      | none => exact ⟨_, _, .unanchored window hguarded (.inl hsubject)⟩
      | some subject =>
        cases hexit : firstExit? inside with
        | none => exact ⟨_, _, .unanchored window hguarded (.inr hexit)⟩
        | some exit => exact ⟨_, _, .placed window hguarded hsubject hexit⟩
  · simp only [not_exists] at hwindow
    exact ⟨_, _, .absent hwindow⟩

/-! ### What the search knows -/

/-- The search in front of the window. -/
def searchBefore (before : List Event) : GuardSearch :=
  { GuardSearch.start with subject := lastStored? before }

/-- The event pushes a forbidden type. -/
def isForbidden (g : PropertyGuard) : Event → Bool
  | .instr (.push (.classRef name)) => g.forbiddenTypes.contains name
  | _ => false

/-- The search in the window. -/
def searchInside (g : PropertyGuard) (before inside : List Event) : GuardSearch where
  inWindow := true
  exits := (inside.filterMap Event.gotoTarget?).toArray
  placed := (placedLabels inside).toArray
  subject := lastStored? before
  isGuarded := inside.any g.isForbidden
  isDone := false

theorem isGuarded_iff : (g.searchInside before inside).isGuarded = true ↔
    g.PushesForbidden inside := by
  simp only [searchInside, List.any_eq_true, PushesForbidden]
  constructor
  · rintro ⟨e, he, hforbidden⟩
    unfold isForbidden at hforbidden
    split at hforbidden
    · exact ⟨_, List.contains_iff_mem.mp hforbidden, he⟩
    · cases hforbidden
  · rintro ⟨name, hname, hpush⟩
    exact ⟨_, hpush, List.contains_iff_mem.mpr hname⟩

theorem exit?_searchInside : (g.searchInside before inside).exit? = firstExit? inside := by
  simp [GuardSearch.exit?, searchInside, firstExit?]

theorem lastStored?_concat (before : List Event) (e : Event) :
    lastStored? (before ++ [e]) = e.storedSlot?.or (lastStored? before) := by
  rw [lastStored?, List.filterMap_append, List.filterMap_cons, List.filterMap_nil]
  cases e.storedSlot? with
  | none => simp [lastStored?]
  | some slot => simp

/-- The search behind an event that does not close the window. -/
def searchNext (g : PropertyGuard) (s : GuardSearch) : Event → GuardSearch
  | .label l => if s.inWindow then { s with placed := s.placed.push l } else s
  | .instr (.push (.classRef name)) =>
    if s.isBefore && name = g.guardedType then { s with inWindow := true }
    else if s.inWindow && g.forbiddenTypes.contains name then { s with isGuarded := true } else s
  | .instr (.jump .goto target) =>
    if s.inWindow then { s with exits := s.exits.push target } else s
  | .instr (.store .reference slot) => if s.isBefore then { s with subject := some slot } else s
  | _ => s

/-- An event that does not close the window passes. -/
theorem step_yields (method : MethodContext) {s : GuardSearch} {e : Event}
    (h : ∀ i, e = .instr i → g.IsTrigger i → s.inWindow = false) (r : PatchState) :
    ((g.machine method).step s e).Yields r (.ok (g.searchNext s e, [e])) r.labels := by
  cases e with
  | label l => exact .pure _ r
  | instr i =>
    cases i with
    | push v =>
      cases v with
      | classRef name =>
        by_cases hopens : (s.isBefore && decide (name = g.guardedType)) = true
        · rw [searchNext, if_pos hopens]
          exact ⟨_, congrFun (if_pos hopens) r⟩
        · rw [searchNext, if_neg hopens]
          exact ⟨_, congrFun (if_neg hopens) r⟩
      | _ => exact .pure _ r
    | jump kind target =>
      cases kind with
      | goto =>
        by_cases hwindow : s.inWindow = true
        · rw [searchNext, if_pos hwindow]
          exact ⟨_, congrFun (if_pos hwindow) r⟩
        · rw [searchNext, if_neg hwindow]
          exact ⟨_, congrFun (if_neg hwindow) r⟩
      | _ => exact .pure _ r
    | store kind slot => cases kind <;> exact .pure _ r
    | field access owner name descriptor =>
      cases access with
      | getStatic =>
        refine ⟨r.log, congrFun (if_neg fun hcloses => ?_) r⟩
        obtain ⟨hwindow, hname⟩ := (Bool.and_eq_true _ _).mp hcloses
        obtain rfl := of_decide_eq_true hname
        exact Bool.false_ne_true ((h _ rfl ⟨owner, descriptor, rfl⟩).symm.trans hwindow)
      | _ => exact .pure _ r
    | _ => exact .pure _ r

/-- In front of the window only the last reference stored matters. -/
theorem searchNext_before (before : List Event) {e : Event} (h : e ≠ pushClass g.guardedType) :
    g.searchNext (searchBefore before) e = searchBefore (before ++ [e]) := by
  rw [searchBefore, searchBefore, lastStored?_concat]
  unfold searchNext
  split <;> simp_all [Event.storedSlot?, GuardSearch.start, GuardSearch.isBefore, pushClass]

/-- The guarded type opens the window. -/
theorem searchNext_opens (before : List Event) :
    g.searchNext (searchBefore before) (pushClass g.guardedType) = g.searchInside before [] := by
  simp [searchNext, searchBefore, searchInside, GuardSearch.start, GuardSearch.isBefore, pushClass]

/-- In the window jumps, labels and forbidden types are gathered. -/
theorem searchNext_inside (before inside : List Event) (e : Event) :
    g.searchNext (g.searchInside before inside) e = g.searchInside before (inside ++ [e]) := by
  cases e with
  | label l => simp [searchNext, searchInside, Event.gotoTarget?, isForbidden]
  | instr i =>
    cases i with
    | push v =>
      cases v with
      | classRef name =>
        by_cases hname : name ∈ g.forbiddenTypes <;>
          simp [searchNext, searchInside, Event.gotoTarget?, isForbidden,
            GuardSearch.isBefore, hname]
      | _ => simp [searchNext, searchInside, Event.gotoTarget?, isForbidden]
    | jump kind target =>
      cases kind <;> simp [searchNext, searchInside, Event.gotoTarget?, isForbidden]
    | store kind slot =>
      cases kind <;>
        simp [searchNext, searchInside, Event.gotoTarget?, isForbidden, GuardSearch.isBefore]
    | _ => simp [searchNext, searchInside, Event.gotoTarget?, isForbidden]

/-- Behind the window nothing matters. -/
theorem searchNext_done {s : GuardSearch} (hwindow : s.inWindow = false) (hdone : s.isDone = true)
    (e : Event) : g.searchNext s e = s := by
  unfold searchNext
  split <;> simp_all [GuardSearch.isBefore]

/-! ### What the machine does -/

section Run

variable (method : MethodContext)

/-- Events that do not push the guarded type pass in front of the window. -/
theorem passes_before (hbefore : pushClass g.guardedType ∉ before) :
    (g.machine method).Passes (g.machine method).initial before (searchBefore before) := by
  refine Machine.Passes.of_prefix searchBefore (P := (· ≠ pushClass g.guardedType))
    (fun before e he r => ?_) [] fun e he => ne_of_mem_of_not_mem he hbefore
  rw [← searchNext_before before he]
  refine step_yields method (fun _ _ _ => ?_) r
  rfl

/-- Events without a trigger pass in the window. -/
theorem passes_inside (before : List Event) (hinside : ∀ i, .instr i ∈ inside → ¬g.IsTrigger i) :
    (g.machine method).Passes (searchBefore before) (pushClass g.guardedType :: inside)
      (g.searchInside before inside) := by
  refine .cons (fun r => ?_) (Machine.Passes.of_prefix (g.searchInside before)
    (P := fun e => ∀ i, e = .instr i → ¬g.IsTrigger i) (fun inside e he r => ?_) []
    fun e he i hi => hinside i (hi ▸ he))
  · rw [← searchNext_opens before]
    refine step_yields method (fun _ _ _ => ?_) r
    rfl
  · rw [← searchNext_inside before inside e]
    exact step_yields method (fun i hi htrigger => absurd htrigger (he i hi)) r

/-- Everything passes behind the window. -/
theorem passes_done {s : GuardSearch} (hwindow : s.inWindow = false) (hdone : s.isDone = true)
    (events : List Event) : (g.machine method).Passes s events s := by
  refine Machine.Passes.of_prefix (fun _ => s) (P := fun _ => True) (fun _ e _ r => ?_) []
    fun _ _ => trivial
  have h := step_yields (g := g) method (e := e) (fun _ _ _ => hwindow) r
  rwa [searchNext_done hwindow hdone] at h

/-- Without a window everything passes. -/
theorem passes_of_absent
    (h : ∀ before inside trigger after, ¬g.Window events before inside trigger after) :
    ∃ s, (g.machine method).Passes (g.machine method).initial events s := by
  obtain hbefore | ⟨before, behind, rfl, hfirst, hbehind⟩ | hwindow := exists_window g events
  · exact ⟨_, passes_before method hbefore⟩
  · exact ⟨_, (passes_before method hfirst).append (passes_inside method before hbehind)⟩
  · obtain ⟨before, inside, trigger, after, window⟩ := hwindow
    exact absurd window (h before inside trigger after)

theorem Window.passes (window : g.Window events before inside trigger after) :
    (g.machine method).Passes (g.machine method).initial
      (before ++ pushClass g.guardedType :: inside) (g.searchInside before inside) :=
  (passes_before method window.first).append (passes_inside method before window.nearest)

variable {r : PatchState} {s : GuardSearch} {labels' : LabelSupply}

/-- At a trigger the window is closed. -/
theorem step_trigger (htrigger : g.IsTrigger trigger) (hwindow : s.inWindow = true) :
    (g.machine method).step s (.instr trigger) =
      (do return (s.close, ← g.place method s (.instr trigger)) : PatchM _) := by
  obtain ⟨owner, descriptor, rfl⟩ := htrigger
  exact if_pos (by simp [hwindow])

/-- What the machine makes of the events is what it puts in place of the trigger. -/
theorem Window.yields (window : g.Window events before inside trigger after)
    {result : Except Mismatch (List Event)}
    (h : ∀ log, (g.place method (g.searchInside before inside) (.instr trigger)).Yields
      ⟨r.labels, log⟩ result labels') :
    ((g.machine method).run events).Yields r
      (result.map fun out => before ++ pushClass g.guardedType :: (inside ++ (out ++ after)))
      labels' := by
  have hbehind : ∀ log, ((g.machine method).output (g.searchInside before inside)
      (.instr trigger :: after)).Yields ⟨r.labels, log⟩ (result.map (· ++ after)) labels' := by
    intro log
    have hstep := (h log).map fun out => ((g.searchInside before inside).close, out)
    rw [← step_trigger method window.trigger rfl] at hstep
    cases result with
    | error cause => exact Yields.bind_error hstep
    | ok out =>
      refine Yields.bind hstep fun log => ?_
      exact ((passes_done method rfl rfl after).output_eq (fun _ => rfl) _).map (out ++ ·)
  have hrun := (window.passes method).output hbehind
  rw [List.append_assoc, List.cons_append, ← window.events_eq] at hrun
  rw [Machine.run_eq]
  cases result <;> simpa only [Except.map, List.append_assoc, List.cons_append] using hrun

/-- A guarded window is left as it is. -/
theorem place_of_guarded (h : s.isGuarded = true) (e : Event) :
    (g.place method s e).Yields r (.ok [e]) r.labels :=
  ⟨_, congrFun (if_pos h) r⟩

/-- Without a slot and a jump that leaves the window there is no guard. -/
theorem place_of_unanchored (h : ¬s.isGuarded = true) (hanchor : s.subject = none ∨ s.exit? = none)
    (e : Event) : (g.place method s e).Yields r (.error (.noAnchor g.triggerField)) r.labels := by
  rw [show g.place method s e = _ from if_neg h]
  refine (Yields.notes _ r).bind fun log => ?_
  obtain hsubject | hexit := hanchor
  · rw [hsubject]
    split
    · cases ‹none = some _›
    · exact .throw _ _
  · rw [hexit]
    exact .throw _ _

/-- The guard takes two labels. -/
theorem place_of_anchored (h : ¬s.isGuarded = true) {subject : UInt16} {exit : Label}
    (hsubject : s.subject = some subject) (hexit : s.exit? = some exit) (e : Event)
    (labels : LabelSupply) (log : Log) :
    (g.place method s e).Yields ⟨labels, log⟩
      (.ok (g.code subject exit labels.fresh labels.advance.fresh ++ [e]))
      labels.advance.advance := by
  rw [show g.place method s e = _ from if_neg h, hsubject, hexit]
  refine (Yields.notes _ _).bind fun log => (Yields.note _ _).bind fun log => ?_
  exact (Yields.fresh _).bind fun log => (Yields.fresh _).bind fun log => .pure _ _

/-- The machine does what the relation says. -/
theorem Places.yields {result : Except Mismatch (List Event)}
    (h : g.Places events r.labels result labels') :
    ((g.machine method).run events).Yields r result labels' := by
  cases h with
  | absent habsent =>
    obtain ⟨s, hpasses⟩ := passes_of_absent method habsent
    rw [Machine.run_eq]
    exact hpasses.output_eq (fun _ => rfl) r
  | guarded window hforbidden =>
    have hrun := window.yields method (r := r) fun log =>
      place_of_guarded method (isGuarded_iff.mpr hforbidden) _
    rwa [Except.map, List.singleton_append, ← window.events_eq] at hrun
  | unanchored window hforbidden hanchor =>
    rw [← exit?_searchInside (g := g)] at hanchor
    exact window.yields method fun log =>
      place_of_unanchored method (mt isGuarded_iff.mp hforbidden) hanchor _
  | placed window hforbidden hsubject hexit =>
    rw [← exit?_searchInside (g := g)] at hexit
    have hrun := window.yields method (r := r) fun log =>
      place_of_anchored method (mt isGuarded_iff.mp hforbidden) hsubject hexit _ _ log
    rwa [Except.map, List.append_assoc, List.singleton_append] at hrun

/-- What the machine does is what the relation says. -/
theorem places_of_yields {result : Except Mismatch (List Event)}
    (hrun : ((g.machine method).run events).Yields r result labels') :
    g.Places events r.labels result labels' := by
  obtain ⟨result', labels'', hplaces⟩ := exists_places g events r.labels
  obtain ⟨rfl, rfl⟩ := hrun.unique (hplaces.yields method)
  exact hplaces

/-- The machine does to all events just what the relation says, whatever it notes: it leaves them as
they are, rejects them, or puts one guard in front of the trigger, with labels that are not in
use. -/
theorem run_yields_iff_places (g : PropertyGuard) (method : MethodContext) (events : List Event)
    (r : PatchState) :
    (∀ result labels', ((g.machine method).run events).Yields r result labels' ↔
      g.Places events r.labels result labels') ∧
    ∀ handed : List Label, r.labels.HandedOut handed → handed.length + 2 ≤ UInt32.size →
      (r.labels.advance.fresh :: r.labels.fresh :: handed).Nodup := by
  refine ⟨fun result labels' => ⟨places_of_yields method, fun h => h.yields method⟩,
    fun handed h hroom => ?_⟩
  exact h.fresh.fresh.nodup hroom

end Run

end PropertyGuard
end ClassPatch
