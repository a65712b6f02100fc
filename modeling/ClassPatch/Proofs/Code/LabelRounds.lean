import ClassPatch.Proofs.Code.Widening
import ClassPatch.Proofs.Code.Limits
import ClassPatch.Proofs.Flow.Faults

/-!
# Labels in the rounds of a layout

Pruning drops instructions, and bridging puts others in place of them, with labels from the supply.
So every round of a layout starts with events that its supply serves, if the first one does, and the
analysis of a round does not miss a label. A bridge puts a label where a loose jump has been: the
supply hands out no more labels than there have been labels and loose jumps in the beginning.
-/

namespace ClassPatch

open PoolM

namespace Error

/-- The error is of no label, or of one that is placed twice where labels are crowded. -/
def SparesLabels (crowded : Prop) : Error → Prop
  | malformed _ | limitExceeded _ => True
  | duplicateLabel _ => crowded
  | _ => False

variable {crowded : Prop} {e : Error}

theorem IsFault.sparesLabels (h : e.IsFault) : e.SparesLabels crowded := by
  obtain ⟨fault, rfl⟩ := h
  trivial

theorem sparesLabels_of_limit (h : ∃ limit, e = .limitExceeded limit) : e.SparesLabels crowded := by
  obtain ⟨limit, rfl⟩ := h
  trivial

end Error

namespace Layout

variable {body : Body} {method : MethodContext} {known : Label → Prop} {events : List LayoutEvent}
  {supply : LabelSupply} {p : ConstantPool} {count : Nat}

/-! ### Events that are rewritten -/

theorem rewrites_prune {solution : FlowSolution}
    (hlength : solution.states.toList.length = events.length) :
    Rewrites known supply (events.map (·.event)) supply
      (((prune events solution).map (·.1)).map (·.event)) := by
  unfold prune
  generalize solution.states.toList = states at hlength
  induction events generalizing states with
  | nil => exact .nil supply
  | cons e events ih =>
    obtain ⟨state, states, rfl⟩ := List.exists_cons_of_length_eq_add_one hlength
    have hrest := ih states (by simpa using hlength)
    rw [List.zip_cons_cons]
    by_cases hkept : e.event.isLabel = true ∨ state.isSome = true
    · rw [List.filter_cons_of_pos (by simpa using hkept)]
      exact .cons (.kept e.event) hrest
    · rw [List.filter_cons_of_neg (by simpa using hkept)]
      cases hevent : e.event with
      | label l => exact absurd (.inl (by rw [hevent]; rfl)) hkept
      | instr i =>
        rw [List.map_cons, hevent]
        exact .drop i hrest

/-- Pruning keeps all labels. -/
theorem mem_placedLabels_prune {solution : FlowSolution}
    (hlength : solution.states.toList.length = events.length) {l : Label}
    (hl : l ∈ placedLabels (events.map (·.event))) :
    l ∈ placedLabels (((prune events solution).map (·.1)).map (·.event)) := by
  have hkept : Rewrites (fun _ => True) default _ default _ := rewrites_prune hlength
  exact hkept.placed l hl

theorem becomes_bridge (offsets : Std.TreeMap Label Nat) {e : PlacedEvent}
    (he : ∀ l ∈ e.event.targets, known l) :
    e.event.Becomes known supply (bridge offsets supply e).2
      ((bridge offsets supply e).1.map (·.event)) := by
  unfold bridge
  split
  · rename_i c target hevent
    split
    · have htarget : known target :=
        he target (by simp [hevent, Event.targets, Instruction.targets])
      rw [hevent]
      refine .replaced _ (.cons (.nil _)) ?_ ?_
      · simp [Event.isNew]
      · simp [Event.targets, Instruction.targets, htarget]
    · exact .kept e.event
  · exact .kept e.event

theorem rewrites_bridgeAll (offsets : Std.TreeMap Label Nat) (supply : LabelSupply)
    {placed : List PlacedEvent} (hplaced : ∀ e ∈ placed, ∀ l ∈ e.event.targets, known l) :
    Rewrites known supply (placed.map (·.event)) (bridgeAll offsets placed supply).2
      ((bridgeAll offsets placed supply).1.map (·.event)) := by
  induction placed generalizing supply with
  | nil => exact .nil supply
  | cons e placed ih =>
    rw [List.forall_mem_cons] at hplaced
    rw [bridgeAll_eq, List.map_append]
    exact .cons (becomes_bridge offsets hplaced.1) (ih _ hplaced.2)

/-! ### Labels that are counted -/

/-- The labels that are placed, and the jumps that may still be bridged with one. -/
def labelCount (events : List LayoutEvent) : Nat :=
  (placedLabels (events.map (·.event))).length + looseCount events

theorem labelCount_append (events events' : List LayoutEvent) :
    labelCount (events ++ events') = labelCount events + labelCount events' := by
  simp only [labelCount, looseCount, List.map_append, placedLabels_append, List.length_append,
    List.countP_append]
  omega

theorem labelCount_le_of_sublist {events' : List LayoutEvent} (h : events'.Sublist events) :
    labelCount events' ≤ labelCount events :=
  Nat.add_le_add ((h.map _).filterMap _).length_le h.countP_le

theorem labelCount_singleton_le (e : LayoutEvent) : labelCount [e] ≤ 1 := by
  unfold labelCount looseCount
  cases hevent : e.event with
  | label l => simp [hevent, LayoutEvent.isLoose]
  | instr i => simpa [hevent] using List.countP_le_length (p := (·.isLoose)) (l := [e])

theorem labelCount_le (events : List LayoutEvent) : labelCount events ≤ events.length := by
  induction events with
  | nil => exact Nat.le_refl 0
  | cons e events ih =>
    rw [← List.singleton_append, labelCount_append, List.length_append, List.length_singleton]
    exact Nat.add_le_add (labelCount_singleton_le e) ih

/-- A bridged jump is not loose any more, and places a label. -/
theorem labelCount_bridge (offsets : Std.TreeMap Label Nat) (supply : LabelSupply)
    (e : PlacedEvent) : labelCount (bridge offsets supply e).1 = labelCount [e.toLayoutEvent] := by
  rcases bridge_cases offsets supply e with hkept | ⟨c, l, hevent, -, hbridged⟩
  · rw [hkept]
  · rw [hbridged, hevent]
    rfl

theorem labelCount_bridgeAll (offsets : Std.TreeMap Label Nat) (placed : List PlacedEvent)
    (supply : LabelSupply) :
    labelCount (bridgeAll offsets placed supply).1 = labelCount (placed.map (·.toLayoutEvent)) := by
  induction placed generalizing supply with
  | nil => rfl
  | cons e placed ih =>
    rw [bridgeAll_cons, labelCount_append, labelCount_bridge, ih, ← labelCount_append]
    rfl

/-! ### Rounds -/

/-- What a round starts with: the supply serves the events, the labels of the handlers are placed,
and there are not too many labels and jumps that may become labels. -/
structure Served (body : Body) (count : Nat) (events : List LayoutEvent) (supply : LabelSupply) :
    Prop where
  serves : supply.Serves (events.map (·.event))
  handlers : ∀ h ∈ body.handlers, ∀ l ∈ [h.start, h.stop, h.target],
    l ∈ placedLabels (events.map (·.event))
  count_le : labelCount events ≤ count

namespace Served

theorem prune (h : Served body count events supply) {solution : FlowSolution}
    (hfollows : solution.Follows (events.map (·.event)) body.handlers) :
    Served body count ((Layout.prune events solution).map (·.1)) supply := by
  have hlength := hfollows.length_eq
  rw [List.length_map] at hlength
  exact ⟨h.serves.rewritten (rewrites_prune hlength), fun handler hh l hl =>
    mem_placedLabels_prune hlength (h.handlers handler hh l hl),
    Nat.le_trans (labelCount_le_of_sublist (prune_sublist hfollows)) h.count_le⟩

theorem bridgeAll {placed : List PlacedEvent} (offsets : Std.TreeMap Label Nat)
    (h : Served body count (placed.map (·.toLayoutEvent)) supply) :
    Served body count (ClassPatch.bridgeAll offsets placed supply).1
      (ClassPatch.bridgeAll offsets placed supply).2 := by
  obtain ⟨hserves, hhandlers, hcount⟩ := h
  rw [List.map_map] at hserves hhandlers
  have hrewrites := rewrites_bridgeAll offsets supply fun e he l hl =>
    hserves.targets e.event (List.mem_map_of_mem he) l hl
  exact ⟨hserves.rewritten hrewrites, fun handler hh l hl =>
    hrewrites.placed l (hhandlers handler hh l hl),
      (labelCount_bridgeAll offsets placed supply).symm ▸ hcount⟩

/-- The next round starts with what this one has bridged. -/
theorem round (h : Served body count events supply) (hp : p.WellFormed) {solution : FlowSolution}
    {sized : List SizedEvent} (hround : Round body method p events solution sized)
    (offsets : Std.TreeMap Label Nat) :
    Served body count (ClassPatch.bridgeAll offsets (settle sized).1 supply).1
      (ClassPatch.bridgeAll offsets (settle sized).1 supply).2 := by
  have hpruned := h.prune (FlowSolution.follows hround.analyzed)
  rw [← hround.map_settle hp] at hpruned
  exact hpruned.bridgeAll offsets

/-- Labels are placed twice only if there are more than the supply can tell apart. -/
theorem crowded (h : Served body count events supply)
    (hnodup : ¬(placedLabels (events.map (·.event))).Nodup) : UInt32.size < count := by
  refine Nat.lt_of_not_le fun hle => hnodup (h.serves.handedOut.nodup ?_)
  exact Nat.le_trans (Nat.le_trans (Nat.le_add_right _ _) h.count_le) hle

/-- The analysis of a round misses no label. -/
theorem failsBy_analyze (h : Served body count events supply) (method : MethodContext) :
    Except.FailsBy (Error.SparesLabels (UInt32.size < count))
      (analyze (events.map (·.event)) body.handlers body.frames method body.maxLocals) := by
  by_cases hnodup : (placedLabels (events.map (·.event))).Nodup
  · refine (FlowSolution.failsBy_analyze hnodup h.serves.targets h.handlers h.serves.news _ _).mono
      ?_
    rintro e (hfault | hlimit)
    · exact hfault.sparesLabels
    · exact Error.sparesLabels_of_limit hlimit
  · refine Except.FailsBy.bind ((FlowGraph.failsBy_ofEvents hnodup).mono ?_) fun g hg => ?_
    · rintro e ⟨l, rfl⟩
      exact h.crowded hnodup
    · exact absurd (FlowGraph.isOf_of_ofEvents hg).nodup hnodup

/-- No round misses a label. -/
theorem failsBy_ofEvents (h : Served body count events supply) :
    FailsBy (Error.SparesLabels (UInt32.size < count)) p (ofEvents body method events supply) := by
  generalize hloose : looseCount events = loose
  induction loose using Nat.strongRecOn generalizing events supply p with
  | _ loose ih =>
    rw [ofEvents_eq]
    refine (failsBy_lookUp (h.failsBy_analyze method)).bind
      (fun _ => (steady_measure _).bind fun _ => steady_finish _ _ _ _)
      fun {q solution} _ _ hfound => ?_
    refine ((limited_measure _).imp fun _ => Error.sparesLabels_of_limit).bind
      (fun _ => steady_finish _ _ _ _) fun {q' sized} _ hwf hsized => ?_
    unfold finish
    dsimp only
    split
    · rename_i hfewer
      exact ih _ (hloose ▸ hfewer.2) (h.round hwf ⟨finds_analyze hfound, hsized⟩ _) rfl
    · exact .pure _

end Served
end Layout
end ClassPatch
