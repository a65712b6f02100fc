import ClassPatch.Proofs.Code.Fixups
import ClassPatch.Proofs.Code.LabelRounds
import ClassPatch.Proofs.Flow.Unguarded

/-!
# Look-ups of a layout

Here the offsets of a round of layout are a table by the index of the event, and are read from it
without a test whether there are as many. There are: every event that is measured notes its offset.
A jump whose target has no offset is an error that layout reports. It never does, since every round
keeps the labels that were checked, and bridges place the labels that they jump to.
-/

namespace ClassPatch

open PoolM

/-! ### Labels that stay -/

/-- Everything that the events jump to is placed among them. -/
def Targeted (events : List Event) : Prop := ∀ e ∈ events, ∀ l ∈ e.targets, l ∈ placedLabels events

theorem Targeted.rewritten {events out : List Event} {supply supply' : LabelSupply}
    (h : Targeted events) (hout : Rewrites (· ∈ placedLabels events) supply events supply' out) :
    Targeted out :=
  fun e he l hl => (hout.targets h e he l hl).elim (hout.placed l) id

theorem Body.targeted {body : Body} (h : body.checkLabels = .ok ()) : Targeted body.events := by
  intro e he l hl
  cases e with
  | label l' => cases hl
  | instr i => exact Body.mem_of_checkLabels h (Body.mem_references_of_target he hl)

namespace Unguarded

/-! ### Settling -/

/-- What a round notes while it goes through the events. -/
structure Spread where
  /-- The offset of every event. -/
  offsets : Array Nat
  labels : Std.TreeMap Label Nat
  /-- Where the next event begins. -/
  length : Nat

/-- Notes an event. -/
def Spread.next (s : Spread) (e : SizedEvent) : Spread where
  offsets := s.offsets.push s.length
  labels :=
    match e.event with
    | .label l => s.labels.insert l s.length
    | .instr _ => s.labels
  length := s.length + e.extent.size s.length e.wide

/-- The offsets of events that lie one behind the other. -/
def spread (events : List SizedEvent) : Spread := events.foldl .next ⟨#[], ∅, 0⟩

/-- The event at an index is a near jump that does not reach its target. -/
def overshoots (s : Spread) (row : SizedEvent × Nat) : Except Halt Bool :=
  match row.1.extent, row.1.wide with
  | .jump _ target, false => do
    let target ← report (offsetOf s.labels target)
    let origin ← demand s.offsets[row.2]?
    return !isNear (target - origin)
  | _, _ => return false

/-- The event has to be bridged, if it does not reach its target. -/
def isFar (row : SizedEvent × Bool) : Bool := row.1.isLoose && row.2

/-- The event as a wide jump, if it does not reach its target otherwise. -/
def grow (row : SizedEvent × Bool) : SizedEvent :=
  match row.1.extent with
  | .jump (.branch _) _ => row.1
  | _ => { row.1 with wide := row.1.wide || row.2 }

/-- Makes jumps wide until all reach their targets or one has to be bridged. -/
def settle (events : List SizedEvent) : Except Halt (List PlacedEvent × Nat) :=
  let s := spread events
  match events.zipIdx.mapM (overshoots s) with
  | .error h => .error h
  | .ok far =>
    let rows := events.zip far
    let grown := rows.map grow
    if !rows.any isFar && narrowCount grown < narrowCount events then
      settle grown
    else
      .ok ((events.zip s.offsets.toList).map fun (e, offset) => { e with offset }, s.length)
termination_by narrowCount events
decreasing_by
  rename_i h
  exact of_decide_eq_true (Bool.and_eq_true_iff.mp h).2

theorem foldl_next {placed : List PlacedEvent} {start stop : Nat} (h : Laid start placed stop)
    (offsets : Array Nat) (labels : Std.TreeMap Label Nat) :
    (placed.map (·.toSizedEvent)).foldl Spread.next ⟨offsets, labels, start⟩ =
      ⟨offsets ++ (placed.map (·.offset)).toArray,
        placed.foldl (Layout.notePlaced (·.offset)) labels, stop⟩ := by
  induction h generalizing offsets labels with
  | nil => simp
  | @cons e placed stop _ ih =>
    rw [List.map_cons, List.foldl_cons, List.foldl_cons]
    refine (ih _ _).trans ?_
    congr 1
    simp

/-- The offsets are those of the places. -/
theorem spread_eq (events : List SizedEvent) : spread events =
    ⟨((place events).1.map (·.offset)).toArray, labelOffsets (place events).1,
      (place events).2⟩ := by
  obtain ⟨hsized, hlaid⟩ := place_spec events
  have h := foldl_next hlaid #[] ∅
  rw [hsized, Array.empty_append] at h
  exact h

/-- Events place their labels once, and the targets of their jumps are among them. -/
structure Findable (events : List SizedEvent) : Prop where
  nodup : (placedLabels (events.map (·.event))).Nodup
  targets : ∀ e ∈ events, ∀ kind l, e.extent = .jump kind l →
    l ∈ placedLabels (events.map (·.event))

namespace Findable

variable {events : List SizedEvent}

theorem of_place (h : Findable events) :
    Findable ((place events).1.map fun e => e.grow (labelOffsets (place events).1)) where
  nodup := by
    rw [map_event_grow]
    exact h.nodup
  targets e he kind l hl := by
    rw [map_event_grow]
    obtain ⟨e', he', rfl⟩ := List.mem_map.mp he
    refine h.targets e'.toSizedEvent (mem_of_place he') kind l ?_
    exact (congrArg (·.2.2) (PlacedEvent.measured_grow _ e')).symm.trans hl

/-- The target of a jump has an offset. -/
theorem exists_offset (h : Findable events) {e : PlacedEvent} (he : e ∈ (place events).1)
    {kind : Jump} {l : Label} (hl : e.extent = .jump kind l) :
    ∃ offset, (labelOffsets (place events).1)[l]? = some offset := by
  have hmem := h.targets e.toSizedEvent (mem_of_place he) kind l hl
  rw [← map_event_place] at hmem
  obtain ⟨e', he', hevent⟩ := List.mem_map.mp (mem_placedLabels.mp hmem)
  exact ⟨e'.offset, labelOffsets_of_mem (map_event_place events ▸ h.nodup) he' hevent⟩

/-- The offset of an event is at its index. -/
theorem overshoots_eq (h : Findable events) {row : PlacedEvent × Nat}
    (hrow : row ∈ (place events).1.zipIdx) :
    overshoots (spread events) (row.1.toSizedEvent, row.2) =
      .ok (row.1.overshoots (labelOffsets (place events).1)) := by
  have hat : (place events).1[row.2]? = some row.1 := List.mem_zipIdx_iff_getElem?.mp hrow
  have horigin : ((place events).1.map (·.offset)).toArray[row.2]? = some row.1.offset := by
    simp [hat]
  rw [spread_eq]
  unfold overshoots PlacedEvent.overshoots
  cases hextent : row.1.extent with
  | jump kind l =>
    obtain ⟨offset, hoffset⟩ := h.exists_offset (List.mem_of_getElem? hat) hextent
    cases hwide : row.1.wide with
    | true => simp [hoffset]; rfl
    | false =>
      simp only [offsetOf, hoffset, horigin, demand]
      rfl
  | _ => rfl

theorem mapM_overshoots (h : Findable events) : events.zipIdx.mapM (overshoots (spread events)) =
    .ok ((place events).1.map (·.overshoots (labelOffsets (place events).1))) := by
  have hzip : events.zipIdx =
      (place events).1.zipIdx.map fun row => (row.1.toSizedEvent, row.2) := by
    conv_lhs => rw [← (place_spec events).1, List.zipIdx_map]
    rfl
  rw [hzip, List.mapM_map]
  refine (Except.mapM_eq_map fun row hrow => h.overshoots_eq hrow).trans ?_
  let f := PlacedEvent.overshoots (labelOffsets (place events).1)
  have hrows : (place events).1.zipIdx.map (f ∘ Prod.fst) = (place events).1.map f := by
    rw [← List.map_map, List.zipIdx_map_fst]
  exact congrArg Except.ok hrows

end Findable

/-- The events of a round with what is found of them at their places. -/
theorem zip_place {α : Type} (events : List SizedEvent) (f : PlacedEvent → α) :
    events.zip ((place events).1.map f) = (place events).1.map fun e => (e.toSizedEvent, f e) := by
  conv_lhs => arg 1; rw [← (place_spec events).1]
  exact List.zip_map'

/-- The round as it goes on from its places. -/
theorem settle_of_findable {events : List SizedEvent} (h : Findable events) : settle events =
    let offsets := labelOffsets (place events).1
    let grown := (place events).1.map (·.grow offsets)
    if !(place events).1.any (·.isFar offsets) && narrowCount grown < narrowCount events then
      settle grown
    else
      .ok (place events) := by
  have hplaces : ((place events).1.map fun e => (e.toSizedEvent, e.offset)).map
      (fun (e, offset) => ({ e with offset } : PlacedEvent)) = (place events).1 := by
    rw [List.map_map]
    exact List.map_id _
  rw [settle]
  simp only [h.mapM_overshoots]
  simp only [spread_eq, zip_place, hplaces]
  rw [List.map_map, List.any_map]
  rfl

/-- Nothing is read that is not there while jumps are made wide. -/
theorem settle_eq {events : List SizedEvent} (h : Findable events) :
    settle events = .ok (ClassPatch.settle events) := by
  fun_induction ClassPatch.settle events with
  | case1 events placed offsets grown hagain ih =>
    rw [settle_of_findable h]
    exact (if_pos hagain).trans (ih h.of_place)
  | case2 events placed offsets grown hdone =>
    rw [settle_of_findable h]
    exact if_neg hdone

/-! ### Rounds -/

/-- Lays events out, bridging jumps as often as it takes. -/
def ofEvents (body : Body) (method : MethodContext) (events : List LayoutEvent)
    (supply : LabelSupply) : EncodeM Layout := do
  let solution ← halting
    (analyze (events.map (·.event)) body.handlers body.frames method body.maxLocals)
  let sized ← raise (Layout.measure (Layout.prune events solution))
  let (placed, length) ← halting (settle sized)
  let offsets := labelOffsets placed
  let (bridged, supply) := bridgeAll offsets placed supply
  if placed.any (·.isFar offsets) ∧ looseCount bridged < looseCount events then
    ofEvents body method bridged supply
  else
    return { placed, length, maxStack := solution.maxStack, maxLocals := solution.maxLocals }
termination_by looseCount events
decreasing_by
  rename_i h
  exact h.2

/-- The layout of a body. -/
def ofBody (body : Body) (method : MethodContext) : EncodeM Layout :=
  ofEvents body method (body.events.map (⟨·, false⟩)) body.labels

section

variable {body : Body} {method : MethodContext} {p : ConstantPool} {events : List LayoutEvent}
  {solution : FlowSolution} {sized : List SizedEvent}

/-- What can be reached only jumps to labels that are placed. -/
theorem targeted_prune (h : Layout.Round body method p events solution sized)
    (htargeted : Targeted (events.map (·.event))) :
    Targeted (((Layout.prune events solution).map (·.1)).map (·.event)) := by
  have hlength := (FlowSolution.follows h.analyzed).length_eq
  rw [List.length_map] at hlength
  have hkept : Rewrites (· ∈ placedLabels (events.map (·.event))) body.labels
      (events.map (·.event)) body.labels _ := Layout.rewrites_prune hlength
  exact htargeted.rewritten hkept

/-- What a round measures can be found. -/
theorem findable_of_round (hp : p.WellFormed) (h : Layout.Round body method p events solution sized)
    (htargeted : Targeted (events.map (·.event))) : Findable sized := by
  have hfollows := FlowSolution.follows h.analyzed
  have hevents : sized.map (·.event) = ((Layout.prune events solution).map (·.1)).map
      (·.event) := by
    rw [← Layout.events_of_finds_measure hp h.measured, List.map_map]
    rfl
  have hkept : Targeted (sized.map (·.event)) := hevents ▸ targeted_prune h htargeted
  refine ⟨?_, fun e he kind l hl => ?_⟩
  · rw [hevents]
    exact hfollows.nodup.sublist (((Layout.prune_sublist hfollows).map _).filterMap _)
  · obtain ⟨row, -, extent, hextent, rfl⟩ := (Layout.finds_measure hp h.measured).exists_left he
    have hjump := (Extent.eq_jump_iff hextent kind l).mpr hl
    exact hkept _ (List.mem_map_of_mem he) l (by
      rw [show row.1.event = .instr (.jump kind l) from hjump]
      exact List.mem_singleton_self l)

/-- A look-up that does not need the pool. -/
theorem mirrors_lookUp {α : Type} (x : Except Error α) (p : ConstantPool) :
    Mirrors (fun b a => b = a ∧ x = .ok a) ((halting (report x) : EncodeM α) p)
      (PoolM.lookUp (fun _ => x) p) := by
  cases x with
  | ok a => exact .ok ⟨rfl, rfl⟩ p
  | error e => exact .error e p

/-- What a round bridges only jumps to labels that are placed. -/
theorem targeted_bridgeAll (hp : p.WellFormed)
    (h : Layout.Round body method p events solution sized)
    (htargeted : Targeted (events.map (·.event))) (offsets : Std.TreeMap Label Nat)
    (supply : LabelSupply) :
    Targeted ((bridgeAll offsets (ClassPatch.settle sized).1 supply).1.map (·.event)) := by
  have hpruned := targeted_prune h htargeted
  rw [← h.map_settle hp, List.map_map] at hpruned
  exact hpruned.rewritten (Layout.rewrites_bridgeAll offsets supply fun e he l hl =>
    hpruned _ (List.mem_map_of_mem he) l hl)

/-- Rounds halt only with what they report. -/
theorem mirrors_ofEvents (hp : p.WellFormed) (htargeted : Targeted (events.map (·.event)))
    (supply : LabelSupply) : Mirrors Eq (ofEvents body method events supply p)
      (Layout.ofEvents body method events supply p) := by
  generalize hloose : looseCount events = loose
  induction loose using Nat.strongRecOn generalizing events supply p with
  | _ loose ih =>
    rw [ofEvents, Layout.ofEvents_eq, analyze_eq]
    refine (mirrors_lookUp _ p).bind fun {_ solution p₁} hfound hanalyzed => ?_
    obtain ⟨rfl, hanalyzed⟩ := hanalyzed
    have hp₁ := (Layout.steady_analyze _).wellFormed hp hfound
    refine (Mirrors.raise _ p₁).bind fun {_ sized p₂} hmeasured heq => ?_
    obtain rfl := heq
    have hp₂ := (Layout.steady_measure _).wellFormed hp₁ hmeasured
    have hround : Layout.Round body method p₂ events _ _ :=
      ⟨hanalyzed, (Layout.steady_measure _).finds hp₁ hmeasured⟩
    rw [settle_eq (findable_of_round hp₂ hround htargeted)]
    refine .bind_left rfl ?_
    rw [Layout.finish]
    dsimp only
    split
    · rename_i hfewer
      exact ih _ (hloose ▸ hfewer.2) hp₂ (targeted_bridgeAll hp₂ hround htargeted _ supply) _ rfl
    · exact .pure rfl p₂

/-- The layout of a body halts only with what it reports. -/
theorem mirrors_ofBody (hp : p.WellFormed) (hlabels : body.checkLabels = .ok ()) :
    Mirrors Eq (ofBody body method p) (Layout.ofBody body method p) :=
  mirrors_ofEvents hp ((Layout.map_event_plain body.events).symm ▸ Body.targeted hlabels)
    body.labels

end

end Unguarded
end ClassPatch
