import ClassPatch.Code.Decode
import ClassPatch.Code.Encode
import ClassPatch.Proofs.Code.Program
import ClassPatch.Proofs.Code.Writing

/-!
# Placed events lie without gaps

`Laid start placed stop` says that placed events follow each other from `start` to `stop`, each
taking as many bytes as its extent says. Settling a layout only ever makes jumps wide that have a
wide form, and leaves the rest of every event as it was measured.
-/

namespace ClassPatch

/-- The events lie from `start` to `stop` without gaps. -/
inductive Laid : Nat → List PlacedEvent → Nat → Prop
  | nil (start : Nat) : Laid start [] start
  | cons {e : PlacedEvent} {placed : List PlacedEvent} {stop : Nat}
      (h : Laid (e.offset + e.extent.size e.offset e.wide) placed stop) :
      Laid e.offset (e :: placed) stop

namespace Laid

variable {start stop : Nat} {placed : List PlacedEvent}

theorem le (h : Laid start placed stop) : start ≤ stop := by
  induction h with
  | nil => exact Nat.le_refl _
  | cons _ ih => omega

theorem start_le (h : Laid start placed stop) : ∀ e ∈ placed, start ≤ e.offset := by
  induction h with
  | nil => simp
  | cons h ih =>
    simp only [List.mem_cons, forall_eq_or_imp]
    exact ⟨Nat.le_refl _, fun e he => Nat.le_trans (Nat.le_add_right _ _) (ih e he)⟩

theorem le_stop (h : Laid start placed stop) :
    ∀ e ∈ placed, e.offset + e.extent.size e.offset e.wide ≤ stop := by
  induction h with
  | nil => simp
  | cons h ih =>
    simp only [List.mem_cons, forall_eq_or_imp]
    exact ⟨h.le, ih⟩

theorem of_append {placed' : List PlacedEvent} (h : Laid start (placed ++ placed') stop) :
    ∃ middle, Laid start placed middle ∧ Laid middle placed' stop := by
  induction placed generalizing start with
  | nil => exact ⟨start, .nil _, h⟩
  | cons e placed ih =>
    cases h with
    | cons h =>
      obtain ⟨middle, h₁, h₂⟩ := ih h
      exact ⟨middle, .cons h₁, h₂⟩

end Laid

namespace SizedEvent

/-- What layout does not change about an event that has been measured. -/
def measured (e : SizedEvent) : LayoutEvent × Option FlowState × Extent :=
  (e.toLayoutEvent, e.state, e.extent)

/-- The event is a jump that has a wide form. -/
def CanGrow (e : SizedEvent) : Prop :=
  ∃ kind target, e.extent = .jump kind target ∧ kind.isConditional = false

end SizedEvent

/-! ### Placing -/

private theorem foldl_place (events : List SizedEvent) (before : List PlacedEvent) (start : Nat) :
    ∃ placed stop, events.foldl (fun (placed, offset) e =>
        (({ e with offset } : PlacedEvent) :: placed, offset + e.extent.size offset e.wide))
          (before, start) = (placed.reverse ++ before, stop) ∧
      placed.map (·.toSizedEvent) = events ∧ Laid start placed stop := by
  induction events generalizing before start with
  | nil => exact ⟨[], start, rfl, rfl, .nil start⟩
  | cons e events ih =>
    obtain ⟨placed, stop, hfold, hsized, hlaid⟩ :=
      ih ({ e with offset := start } :: before) (start + e.extent.size start e.wide)
    let first : PlacedEvent := { e with offset := start }
    have hfirst : Laid start (first :: placed) stop := .cons (e := first) hlaid
    exact ⟨first :: placed, stop, by simp [hfold, first], by simp [hsized, first], hfirst⟩

/-- Placing adds offsets and leaves no gaps. -/
theorem place_spec (events : List SizedEvent) :
    (place events).1.map (·.toSizedEvent) = events ∧ Laid 0 (place events).1 (place events).2 := by
  obtain ⟨placed, stop, hfold, hsized, hlaid⟩ := foldl_place events [] 0
  have hplace : place events = (placed, stop) := by
    unfold place
    rw [hfold]
    simp
  rw [hplace]
  exact ⟨hsized, hlaid⟩

theorem PlacedEvent.measured_grow (offsets : Std.TreeMap Label Nat) (e : PlacedEvent) :
    (e.grow offsets).measured = e.toSizedEvent.measured := by
  unfold grow
  split <;> rfl

theorem PlacedEvent.canGrow_of_wide_grow {offsets : Std.TreeMap Label Nat} {e : PlacedEvent}
    (he : e.wide = true → e.CanGrow) (h : (e.grow offsets).wide = true) :
    (e.grow offsets).CanGrow := by
  have hextent : (e.grow offsets).extent = e.extent := by
    unfold grow
    split <;> rfl
  have hgrow : e.wide = true ∨
      e.overshoots offsets = true ∧ ∀ c l, e.extent ≠ .jump (.branch c) l := by
    unfold grow at h
    split at h
    · exact .inl h
    · rename_i hbranch
      rcases Bool.or_eq_true_iff.mp h with h | h
      · exact .inl h
      · exact .inr ⟨h, fun c l => hbranch c l⟩
  unfold SizedEvent.CanGrow
  rw [hextent]
  rcases hgrow with hwide | ⟨hovershoots, hbranch⟩
  · exact he hwide
  · unfold overshoots at hovershoots
    split at hovershoots
    · rename_i kind target hjump
      refine ⟨kind, target, hjump, ?_⟩
      cases kind with
      | branch c => exact absurd hjump (hbranch c target)
      | _ => rfl
    · simp at hovershoots

/-- Settling changes nothing but the width of jumps that have a wide form. -/
theorem settle_spec (events : List SizedEvent)
    (hwide : ∀ e ∈ events, e.wide = true → e.CanGrow) :
    (settle events).1.map (·.measured) = events.map (·.measured) ∧
      Laid 0 (settle events).1 (settle events).2 ∧
      ∀ e ∈ (settle events).1, e.wide = true → e.CanGrow := by
  fun_induction settle events with
  | case1 events placed offsets grown h ih =>
    have hplaced := (place_spec events).1
    have hgrown : ∀ e ∈ grown, e.wide = true → e.CanGrow := by
      intro e he
      obtain ⟨e', he', rfl⟩ := List.mem_map.mp he
      refine PlacedEvent.canGrow_of_wide_grow (hwide e'.toSizedEvent ?_)
      rw [← hplaced]
      exact List.mem_map_of_mem he'
    obtain ⟨hmeasured, hlaid, hcan⟩ := ih hgrown
    refine ⟨?_, hlaid, hcan⟩
    rw [hmeasured]
    simp only [grown, List.map_map, Function.comp_def, PlacedEvent.measured_grow]
    rw [← hplaced]
    simp [placed]
  | case2 events placed offsets grown h =>
    have hplaced := (place_spec events).1
    refine ⟨?_, (place_spec events).2, ?_⟩
    · conv_rhs => rw [← hplaced]
      simp [placed]
    · intro e he
      refine hwide e.toSizedEvent ?_
      rw [← hplaced]
      exact List.mem_map_of_mem he

/-! ### Measuring -/

open PoolM

theorem Extent.steady_ofEvent (e : Event) : Steady (ofEvent e) := by
  cases e with
  | label l => exact .pure _
  | instr i => exact steady_ofInstruction i

/-- The measured form of an event that is left. -/
def Layout.measureEvent (row : LayoutEvent × Option FlowState) : PoolM SizedEvent := do
  return { row.1 with state := row.2, extent := ← Extent.ofEvent row.1.event, wide := false }

theorem Layout.steady_measureEvent (row : LayoutEvent × Option FlowState) :
    Steady (measureEvent row) :=
  (Extent.steady_ofEvent _).bind fun _ => .pure _

theorem Layout.steady_measure (rows : List (LayoutEvent × Option FlowState)) :
    Steady (measure rows) :=
  .mapM steady_measureEvent rows

theorem Layout.finds_measure {rows : List (LayoutEvent × Option FlowState)}
    {sized : List SizedEvent} {p : ConstantPool} (hp : p.WellFormed)
    (h : Finds (measure rows) p sized) :
    List.Forall₂ (fun row e => ∃ extent, Finds (Extent.ofEvent row.1.event) p extent ∧
      e = { row.1 with state := row.2, extent, wide := false }) rows sized := by
  refine List.Forall₂.imp ?_ ((finds_mapM steady_measureEvent hp).mp h)
  intro row e he
  obtain ⟨extent, hextent, he⟩ :=
    (finds_bind (Extent.steady_ofEvent _) (fun _ => .pure _) hp).mp he
  exact ⟨extent, hextent, (finds_pure.mp he).symm⟩

theorem Layout.events_of_finds_measure {rows : List (LayoutEvent × Option FlowState)}
    {sized : List SizedEvent} {p : ConstantPool} (hp : p.WellFormed)
    (h : Finds (measure rows) p sized) : sized.map (·.toLayoutEvent) = rows.map (·.1) := by
  have hrows := finds_measure hp h
  clear h
  induction hrows with
  | nil => rfl
  | cons hrow _ ih =>
    obtain ⟨extent, -, rfl⟩ := hrow
    simpa using ih

theorem Layout.not_wide_of_finds_measure {rows : List (LayoutEvent × Option FlowState)}
    {sized : List SizedEvent} {p : ConstantPool} (hp : p.WellFormed)
    (h : Finds (measure rows) p sized) : ∀ e ∈ sized, e.wide = true → e.CanGrow := by
  have hrows := finds_measure hp h
  clear h
  induction hrows with
  | nil => simp
  | cons hrow _ ih =>
    obtain ⟨extent, -, rfl⟩ := hrow
    simpa using ih

/-! ### Rounds -/

namespace Layout

/-- A round analyzes events and measures those that control reaches. -/
structure Round (body : Body) (method : MethodContext) (p : ConstantPool)
    (events : List LayoutEvent) (solution : FlowSolution) (sized : List SizedEvent) : Prop where
  analyzed : analyze (events.map (·.event)) body.handlers body.frames method body.maxLocals =
    .ok solution
  measured : Finds (measure (prune events solution)) p sized

/-- Events become others by rounds after which jumps are bridged. -/
inductive Rounds (body : Body) (method : MethodContext) (p : ConstantPool)
    (start : List LayoutEvent) : List LayoutEvent → Prop
  | refl : Rounds body method p start start
  | step {events : List LayoutEvent} {solution : FlowSolution} {sized : List SizedEvent}
      (supply : LabelSupply) (before : Rounds body method p start events)
      (round : Round body method p events solution sized) :
      Rounds body method p start
        (bridgeAll (labelOffsets (settle sized).1) (settle sized).1 supply).1

/-- The layout that the last round makes of some events. -/
structure IsOf (layout : Layout) (body : Body) (method : MethodContext)
    (events : List LayoutEvent) (solution : FlowSolution) (sized : List SizedEvent)
    (p : ConstantPool) : Prop extends Round body method p events solution sized where
  settled : settle sized = (layout.placed, layout.length)
  maxStack : layout.maxStack = solution.maxStack
  maxLocals : layout.maxLocals = solution.maxLocals

variable {body : Body} {method : MethodContext} {p p' : ConstantPool}

/-- How a round goes on with events that have been measured. -/
def finish (body : Body) (method : MethodContext) (events : List LayoutEvent)
    (supply : LabelSupply) (solution : FlowSolution) (sized : List SizedEvent) : PoolM Layout :=
  let (placed, length) := settle sized
  let offsets := labelOffsets placed
  let (bridged, supply) := bridgeAll offsets placed supply
  if placed.any (·.isFar offsets) ∧ looseCount bridged < looseCount events then
    ofEvents body method bridged supply
  else
    return { placed, length, maxStack := solution.maxStack, maxLocals := solution.maxLocals }

theorem ofEvents_eq (events : List LayoutEvent) (supply : LabelSupply) :
    ofEvents body method events supply = (do
      let solution ← PoolM.lookUp fun _ =>
        analyze (events.map (·.event)) body.handlers body.frames method body.maxLocals
      let sized ← measure (prune events solution)
      finish body method events supply solution sized) := by
  rw [ofEvents]
  rfl

theorem steady_analyze (x : Except Error FlowSolution) : Steady (PoolM.lookUp fun _ => x) :=
  .lookUp fun _ h => h

theorem steady_ofEvents (events : List LayoutEvent) (supply : LabelSupply) :
    Steady (ofEvents body method events supply) := by
  generalize hcount : looseCount events = count
  induction count using Nat.strongRecOn generalizing events supply with
  | _ count ih =>
    rw [ofEvents_eq]
    refine (steady_analyze _).bind fun solution => (steady_measure _).bind fun sized => ?_
    unfold finish
    dsimp only
    split
    · rename_i h
      exact ih _ (hcount ▸ h.2) _ _ rfl
    · exact .pure _

theorem steady_finish (events : List LayoutEvent) (supply : LabelSupply)
    (solution : FlowSolution) (sized : List SizedEvent) :
    Steady (finish body method events supply solution sized) := by
  unfold finish
  dsimp only
  split
  · exact steady_ofEvents _ _
  · exact .pure _

theorem finds_analyze {x : Except Error FlowSolution} {solution : FlowSolution}
    (h : Finds (PoolM.lookUp fun _ => x) p solution) : x = .ok solution := by
  cases x with
  | error e => exact absurd h not_finds_throw
  | ok y => exact congrArg _ (finds_pure.mp h)

/-- A round settles the events that control reaches. -/
theorem Round.map_settle (hp : p.WellFormed) {events : List LayoutEvent} {solution : FlowSolution}
    {sized : List SizedEvent} (h : Round body method p events solution sized) :
    (settle sized).1.map (·.toLayoutEvent) = (prune events solution).map (·.1) := by
  have hsettle := (settle_spec sized (not_wide_of_finds_measure hp h.measured)).1
  have hevents := congrArg (List.map (·.1)) hsettle
  rw [List.map_map, List.map_map] at hevents
  exact hevents.trans (events_of_finds_measure hp h.measured)

/-- A layout is made in the last of some rounds. -/
theorem exists_isOf (hp : p.WellFormed) {start events : List LayoutEvent} {supply : LabelSupply}
    {layout : Layout} (h : Finds (ofEvents body method events supply) p layout)
    (hbefore : Rounds body method p start events) :
    ∃ events' solution sized, Rounds body method p start events' ∧
      layout.IsOf body method events' solution sized p := by
  generalize hcount : looseCount events = count
  induction count using Nat.strongRecOn generalizing events supply with
  | _ count ih =>
    rw [ofEvents_eq] at h
    obtain ⟨solution, hsolution, h⟩ := (finds_bind (steady_analyze _)
      (fun _ => (steady_measure _).bind fun _ => steady_finish _ _ _ _) hp).mp h
    obtain ⟨sized, hsized, h⟩ := (finds_bind (steady_measure _)
      (fun _ => steady_finish _ _ _ _) hp).mp h
    have hround : Round body method p events solution sized := ⟨finds_analyze hsolution, hsized⟩
    unfold finish at h
    dsimp only at h
    split at h
    · rename_i hfewer
      exact ih _ (hcount ▸ hfewer.2) h (.step _ hbefore hround) rfl
    · obtain rfl := finds_pure.mp h
      exact ⟨events, solution, sized, hbefore, hround, rfl, rfl, rfl⟩

end Layout

/-! ### Places of labels -/

namespace Layout

/-- Notes a value of an event under the label that the event places. -/
def notePlaced {α : Type} (f : PlacedEvent → α) (table : Std.TreeMap Label α)
    (e : PlacedEvent) : Std.TreeMap Label α :=
  match e.event with
  | .label l => table.insert l (f e)
  | .instr _ => table

section

variable {α : Type} {f : PlacedEvent → α} {table : Std.TreeMap Label α}
  {placed : List PlacedEvent} {l : Label}

theorem exists_of_foldl_notePlaced {a : α} (h : (placed.foldl (notePlaced f) table)[l]? = some a) :
    (∃ e ∈ placed, e.event = .label l ∧ f e = a) ∨ table[l]? = some a := by
  induction placed generalizing table with
  | nil => exact .inr h
  | cons e placed ih =>
    obtain ⟨e', hmem, hevent⟩ | hnoted := ih h
    · exact .inl ⟨e', List.mem_cons_of_mem _ hmem, hevent⟩
    · unfold notePlaced at hnoted
      split at hnoted
      · rename_i l' hevent
        rw [Std.TreeMap.getElem?_insert] at hnoted
        split at hnoted
        · rename_i hl
          obtain rfl := Std.LawfulEqCmp.compare_eq_iff_eq.mp hl
          exact .inl ⟨e, List.mem_cons_self .., hevent, Option.some.inj hnoted⟩
        · exact .inr hnoted
      · exact .inr hnoted

theorem foldl_notePlaced_of_notMem (h : l ∉ placedLabels (placed.map (·.event))) :
    (placed.foldl (notePlaced f) table)[l]? = table[l]? := by
  induction placed generalizing table with
  | nil => rfl
  | cons e placed ih =>
    rw [List.foldl_cons, notePlaced]
    cases hevent : e.event with
    | label l' =>
      simp only [List.map_cons, hevent, placedLabels_label, List.mem_cons, not_or] at h
      rw [ih h.2, Std.TreeMap.getElem?_insert, if_neg]
      simpa using Ne.symm h.1
    | instr i =>
      simp only [List.map_cons, hevent, placedLabels_instr] at h
      exact ih h

/-- Under a label that is placed once stands what was noted of its place. -/
theorem foldl_notePlaced_of_mem (hnodup : (placedLabels (placed.map (·.event))).Nodup)
    {e : PlacedEvent} (he : e ∈ placed) (hevent : e.event = .label l) :
    (placed.foldl (notePlaced f) table)[l]? = some (f e) := by
  obtain ⟨before, after, rfl⟩ := List.append_of_mem he
  have hafter : l ∉ placedLabels (after.map (·.event)) := by
    rw [List.map_append, List.map_cons, hevent, placedLabels_append, placedLabels_label] at hnodup
    exact (List.nodup_cons.mp (List.nodup_append.mp hnodup).2.1).1
  rw [List.foldl_append, List.foldl_cons, foldl_notePlaced_of_notMem hafter, notePlaced, hevent]
  simp

end

/-- What is found for a label is an event that places it. -/
theorem mem_of_places {layout : Layout} {l : Label} {e : PlacedEvent}
    (h : layout.places[l]? = some e) : e ∈ layout.placed ∧ e.event = .label l := by
  obtain ⟨e, hmem, hevent, rfl⟩ | h := exists_of_foldl_notePlaced (f := id) h
  · exact ⟨hmem, hevent⟩
  · simp at h

/-- A label that is placed once is found at its place. -/
theorem places_of_mem {layout : Layout} {l : Label} {e : PlacedEvent}
    (hnodup : (placedLabels (layout.placed.map (·.event))).Nodup) (he : e ∈ layout.placed)
    (hevent : e.event = .label l) : layout.places[l]? = some e :=
  foldl_notePlaced_of_mem (f := id) hnodup he hevent

/-- The offset of a label that is placed. -/
def offset (layout : Layout) (l : Label) : Nat := (layout.places[l]?.map (·.offset)).getD 0

theorem offset_of_places {layout : Layout} {l : Label} {e : PlacedEvent}
    (h : layout.places[l]? = some e) : layout.offset l = e.offset := by
  simp [offset, h]

theorem find_eq_ok {places : Places} {l : Label} {e : PlacedEvent} :
    places.find l = .ok e ↔ places[l]? = some e := by
  unfold Places.find
  split
  · rename_i hplace
    rw [hplace, Except.ok.injEq, Option.some.injEq]
  · rename_i hplace
    simp [hplace]

theorem offset_of_offsetOf {layout : Layout} {l : Label} {offset : Nat}
    (h : layout.places.offsetOf l = .ok offset) : layout.offset l = offset := by
  obtain ⟨e, he, h⟩ := Except.bind_eq_ok.mp h
  obtain rfl := Except.pure_eq_ok.mp h
  exact offset_of_places (find_eq_ok.mp he)

/-- The instructions of a layout with their offsets and those of their targets. -/
def code (layout : Layout) : Disassembly :=
  layout.placed.filterMap fun e => e.event.instr?.map fun i => (e.offset, i.map layout.offset)

end Layout
end ClassPatch
