import ClassPatch.Code.Assembly
import ClassPatch.Flow.Solution

/-!
# Layout

Layout gives every event that control can reach its offset, and keeps every label, so that tables
which refer to removed code find empty ranges. Jumps start out near. One that does not reach its
target is made wide if it has a wide form; a conditional jump has none, and is bridged: it becomes
its opposite over a wide jump. Both only ever happen to more jumps, so layout ends.
-/

namespace ClassPatch

/-- An event to lay out. A bridge is a conditional jump that layout itself put over another one;
it is near its target. -/
structure LayoutEvent where
  event : Event
  isBridge : Bool

/-- An event with the state before it and the room that it takes. -/
structure SizedEvent extends LayoutEvent where
  state : Option FlowState
  extent : Extent
  wide : Bool

/-- An event at its offset. -/
structure PlacedEvent extends SizedEvent where
  offset : Nat

namespace LayoutEvent

/-- A conditional jump that may still have to be bridged. -/
def isLoose (e : LayoutEvent) : Bool :=
  match e.event with
  | .instr (.jump (.branch _) _) => !e.isBridge
  | _ => false

end LayoutEvent

/-- Places events one behind the other, and tells where the last one ends. -/
def place (events : List SizedEvent) : List PlacedEvent × Nat :=
  let (placed, length) := events.foldl (fun (placed, offset) e =>
    ({ e with offset } :: placed, offset + e.extent.size offset e.wide)) ([], 0)
  (placed.reverse, length)

/-- The offsets of the placed labels. -/
def labelOffsets (placed : List PlacedEvent) : Std.TreeMap Label Nat :=
  placed.foldl (fun offsets e =>
    match e.event with
    | .label l => offsets.insert l e.offset
    | .instr _ => offsets) ∅

namespace PlacedEvent

/-- The event is a near jump that does not reach its target. -/
def overshoots (offsets : Std.TreeMap Label Nat) (e : PlacedEvent) : Bool :=
  match e.extent with
  | .jump _ target =>
    match offsets[target]? with
    | some offset => !e.wide && !isNear (offset - e.offset)
    | none => false
  | _ => false

/-- The event has to be bridged. -/
def isFar (offsets : Std.TreeMap Label Nat) (e : PlacedEvent) : Bool :=
  e.isLoose && e.overshoots offsets

/-- The event as a wide jump, if it does not reach its target otherwise. -/
def grow (offsets : Std.TreeMap Label Nat) (e : PlacedEvent) : SizedEvent :=
  match e.extent with
  | .jump (.branch _) _ => e.toSizedEvent
  | _ => { e.toSizedEvent with wide := e.wide || e.overshoots offsets }

end PlacedEvent

/-- The number of events that could still be made wide. -/
def narrowCount (events : List SizedEvent) : Nat := events.countP (!·.wide)

/-- Makes jumps wide until all reach their targets or one has to be bridged. -/
def settle (events : List SizedEvent) : List PlacedEvent × Nat :=
  let placed := place events
  let offsets := labelOffsets placed.1
  let grown := placed.1.map (·.grow offsets)
  if !placed.1.any (·.isFar offsets) && narrowCount grown < narrowCount events then
    settle grown
  else
    placed
termination_by narrowCount events
decreasing_by
  rename_i h
  exact of_decide_eq_true (Bool.and_eq_true_iff.mp h).2

/-- Bridges the jump `e` if it is far, with labels from the supply. -/
def bridge (offsets : Std.TreeMap Label Nat) (supply : LabelSupply) (e : PlacedEvent) :
    List LayoutEvent × LabelSupply :=
  match e.event with
  | .instr (.jump (.branch condition) target) =>
    if e.isFar offsets then
      ([⟨.instr (.jump (.branch condition.opposite) supply.fresh), true⟩,
        ⟨.instr (.jump .goto target), false⟩,
        ⟨.label supply.fresh, false⟩], supply.advance)
    else
      ([e.toLayoutEvent], supply)
  | _ => ([e.toLayoutEvent], supply)

/-- Bridges every far jump. -/
def bridgeAll (offsets : Std.TreeMap Label Nat) (placed : List PlacedEvent)
    (supply : LabelSupply) : List LayoutEvent × LabelSupply :=
  let (rows, supply) := placed.foldl (fun (rows, supply) e =>
    let (row, supply) := bridge offsets supply e
    (row :: rows, supply)) ([], supply)
  (rows.reverse.flatten, supply)

/-- The number of jumps that may still have to be bridged. -/
def looseCount (events : List LayoutEvent) : Nat := events.countP (·.isLoose)

/-- Placed events and the bounds that the analysis found for them. -/
structure Layout where
  placed : List PlacedEvent
  length : Nat
  maxStack : UInt16
  maxLocals : UInt16

namespace Layout

/-- The events that control reaches, and all labels, with the states before them. -/
def prune (events : List LayoutEvent) (solution : FlowSolution) :
    List (LayoutEvent × Option FlowState) :=
  (events.zip solution.states.toList).filter fun (e, state) => e.event.isLabel || state.isSome

/-- Measures the events that are left; constants enter the pool in their order. -/
def measure (events : List (LayoutEvent × Option FlowState)) : PoolM (List SizedEvent) :=
  events.mapM fun (e, state) => do
    return { e with state, extent := ← Extent.ofEvent e.event, wide := false }

/-- Lays events out, bridging jumps as often as it takes. -/
def ofEvents (body : Body) (method : MethodContext) (events : List LayoutEvent)
    (supply : LabelSupply) : PoolM Layout := do
  let solution ← PoolM.lookUp fun _ =>
    analyze (events.map (·.event)) body.handlers body.frames method body.maxLocals
  let sized ← measure (prune events solution)
  let (placed, length) := settle sized
  let offsets := labelOffsets placed
  let (bridged, supply) := bridgeAll offsets placed supply
  if placed.any (·.isFar offsets) ∧ looseCount bridged < looseCount events then
    ofEvents body method bridged supply
  else
    return { placed, length, maxStack := solution.maxStack, maxLocals := solution.maxLocals }
termination_by looseCount events
decreasing_by
  rename_i h
  exact h.2

/-- The layout of a body. -/
def ofBody (body : Body) (method : MethodContext) : PoolM Layout :=
  ofEvents body method (body.events.map (⟨·, false⟩)) body.labels

end Layout
end ClassPatch
