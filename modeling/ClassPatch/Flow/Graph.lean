import ClassPatch.Flow.State
import Std.Data.TreeMap

/-!
# The graph of a method body

The nodes are the positions of events. Labels that stand in a row mean the same position, so
whatever refers to one of them refers to the first. A position may carry a hint, the state that a
frame declares for it, and ranges of positions may be guarded by handlers.
-/

namespace ClassPatch

/-- Guarded positions, from `start` up to but without `stop`, and what a handler receives. -/
structure GuardedRange where
  start : Nat
  stop : Nat
  target : Nat
  caught : VerificationType

/-- The positions that labels, hints and handlers of a body mean. -/
structure FlowGraph where
  method : MethodContext
  events : Array Event
  /-- The position of each placed label. -/
  labels : Std.TreeMap Label Nat
  /-- For each position the first label of its row, or itself. -/
  runStarts : Array Nat
  hints : Std.TreeMap Nat FlowState
  ranges : List GuardedRange

/-- The positions of the placed labels. A label placed twice is an error. -/
def placements (events : List Event) : Except Error (Std.TreeMap Label Nat) :=
  events.zipIdx.foldlM (fun labels (event, index) =>
    match event with
    | .label l =>
      if labels.contains l then .error (.duplicateLabel l) else .ok (labels.insert l index)
    | .instr _ => .ok labels) ∅

/-- The starts of the rows of labels that the positions of events belong to. -/
def rowStarts (events : List Event) : Array Nat :=
  (events.foldl (fun (starts, row) event =>
    match event, row with
    | .label _, some start => (starts.push start, some start)
    | .label _, none => (starts.push starts.size, some starts.size)
    | .instr _, _ => (starts.push starts.size, none)) (#[], (none : Option Nat))).1

namespace FlowGraph

/-- The position that a reference to a label means. -/
def target (labels : Std.TreeMap Label Nat) (runStarts : Array Nat) (l : Label) :
    Except Error Nat :=
  match labels[l]?.bind (runStarts[·]?) with
  | some index => .ok index
  | none => .error (.undefinedLabel l)

/-- The hints of frames at placed labels; of two at one position the first counts. -/
def hintStates (labels : Std.TreeMap Label Nat) (runStarts : Array Nat)
    (frames : List (Label × Frame)) : Std.TreeMap Nat FlowState :=
  frames.foldl (fun hints (l, frame) =>
    match labels[l]?.bind (runStarts[·]?) with
    | some index => hints.insertIfNew index (.ofFrame frame)
    | none => hints) ∅

/-- What a handler receives if it catches everything. -/
def throwable : String := "java/lang/Throwable"

def guardedRange (labels : Std.TreeMap Label Nat) (runStarts : Array Nat) (h : Handler) :
    Except Error GuardedRange := do
  let start ← target labels runStarts h.start
  let stop ← target labels runStarts h.stop
  let target ← target labels runStarts h.target
  return { start, stop, target, caught := .object (h.catchType.getD throwable) }

/-- The graph of some events. -/
def ofEvents (events : List Event) (handlers : List Handler) (frames : List (Label × Frame))
    (method : MethodContext) : Except Error FlowGraph := do
  let labels ← placements events
  let starts := rowStarts events
  let ranges ← handlers.mapM (guardedRange labels starts)
  return {
    method
    events := events.toArray
    labels
    runStarts := starts
    hints := hintStates labels starts frames
    ranges }

/-- The position that a label of the graph means. -/
def position (g : FlowGraph) (l : Label) : Except Error Nat := target g.labels g.runStarts l

/-- The first instruction at a position or behind it, past labels only. -/
def instructionAt? (events : Array Event) (index : Nat) : Option (Instruction Label) :=
  if h : index < events.size then
    match events[index] with
    | .label _ => instructionAt? events (index + 1)
    | .instr i => some i
  else
    none
termination_by events.size - index

/-- The class of the `new` that a label marks. -/
def newClass? (g : FlowGraph) (l : Label) : Option String :=
  match g.labels[l]?.bind fun index => instructionAt? g.events (index + 1) with
  | some (.typeUse .newObject className) => some className
  | _ => none

/-- The label directly in front of a position. -/
def labelBefore? (g : FlowGraph) (index : Nat) : Option Label :=
  match index with
  | 0 => none
  | index + 1 =>
    match g.events[index]? with
    | some (.label l) => some l
    | _ => none

end FlowGraph
end ClassPatch
