import ClassPatch.Code.Layout
import ClassPatch.Code.StackMap
import ClassPatch.Code.Tables

/-!
# Code attributes from method bodies

A body is checked for its labels, laid out and written instruction by instruction. Its tables are
then made anew from the offsets of their labels: handlers that guard nothing or cannot be reached
are left out, and so are lines at the end of the code and variables without a range. The stack map
has one frame for every offset that something jumps to, with the state that the analysis found.

Whatever the instructions and tables refer to enters the pool while they are written, also if
writing fails later.
-/

namespace ClassPatch

namespace Body

/-- The placed labels. A label placed twice is an error. -/
def placedLabels (events : List Event) : Except Error (Std.TreeMap Label Unit) :=
  events.foldlM (fun placed event =>
    match event with
    | .label l => if placed.contains l then .error (.duplicateLabel l) else .ok (placed.insert l ())
    | .instr _ => .ok placed) ∅

/-- The labels that a body refers to, except for its frames. -/
def references (body : Body) : List Label :=
  body.events.flatMap Event.targets ++
    body.handlers.flatMap (fun h => [h.start, h.stop, h.target]) ++
    body.lines.map (·.start) ++
    (body.localVariables ++ body.localVariableTypes).flatMap (fun v => [v.start, v.stop])

/-- Fails unless every label that the body refers to is placed exactly once. -/
def checkLabels (body : Body) : Except Error Unit := do
  let placed ← placedLabels body.events
  match body.references.find? fun l => !placed.contains l with
  | some l => throw (.undefinedLabel l)
  | none => return ()

end Body

namespace Layout

/-- Where a label is, and whether and how control reaches it. -/
abbrev Places := Std.TreeMap Label PlacedEvent

def places (layout : Layout) : Places :=
  layout.placed.foldl (fun places e =>
    match e.event with
    | .label l => places.insert l e
    | .instr _ => places) ∅

end Layout

namespace Layout.Places

/-- The place of a label. -/
def find (places : Places) (l : Label) : Except Error PlacedEvent :=
  match places[l]? with
  | some e => .ok e
  | none => .error (.undefinedLabel l)

def offsetOf (places : Places) (l : Label) : Except Error Nat := do
  return (← places.find l).offset

end Layout.Places

namespace CodeWriter

open Layout (Places)

/-- A result that does not depend on the pool. -/
def ofExcept {α : Type} : Except Error α → PoolM α
  | .ok x => return x
  | .error e => throw e

/-- An offset in 16 bits. -/
def offsetBytes (offset : Nat) : Bytes := Word.encode (UInt16.ofNat offset)

/-- The number of rows of a table in 16 bits. -/
def countBytes (count : Nat) (limit : Nat → Limit) : PoolM Bytes :=
  if count ≤ 65535 then return Word.encode (UInt16.ofNat count)
  else throw (.limitExceeded (limit count))

def eventBytes (places : Places) (e : PlacedEvent) : PoolM Bytes := do
  match e.event with
  | .label _ => return []
  | .instr i => (← ofExcept (i.mapTargets places.offsetOf)).bytes e.offset e.wide

/-- The instructions of a layout. -/
def instructionBytes (places : Places) (layout : Layout) : PoolM Bytes :=
  return (← layout.placed.mapM (eventBytes places)).flatten

/-- A handler with the offsets of its range. -/
structure PlacedHandler where
  start : Nat
  stop : Nat
  target : PlacedEvent
  catchType : UInt16

/-- The place of a handler, if it guards something and can be reached. -/
def placeHandler (places : Places) (h : Handler) : PoolM (Option PlacedHandler) := do
  let start ← ofExcept (places.offsetOf h.start)
  let stop ← ofExcept (places.offsetOf h.stop)
  let target ← ofExcept (places.find h.target)
  if start < stop && target.state.isSome then
    match h.catchType with
    | some name => return some { start, stop, target, catchType := ← PoolM.classRef name }
    | none => return some { start, stop, target, catchType := 0 }
  else
    return none

def handlerBytes (h : PlacedHandler) : Bytes :=
  offsetBytes h.start ++ offsetBytes h.stop ++ offsetBytes h.target.offset ++
    Word.encode h.catchType

/-- A table as an attribute of its name, with rows behind their count; none if it is empty. -/
def tableAttribute (name : String) (limit : Nat → Limit) (rows : List Bytes) :
    PoolM (List Attribute) := do
  if rows.isEmpty then
    return []
  else
    let count ← countBytes rows.length limit
    return [{ name := ← PoolM.text name, payload := count ++ rows.flatten }]

/-- The row of a line that begins inside the code. -/
def lineRow (places : Places) (length : Nat) (line : Line) : Except Error (Option Bytes) := do
  let offset ← places.offsetOf line.start
  return if offset < length then some (offsetBytes offset ++ Word.encode line.number) else none

/-- The row of a variable whose range is not empty. -/
def variableRow (places : Places) (v : Variable) : Except Error (Option Bytes) := do
  let start ← places.offsetOf v.start
  let stop ← places.offsetOf v.stop
  return if start < stop then
      some (offsetBytes start ++ offsetBytes (stop - start) ++ Word.encode v.name ++
        Word.encode v.descriptor ++ Word.encode v.slot)
    else none

/-- The rows that are not left out. -/
def rows {α : Type} (row : α → Except Error (Option Bytes)) (xs : List α) :
    PoolM (List Bytes) := do
  return (← ofExcept (xs.mapM row)).filterMap id

/-- The offsets that control jumps to, each with the frame of the first label found there. -/
def frames (places : Places) (targets : List Label) : Except Error (List (Nat × Frame)) := do
  let reached ← targets.foldlM (fun frames l => do
    let e ← places.find l
    match e.state with
    | some state =>
      return if frames.contains e.offset then frames else frames.insert e.offset state
    | none => return frames) (∅ : Std.TreeMap Nat FlowState)
  return reached.toList.map fun (offset, state) => (offset, state.toFrame)

/-- The stack map, for the versions of the format that have it and if anything jumps. -/
def stackMap (places : Places) (layout : Layout) (handlers : List PlacedHandler)
    (method : MethodContext) : PoolM (List Attribute) := do
  if method.majorVersion < 50 then
    return []
  let jumped := layout.placed.flatMap fun e => e.event.targets
  let caught := handlers.filterMap fun h =>
    match h.target.event with
    | .label l => some l
    | .instr _ => none
  let frames ← ofExcept (frames places (jumped ++ caught))
  if frames.isEmpty then
    return []
  let initial ← ofExcept (Frame.entry method)
  let payload ← StackMap.encode frames initial places.offsetOf
  return [{ name := ← PoolM.text CodeAttribute.stackMapTable, payload }]

/-- Attributes that refer to offsets and are not made anew. -/
def dropped : List String := ["RuntimeVisibleTypeAnnotations", "RuntimeInvisibleTypeAnnotations"]

/-- The other attributes of a body that stay valid. -/
def keptAttributes (pool : ConstantPool) (attributes : List Attribute) :
    Except Error (List Attribute) := do
  let named ← attributes.mapM fun a => do return (← pool.text a.name, a)
  return (named.filter fun (name, _) => !dropped.contains name).map (·.2)

/-- The payload of the code attribute of a body with the given layout. -/
def payload (body : Body) (method : MethodContext) (layout : Layout) : PoolM Bytes := do
  let places := layout.places
  let code ← instructionBytes places layout
  let handlers := (← body.handlers.mapM (placeHandler places)).filterMap id
  let lines ← tableAttribute CodeAttribute.lineTable .lines
    (← rows (lineRow places code.length) body.lines)
  let localVariables ← tableAttribute CodeAttribute.variableTable .localVariables
    (← rows (variableRow places) body.localVariables)
  let localVariableTypes ← tableAttribute CodeAttribute.variableTypeTable .localVariables
    (← rows (variableRow places) body.localVariableTypes)
  let stackMap ← stackMap places layout handlers method
  let kept ← PoolM.lookUp fun pool => keptAttributes pool body.attributes
  let handlerCount ← countBytes handlers.length .handlers
  let attributes ← ofExcept
    (Attribute.encodeList (lines ++ localVariables ++ localVariableTypes ++ stackMap ++ kept))
  return Word.encode layout.maxStack ++ Word.encode layout.maxLocals ++
    Word.encode (UInt32.ofNat code.length) ++ code ++
    handlerCount ++ handlers.flatMap handlerBytes ++ attributes

end CodeWriter

/-- The payload of the code attribute of a body. -/
def Body.encode (body : Body) (method : MethodContext) : PoolM Bytes := do
  CodeWriter.ofExcept body.checkLabels
  let layout ← Layout.ofBody body method
  if layout.length > 65535 then
    throw (.limitExceeded (.codeLength layout.length method.className method.methodName))
  CodeWriter.payload body method layout

end ClassPatch
