import ClassPatch.Code.Disassembly
import ClassPatch.Code.LabelTable
import ClassPatch.Code.StackMap
import ClassPatch.Code.Tables

/-!
# Method bodies from code attributes

Everything in a code attribute is read with byte offsets first. Then every offset that an
instruction, a table or a frame refers to becomes a label, and so does the place of every `new`,
which the verifier identifies its result by. Finally the instructions are listed as events with
the labels in front of what they mark.
-/

namespace ClassPatch

/-- Code is at most this long. -/
def maxCodeLength : Nat := 65535

/-- Instructions with the offsets at which they begin. -/
abbrev Disassembly := List (Nat × Instruction Nat)

namespace Disassembly

/-- Appends the instructions from the cursor to the end of the data to the reversed list
`before`. -/
def readFrom (pool : ConstantPool) (c : Cursor) (before : Disassembly) :
    Except Error Disassembly :=
  if c.hasMore then
    match _h : Instruction.read pool c with
    | .ok i c' => readFrom pool c' ((c.pos, i) :: before)
    | .error e _ => .error e
  else
    .ok before.reverse
termination_by c.remaining
decreasing_by
  have h := Instruction.read_advances (by assumption)
  have hc : c.pos < c.data.size := by simpa [Cursor.hasMore] using ‹c.hasMore = true›
  simp only [Cursor.remaining, h.1]
  omega

/-- The instructions of some code. -/
def ofBytes (pool : ConstantPool) (code : Bytes) : Except Error Disassembly :=
  readFrom pool (Cursor.ofBytes code) []

/-- The offsets that the instruction at `offset` needs labels at. -/
def marks (offset : Nat) : Instruction Nat → List Nat
  | .typeUse .newObject _ => [offset]
  | i => i.targets

/-- The events of the instructions, with the labels at their places. -/
def events (code : Disassembly) (table : LabelTable) (length : Nat) :
    Except Error (List Event) := do
  let placed (offset : Nat) : List Event := ((table.get? offset).map Event.label).toList
  let rows ← code.mapM fun (offset, i) => do
    return placed offset ++ [Event.instr (← i.mapTargets table.get)]
  return rows.flatten ++ placed length

end Disassembly

/-- A code attribute before its offsets become labels. -/
structure CodeListing where
  maxStack : UInt16
  maxLocals : UInt16
  length : Nat
  code : Disassembly
  handlers : List HandlerRow
  lines : List LineRow
  localVariables : List VariableRow
  localVariableTypes : List VariableRow
  stackMap : Option Bytes
  attributes : List Attribute

namespace CodeListing

/-- Reads the parts of a code attribute. -/
def read (pool : ConstantPool) (method : MethodContext) : Reader CodeListing := do
  let maxStack ← Reader.u16
  let maxLocals ← Reader.u16
  let bytes ← Reader.sized32
  let length := bytes.length
  if length = 0 || length > maxCodeLength then
    Reader.fault (.code (.length length method.className method.methodName))
  let code ← Reader.ofExcept (Disassembly.ofBytes pool bytes)
  let handlers ← readRows (HandlerRow.read length)
  let attributes ← Attribute.readList
  let attributes ← Reader.ofExcept (attributes.mapM (CodeAttribute.ofAttribute pool))
  if ← Reader.hasMore then
    Reader.fault (.code (.trailing method.className method.methodName))
  return {
    maxStack, maxLocals, length, code, handlers
    lines := attributes.flatMap CodeAttribute.lineRows
    localVariables := attributes.flatMap CodeAttribute.variableRows
    localVariableTypes := attributes.flatMap CodeAttribute.variableTypeRows
    stackMap := (attributes.filterMap CodeAttribute.stackMap?).getLast?
    attributes := attributes.filterMap CodeAttribute.other? }

/-- Fails if a variable is live behind the end of the code. -/
def checkVariables (listing : CodeListing) : Except Error Unit :=
  match (listing.localVariables ++ listing.localVariableTypes).find? (·.stop > listing.length) with
  | some row => .error (.malformed (.code (.variableRange row.start row.stop)))
  | none => .ok ()

/-- The offsets that the instructions and tables refer to. -/
def marks (listing : CodeListing) : List Nat :=
  listing.code.flatMap (fun (offset, i) => Disassembly.marks offset i) ++
    listing.handlers.flatMap (fun row => [row.start, row.stop, row.target]) ++
    listing.lines.map (·.start) ++
    (listing.localVariables ++ listing.localVariableTypes).flatMap
      (fun row => [row.start, row.stop])

/-- Numbers the offsets that frames refer to in the order in which they are met. -/
def numberOffset (offset : Nat) : StateM (Array Nat) Label := fun offsets =>
  (⟨UInt32.ofNat offsets.size⟩, offsets.push offset)

/-- The frames of the stack map, with uninitialized types numbering the offsets beside. -/
def frames (listing : CodeListing) (pool : ConstantPool) (initial : Frame) :
    Except Error (List (Nat × Frame) × Array Nat) := do
  match listing.stackMap with
  | none => return ([], #[])
  | some data =>
    let (frames, offsets) := StackMap.decode data pool initial numberOffset #[]
    return (← frames, offsets)

/-- Replaces the number of an offset by its label. -/
def relabel (offsets : Array Nat) (table : LabelTable) :
    VerificationType → Except Error VerificationType
  | .uninitialized site =>
    match offsets[site.id.toNat]? with
    | some offset => .uninitialized <$> table.get offset
    | none => .error (.malformed (.code (.noLabel site.id.toNat)))
  | t => .ok t

def relabelFrame (offsets : Array Nat) (table : LabelTable) (frame : Frame) :
    Except Error Frame := do
  let locals ← frame.locals.mapM (relabel offsets table)
  return { locals, stack := ← frame.stack.mapM (relabel offsets table) }

def handlerOf (pool : ConstantPool) (table : LabelTable) (row : HandlerRow) :
    Except Error Handler := do
  let start ← table.get row.start
  let stop ← table.get row.stop
  let target ← table.get row.target
  if row.catchType = 0 then
    return { start, stop, target, catchType := none }
  else
    return { start, stop, target, catchType := some (← pool.className row.catchType) }

def lineOf (table : LabelTable) (row : LineRow) : Except Error Line :=
  return { start := ← table.get row.start, number := row.number }

def variableOf (table : LabelTable) (row : VariableRow) : Except Error Variable := do
  let start ← table.get row.start
  return { start, stop := ← table.get row.stop, name := row.name, descriptor := row.descriptor,
           slot := row.slot }

/-- The body that a listing describes. -/
def body (listing : CodeListing) (pool : ConstantPool) (method : MethodContext) :
    Except Error Body := do
  listing.checkVariables
  let initial ← Frame.entry method
  let (frames, offsets) ← listing.frames pool initial
  let marks := listing.marks ++ frames.map (·.1) ++ offsets.toList
  let boundaries := Std.TreeSet.ofList (listing.code.map (·.1))
  let table ← LabelTable.ofMarks marks boundaries listing.length
  let events ← listing.code.events table listing.length
  let handlers ← listing.handlers.mapM (handlerOf pool table)
  let lines ← listing.lines.mapM (lineOf table)
  let localVariables ← listing.localVariables.mapM (variableOf table)
  let localVariableTypes ← listing.localVariableTypes.mapM (variableOf table)
  let frames ← frames.mapM fun (offset, frame) => do
    let place ← table.get offset
    return (place, ← relabelFrame offsets table frame)
  return {
    maxStack := listing.maxStack
    maxLocals := listing.maxLocals
    events, handlers, lines, localVariables, localVariableTypes, frames
    attributes := listing.attributes
    labels := table.supply }

end CodeListing

/-- The body that the payload of a code attribute holds. -/
def Body.decode (data : Bytes) (pool : ConstantPool) (method : MethodContext) :
    Except Error Body := do
  let listing ← (CodeListing.read pool method).parse data
  listing.body pool method

end ClassPatch
