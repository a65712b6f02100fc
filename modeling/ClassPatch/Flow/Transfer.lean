import ClassPatch.Flow.Graph

/-!
# What an event does to a state

`transfer` runs one event on the state before it. The result says in which state control goes on,
in which it arrives at jump targets, and which positions those are; `edges` adds the handlers that
guard the event, which may be entered with the locals from before it or from after it.
-/

namespace ClassPatch

/-- The outcome of an event. -/
structure Transfer where
  after : FlowState
  /-- The state at the targets. Only the call of a subroutine arrives with one more word. -/
  arrival : FlowState
  targets : List Nat

namespace Transfer

/-- An event that jumps nowhere. -/
def straight (after : FlowState) : Transfer := ⟨after, after, []⟩

end Transfer

/-- The type of a pushed constant. -/
def Value.verification : Value → Except Error VerificationType
  | .null => .ok .null
  | .int _ => .ok .integer
  | .long _ => .ok .long
  | .float _ => .ok .float
  | .double _ => .ok .double
  | .string _ => .ok (.object "java/lang/String")
  | .classRef _ => .ok (.object "java/lang/Class")
  | .methodType _ => .ok (.object "java/lang/invoke/MethodType")
  | .methodHandle _ => .ok (.object "java/lang/invoke/MethodHandle")
  | .dynamic _ descriptor => FieldType.verification <$> FieldType.parse descriptor

/-- The type of the values of a kind that is no reference. -/
def ValueKind.primitive? : ValueKind → Option VerificationType
  | int => some .integer
  | long => some .long
  | float => some .float
  | double => some .double
  | reference => none

namespace FlowState

/-- The type that a load of a local pushes. -/
def loaded (s : FlowState) (kind : ValueKind) (slot : Nat) : VerificationType :=
  match kind.primitive? with
  | some t => t
  | none => if (s.localAt slot).isReference then s.localAt slot else .object rootClass

/-- The array type with elements of a class or array type. -/
def arrayOf (element : String) : String :=
  if element.toList.head? = some '[' then "[" ++ element else "[L" ++ element ++ ";"

/-- The type of the elements of an array. -/
def elementOf : VerificationType → VerificationType
  | .null => .null
  | .object descriptor =>
    match descriptor.toList with
    | '[' :: '[' :: rest => .object (String.ofList ('[' :: rest))
    | '[' :: element =>
      match FieldType.parse (String.ofList element) with
      | .ok t => t.verification
      | .error _ => .object rootClass
    | _ => .object rootClass
  | _ => .object rootClass

/-- The array type of an element code. -/
def primitiveArray (code : UInt8) : String :=
  match code with
  | 4 => "[Z"
  | 5 => "[C"
  | 6 => "[F"
  | 7 => "[D"
  | 8 => "[B"
  | 9 => "[S"
  | 10 => "[I"
  | _ => "[J"

/-- The operand types of a family of four arithmetic opcodes. -/
def operandType (first op : UInt8) : VerificationType :=
  match (op - first) % 4 with
  | 0 => .integer
  | 1 => .long
  | 2 => .float
  | _ => .double

/-- The words that an opcode without operands takes, and the type of what it pushes. -/
def plainEffect (op : UInt8) : Option (Nat × Option VerificationType) :=
  match op with
  | Opcode.nop => some (0, none)
  | Opcode.iaload | Opcode.baload | Opcode.caload | Opcode.saload => some (2, some .integer)
  | Opcode.laload => some (2, some .long)
  | Opcode.faload => some (2, some .float)
  | Opcode.daload => some (2, some .double)
  | Opcode.lastore | Opcode.dastore => some (4, none)
  | Opcode.iastore | Opcode.fastore | Opcode.aastore | Opcode.bastore | Opcode.castore
  | Opcode.sastore => some (3, none)
  | Opcode.pop | Opcode.monitorenter | Opcode.monitorexit | Opcode.athrow => some (1, none)
  | Opcode.pop2 => some (2, none)
  | Opcode.ishl | Opcode.ishr | Opcode.iushr => some (2, some .integer)
  | Opcode.lshl | Opcode.lshr | Opcode.lushr => some (3, some .long)
  | Opcode.iand | Opcode.ior | Opcode.ixor => some (2, some .integer)
  | Opcode.land | Opcode.lor | Opcode.lxor => some (4, some .long)
  | Opcode.i2l | Opcode.f2l => some (1, some .long)
  | Opcode.i2f => some (1, some .float)
  | Opcode.i2d | Opcode.f2d => some (1, some .double)
  | Opcode.f2i | Opcode.i2b | Opcode.i2c | Opcode.i2s => some (1, some .integer)
  | Opcode.l2i | Opcode.d2i => some (2, some .integer)
  | Opcode.l2f | Opcode.d2f => some (2, some .float)
  | Opcode.l2d => some (2, some .double)
  | Opcode.d2l => some (2, some .long)
  | Opcode.lcmp | Opcode.dcmpl | Opcode.dcmpg => some (4, some .integer)
  | Opcode.fcmpl | Opcode.fcmpg => some (2, some .integer)
  | Opcode.arraylength => some (1, some .integer)
  | op =>
    if Opcode.iadd ≤ op && op ≤ Opcode.drem then
      let t := operandType Opcode.iadd op
      some (2 * t.width, some t)
    else if Opcode.ineg ≤ op && op ≤ Opcode.dneg then
      let t := operandType Opcode.ineg op
      some (t.width, some t)
    else
      none

/-- The state after an opcode without operands. -/
def plain (op : UInt8) (s : FlowState) : Except Error FlowState :=
  match op with
  | Opcode.dup => s.duplicate 1 0
  | Opcode.dupX1 => s.duplicate 1 1
  | Opcode.dupX2 => s.duplicate 1 2
  | Opcode.dup2 => s.duplicate 2 0
  | Opcode.dup2X1 => s.duplicate 2 1
  | Opcode.dup2X2 => s.duplicate 2 2
  | Opcode.swap => s.swap
  | Opcode.aaload => do
    let (array, s) ← s.popValue 2
    return s.push (elementOf array)
  | op =>
    match plainEffect op with
    | some (words, result) => do
      let s ← s.pop words
      return (result.map (s.push ·)).getD s
    | none => .error (.malformed (.flow (.opcode op)))

/-- The state after a field is read or written. -/
def useField (access : FieldAccess) (descriptor : String) (s : FlowState) :
    Except Error FlowState := do
  let t ← FieldType.parse descriptor
  match access with
  | .getStatic => return s.push t.verification
  | .putStatic => s.pop t.slots
  | .getField => return (← s.pop 1).push t.verification
  | .putField => s.pop (t.slots + 1)

/-- The state with the result of a call on the stack. -/
def pushResult (d : MethodDescriptor) (s : FlowState) : FlowState :=
  (d.result.map fun t => s.push t.verification).getD s

/-- The type of an object after its constructor has run. -/
def initialized? (g : FlowGraph) (owner : String) : VerificationType → Option VerificationType
  | .uninitializedThis => some (.object g.method.className)
  | .uninitialized site => some (.object ((g.newClass? site).getD owner))
  | _ => none

/-- The state after a call. A constructor initializes every copy of its receiver. -/
def call (g : FlowGraph) (kind : InvokeKind) (owner name descriptor : String) (s : FlowState) :
    Except Error FlowState := do
  let d ← MethodDescriptor.parse descriptor
  let s ← s.pop d.parameterSlots.toNat
  if kind = .static then
    return s.pushResult d
  else
    let (receiver, s) ← s.popValue 1
    let s := if kind = .special && name = constructorName then
        ((initialized? g owner receiver).map (s.replace receiver ·)).getD s
      else s
    return s.pushResult d

/-- The state after a use of a class at a position. -/
def useType (g : FlowGraph) (index : Nat) (use : TypeUse) (className : String) (s : FlowState) :
    Except Error FlowState :=
  match use with
  | .newObject =>
    match g.labelBefore? index with
    | some l => .ok (s.push (.uninitialized l))
    | none => .error (.notSupported (.unlabeledNew className))
  | .newArray => do return (← s.pop 1).push (.object (arrayOf className))
  | .checkCast => do return (← s.pop 1).push (.object className)
  | .instanceOf => do return (← s.pop 1).push .integer

end FlowState

namespace FlowGraph

/-- The outcome of an instruction at a position. -/
def transferInstruction (g : FlowGraph) (index : Nat) (s : FlowState) :
    Instruction Label → Except Error Transfer
  | .push value => do return .straight (s.push (← value.verification))
  | .load kind slot => return .straight (s.push (s.loaded kind slot.toNat))
  | .store kind slot => do
    let (stored, s) ← s.popValue kind.slots
    return .straight (s.setLocal slot.toNat (kind.primitive?.getD stored))
  | .increment slot _ => return .straight (s.setLocal slot.toNat .integer)
  | .jump .jsr l => return ⟨s, s.push .top, [← g.position l]⟩
  | .jump kind l => do
    let s ← s.pop kind.words
    return ⟨s, s, [← g.position l]⟩
  | .tableSwitch _ _ default targets => do
    let s ← s.pop 1
    return ⟨s, s, ← (default :: targets).mapM g.position⟩
  | .lookupSwitch default cases => do
    let s ← s.pop 1
    return ⟨s, s, ← (default :: cases.map (·.2)).mapM g.position⟩
  | .field access _ _ descriptor => return .straight (← s.useField access descriptor)
  | .invoke kind owner name descriptor _ => return .straight (← s.call g kind owner name descriptor)
  | .invokeDynamic _ _ descriptor => do
    let d ← MethodDescriptor.parse descriptor
    return .straight ((← s.pop d.parameterSlots.toNat).pushResult d)
  | .typeUse use className => return .straight (← s.useType g index use className)
  | .newPrimitives code => do
    return .straight ((← s.pop 1).push (.object (FlowState.primitiveArray code)))
  | .newArrays className dimensions => do
    return .straight ((← s.pop dimensions.toNat).push (.object className))
  | .leave result => return .straight (← s.pop (resultWords result))
  | .ret _ => return .straight s
  | .plain opcode => return .straight (← s.plain opcode)

/-- The outcome of the event at a position. -/
def transfer (g : FlowGraph) (index : Nat) (event : Event) (s : FlowState) :
    Except Error Transfer :=
  match event with
  | .label _ => .ok (.straight s)
  | .instr i => g.transferInstruction index s i

/-- The state in which a handler is entered. -/
def caughtState (range : GuardedRange) (locals : Array VerificationType) : FlowState :=
  ⟨locals, [range.caught]⟩

/-- The entries into handlers that guard a position. -/
def handlerEdges (g : FlowGraph) (index : Nat) (before after : FlowState) :
    List (Nat × FlowState) :=
  g.ranges.flatMap fun range =>
    if range.start ≤ index && index < range.stop then
      [(range.target, caughtState range before.locals),
        (range.target, caughtState range after.locals)]
    else []

/-- Where control may go from a position, and in which states it arrives. -/
def edges (g : FlowGraph) (index : Nat) (event : Event) (before : FlowState) (t : Transfer) :
    List (Nat × FlowState) :=
  g.handlerEdges index before t.after ++ t.targets.map (·, t.arrival) ++
    if event.isTerminal then [] else [(index + 1, t.after)]

end FlowGraph
end ClassPatch
