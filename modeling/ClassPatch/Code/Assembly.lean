import ClassPatch.Code.Instruction
import ClassPatch.ConstantPool.Basic
import ClassPatch.Descriptor.Method

/-!
# Writing instructions

Each instruction is written in the shortest of its forms, with displacements from its own offset
to the offsets of its targets, and adds to the pool what it refers to. How far apart things are is
decided before: `Extent` tells the room that an event takes once its place is known, and only
jumps come in two widths.
-/

namespace ClassPatch

/-- The bytes up to a multiple of four behind the opcode at `offset`. -/
def switchPadding (offset : Nat) : Nat := (4 - (offset + 1) % 4) % 4

/-- A distance in 32 bits. -/
def farDisplacement (distance : Int) : PoolM Bytes :=
  if -2147483648 ≤ distance && distance ≤ 2147483647 then
    return Word.encode (Int32.ofInt distance)
  else
    throw (.limitExceeded (.displacement distance))

/-- The distances that 16 bits hold. -/
def isNear (distance : Int) : Bool := -32768 ≤ distance && distance ≤ 32767

/-- A distance in 16 bits. -/
def nearDisplacement (distance : Int) : PoolM Bytes :=
  if isNear distance then
    return Word.encode (Int16.ofInt distance)
  else
    throw (.limitExceeded (.displacement distance))

/-- The forms in which a constant is loaded. -/
inductive ConstantForm
  /-- An opcode that loads nothing but the constant. -/
  | opcode (opcode : UInt8)
  | byte (value : Int8)
  | short (value : Int16)
  /-- An entry of one word with an index in one byte. -/
  | near (index : UInt8)
  /-- An entry of one word. -/
  | far (index : UInt16)
  /-- An entry of two words. -/
  | double (index : UInt16)

namespace ConstantForm

def size : ConstantForm → Nat
  | opcode _ => 1
  | byte _ | near _ => 2
  | short _ | far _ | double _ => 3

def bytes : ConstantForm → Bytes
  | opcode op => [op]
  | byte value => Opcode.bipush :: Word.encode value
  | short value => Opcode.sipush :: Word.encode value
  | near index => [Opcode.ldc, index]
  | far index => Opcode.ldcW :: Word.encode index
  | double index => Opcode.ldc2W :: Word.encode index

@[simp] theorem length_bytes (form : ConstantForm) : form.bytes.length = form.size := by
  cases form <;> simp [bytes, size, Word.width]

theorem size_pos (form : ConstantForm) : 0 < form.size := by
  cases form <;> exact Nat.succ_pos _

/-- The load of an entry of one word. -/
def ofIndex (index : UInt16) : ConstantForm :=
  if index ≤ 255 then near index.toUInt8 else far index

end ConstantForm

namespace Value

def intForm (value : Int32) : PoolM ConstantForm :=
  if -1 ≤ value && value ≤ 5 then
    return .opcode (Opcode.iconst0 + value.toUInt32.toUInt8)
  else if -128 ≤ value && value ≤ 127 then
    return .byte value.toInt8
  else if -32768 ≤ value && value ≤ 32767 then
    return .short value.toInt16
  else
    return .ofIndex (← PoolM.intern (.integer value))

def longForm (value : Int64) : PoolM ConstantForm :=
  if value = 0 then return .opcode Opcode.lconst0
  else if value = 1 then return .opcode Opcode.lconst1
  else return .double (← PoolM.intern (.long value))

def floatForm (bits : UInt32) : PoolM ConstantForm :=
  if bits = 0 then return .opcode Opcode.fconst0
  else if bits = 0x3F800000 then return .opcode Opcode.fconst1
  else if bits = 0x40000000 then return .opcode Opcode.fconst2
  else return .ofIndex (← PoolM.intern (.float bits))

def doubleForm (bits : UInt64) : PoolM ConstantForm :=
  if bits = 0 then return .opcode Opcode.dconst0
  else if bits = 0x3FF0000000000000 then return .opcode Opcode.dconst1
  else return .double (← PoolM.intern (.double bits))

/-- The shortest form of a constant. -/
def form : Value → PoolM ConstantForm
  | null => return .opcode Opcode.aconstNull
  | int value => intForm value
  | long value => longForm value
  | float bits => floatForm bits
  | double bits => doubleForm bits
  | string text => return .ofIndex (← PoolM.string text)
  | classRef name => return .ofIndex (← PoolM.classRef name)
  | methodType descriptor => return .ofIndex (← PoolM.methodType descriptor)
  | methodHandle index => return .ofIndex index
  | v@(dynamic index _) => return if v.words = 2 then .double index else .ofIndex index

def bytes (v : Value) : PoolM Bytes := return (← v.form).bytes

end Value

namespace Instruction

/-- An opcode with a local slot, with one byte or two. -/
def slotBytes (op : UInt8) (slot : UInt16) : Bytes :=
  if slot ≤ 255 then [op, slot.toUInt8] else Opcode.wide :: op :: Word.encode slot

/-- A load or store; the first four slots have opcodes of their own from `compact` on. -/
def localBytes (op compact : UInt8) (slot : UInt16) : Bytes :=
  if slot ≤ 3 then [compact + slot.toUInt8] else slotBytes op slot

/-- The room for an opcode with a local slot, if the first four slots have opcodes of their own. -/
def localSize (hasCompact : Bool) (slot : UInt16) : Nat :=
  if hasCompact && slot ≤ 3 then 1 else if slot ≤ 255 then 2 else 4

@[simp] theorem length_slotBytes (op : UInt8) (slot : UInt16) :
    (slotBytes op slot).length = localSize false slot := by
  unfold slotBytes localSize
  split <;> simp [Word.width]

@[simp] theorem length_localBytes (op compact : UInt8) (slot : UInt16) :
    (localBytes op compact slot).length = localSize true slot := by
  unfold localBytes
  split
  · rename_i h
    simp [localSize, h]
  · rename_i h
    simp only [length_slotBytes, localSize, Bool.false_and, Bool.true_and, decide_eq_true_eq, h,
      if_false, Bool.false_eq_true]

theorem localSize_pos (hasCompact : Bool) (slot : UInt16) : 0 < localSize hasCompact slot := by
  unfold localSize
  split
  · exact Nat.one_pos
  · split <;> exact Nat.succ_pos _

def loadBytes (kind : ValueKind) (slot : UInt16) : Bytes :=
  localBytes (Opcode.iload + kind.rank) (Opcode.iload0 + kind.rank * 4) slot

def storeBytes (kind : ValueKind) (slot : UInt16) : Bytes :=
  localBytes (Opcode.istore + kind.rank) (Opcode.istore0 + kind.rank * 4) slot

def incrementBytes (slot : UInt16) (delta : Int16) : Bytes :=
  if slot ≤ 255 && -128 ≤ delta && delta ≤ 127 then
    Opcode.iinc :: slot.toUInt8 :: Word.encode delta.toInt8
  else
    Opcode.wide :: Opcode.iinc :: (Word.encode slot ++ Word.encode delta)

def incrementSize (slot : UInt16) (delta : Int16) : Nat :=
  if slot ≤ 255 && -128 ≤ delta && delta ≤ 127 then 3 else 6

@[simp] theorem length_incrementBytes (slot : UInt16) (delta : Int16) :
    (incrementBytes slot delta).length = incrementSize slot delta := by
  unfold incrementBytes incrementSize
  split <;> simp [Word.width]

theorem incrementSize_pos (slot : UInt16) (delta : Int16) : 0 < incrementSize slot delta := by
  unfold incrementSize
  split <;> exact Nat.succ_pos _

/-- The opcode that leaves a method. -/
def leaveOpcode : Option ValueKind → UInt8
  | some kind => Opcode.ireturn + kind.rank
  | none => Opcode.voidReturn

/-- A jump from `offset`, with 32 bits if `wide`. -/
def jumpBytes (offset : Nat) (wide : Bool) (kind : Jump) (target : Nat) : PoolM Bytes := do
  let distance : Int := target - offset
  match wide, kind.wideOpcode? with
  | false, _ => return kind.opcode :: (← nearDisplacement distance)
  | true, some op => return op :: (← farDisplacement distance)
  | true, none => throw (.malformed (.code (.notWide kind)))

/-- A 32-bit distance from a switch at `offset`. -/
def caseBytes (offset target : Nat) : PoolM Bytes := farDisplacement (target - offset)

def tableSwitchBytes (offset : Nat) (low high : Int32) (default : Nat) (targets : List Nat) :
    PoolM Bytes := do
  let default ← caseBytes offset default
  let targets ← targets.mapM (caseBytes offset)
  return Opcode.tableswitch :: List.replicate (switchPadding offset) 0 ++ default ++
    Word.encode low ++ Word.encode high ++ targets.flatten

def lookupSwitchBytes (offset : Nat) (default : Nat) (cases : List (Int32 × Nat)) :
    PoolM Bytes := do
  let default ← caseBytes offset default
  if cases.length > 2147483647 then
    throw (.limitExceeded (.switchCases cases.length))
  let rows ← cases.mapM fun (key, target) => do
    return Word.encode key ++ (← caseBytes offset target)
  return Opcode.lookupswitch :: List.replicate (switchPadding offset) 0 ++ default ++
    Word.encode (Int32.ofNat cases.length) ++ rows.flatten

/-- The argument words of an interface call, with its receiver. -/
def interfaceArguments (descriptor : String) : PoolM UInt8 := do
  match MethodDescriptor.parse descriptor with
  | .ok d =>
    let count := d.parameterSlots + 1
    if count ≤ 255 then return count.toUInt8
    else throw (.limitExceeded (.interfaceArguments count.toNat))
  | .error e => throw e

def invokeBytes (kind : InvokeKind) (owner name descriptor : String) (ofInterface : Bool) :
    PoolM Bytes := do
  let refKind : MemberKind := if ofInterface then .interfaceMethod else .method
  let index ← PoolM.member refKind owner name descriptor
  if kind = .interface then
    let count ← interfaceArguments descriptor
    return kind.opcode :: Word.encode index ++ [count, 0]
  else
    return kind.opcode :: Word.encode index

/-- The instruction as bytes at `offset`. -/
def bytes (offset : Nat) (wide : Bool) : Instruction Nat → PoolM Bytes
  | push value => value.bytes
  | load kind slot => return loadBytes kind slot
  | store kind slot => return storeBytes kind slot
  | increment slot delta => return incrementBytes slot delta
  | jump kind target => jumpBytes offset wide kind target
  | tableSwitch low high default targets => tableSwitchBytes offset low high default targets
  | lookupSwitch default cases => lookupSwitchBytes offset default cases
  | field access owner name descriptor =>
    return access.opcode :: Word.encode (← PoolM.member .field owner name descriptor)
  | invoke kind owner name descriptor ofInterface =>
    invokeBytes kind owner name descriptor ofInterface
  | invokeDynamic index _ _ => return Opcode.invokedynamic :: Word.encode index ++ [0, 0]
  | typeUse use className => return use.opcode :: Word.encode (← PoolM.classRef className)
  | newPrimitives code => return [Opcode.newarray, code]
  | newArrays className dimensions =>
    return Opcode.multianewarray :: Word.encode (← PoolM.classRef className) ++ [dimensions]
  | leave result => return [leaveOpcode result]
  | ret slot => return slotBytes Opcode.ret slot
  | plain opcode => return [opcode]

end Instruction

/-- The room that an event takes. -/
inductive Extent
  | fixed (size : Nat)
  | jump (kind : Jump) (target : Label)
  /-- An opcode, padding up to a multiple of four, and `size` more bytes. -/
  | padded (size : Nat)

namespace Extent

/-- The number of bytes at `offset`. -/
def size (offset : Nat) (wide : Bool) : Extent → Nat
  | fixed size => size
  | jump _ _ => if wide then 5 else 3
  | padded size => 1 + switchPadding offset + size

/-- The extent of an instruction. Constants enter the pool here: their indices decide how long
their loads are. -/
def ofInstruction : Instruction Label → PoolM Extent
  | .push value => return fixed (← value.form).size
  | .load _ slot | .store _ slot => return fixed (Instruction.localSize true slot)
  | .increment slot delta => return fixed (Instruction.incrementSize slot delta)
  | .jump kind target => return jump kind target
  | .tableSwitch _ _ _ targets => return padded (12 + 4 * targets.length)
  | .lookupSwitch _ cases => return padded (8 + 8 * cases.length)
  | .invoke .interface .. | .invokeDynamic .. => return fixed 5
  | .field .. | .invoke .. | .typeUse .. => return fixed 3
  | .newPrimitives _ => return fixed 2
  | .newArrays .. => return fixed 4
  | .ret slot => return fixed (Instruction.localSize false slot)
  | .leave _ | .plain _ => return fixed 1

def ofEvent : Event → PoolM Extent
  | .label _ => return fixed 0
  | .instr i => ofInstruction i

end Extent
end ClassPatch
