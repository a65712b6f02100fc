import ClassPatch.Bytes.Cursor
import ClassPatch.Code.Instruction
import ClassPatch.ConstantPool.Basic

/-!
# Reading instructions

Code is a sequence of instructions without gaps. Each is read with the names it uses taken from
the constant pool and with its targets as byte offsets, which may still point anywhere but before
the code. The alternatives for one instruction, such as the compact forms of loads, are read as the
same instruction.

An instruction takes at least one byte (`read_advances`), so reading one after the other ends.
-/

namespace ClassPatch

namespace Reader

variable {α σ : Type}

/-- A result that does not depend on the bytes. -/
def ofExcept : Except Error α → Reader α
  | .ok x => return x
  | .error e => throw e

/-- Applies `step` to a state `count` times. -/
def iterate (step : σ → Reader σ) : Nat → σ → Reader σ
  | 0, s => return s
  | count + 1, s => do iterate step count (← step s)

theorem forward_ofExcept (x : Except Error α) : Forward (ofExcept x) := by
  cases x
  · exact forward_throw _
  · exact forward_pure _

theorem forward_times (count : Nat) {r : Reader α} (hr : Forward r) :
    Forward (times count r) := by
  induction count with
  | zero => exact forward_pure _
  | succ count ih =>
    rw [times, List.replicate_succ, List.mapM_cons]
    exact forward_bind hr fun _ => forward_bind ih fun _ => forward_pure _

theorem forward_iterate {step : σ → Reader σ} (h : ∀ s, Forward (step s)) (count : Nat) (s : σ) :
    Forward (iterate step count s) := by
  induction count generalizing s with
  | zero => exact forward_pure _
  | succ count ih => exact forward_bind (h s) ih

theorem forward_skip (count : Nat) : Forward (skip count) := by
  intro c
  unfold skip
  simp only [bind, EStateM.bind, endOf]
  split
  · rename_i pos c' h
    split at h
    · obtain ⟨rfl, rfl⟩ := by simpa using h
      unfold seek
      rw [if_pos ‹_›]
      exact ⟨rfl, Nat.le_add_right _ _⟩
    · simp at h
  · rename_i h
    split at h
    · simp at h
    · obtain ⟨-, rfl⟩ := by simpa using h
      exact ⟨rfl, Nat.le_refl _⟩

theorem forward_position : Forward position := fun _ => ⟨rfl, Nat.le_refl _⟩

theorem forward_remaining : Forward remaining := fun _ => ⟨rfl, Nat.le_refl _⟩

theorem forward_align (base alignment : Nat) : Forward (align base alignment) :=
  forward_bind forward_position fun _ => forward_ite (forward_skip _) (forward_throw _)

theorem forward_ensure (count : Nat) : Forward (ensure count) :=
  forward_bind forward_remaining fun _ => forward_ite (forward_throw _) (forward_pure _)

end Reader

namespace Instruction

variable {τ : Type}

private def complain {α : Type} (fault : CodeFault) : Reader α := Reader.fault (.code fault)

/-- The opcodes without operands that stand for themselves. -/
def isPlain (op : UInt8) : Bool :=
  op = Opcode.nop || (Opcode.iaload ≤ op && op ≤ Opcode.saload) ||
    (Opcode.iastore ≤ op && op ≤ Opcode.lxor) || (Opcode.i2l ≤ op && op ≤ Opcode.dcmpg) ||
    op = Opcode.arraylength || op = Opcode.athrow || op = Opcode.monitorenter ||
    op = Opcode.monitorexit

/-- The instruction that is a single byte. -/
def ofByte? (op : UInt8) : Option (Instruction τ) :=
  if op = Opcode.aconstNull then some (push .null)
  else if Opcode.iconstM1 ≤ op && op ≤ Opcode.iconst5 then
    some (push (.int (Int32.ofNat op.toNat - 3)))
  else if op = Opcode.lconst0 then some (push (.long 0))
  else if op = Opcode.lconst1 then some (push (.long 1))
  else if op = Opcode.fconst0 then some (push (.float 0))
  else if op = Opcode.fconst1 then some (push (.float 0x3F800000))
  else if op = Opcode.fconst2 then some (push (.float 0x40000000))
  else if op = Opcode.dconst0 then some (push (.double 0))
  else if op = Opcode.dconst1 then some (push (.double 0x3FF0000000000000))
  else if Opcode.iload0 ≤ op && op ≤ Opcode.aload3 then
    let place := op - Opcode.iload0
    some (load (.ofRank (place / 4)) (place % 4).toUInt16)
  else if Opcode.istore0 ≤ op && op ≤ Opcode.astore3 then
    let place := op - Opcode.istore0
    some (store (.ofRank (place / 4)) (place % 4).toUInt16)
  else if Opcode.ireturn ≤ op && op ≤ Opcode.areturn then
    some (leave (some (.ofRank (op - Opcode.ireturn))))
  else if op = Opcode.voidReturn then some (leave none)
  else if isPlain op then some (plain op)
  else none

/-- What is pushed for the constant at an index. -/
def pushed (pool : ConstantPool) (index : UInt16) : Constant → Except Error Value
  | .integer value => .ok (.int value)
  | .float bits => .ok (.float bits)
  | .long value => .ok (.long value)
  | .double bits => .ok (.double bits)
  | .string text => .string <$> pool.text text
  | .classRef name => .classRef <$> pool.text name
  | .methodType descriptor => .methodType <$> pool.text descriptor
  | .methodHandle _ _ => .ok (.methodHandle index)
  | .dynamic _ signature => (fun (_, descriptor) => .dynamic index descriptor) <$>
      pool.nameAndType signature
  | found => .error (.malformed (.code (.notLoadable index found)))

/-- The constant at an index, for a load of one word or, if `wide`, of two. -/
def loadable (pool : ConstantPool) (index : UInt16) (wide : Bool) : Except Error Value := do
  let value ← pushed pool index (← pool.get index)
  if (value.words == 2) = wide then
    return value
  else
    throw (.malformed (.code (.category index wide)))

/-- The offset at a distance from the instruction at `offset`. -/
def target (offset : Nat) (distance : Int) : Reader Nat :=
  let place := offset + distance
  if place < 0 then complain (.negativeTarget offset place) else return place.toNat

/-- A target as a 32-bit distance. -/
def farTarget (offset : Nat) : Reader Nat := do target offset (← Reader.i32).toInt

def readLoad (pool : ConstantPool) (index : UInt16) (wide : Bool) : Reader (Instruction Nat) :=
  return push (← Reader.ofExcept (loadable pool index wide))

/-- A jump; the opcode tells the width of its distance. -/
def readJump (offset : Nat) (op : UInt8) (kind : Jump) : Reader (Instruction Nat) := do
  if kind.wideOpcode? = some op then
    return jump kind (← farTarget offset)
  else
    return jump kind (← target offset (← Reader.word Int16).toInt)

def readTableSwitch (offset : Nat) : Reader (Instruction Nat) := do
  Reader.align 0 4
  let default ← farTarget offset
  let low ← Reader.i32
  let high ← Reader.i32
  if low > high then
    complain (.switchBounds offset low high)
  let count := (high.toInt - low.toInt + 1).toNat
  Reader.ensure (count * 4)
  return tableSwitch low high default (← Reader.times count (farTarget offset))

/-- Reads a case and puts it before the cases that were read already; keys must increase. -/
def readCase (offset : Nat) (before : List (Int32 × Nat)) : Reader (List (Int32 × Nat)) := do
  let key ← Reader.i32
  let place ← farTarget offset
  match before with
  | (last, _) :: _ =>
    if key ≤ last then
      complain (.unsortedCases offset)
    else
      return (key, place) :: before
  | [] => return [(key, place)]

def readLookupSwitch (offset : Nat) : Reader (Instruction Nat) := do
  Reader.align 0 4
  let default ← farTarget offset
  let count ← Reader.i32
  if count < 0 then
    complain (.negativeCaseCount offset)
  let count := count.toInt.toNat
  Reader.ensure (count * 8)
  return lookupSwitch default (← Reader.iterate (readCase offset) count []).reverse

def readField (pool : ConstantPool) (offset : Nat) (access : FieldAccess) :
    Reader (Instruction Nat) := do
  let ref ← Reader.ofExcept (pool.memberRef (← Reader.u16))
  if ref.kind = .field then
    return field access ref.owner ref.name ref.descriptor
  else
    complain (.fieldIsMethod offset)

/-- A call. An interface call has two more bytes, which repeat what the descriptor says. -/
def readInvoke (pool : ConstantPool) (offset : Nat) (kind : InvokeKind) :
    Reader (Instruction Nat) := do
  let ref ← Reader.ofExcept (pool.memberRef (← Reader.u16))
  if kind = .interface then
    Reader.skip 2
  match ref.kind with
  | .field => complain (.invokeIsField offset)
  | .method =>
    if kind = .interface then
      complain (.interfaceIsClass offset)
    else
      return invoke kind ref.owner ref.name ref.descriptor false
  | .interfaceMethod => return invoke kind ref.owner ref.name ref.descriptor true

def readInvokeDynamic (pool : ConstantPool) (offset : Nat) : Reader (Instruction Nat) := do
  let index ← Reader.u16
  Reader.skip 2
  match ← Reader.ofExcept (pool.get index) with
  | .invokeDynamic _ signature =>
    let (name, descriptor) ← Reader.ofExcept (pool.nameAndType signature)
    return invokeDynamic index name descriptor
  | _ => complain (.notInvokeDynamic offset)

def readTypeUse (pool : ConstantPool) (use : TypeUse) : Reader (Instruction Nat) :=
  return typeUse use (← Reader.ofExcept (pool.className (← Reader.u16)))

/-- An instruction whose operands are widened by the `wide` opcode. -/
def readWide (offset : Nat) : Reader (Instruction Nat) := do
  let op ← Reader.u8
  if Opcode.iload ≤ op && op ≤ Opcode.aload then
    return load (.ofRank (op - Opcode.iload)) (← Reader.u16)
  else if Opcode.istore ≤ op && op ≤ Opcode.astore then
    return store (.ofRank (op - Opcode.istore)) (← Reader.u16)
  else if op = Opcode.ret then
    return ret (← Reader.u16)
  else if op = Opcode.iinc then
    let slot ← Reader.u16
    return increment slot (← Reader.word Int16)
  else
    complain (.wideOpcode offset op)

/-- The instruction of an opcode that is followed by operands. -/
def readOperands (pool : ConstantPool) (offset : Nat) (op : UInt8) : Reader (Instruction Nat) :=
  match op with
  | Opcode.bipush => return push (.int (← Reader.word Int8).toInt32)
  | Opcode.sipush => return push (.int (← Reader.word Int16).toInt32)
  | Opcode.ldc => do readLoad pool (← Reader.u8).toUInt16 false
  | Opcode.ldcW => do readLoad pool (← Reader.u16) false
  | Opcode.ldc2W => do readLoad pool (← Reader.u16) true
  | Opcode.iinc => do
    let slot ← Reader.u8
    return increment slot.toUInt16 (← Reader.word Int8).toInt16
  | Opcode.ret => return ret (← Reader.u8).toUInt16
  | Opcode.tableswitch => readTableSwitch offset
  | Opcode.lookupswitch => readLookupSwitch offset
  | Opcode.getstatic => readField pool offset .getStatic
  | Opcode.putstatic => readField pool offset .putStatic
  | Opcode.getfield => readField pool offset .getField
  | Opcode.putfield => readField pool offset .putField
  | Opcode.invokevirtual => readInvoke pool offset .virtual
  | Opcode.invokespecial => readInvoke pool offset .special
  | Opcode.invokestatic => readInvoke pool offset .static
  | Opcode.invokeinterface => readInvoke pool offset .interface
  | Opcode.invokedynamic => readInvokeDynamic pool offset
  | Opcode.newObject => readTypeUse pool .newObject
  | Opcode.anewarray => readTypeUse pool .newArray
  | Opcode.checkcast => readTypeUse pool .checkCast
  | Opcode.instanceof => readTypeUse pool .instanceOf
  | Opcode.newarray => do
    let code ← Reader.u8
    if 4 ≤ code && code ≤ 11 then
      return newPrimitives code
    else
      complain (.arrayType offset code)
  | Opcode.wide => readWide offset
  | Opcode.multianewarray => do
    let className ← Reader.ofExcept (pool.className (← Reader.u16))
    let dimensions ← Reader.u8
    if dimensions = 0 then
      complain (.noDimensions offset)
    else
      return newArrays className dimensions
  | op =>
    if Opcode.iload ≤ op && op ≤ Opcode.aload then
      return load (.ofRank (op - Opcode.iload)) (← Reader.u8).toUInt16
    else if Opcode.istore ≤ op && op ≤ Opcode.astore then
      return store (.ofRank (op - Opcode.istore)) (← Reader.u8).toUInt16
    else
      match Jump.ofOpcode? op with
      | some kind => readJump offset op kind
      | none => complain (.opcode op offset)

/-- What follows an opcode. -/
def readBehind (pool : ConstantPool) (offset : Nat) (op : UInt8) : Reader (Instruction Nat) :=
  match ofByte? op with
  | some i => return i
  | none => readOperands pool offset op

/-- Reads the instruction at the cursor. -/
def read (pool : ConstantPool) : Reader (Instruction Nat) := do
  let offset ← Reader.position
  readBehind pool offset (← Reader.u8)

/-! ### Reading advances -/

open Reader

theorem forward_target (offset : Nat) (distance : Int) : Forward (target offset distance) :=
  forward_ite (forward_fault _) (forward_pure _)

theorem forward_farTarget (offset : Nat) : Forward (farTarget offset) :=
  forward_bind (forward_word _) fun _ => forward_target _ _

theorem forward_readLoad (pool : ConstantPool) (index : UInt16) (wide : Bool) :
    Forward (readLoad pool index wide) :=
  forward_bind (forward_ofExcept _) fun _ => forward_pure _

theorem forward_readJump (offset : Nat) (op : UInt8) (kind : Jump) :
    Forward (readJump offset op kind) :=
  forward_ite (forward_bind (forward_farTarget _) fun _ => forward_pure _)
    (forward_bind (forward_word _) fun _ =>
      forward_bind (forward_target _ _) fun _ => forward_pure _)

theorem forward_readTableSwitch (offset : Nat) : Forward (readTableSwitch offset) :=
  forward_bind (forward_align _ _) fun _ => forward_bind (forward_farTarget _) fun _ =>
    forward_bind (forward_word _) fun _ => forward_bind (forward_word _) fun _ => by
      split
      · exact forward_bind (forward_fault _) fun _ => forward_bind (forward_ensure _) fun _ =>
          forward_bind (forward_times _ (forward_farTarget _)) fun _ => forward_pure _
      · exact forward_bind (forward_ensure _) fun _ =>
          forward_bind (forward_times _ (forward_farTarget _)) fun _ => forward_pure _

theorem forward_readCase (offset : Nat) (before : List (Int32 × Nat)) :
    Forward (readCase offset before) :=
  forward_bind (forward_word _) fun _ => forward_bind (forward_farTarget _) fun _ => by
    split
    · exact forward_ite (forward_fault _) (forward_pure _)
    · exact forward_pure _

theorem forward_readLookupSwitch (offset : Nat) : Forward (readLookupSwitch offset) :=
  forward_bind (forward_align _ _) fun _ => forward_bind (forward_farTarget _) fun _ =>
    forward_bind (forward_word _) fun _ => by
      split
      · exact forward_bind (forward_fault _) fun _ => forward_bind (forward_ensure _) fun _ =>
          forward_bind (forward_iterate (forward_readCase _) _ _) fun _ => forward_pure _
      · exact forward_bind (forward_ensure _) fun _ =>
          forward_bind (forward_iterate (forward_readCase _) _ _) fun _ => forward_pure _

theorem forward_readField (pool : ConstantPool) (offset : Nat) (access : FieldAccess) :
    Forward (readField pool offset access) :=
  forward_bind (forward_word _) fun _ => forward_bind (forward_ofExcept _) fun _ =>
    forward_ite (forward_pure _) (forward_fault _)

theorem forward_readInvoke (pool : ConstantPool) (offset : Nat) (kind : InvokeKind) :
    Forward (readInvoke pool offset kind) :=
  forward_bind (forward_word _) fun _ => forward_bind (forward_ofExcept _) fun ref => by
    cases kind <;> cases ref.kind <;>
      first
      | exact forward_fault _
      | exact forward_pure _
      | exact forward_bind (forward_skip _) fun _ => forward_fault _
      | exact forward_bind (forward_skip _) fun _ => forward_pure _

theorem forward_readInvokeDynamic (pool : ConstantPool) (offset : Nat) :
    Forward (readInvokeDynamic pool offset) :=
  forward_bind (forward_word _) fun _ => forward_bind (forward_skip _) fun _ =>
    forward_bind (forward_ofExcept _) fun found => by
      cases found <;>
        first
        | exact forward_fault _
        | exact forward_bind (forward_ofExcept _) fun _ => forward_pure _

theorem forward_readTypeUse (pool : ConstantPool) (use : TypeUse) :
    Forward (readTypeUse pool use) :=
  forward_bind (forward_word _) fun _ => forward_bind (forward_ofExcept _) fun _ => forward_pure _

theorem forward_readWide (offset : Nat) : Forward (readWide offset) :=
  forward_bind (forward_word _) fun _ =>
    forward_ite (forward_bind (forward_word _) fun _ => forward_pure _) <|
    forward_ite (forward_bind (forward_word _) fun _ => forward_pure _) <|
    forward_ite (forward_bind (forward_word _) fun _ => forward_pure _) <|
    forward_ite
      (forward_bind (forward_word _) fun _ => forward_bind (forward_word _) fun _ =>
        forward_pure _)
      (forward_fault _)

theorem forward_readOperands (pool : ConstantPool) (offset : Nat) (op : UInt8) :
    Forward (readOperands pool offset op) := by
  unfold readOperands
  split
  case h_1 | h_2 | h_7 => exact forward_bind (forward_word _) fun _ => forward_pure _
  case h_3 | h_4 | h_5 => exact forward_bind (forward_word _) fun _ => forward_readLoad _ _ _
  case h_6 =>
    exact forward_bind (forward_word _) fun _ => forward_bind (forward_word _) fun _ =>
      forward_pure _
  case h_8 => exact forward_readTableSwitch _
  case h_9 => exact forward_readLookupSwitch _
  case h_10 | h_11 | h_12 | h_13 => exact forward_readField _ _ _
  case h_14 | h_15 | h_16 | h_17 => exact forward_readInvoke _ _ _
  case h_18 => exact forward_readInvokeDynamic _ _
  case h_19 | h_20 | h_21 | h_22 => exact forward_readTypeUse _ _
  case h_23 =>
    exact forward_bind (forward_word _) fun _ => forward_ite (forward_pure _) (forward_fault _)
  case h_24 => exact forward_readWide _
  case h_25 =>
    exact forward_bind (forward_word _) fun _ => forward_bind (forward_ofExcept _) fun _ =>
      forward_bind (forward_word _) fun _ => forward_ite (forward_fault _) (forward_pure _)
  case h_26 =>
    refine forward_ite (forward_bind (forward_word _) fun _ => forward_pure _) <|
      forward_ite (forward_bind (forward_word _) fun _ => forward_pure _) ?_
    split
    · exact forward_readJump _ _ _
    · exact forward_fault _

theorem forward_readBehind (pool : ConstantPool) (offset : Nat) (op : UInt8) :
    Forward (readBehind pool offset op) := by
  unfold readBehind
  split
  · exact forward_pure _
  · exact forward_readOperands _ _ _

theorem advance_of_u8 {c c' : Cursor} {op : UInt8} (h : Reader.u8 c = .ok op c') :
    c'.data = c.data ∧ c.pos < c'.pos := by
  simp only [Reader.u8, Reader.word, Word.width, bind, EStateM.bind, Reader.take] at h
  split at h
  · rename_i bytes c₁ hc
    split at hc
    · obtain ⟨-, rfl⟩ := by simpa using hc
      obtain ⟨-, rfl⟩ := by simpa [pure, EStateM.pure] using h
      exact ⟨rfl, Nat.lt_succ_self _⟩
    · simp at hc
  · simp at h

/-- An instruction takes at least one byte. -/
theorem read_advances {pool : ConstantPool} {c c' : Cursor} {i : Instruction Nat}
    (h : read pool c = .ok i c') : c'.data = c.data ∧ c.pos < c'.pos := by
  have hread : read pool c = (Reader.u8 >>= readBehind pool c.pos) c := rfl
  rw [hread] at h
  simp only [bind, EStateM.bind] at h
  split at h
  · rename_i op c₁ hc
    have hu := advance_of_u8 hc
    have hf := forward_readBehind pool c.pos op c₁
    rw [h] at hf
    exact ⟨hf.1.trans hu.1, Nat.lt_of_lt_of_le hu.2 hf.2⟩
  · simp at h

end Instruction
end ClassPatch
