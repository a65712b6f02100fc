import ClassPatch.Code.Jump
import ClassPatch.Code.VerificationType
import ClassPatch.ConstantPool.Constant

/-!
# What can be wrong with a class file

One type per area lists the ways in which bytes, text or code can be malformed, each constructor
holding what its message shows. The wording is confined to the `message` functions; nothing else
looks at it.
-/

namespace ClassPatch

/-- Text that is not well formed modified UTF-8. -/
inductive TextFault
  | truncated
  | leadByte (byte : UInt8)

/-- The kinds of entry that a reference can ask for. -/
inductive ConstantKind
  | utf8
  | classRef
  | nameAndType
  | member
  deriving DecidableEq

/-- A constant pool that does not hold what its readers need. -/
inductive PoolFault
  | noEntries
  | tag (tag : UInt8) (offset : Nat)
  | wideAtEnd (index : Nat)
  | handleKind (kind : UInt8)
  | noEntry (index : UInt16) (size : Nat)
  | reference (index : UInt16) (wanted : ConstantKind) (found : Constant)
  | kind (index : UInt16) (wanted : ConstantKind) (found : Constant)

/-- Text that is not a descriptor. -/
inductive DescriptorFault
  | empty
  | trailing (text : String)
  | unterminatedClass (text : String)
  | emptyClass (text : String)
  | character (c : Char) (text : String)
  | noParameterList (text : String)

/-- A class file whose frame is damaged. -/
inductive ClassFault
  | magic (magic : UInt32)
  | trailing (count : Nat)

/-- Code that cannot be read or written. -/
inductive CodeFault
  | notLoadable (index : UInt16) (found : Constant)
  | category (index : UInt16) (wide : Bool)
  | negativeTarget (offset : Nat) (target : Int)
  | switchBounds (offset : Nat) (low high : Int32)
  | negativeCaseCount (offset : Nat)
  | unsortedCases (offset : Nat)
  | fieldIsMethod (offset : Nat)
  | invokeIsField (offset : Nat)
  | interfaceIsClass (offset : Nat)
  | notInvokeDynamic (offset : Nat)
  | arrayType (offset : Nat) (code : UInt8)
  | wideOpcode (offset : Nat) (opcode : UInt8)
  | noDimensions (offset : Nat)
  | opcode (opcode : UInt8) (offset : Nat)
  | boundary (offset : Nat)
  | noLabel (offset : Nat)
  | length (length : Nat) (className methodName : String)
  | handlerRange (first last handler : Nat)
  | variableRange (first last : Nat)
  | trailing (className methodName : String)
  | notWide (jump : Jump)

/-- A stack map that cannot be read or written. -/
inductive FrameFault
  | typeTag (tag : UInt8)
  | chop (chopped locals : Nat)
  | reserved (frameType : UInt8)
  | trailing
  | order (offset last : Nat)

/-- Code through which types do not flow. -/
inductive FlowFault
  | underflow (needed held : Nat)
  | duplicateUnderflow (needed held : Nat)
  | height (index first second : Nat)
  | stackTypes (index : Nat) (first second : VerificationType)
  | declaredHeight (height declared index : Nat)
  | fallsOff (className methodName : String)
  | opcode (opcode : UInt8)
  | empty (className methodName : String)

/-- Everything that makes a class file malformed. -/
inductive Fault
  | text (fault : TextFault)
  | pool (fault : PoolFault)
  | descriptor (fault : DescriptorFault)
  | classFile (fault : ClassFault)
  | code (fault : CodeFault)
  | frame (fault : FrameFault)
  | flow (fault : FlowFault)

def TextFault.message : TextFault → String
  | .truncated => "Truncated modified UTF-8 sequence"
  | .leadByte byte => "Invalid modified UTF-8 lead byte 0x" ++ Text.hex 2 byte.toNat

/-- A kind of entry as messages show it. -/
def ConstantKind.shown : ConstantKind → String
  | .utf8 => "Utf8"
  | .classRef => "Class"
  | .nameAndType => "NameAndType"
  | .member => "member reference"

/-- The kind with its article where it takes one. -/
private def ConstantKind.described : ConstantKind → String
  | .utf8 => "Utf8"
  | kind => "a " ++ kind.shown

def PoolFault.message : PoolFault → String
  | .noEntries => "Constant pool count must be at least 1"
  | .tag byte offset => s!"Invalid constant pool tag {byte} at offset {offset}"
  | .wideAtEnd index => s!"Eight-byte constant at index {index} overflows the pool"
  | .handleKind code => s!"Invalid method handle kind {code}"
  | .noEntry index size => s!"Invalid constant pool index {index} (pool size {size})"
  | .reference index wanted found =>
    s!"Constant {index} should be " ++ wanted.shown ++ ", found " ++ found.shown
  | .kind index wanted found =>
    s!"Constant {index} is not " ++ wanted.described ++ ": " ++ found.shown

def DescriptorFault.message : DescriptorFault → String
  | .empty => "Empty field descriptor"
  | .trailing text => s!"Trailing characters in field descriptor '{text}'"
  | .unterminatedClass text => s!"Unterminated class type in '{text}'"
  | .emptyClass text => s!"Empty class name in '{text}'"
  | .character c text => s!"Invalid descriptor character '{c}' in '{text}'"
  | .noParameterList text => s!"Method descriptor '{text}' does not start with '('"

def ClassFault.message : ClassFault → String
  | .magic word => "Invalid class file magic 0x" ++ Text.hex 8 word.toNat
  | .trailing count => s!"{count} trailing bytes after class file"

def CodeFault.message : CodeFault → String
  | .notLoadable index found => s!"Constant {index} cannot be loaded by ldc: " ++ found.shown
  | .category index wide =>
    s!"Constant {index} has the wrong category for " ++ if wide then "ldc2_w" else "ldc"
  | .negativeTarget offset target => s!"Branch at {offset} targets negative offset {target}"
  | .switchBounds offset low high => s!"tableswitch at {offset} has low {low} > high {high}"
  | .negativeCaseCount offset => s!"lookupswitch at {offset} has negative pair count"
  | .unsortedCases offset => s!"lookupswitch at {offset} keys are not sorted"
  | .fieldIsMethod offset => s!"Field instruction at {offset} references a method"
  | .invokeIsField offset => s!"Invoke instruction at {offset} references a field"
  | .interfaceIsClass offset => s!"invokeinterface at {offset} references a class method"
  | .notInvokeDynamic offset =>
    s!"invokedynamic at {offset} does not reference an InvokeDynamic constant"
  | .arrayType offset code => s!"newarray at {offset} has invalid type {code}"
  | .wideOpcode offset code =>
    s!"wide at {offset} modifies invalid opcode 0x" ++ Text.hex 2 code.toNat
  | .noDimensions offset => s!"multianewarray at {offset} has zero dimensions"
  | .opcode code offset =>
    "Invalid opcode 0x" ++ Text.hex 2 code.toNat ++ s!" at offset {offset}"
  | .boundary offset => s!"Offset {offset} is not an instruction boundary"
  | .noLabel offset => s!"No label at offset {offset}"
  | .length count className methodName =>
    s!"Invalid code length {count} in {className}.{methodName}"
  | .handlerRange first last handler =>
    s!"Invalid exception range {first}..{last} -> {handler}"
  | .variableRange first last => s!"Local variable range {first}..{last} exceeds code"
  | .trailing className methodName =>
    s!"Trailing bytes after Code attribute of {className}.{methodName}"
  | .notWide jump => "Conditional jump " ++ jump.mnemonic ++ " cannot be widened"

def FrameFault.message : FrameFault → String
  | .typeTag tag => s!"Invalid verification type tag {tag}"
  | .chop chopped locals => s!"Chop frame removes {chopped} of {locals} locals"
  | .reserved frameType => s!"Reserved stack map frame type {frameType}"
  | .trailing => "Trailing bytes after StackMapTable frames"
  | .order offset last => s!"Stack map frame at {offset} does not follow frame at {last}"

def FlowFault.message : FlowFault → String
  | .underflow needed held => s!"Operand stack underflow: need {needed} words, have {held}"
  | .duplicateUnderflow needed held =>
    s!"Operand stack underflow in dup: need {needed} words, have {held}"
  | .height index first second => s!"Stack height mismatch at event {index}: {first} vs {second}"
  | .stackTypes index first second =>
    s!"Incompatible stack types at event {index}: " ++ first.shown ++ " vs " ++ second.shown
  | .declaredHeight found declared event =>
    s!"Stack height {found} does not match the declared frame ({declared}) at event {event}"
  | .fallsOff className methodName => s!"Control falls off the end of {className}.{methodName}"
  | .opcode code => "Unknown opcode 0x" ++ Text.hex 2 code.toNat
  | .empty className methodName => s!"Empty code in {className}.{methodName}"

def Fault.message : Fault → String
  | .text fault => fault.message
  | .pool fault => fault.message
  | .descriptor fault => fault.message
  | .classFile fault => fault.message
  | .code fault => fault.message
  | .frame fault => fault.message
  | .flow fault => fault.message

end ClassPatch
