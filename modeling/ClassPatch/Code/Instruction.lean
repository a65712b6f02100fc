import ClassPatch.Code.Jump
import ClassPatch.Code.VerificationType

/-!
# Instructions

Instructions name what they use: strings, classes and members stand in them by value and not by
their index in a constant pool. They are parametric in what a branch target is. While code is read
or written, targets are byte offsets; in a method body they are labels, and the body is a list of
events, each an instruction or the place of a label.
-/

namespace ClassPatch

/-- The kinds of value that locals and the stack hold. -/
inductive ValueKind
  | int
  | long
  | float
  | double
  | reference
  deriving DecidableEq

namespace ValueKind

/-- The words that a value of the kind takes. -/
def slots : ValueKind → Nat
  | long | double => 2
  | _ => 1

/-- The position of the kind in families of opcodes. -/
def rank : ValueKind → UInt8
  | int => 0
  | long => 1
  | float => 2
  | double => 3
  | reference => 4

/-- The kind at a position, references taking all that are left. -/
def ofRank : UInt8 → ValueKind
  | 0 => int
  | 1 => long
  | 2 => float
  | 3 => double
  | _ => reference

@[simp] theorem ofRank_rank (kind : ValueKind) : ofRank kind.rank = kind := by
  cases kind <;> rfl

end ValueKind

/-- The constants that an instruction can push. -/
inductive Value
  | null
  | int (value : Int32)
  | long (value : Int64)
  | float (bits : UInt32)
  | double (bits : UInt64)
  | string (text : String)
  | classRef (name : String)
  | methodType (descriptor : String)
  | methodHandle (index : UInt16)
  | dynamic (index : UInt16) (descriptor : String)
  deriving DecidableEq

/-- The words that a constant takes on the stack. -/
def Value.words : Value → Nat
  | .long _ | .double _ => 2
  | .dynamic _ descriptor => if descriptor = "J" || descriptor = "D" then 2 else 1
  | _ => 1

/-- The ways to use a field. -/
inductive FieldAccess
  | getStatic
  | putStatic
  | getField
  | putField
  deriving DecidableEq

def FieldAccess.opcode : FieldAccess → UInt8
  | getStatic => Opcode.getstatic
  | putStatic => Opcode.putstatic
  | getField => Opcode.getfield
  | putField => Opcode.putfield

/-- The ways to call a method by name. -/
inductive InvokeKind
  | virtual
  | special
  | static
  | interface
  deriving DecidableEq

def InvokeKind.opcode : InvokeKind → UInt8
  | virtual => Opcode.invokevirtual
  | special => Opcode.invokespecial
  | static => Opcode.invokestatic
  | interface => Opcode.invokeinterface

/-- The instructions whose only operand is a class. -/
inductive TypeUse
  | newObject
  | newArray
  | checkCast
  | instanceOf
  deriving DecidableEq

def TypeUse.opcode : TypeUse → UInt8
  | newObject => Opcode.newObject
  | newArray => Opcode.anewarray
  | checkCast => Opcode.checkcast
  | instanceOf => Opcode.instanceof

/-- The words that leaving a method takes from the stack, with a value of the kind or without. -/
def resultWords : Option ValueKind → Nat
  | some kind => kind.slots
  | none => 0

/-- One instruction with branch targets in `τ`. -/
inductive Instruction (τ : Type)
  | push (value : Value)
  | load (kind : ValueKind) (slot : UInt16)
  | store (kind : ValueKind) (slot : UInt16)
  | increment (slot : UInt16) (delta : Int16)
  | jump (kind : Jump) (target : τ)
  | tableSwitch (low high : Int32) (default : τ) (targets : List τ)
  | lookupSwitch (default : τ) (cases : List (Int32 × τ))
  | field (access : FieldAccess) (owner name descriptor : String)
  | invoke (kind : InvokeKind) (owner name descriptor : String) (ofInterface : Bool)
  | invokeDynamic (index : UInt16) (name descriptor : String)
  | typeUse (use : TypeUse) (className : String)
  | newPrimitives (code : UInt8)
  | newArrays (className : String) (dimensions : UInt8)
  | leave (result : Option ValueKind)
  | ret (slot : UInt16)
  | plain (opcode : UInt8)
  deriving DecidableEq

namespace Instruction

variable {σ τ : Type}

/-- Control never goes on to the instruction behind. -/
def isTerminal : Instruction τ → Bool
  | jump .goto _ | tableSwitch .. | lookupSwitch .. | leave _ | ret _ => true
  | plain opcode => opcode = Opcode.athrow
  | _ => false

/-- Where control may go besides the instruction behind, a default target first. -/
def targets : Instruction τ → List τ
  | jump _ target => [target]
  | tableSwitch _ _ default targets => default :: targets
  | lookupSwitch default cases => default :: cases.map (·.2)
  | _ => []

/-- Replaces the targets in order; the first that has no image is the error. -/
def mapTargets {ε : Type} (f : σ → Except ε τ) : Instruction σ → Except ε (Instruction τ)
  | push value => .ok (push value)
  | load kind slot => .ok (load kind slot)
  | store kind slot => .ok (store kind slot)
  | increment slot delta => .ok (increment slot delta)
  | jump kind target => do return jump kind (← f target)
  | tableSwitch low high default targets => do
    return tableSwitch low high (← f default) (← targets.mapM f)
  | lookupSwitch default cases => do
    return lookupSwitch (← f default) (← cases.mapM fun (key, target) => do
      return (key, ← f target))
  | field access owner name descriptor => .ok (field access owner name descriptor)
  | invoke kind owner name descriptor ofInterface =>
    .ok (invoke kind owner name descriptor ofInterface)
  | invokeDynamic index name descriptor => .ok (invokeDynamic index name descriptor)
  | typeUse use className => .ok (typeUse use className)
  | newPrimitives code => .ok (newPrimitives code)
  | newArrays className dimensions => .ok (newArrays className dimensions)
  | leave result => .ok (leave result)
  | ret slot => .ok (ret slot)
  | plain opcode => .ok (plain opcode)

end Instruction

/-- An element of a method body. -/
inductive Event
  | label (l : Label)
  | instr (i : Instruction Label)
  deriving DecidableEq

namespace Event

def isLabel : Event → Bool
  | label _ => true
  | instr _ => false

/-- Control never goes on to the event behind. -/
def isTerminal : Event → Bool
  | label _ => false
  | instr i => i.isTerminal

/-- The labels that an event jumps to. -/
def targets : Event → List Label
  | label _ => []
  | instr i => i.targets

end Event
end ClassPatch
