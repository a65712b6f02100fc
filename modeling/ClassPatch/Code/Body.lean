import ClassPatch.ClassFile.Attribute
import ClassPatch.Code.Instruction

/-!
# Method bodies

A body is a list of events with the tables that refer to its labels: exception handlers, line
numbers, local variables and stack map frames. Labels are handed out in order by a `LabelSupply`,
which belongs to the body, so that a label added later is new to it.
-/

namespace ClassPatch

/-- Hands out labels; all below `next` are taken. -/
structure LabelSupply where
  next : UInt32
  deriving DecidableEq

namespace LabelSupply

instance : Inhabited LabelSupply := ⟨⟨0⟩⟩

/-- The label that comes next. -/
def fresh (supply : LabelSupply) : Label := ⟨supply.next⟩

/-- The supply after the next label has been taken. -/
def advance (supply : LabelSupply) : LabelSupply := ⟨supply.next + 1⟩

end LabelSupply

/-- The types of the locals and of the stack, bottom first, with one entry for each value. -/
structure Frame where
  locals : List VerificationType
  stack : List VerificationType
  deriving DecidableEq

/-- A range of events that a handler guards, up to but without `stop`. -/
structure Handler where
  start : Label
  stop : Label
  target : Label
  /-- The caught class; none catches everything. -/
  catchType : Option String
  deriving DecidableEq

/-- The source line that begins at a label. -/
structure Line where
  start : Label
  number : UInt16
  deriving DecidableEq

/-- The range in which a local slot holds a variable. -/
structure Variable where
  start : Label
  stop : Label
  name : UInt16
  descriptor : UInt16
  slot : UInt16
  deriving DecidableEq

/-- The method that a body belongs to. -/
structure MethodContext where
  className : String
  methodName : String
  descriptor : String
  isStatic : Bool
  majorVersion : UInt16
  deriving DecidableEq

/-- The code of a method. -/
structure Body where
  maxStack : UInt16
  maxLocals : UInt16
  events : List Event
  handlers : List Handler
  lines : List Line
  localVariables : List Variable
  localVariableTypes : List Variable
  frames : List (Label × Frame)
  attributes : List Attribute
  labels : LabelSupply
  deriving DecidableEq

end ClassPatch
