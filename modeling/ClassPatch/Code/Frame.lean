import ClassPatch.Code.Body
import ClassPatch.Descriptor.Method

/-!
# Frames

A method is entered with its receiver and its parameters in the locals and nothing on the stack.
In a constructor the receiver is not initialized yet, except in the root class, whose constructor
has no other to call.
-/

namespace ClassPatch

/-- The root of the class hierarchy. -/
def rootClass : String := "java/lang/Object"

/-- The name of constructors. -/
def constructorName : String := "<init>"

namespace Frame

/-- The type of the receiver on entry. -/
def receiver (method : MethodContext) : VerificationType :=
  if method.methodName = constructorName && method.className != rootClass then
    .uninitializedThis
  else
    .object method.className

/-- The frame on entry to a method. -/
def entry (method : MethodContext) : Except Error Frame := do
  let d ← MethodDescriptor.parse method.descriptor
  let parameters := d.parameters.map FieldType.verification
  return {
    locals := if method.isStatic then parameters else receiver method :: parameters
    stack := [] }

end Frame
end ClassPatch
