import ClassPatch.ClassFile.Basic
import ClassPatch.Code.Encode

/-!
# Making and changing classes

An edit gives a method new code or adds a method. What the new code refers to enters the pool of
the class first, so an edit that fails can leave entries behind there, and an added method whose
code cannot be written stays without code. No other part of the class changes.
-/

namespace ClassPatch

/-- A change of a class. What it did before a failure stays done. -/
abbrev ClassEdit (α : Type) := EStateM Error ClassFile α

namespace ClassEdit

variable {α : Type}

/-- A result that needs no change. -/
def lookUp (f : ClassFile → Except Error α) : ClassEdit α := do
  match f (← get) with
  | .ok x => return x
  | .error e => throw e

/-- A change of the pool alone. -/
def onPool (change : PoolM α) : ClassEdit α := fun c =>
  match change.run c.pool with
  | .ok x pool => .ok x { c with pool }
  | .error e pool => .error e { c with pool }

end ClassEdit

namespace ClassFile

/-- A public class without members. -/
def new (name : String) (superName : Option String) (major : UInt16) : Except Error ClassFile :=
  let names : PoolM (UInt16 × UInt16) := do
    let thisClass ← PoolM.classRef name
    match superName with
    | some superName => return (thisClass, ← PoolM.classRef superName)
    | none => return (thisClass, 0)
  match names.run ConstantPool.empty with
  | .ok (thisClass, superClass) pool =>
    .ok { version := { major, minor := 0 }, pool, flags := AccessFlags.publicClass, thisClass,
          superClass, interfaces := [], fields := [], methods := #[], attributes := [] }
  | .error e _ => .error e

/-- Changes the method at a position. -/
def modifyMethod (c : ClassFile) (index : Nat) (f : Member → Member) : ClassFile :=
  { c with methods := c.methods.modify index f }

/-- Gives the method at a position the code of a body. -/
def setBody (index : Nat) (body : Body) : ClassEdit Unit := do
  let context ← ClassEdit.lookUp (·.methodContext index)
  let payload ← ClassEdit.onPool (body.encode context)
  let position ← ClassEdit.lookUp fun c => do (← c.method index).codePosition c.pool
  match position with
  | some position => modify (·.modifyMethod index (·.setPayload position payload))
  | none =>
    let name ← ClassEdit.onPool (PoolM.text Member.codeName)
    modify (·.modifyMethod index (·.addAttribute { name, payload }))

/-- Adds a method and gives its position. -/
def addMethod (flags : AccessFlags) (name descriptor : String) (body : Option Body) :
    ClassEdit Nat := do
  discard (ClassEdit.lookUp fun _ => MethodDescriptor.parse descriptor)
  let name ← ClassEdit.onPool (PoolM.text name)
  let descriptor ← ClassEdit.onPool (PoolM.text descriptor)
  let index := (← get).methods.size
  modify fun c => { c with methods := c.methods.push { flags, name, descriptor, attributes := [] } }
  match body with
  | some body => setBody index body
  | none => pure ()
  return index

end ClassFile
end ClassPatch
