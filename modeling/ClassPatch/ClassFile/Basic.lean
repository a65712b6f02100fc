import ClassPatch.ClassFile.Member
import ClassPatch.Code.Decode

/-!
# Class files

A class file is kept close to its stored form. Names are indices into the pool of the class, and
what members hold stays bytes until it is asked for: the code of a method becomes a body only when
it is read.
-/

namespace ClassPatch

/-- The version of the format that a class is stored in. -/
structure ClassVersion where
  major : UInt16
  minor : UInt16
  deriving DecidableEq

/-- A class as stored. -/
structure ClassFile where
  version : ClassVersion
  pool : ConstantPool
  flags : AccessFlags
  thisClass : UInt16
  /-- Zero for the root of the class hierarchy. -/
  superClass : UInt16
  interfaces : List UInt16
  fields : List Member
  methods : Array Member
  attributes : List Attribute

namespace ClassFile

def name (c : ClassFile) : Except Error String := c.pool.className c.thisClass

def superName (c : ClassFile) : Except Error (Option String) :=
  if c.superClass = 0 then .ok none else some <$> c.pool.className c.superClass

/-- The positions of the methods with a name. -/
def methodsNamed (c : ClassFile) (name : String) : Except Error (List Nat) := do
  let named ← c.methods.toList.mapM fun m => return (← c.pool.text m.name) == name
  return (named.zipIdx.filter (·.1)).map (·.2)

/-- The method at a position, if there is one. -/
def method (c : ClassFile) (index : Nat) : Except Error Member :=
  match c.methods[index]? with
  | some m => .ok m
  | none => .error .outOfBounds

/-- What the code of a method knows of its place. -/
def methodContext (c : ClassFile) (index : Nat) : Except Error MethodContext := do
  let m ← c.method index
  let className ← c.name
  let methodName ← c.pool.text m.name
  let descriptor ← c.pool.text m.descriptor
  return { className, methodName, descriptor, isStatic := m.isStatic,
           majorVersion := c.version.major }

/-- The body of a method, unless it has no code. -/
def methodBody (c : ClassFile) (index : Nat) : Except Error (Option Body) := do
  let context ← c.methodContext index
  let m ← c.method index
  match ← m.codePosition c.pool with
  | none => return none
  | some position =>
    match m.attributes[position]? with
    | none => return none
    | some a => some <$> Body.decode a.payload c.pool context

end ClassFile
end ClassPatch
