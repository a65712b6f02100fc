import ClassPatch.ClassFile.Basic
import ClassPatch.ConstantPool.Codec

/-!
# Class files as bytes

Reading takes the whole byte string and then checks the names that a class is found by: its own,
those of the classes it extends, and the names and descriptors of its methods. Code is not looked
at. Writing gives back what was read, byte for byte.
-/

namespace ClassPatch.ClassFile

/-- The word that a class file begins with. -/
def magic : UInt32 := 0xCAFEBABE

/-- Reads the parts of a class file. -/
def read : Reader ClassFile := do
  let word ← Reader.u32
  if word ≠ magic then
    Reader.fault (.classFile (.magic word))
  let minor ← Reader.u16
  let major ← Reader.u16
  let pool ← ConstantPool.read
  let flags ← Reader.u16
  let thisClass ← Reader.u16
  let superClass ← Reader.u16
  let interfaces ← Reader.u16List
  let fields ← Member.readList
  let methods ← Member.readList
  let attributes ← Attribute.readList
  if ← Reader.hasMore then
    Reader.fault (.classFile (.trailing (← Reader.remaining)))
  return { version := { major, minor }, pool, flags := ⟨flags⟩, thisClass, superClass, interfaces,
           fields, methods := methods.toArray, attributes }

/-- Fails unless all names that a class is found by can be read. -/
def checkNames (c : ClassFile) : Except Error Unit := do
  discard c.name
  discard c.superName
  c.interfaces.forM fun index => discard (c.pool.className index)
  c.methods.toList.forM fun m => do
    discard (c.pool.text m.name)
    discard (c.pool.text m.descriptor)

/-- The class that a byte string stores. -/
def ofBytes (bytes : Bytes) : Except Error ClassFile := do
  let c ← read.parse bytes
  c.checkNames
  return c

/-- The stored form of a list of indices. -/
def encodeInterfaces (interfaces : List UInt16) : Except Error Bytes :=
  if interfaces.length ≤ 65535 then
    .ok (Word.encode (UInt16.ofNat interfaces.length) ++
      interfaces.flatMap (fun index => Word.encode index))
  else
    .error (.limitExceeded (.interfaces interfaces.length))

/-- The stored form of a class. -/
def toBytes (c : ClassFile) : Except Error Bytes := do
  let pool ← c.pool.encode
  let interfaces ← encodeInterfaces c.interfaces
  let fields ← Member.encodeList .fields c.fields
  let methods ← Member.encodeList .methods c.methods.toList
  let attributes ← Attribute.encodeList c.attributes
  return Word.encode magic ++ Word.encode c.version.minor ++ Word.encode c.version.major ++ pool ++
    Word.encode c.flags.bits ++ Word.encode c.thisClass ++ Word.encode c.superClass ++
    interfaces ++ fields ++ methods ++ attributes

end ClassPatch.ClassFile
