import ClassPatch.ClassFile.AccessFlags
import ClassPatch.ClassFile.Attribute
import ClassPatch.ConstantPool.Basic

/-!
# Fields and methods

Both kinds of member are stored alike: flags, a name and a descriptor by index, and attributes.
The code of a method is the payload of its first attribute of that name.
-/

namespace ClassPatch

/-- A field or method as stored. -/
structure Member where
  flags : AccessFlags
  name : UInt16
  descriptor : UInt16
  attributes : List Attribute
  deriving DecidableEq

namespace Member

def read : Reader Member := do
  let flags ← Reader.u16
  let name ← Reader.u16
  let descriptor ← Reader.u16
  return { flags := ⟨flags⟩, name, descriptor, attributes := ← Attribute.readList }

/-- A counted list of members. -/
def readList : Reader (List Member) := do
  let count ← Reader.u16
  Reader.times count.toNat read

def encode (m : Member) : Except Error Bytes := do
  let attributes ← Attribute.encodeList m.attributes
  return Word.encode m.flags.bits ++ Word.encode m.name ++ Word.encode m.descriptor ++ attributes

/-- The stored form of a list of members; too many are an error of the given kind. -/
def encodeList (limit : Nat → Limit) (members : List Member) : Except Error Bytes := do
  if members.length ≤ 65535 then
    let encoded ← members.mapM encode
    return Word.encode (UInt16.ofNat members.length) ++ encoded.flatten
  else
    throw (.limitExceeded (limit members.length))

def isStatic (m : Member) : Bool := m.flags.contains AccessFlags.static

/-- The attribute name of code. -/
def codeName : String := "Code"

/-- The position of the first attribute that holds code. Every name before it must be text. -/
def findCode (pool : ConstantPool) : List Attribute → Nat → Except Error (Option Nat)
  | [], _ => return none
  | a :: rest, position => do
    if (← pool.text a.name) = codeName then
      return some position
    else
      findCode pool rest (position + 1)

/-- The position of the code among the attributes, if the method has some. -/
def codePosition (m : Member) (pool : ConstantPool) : Except Error (Option Nat) :=
  findCode pool m.attributes 0

/-- The member with another payload at one position of its attributes. -/
def setPayload (m : Member) (position : Nat) (payload : Bytes) : Member :=
  { m with attributes := m.attributes.modify position fun a => { a with payload } }

/-- The member with one more attribute. -/
def addAttribute (m : Member) (a : Attribute) : Member :=
  { m with attributes := m.attributes ++ [a] }

end Member
end ClassPatch
