import ClassPatch.Bytes.Cursor

/-!
# Attributes

Classes, their members and code carry attributes: named byte strings whose meaning depends on the
name. An attribute is kept as it is stored, so one that nobody understands survives unchanged.
-/

namespace ClassPatch

/-- An attribute as stored: the index of its name and its payload. -/
structure Attribute where
  name : UInt16
  payload : Bytes
  deriving DecidableEq

namespace Attribute

def read : Reader Attribute := do
  let name ← Reader.u16
  return { name, payload := ← Reader.sized32 }

/-- A counted list of attributes, each of which has a header of six bytes. -/
def readList : Reader (List Attribute) := do
  let count ← Reader.u16
  Reader.ensure (count.toNat * 6)
  Reader.times count.toNat read

/-- The stored form of an attribute. -/
def encode (a : Attribute) : Except Error Bytes :=
  if a.payload.length < UInt32.size then
    .ok (Word.encode a.name ++ Word.encode (UInt32.ofNat a.payload.length) ++ a.payload)
  else
    .error (.limitExceeded (.attributeLength a.payload.length))

/-- The stored form of a list of attributes. -/
def encodeList (attributes : List Attribute) : Except Error Bytes := do
  if attributes.length ≤ 65535 then
    let encoded ← attributes.mapM encode
    return Word.encode (UInt16.ofNat attributes.length) ++ encoded.flatten
  else
    throw (.limitExceeded (.attributes attributes.length))

end Attribute
end ClassPatch
