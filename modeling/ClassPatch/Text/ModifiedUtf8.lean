import ClassPatch.Error
import ClassPatch.Text.Utf16

/-!
# Modified UTF-8

Class files store text as UTF-16 code units, each written in one, two or three bytes by its size.
Zero takes two bytes, so the written form holds no zero byte, and a supplementary character is two
three-byte surrogates. Reading accepts every spelling of a unit, also one that is longer than it
has to be.
-/

namespace ClassPatch.Text.ModifiedUtf8

/-- A continuation byte with the low six bits of `bits`. -/
def continuation (bits : UInt16) : UInt8 := 0x80 ||| (bits.toUInt8 &&& 0x3F)

/-- The bytes of one code unit. -/
def encodeUnit (unit : UInt16) : Bytes :=
  if 0x0001 ≤ unit && unit ≤ 0x007F then
    [unit.toUInt8]
  else if unit ≤ 0x07FF then
    [(0xC0 : UInt8) ||| ((unit >>> 6).toUInt8 &&& 0x1F), continuation unit]
  else
    [(0xE0 : UInt8) ||| ((unit >>> 12).toUInt8 &&& 0x0F), continuation (unit >>> 6),
      continuation unit]

/-- The stored form of a string. -/
def encode (text : String) : Bytes := (Utf16.encode text).flatMap encodeUnit

def isContinuation (byte : UInt8) : Bool := byte &&& 0xC0 == 0x80

/-- The six bits that a continuation byte carries. -/
def payload (byte : UInt8) : UInt16 := (byte &&& 0x3F).toUInt16

/-- Appends the code units of some bytes to the reversed units `before`. -/
def unitsFrom (before : List UInt16) : Bytes → Except TextFault (List UInt16)
  | [] => .ok before.reverse
  | a :: rest =>
    if 0x01 ≤ a && a ≤ 0x7F then
      unitsFrom (a.toUInt16 :: before) rest
    else if 0xC0 ≤ a && a ≤ 0xDF then
      match rest with
      | b :: rest =>
        if isContinuation b then
          unitsFrom ((((a &&& 0x1F).toUInt16 <<< 6) ||| payload b) :: before) rest
        else .error .truncated
      | [] => .error .truncated
    else if 0xE0 ≤ a && a ≤ 0xEF then
      match rest with
      | b :: c :: rest =>
        if isContinuation b && isContinuation c then
          unitsFrom
            ((((a &&& 0x0F).toUInt16 <<< 12) ||| (payload b <<< 6) ||| payload c) :: before) rest
        else .error .truncated
      | _ => .error .truncated
    else .error (.leadByte a)

/-- The code units that some bytes spell. -/
def units (bytes : Bytes) : Except TextFault (List UInt16) := unitsFrom [] bytes

/-- A byte that is the whole spelling of its unit. -/
def isPlain (byte : UInt8) : Bool := 0x01 ≤ byte && byte < 0x80

/-- The string that some bytes spell. Plain bytes alone are taken as the characters of the
string. -/
def decode (bytes : Bytes) : Except Error String :=
  if bytes.all isPlain then
    .ok (String.ofList (bytes.map fun byte => Char.ofNat byte.toNat))
  else
    match units bytes with
    | .error fault => .error (.malformed (.text fault))
    | .ok units =>
      match Utf16.decode? units with
      | some text => .ok text
      | none => .error (.notSupported .unpairedSurrogate)

end ClassPatch.Text.ModifiedUtf8
