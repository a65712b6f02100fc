/-!
# UTF-16 code units

A character outside the basic plane is a pair of surrogates, any other character one unit. A
sequence of units is text exactly if its surrogates come in pairs, high before low.
-/

namespace ClassPatch.Text.Utf16

/-- The code units of a character. -/
def ofChar (c : Char) : List UInt16 :=
  if c.toNat < 0x10000 then
    [UInt16.ofNat c.toNat]
  else
    let offset := c.toNat - 0x10000
    [UInt16.ofNat (0xD800 + offset / 0x400), UInt16.ofNat (0xDC00 + offset % 0x400)]

/-- The code units of a string. -/
def encode (text : String) : List UInt16 := text.toList.flatMap ofChar

def isHigh (unit : UInt16) : Bool := 0xD800 ≤ unit && unit < 0xDC00

def isLow (unit : UInt16) : Bool := 0xDC00 ≤ unit && unit < 0xE000

/-- The character of a pair of surrogates. -/
def pair (high low : UInt16) : Char :=
  Char.ofNat (0x10000 + (high.toNat - 0xD800) * 0x400 + (low.toNat - 0xDC00))

/-- Appends the characters of `units` to the reversed text `before`. -/
def decodeFrom (before : List Char) : List UInt16 → Option (List Char)
  | [] => some before.reverse
  | unit :: rest =>
    if isHigh unit then
      match rest with
      | low :: rest => if isLow low then decodeFrom (pair unit low :: before) rest else none
      | [] => none
    else if isLow unit then none
    else decodeFrom (Char.ofNat unit.toNat :: before) rest

/-- The text of a sequence of units, unless a surrogate stands alone. -/
def decode? (units : List UInt16) : Option String :=
  (decodeFrom [] units).map String.ofList

end ClassPatch.Text.Utf16
