import ClassPatch.Text.Printable

/-!
# Values inside messages

Messages show bytes and counts in decimal, opcodes and magic numbers in upper-case hexadecimal
of a least width, and names in double quotes. A quoted name keeps printable characters and
escapes the quote, the backslash and all others, so it ends where the quote says.
-/

namespace ClassPatch.Text

/-- `n` in upper-case hexadecimal with at least `width` digits. -/
def hex (width n : Nat) : String :=
  let digits := (Nat.toDigits 16 n).map Char.toUpper
  String.ofList (List.replicate (width - digits.length) '0' ++ digits)

/-- One character of a quoted name; what is not printable stands there as its number. -/
def escape (c : Char) : List Char :=
  if c = '"' || c = '\\' then ['\\', c]
  else if c = '\x00' then ['\\', '0']
  else if c = '\t' then ['\\', 't']
  else if c = '\n' then ['\\', 'n']
  else if c = '\r' then ['\\', 'r']
  else if isPrintable c then [c]
  else ['\\', 'u', '\x7b'] ++ Nat.toDigits 16 c.toNat ++ ['\x7d']

/-- A name between double quotes. -/
def quote (name : String) : String :=
  String.ofList ('"' :: name.toList.flatMap escape ++ ['"'])

/-- A list between square brackets. -/
def bracket (items : List String) : String :=
  "[" ++ String.intercalate ", " items ++ "]"

end ClassPatch.Text
